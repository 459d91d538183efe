import StagedScript.Proofs.Machine.Lines
import StagedScript.Proofs.Staging.Rule

/-!
# Inline expressions mean what programs mean

An inline expression is run while compiling, and its value becomes a constant.  Running it gives
what running the expression as a program gives, and an error of the program is an error of the
compilation.
-/

namespace StagedScript

namespace Task

variable {settings : Settings} {t : Task} {r r' : Except SourceError Func} {heap heap' : Heap}

/-- A compilation ends with a report, and leaves a heap behind.  Calls are run on the machine. -/
def Ends (settings : Settings) (t : Task) (r : Except SourceError Func) (heap : Heap) : Prop :=
  ∃ rounds, (run settings .machine rounds t).active = false ∧
    (run settings .machine rounds t).reports = [r] ∧
    (run settings .machine rounds t).state.heap = heap

theorem run_eq_self (ev : Evaluator) (n : Nat) (h : t.active = false) : run settings ev n t = t := by
  cases n with
  | zero => rfl
  | succ n => rw [run, if_neg (by simp [h])]

theorem run_succ (ev : Evaluator) (n : Nat) (h : t.active = true) :
    run settings ev (n + 1) t = run settings ev n (evaluate ev (advance settings t)) := by
  rw [run, if_pos h]

theorem run_add (ev : Evaluator) (m n : Nat) :
    run settings ev (m + n) t = run settings ev n (run settings ev m t) := by
  induction m generalizing t with
  | zero => rw [Nat.zero_add, run]
  | succ m ih =>
    cases h : t.active with
    | false => rw [run_eq_self ev _ h, run_eq_self ev _ h, run_eq_self ev _ h]
    | true => rw [Nat.succ_add, run_succ ev _ h, run_succ ev _ h, ih]

theorem ends_run (m : Nat) : Ends settings (run settings .machine m t) r heap ↔
    Ends settings t r heap := by
  constructor
  · rintro ⟨n, h⟩
    exact ⟨m + n, by rwa [run_add]⟩
  · rintro ⟨n, hactive, h⟩
    refine ⟨n, ?_⟩
    rw [← run_add, Nat.add_comm, run_add, run_eq_self _ _ hactive]
    exact ⟨hactive, h⟩

theorem ends_round (h : t.active = true) :
    Ends settings (evaluate .machine (advance settings t)) r heap ↔ Ends settings t r heap := by
  rw [← ends_run 1 (t := t), run_succ _ _ h, run]

theorem ends_of_inactive (h : t.active = false) :
    Ends settings t r heap ↔ t.reports = [r] ∧ t.state.heap = heap := by
  constructor
  · rintro ⟨n, -, hreports, hheap⟩
    rw [run_eq_self _ _ h] at hreports hheap
    exact ⟨hreports, hheap⟩
  · rintro ⟨hreports, hheap⟩
    exact ⟨0, h, hreports, hheap⟩

theorem Ends.unique (h : Ends settings t r heap) (h' : Ends settings t r' heap') :
    r = r' ∧ heap = heap' := by
  obtain ⟨n, hactive, hreports, rfl⟩ := h
  rw [← ends_run n, ends_of_inactive hactive, hreports] at h'
  exact ⟨List.cons.inj h'.1 |>.1, h'.2⟩

end Task

/-- Compiling an expression ends with a report, and leaves a heap behind. -/
def Reports (globals : Globals) (blockSize : Int) (heap : Heap) (e : Expr)
    (r : Except SourceError Func) (heap' : Heap) : Prop :=
  let root := Task.rootOf e
  let settings : Settings := ⟨globals, blockSize, root.span?.getD ⟨[], 0, 0⟩⟩
  (Task.start settings heap .never root).Ends settings r heap'

/-- Compiling an expression gives a function, and running it as a program ends with an outcome. -/
def EndsWith (globals : Globals) (blockSize : Int) (heap : Heap) (e : Expr) (outcome : Outcome)
    (heap' : Heap) : Prop :=
  ∃ fn compiled, Reports globals blockSize heap e (.ok fn) compiled ∧
    Machine.call compiled .never (.func fn) [] = ⟨outcome, heap', .never⟩

/-! ### Rounds in step -/

theorem Machine.run_succ_never (fuel : Nat) (f : Frame) (rest : List Frame) (heap : Heap)
    (steps : Nat) :
    Machine.run (fuel + 1) ⟨f :: rest, heap, steps, .never⟩ =
      match afterStep (f.step heap) rest with
      | (.error outcome, heap) => ⟨outcome, heap, .never⟩
      | (.ok frames, heap) => Machine.run fuel ⟨frames, heap, steps + 1, .never⟩ := by
  have hasked : (if (steps + 1) % checkInterval = 0 then Cancellation.never.ask
      else (false, .never)) = (false, .never) := by
    split <;> rfl
  rw [Machine.run, hasked]
  rfl

theorem Machine.run_never (fuel : Nat) (frames : List Frame) (heap : Heap) (steps : Nat) :
    (Machine.run fuel ⟨frames, heap, steps, .never⟩).cancellation = .never := by
  induction fuel generalizing frames heap steps with
  | zero => rfl
  | succ fuel ih =>
    cases frames with
    | nil => rfl
    | cons f rest =>
      rw [Machine.run_succ_never]
      split
      · rfl
      · exact ih _ _ _

theorem Machine.call_never (heap : Heap) (fn : Value) (args : List Value) :
    (Machine.call heap .never fn args).cancellation = .never := by
  unfold Machine.call Machine.callWithin
  split
  · rfl
  · exact Machine.run_never _ _ _ _

namespace Staging

open StagedScript.Task Compiling

variable (g : Staging)

/-- The two compilations go in step, or both have failed. -/
inductive Tasks : Task → Task → Prop where
  | compile (e : Expr) {s s' : CompileState} (h : g.InStep s s') :
      Tasks ⟨.compile e, true, s, .never, []⟩ ⟨.compile e, true, s', .never, []⟩
  | give (v : Value) {s s' : CompileState} (h : g.InStep s s') :
      Tasks ⟨.give v, true, s, .never, []⟩ ⟨.give v, true, s', .never, []⟩
  | fail (e e' : SourceError) (s s' : CompileState) :
      Tasks ⟨.fail e, true, s, .never, []⟩ ⟨.fail e', true, s', .never, []⟩
  | ended {t t' : Task} (h : t.active = false) (h' : t'.active = false)
      (hreports : ∀ fn, t.reports ≠ [.ok fn]) (hreports' : ∀ fn, t'.reports ≠ [.ok fn]) :
      Tasks t t'

/-- The function of the program is complete. -/
inductive Finishing : Task → Task → Prop where
  | mk (v : Value) {fn : FunctionState} {bindings : Array Binding} {heap : Heap}
      (hwaiting : fn.waiting = [.finish g.root true]) (hupvalues : fn.upvalues = [])
      (hcaptured : fn.captured = []) :
      Finishing ⟨.give v, true, ⟨[fn], bindings, heap⟩, .never, []⟩
        ⟨.give v, true, ⟨[g.asConstant fn [], g.around], bindings, heap⟩, .never, []⟩

variable {g} {t t' : Task}

theorem Tasks.after {r r' : EStateM.Result Trouble CompileState Next}
    (h : g.Agree Next.Continues r r') :
    g.Tasks (evaluate .machine (afterAction .never [] r))
      (evaluate .machine (afterAction .never [] r')) := by
  cases h with
  | error => exact .fail ..
  | stuck => exact .ended rfl rfl nofun nofun
  | @ok next s s' hnext h =>
    cases next with
    | compile e => exact .compile e h
    | give v => exact .give v h
    | done fn => exact hnext.elim
    | wait call =>
      obtain ⟨fns, rfl, hfns⟩ := h.exists_functions
      simp only [afterAction, evaluate, Evaluator.machine, List.foldl_cons, List.foldl_nil,
        Machine.call_never]
      generalize Machine.call s.heap .never call.fn call.args = result
      obtain ⟨outcome, heap, cancellation⟩ := result
      cases outcome with
      | value v => exact .give v ⟨hfns, rfl, rfl⟩
      | raised | cancelled => exact .fail ..
      | stuck | unfinished => exact .ended rfl rfl nofun nofun

theorem Tasks.round (h : g.Tasks t t') :
    g.Finishing t t' ∨ g.Tasks (run g.plain .machine 1 t) (run g.inlined .machine 1 t') := by
  cases h with
  | compile e h => exact .inr (.after (g.closed.dispatch_holds _ _ h))
  | @give v s s' h =>
    by_cases hbody : ∃ fn, s.functions = [fn] ∧ fn.waiting = [.finish g.root true]
    · left
      obtain ⟨fns, rfl, hfns⟩ := h.exists_functions
      obtain ⟨fns', bindings, heap⟩ := s
      obtain ⟨fn, hfn, hwaiting⟩ := hbody
      dsimp only at hfns hfn
      subst hfn
      cases hfns with
      | @body _ frames hframes hwaiting' hupvalues hcaptured =>
        obtain rfl : frames = [] := by simpa [hwaiting] using hwaiting'
        exact .mk v hwaiting hupvalues hcaptured
      | inner _ hrest => nomatch hrest
    · exact .inr (.after (resume_agree h v fun fn hfn hwaiting => hbody ⟨fn, hfn, hwaiting⟩))
  | fail e e' s s' => exact .inr (.ended rfl rfl nofun nofun)
  | ended h h' hreports hreports' =>
    rw [run_eq_self _ _ h, run_eq_self _ _ h']
    exact .inr (.ended h h' hreports hreports')

/-- The two compilations go in step until the program is finished. -/
theorem Tasks.run (n : Nat) (h : g.Tasks t t') :
    (∃ m, g.Finishing (run g.plain .machine m t) (Task.run g.inlined .machine m t')) ∨
      g.Tasks (Task.run g.plain .machine n t) (Task.run g.inlined .machine n t') := by
  induction n generalizing t t' with
  | zero => exact .inr h
  | succ n ih =>
    obtain hfinishing | h := h.round
    · exact .inl ⟨0, hfinishing⟩
    · obtain ⟨m, hm⟩ | h := ih h
      · exact .inl ⟨1 + m, by rwa [run_add, run_add]⟩
      · rw [Nat.add_comm, run_add, run_add]
        exact .inr h

theorem Tasks.not_ok (h : g.Tasks t t') (fn : Func) :
    t.reports ≠ [.ok fn] ∧ t'.reports ≠ [.ok fn] := by
  cases h with
  | ended h h' hreports hreports' => exact ⟨hreports fn, hreports' fn⟩
  | _ => exact ⟨nofun, nofun⟩

/-- If one of the two compilations gives a function, the program is finished at some point. -/
theorem Tasks.finishing (h : g.Tasks t t') {fn : Func} {heap : Heap}
    (hends : Ends g.plain t (.ok fn) heap ∨ Ends g.inlined t' (.ok fn) heap) :
    ∃ m, g.Finishing (Task.run g.plain .machine m t) (Task.run g.inlined .machine m t') := by
  obtain ⟨n, -, hreports, -⟩ | ⟨n, -, hreports, -⟩ := hends
  all_goals
    obtain hfinishing | h := h.run n
    · exact hfinishing
  · exact absurd hreports (h.not_ok fn).1
  · exact absurd hreports (h.not_ok fn).2

/-! ### The end of the program -/

def emitted (fn : FunctionState) (i : Inst) : FunctionState :=
  track { fn with builder := fn.builder.emit i } i

def ended (fn : FunctionState) (span : Span) : FunctionState :=
  emitted fn (.plain span.last .ret)

def funcOf (fn : FunctionState) (span : Span) (code : Code) : Func :=
  { source := span.source
    startLine := span.first
    endLine := span.last
    entry := 0
    frameSize := max fn.size fn.params.length
    numParams := fn.params.length
    flags := fn.flags
    params := fn.params
    decls := fn.decls
    upvalues := fn.upvalues
    code := some code }

def finished (fn : FunctionState) (span : Span) : Except Trouble Func :=
  if (ended fn span).isTooLarge then .error .stuck
  else match (ended fn span).builder.finish with
    | .error u => .error (.error (.plain .internal ⟨[], 0⟩ u.message))
    | .ok code => .ok (funcOf (ended fn span) span code)

/-- The program and the inline expression are finished to functions that differ in lines only. -/
theorem finished_withoutLines (fn : FunctionState) (span span' : Span) (isConstant : Bool)
    (waiting waiting' : List Waiting) :
    (finished { fn with waiting, isConstant } span).map Func.withoutLines =
      (finished { fn with waiting := waiting' } span').map Func.withoutLines := by
  have hlarge : (ended { fn with waiting, isConstant } span).isTooLarge =
      (ended { fn with waiting := waiting' } span').isTooLarge := by
    simp [FunctionState.isTooLarge, ended, emitted, track, Builder.emit, Inst.effect, Inst.plain]
  have hbuilder : (ended { fn with waiting, isConstant } span).builder.withoutLines =
      (ended { fn with waiting := waiting' } span').builder.withoutLines := by
    simp [ended, emitted, track, Builder.withoutLines, Builder.emit, Inst.withoutLine, Inst.plain]
  have hfinish := congrArg Builder.finish hbuilder
  rw [Builder.finish_withoutLines, Builder.finish_withoutLines] at hfinish
  unfold finished
  rw [hlarge]
  split
  · rfl
  · generalize (ended { fn with waiting, isConstant } span).builder.finish = left at hfinish
    generalize (ended { fn with waiting := waiting' } span').builder.finish = right at hfinish
    cases left with
    | error u =>
      cases right with
      | error u' =>
        obtain rfl : u = u' := by simpa [Except.map] using hfinish
        rfl
      | ok code => cases hfinish
    | ok code =>
      cases right with
      | error u => cases hfinish
      | ok code' =>
        have hcode : code.withoutLines = code'.withoutLines := by simpa [Except.map] using hfinish
        simp [Except.map, funcOf, Func.withoutLines, hcode, ended, emitted, track, Inst.effect,
          Inst.plain]

/-- Either both cannot be finished, or both can. -/
theorem finished_cases (fn : FunctionState) (span span' : Span) :
    (∃ t t', finished { fn with waiting := [] } span = .error t ∧
        finished { fn with waiting := [], isConstant := true } span' = .error t') ∨
      ∃ f f', finished { fn with waiting := [] } span = .ok f ∧
        finished { fn with waiting := [], isConstant := true } span' = .ok f' ∧
        f'.withoutLines = f.withoutLines := by
  have hlines := finished_withoutLines fn span' span true [] []
  generalize finished { fn with waiting := [] } span = left at hlines
  generalize finished { fn with waiting := [], isConstant := true } span' = right at hlines
  cases left with
  | error t =>
    cases right with
    | error t' => exact .inl ⟨t, t', rfl, rfl⟩
    | ok f' => cases hlines
  | ok f =>
    cases right with
    | error t' => cases hlines
    | ok f' => exact .inr ⟨f, f', rfl, rfl, Except.ok.inj hlines⟩

theorem emit_bind {α : Type} {k : Unit → Compiling α} {c : Settings} (i : Inst) (fn : FunctionState)
    (rest : List FunctionState) (bindings : Array Binding) (heap : Heap) :
    (emit i >>= k) c ⟨fn :: rest, bindings, heap⟩ =
      if (emitted fn i).isTooLarge then .error .stuck ⟨emitted fn i :: rest, bindings, heap⟩
      else k () c ⟨emitted fn i :: rest, bindings, heap⟩ := by
  have hemit : emit i c ⟨fn :: rest, bindings, heap⟩ =
      (current >>= fun fn => if fn.isTooLarge then (throw .stuck : Compiling Unit) else pure ()) c
        ⟨emitted fn i :: rest, bindings, heap⟩ := rfl
  change EStateM.bind (emit i c) (fun a => k a c) _ = _
  unfold EStateM.bind
  rw [hemit, current_bind rfl]
  generalize emitted fn i = fn'
  cases fn'.isTooLarge <;> rfl

theorem finishFunction_root (c : Settings) (fn : FunctionState) (bindings : Array Binding)
    (heap : Heap) (span : Span) :
    finishFunction span true c ⟨[fn], bindings, heap⟩ =
      match finished fn span with
      | .error t => .error t ⟨[ended fn span], bindings, heap⟩
      | .ok f => .ok (.done f) ⟨[ended fn span], bindings, heap⟩ := by
  unfold finishFunction op finished
  rw [emit_bind, ← ended]
  split
  · rfl
  · rw [current_bind rfl]
    cases (ended fn span).builder.finish <;> rfl

theorem finishFunction_constant (c : Settings) (fn : FunctionState) (rest : List FunctionState)
    (bindings : Array Binding) (heap : Heap) (span : Span) (hupvalues : fn.upvalues = []) :
    finishFunction span false c ⟨fn :: rest, bindings, heap⟩ =
      match finished fn span with
      | .error t => .error t ⟨ended fn span :: rest, bindings, heap⟩
      | .ok f => .ok (.give (.func f)) ⟨rest, bindings, heap⟩ := by
  unfold finishFunction op finished
  rw [emit_bind, ← ended]
  split
  · rfl
  · rw [current_bind rfl]
    cases (ended fn span).builder.finish with
    | error u => rfl
    | ok code =>
      have hprepare : prepareCaptures span.first (ended fn span).upvalues (ended fn span).captured =
          pure () := by
        change prepareCaptures span.first fn.upvalues fn.captured = _
        rw [hupvalues, prepareCaptures]
        nofun
      change (prepareCaptures span.first (ended fn span).upvalues (ended fn span).captured >>=
        fun _ => _) c _ = _
      rw [hprepare]
      rfl

theorem resume_eq {fn : FunctionState} {w : Waiting} {frames : List Waiting}
    (hwaiting : fn.waiting = w :: frames) (v : Value) (c : Settings) (rest : List FunctionState)
    (bindings : Array Binding) (heap : Heap) :
    resume v c ⟨fn :: rest, bindings, heap⟩ =
      resumeWith w v c ⟨{ fn with waiting := frames } :: rest, bindings, heap⟩ := by
  unfold resume
  rw [current_bind rfl, hwaiting]
  rfl

def constantInst (line : Nat) (v : Value) : Inst :=
  match v with
  | .nil => .plain line .nil
  | v => { Inst.plain line .const with value := v }

theorem constant_eq (line : Nat) (v : Value) : constant line v = emit (constantInst line v) := by
  cases v <;> rfl

theorem constantInst_effect (line : Nat) (v : Value) : (constantInst line v).effect = (0, 1) := by
  cases v <;> rfl

/-- The function around the inline expression while the call of the constant is awaited. -/
def awaiting (g : Staging) : FunctionState :=
  { g.around with waiting := [.constantValue g.span .inline, .finish g.span true] }

def answered (g : Staging) (v : Value) : FunctionState :=
  { g.around with
    builder := (Builder.empty g.blockSize).emit (constantInst g.span.first v)
    top := 1
    size := 1
    waiting := [.finish g.span true] }

def valueFunc (g : Staging) (v : Value) : Func :=
  { source := g.span.source
    startLine := g.span.first
    endLine := g.span.last
    entry := 0
    frameSize := 1
    numParams := 0
    flags := 0
    params := []
    decls := []
    upvalues := []
    code := some (Builder.codeOf (Builder.empty g.blockSize).blockSize
      [constantInst g.span.first v, .plain g.span.last .ret]) }

theorem isTooLarge_answered (g : Staging) (v : Value) : (g.answered v).isTooLarge = false := by
  simp [FunctionState.isTooLarge, answered, Builder.emit, Builder.empty, Frame.roomLimit]

theorem resume_awaiting (g : Staging) (v : Value) (bindings : Array Binding) (heap : Heap) :
    resume v g.inlined ⟨[g.awaiting], bindings, heap⟩ =
      .ok (.give v) ⟨[g.answered v], bindings, heap⟩ := by
  have hanswered : emitted { g.awaiting with waiting := [.finish g.span true] }
      (constantInst g.span.first v) = g.answered v := by
    simp only [emitted, track, constantInst_effect, awaiting, answered, around]
    rfl
  rw [resume_eq rfl]
  change (constant g.span.first v >>= fun _ => (pure (Next.give v) : Compiling Next)) g.inlined _ = _
  rw [constant_eq, emit_bind, hanswered, isTooLarge_answered]
  rfl

theorem finished_answered (g : Staging) (v : Value) :
    finished (g.answered v) g.span = .ok (g.valueFunc v) := by
  have hlarge : (ended (g.answered v) g.span).isTooLarge = false := by
    have hsize : (ended (g.answered v) g.span).size = max 1 0 := rfl
    have hinsts : (ended (g.answered v) g.span).builder.insts.size = 2 := rfl
    rw [FunctionState.isTooLarge, hsize, hinsts]
    decide
  have hfinish : (ended (g.answered v) g.span).builder.finish =
      .ok (Builder.codeOf (Builder.empty g.blockSize).blockSize
        [constantInst g.span.first v, .plain g.span.last .ret]) := rfl
  rw [finished, hlarge, hfinish]
  rfl

/-- The value of the call becomes the constant that the function gives. -/
theorem ends_value (g : Staging) (v : Value) (bindings : Array Binding) (heap : Heap) :
    Ends g.inlined ⟨.give v, true, ⟨[g.awaiting], bindings, heap⟩, .never, []⟩
      (.ok (g.valueFunc v)) heap := by
  rw [← ends_round rfl, advance, resume_awaiting]
  change Ends g.inlined ⟨.give v, true, ⟨[g.answered v], bindings, heap⟩, .never, []⟩ _ _
  rw [← ends_round rfl, advance, resume_eq rfl]
  have hfinished : finished { g.answered v with waiting := [] } g.span = .ok (g.valueFunc v) :=
    finished_answered g v
  rw [resumeWith, finishFunction_root, hfinished]
  change Ends g.inlined ⟨.finish (g.valueFunc v), true, ⟨_, bindings, heap⟩, .never, []⟩ _ _
  rw [← ends_round rfl, advance]
  exact (ends_of_inactive rfl).2 ⟨rfl, rfl⟩

theorem two_le_blockSize (n : Int) : 2 ≤ (Builder.empty n).blockSize - 1 := by
  have hmin : ((Builder.minBlockSize : Nat) : Int) = 4 := rfl
  unfold Builder.empty
  dsimp only
  split
  · decide
  · omega

theorem at?_valueFunc (g : Staging) (v : Value) :
    ∃ code, (g.valueFunc v).code = some code ∧ code.at? 0 = some (constantInst g.span.first v) ∧
      code.at? 1 = some (.plain g.span.last .ret) := by
  refine ⟨_, rfl, ?_⟩
  have hsize := two_le_blockSize g.blockSize
  generalize (Builder.empty g.blockSize).blockSize = size at hsize
  have hpos : size ≠ 0 := by omega
  have hdiv : 1 / size = 0 := Nat.div_eq_of_lt (by omega)
  have hmod : 1 % size = 1 := Nat.mod_eq_of_lt (by omega)
  rw [Builder.codeOf, Builder.layout_of_le (by simpa using hsize)]
  constructor
  · simp [Code.at?, hpos]
  · simp [Code.at?, hpos, hdiv, hmod]

def valueFrame (g : Staging) (v : Value) (stack : Stack) (ip : Int) : Frame :=
  ⟨g.valueFunc v, none, stack, ip, noTarget, 0⟩

theorem step_valueFrame_zero (g : Staging) (v : Value) (stack : Stack) (heap : Heap) :
    (g.valueFrame v stack 0).step heap = some (.next (g.valueFrame v (stack.push v) 1) heap) := by
  obtain ⟨code, hcode, hfirst, -⟩ := at?_valueFunc g v
  simp only [Frame.step, valueFrame, hcode, hfirst]
  cases v <;> rfl

theorem step_valueFrame_one (g : Staging) (v : Value) (heap : Heap) :
    (g.valueFrame v ⟨#[v], 1, 2⟩ 1).step heap = some (.return v heap) := by
  obtain ⟨code, hcode, -, hlast⟩ := at?_valueFunc g v
  simp only [Frame.step, valueFrame, hcode, hlast]
  rfl

/-- The function that gives a constant is run in two steps. -/
theorem call_valueFunc (g : Staging) (v : Value) (heap : Heap) :
    Machine.call heap .never (.func (g.valueFunc v)) [] = ⟨.value v, heap, .never⟩ := by
  have hroom : wrapInt 2 = 2 := by decide
  have hstart : Frame.start? (g.valueFunc v) none [] = some (g.valueFrame v ⟨#[], 0, 2⟩ 0) := by
    simp [Frame.start?, Frame.bindParameters, hroom, Frame.roomLimit, valueFunc, valueFrame]
  have hlimit : Machine.stepLimit = Machine.stepLimit - 2 + 1 + 1 := rfl
  unfold Machine.call
  rw [Machine.callWithin_func rfl, List.map_nil, hstart, hlimit]
  dsimp only
  rw [Machine.run_succ_never, step_valueFrame_zero]
  change Machine.run _ ⟨[g.valueFrame v ⟨#[v], 1, 2⟩ 1], heap, 1, .never⟩ = _
  rw [Machine.run_succ_never, step_valueFrame_one]
  rfl

theorem upvalues_of_finished {fn : FunctionState} {span : Span} {f : Func}
    (h : finished fn span = .ok f) : f.upvalues = fn.upvalues := by
  unfold finished at h
  split at h
  · cases h
  · split at h <;> cases h
    rfl

theorem not_ends_of_error {settings : Settings} {t : Trouble} {s : CompileState} {f : Func}
    {heap : Heap} :
    ¬ Ends settings (evaluate .machine (afterAction .never [] (.error t s))) (.ok f) heap := by
  cases t with
  | error e =>
    change ¬ Ends settings ⟨.fail e, true, s, .never, []⟩ _ _
    rw [← ends_round rfl, ends_of_inactive rfl]
    exact fun h => nomatch h.1
  | stuck =>
    rw [ends_of_inactive rfl]
    exact fun h => nomatch h.1

theorem traced_keeps (functions : List FunctionState) (e : SourceError) :
    (traced functions e).category = e.category ∧ (traced functions e).cause = e.cause := by
  have hadd (e' : SourceError) (p : Position) (h : e'.category = e.category ∧ e'.cause = e.cause) :
      (e'.addTrace p).category = e.category ∧ (e'.addTrace p).cause = e.cause := by
    unfold SourceError.addTrace
    split <;> exact h
  refine List.foldlRecOn (motive := fun e' : SourceError =>
    e'.category = e.category ∧ e'.cause = e.cause) functions _ ⟨rfl, rfl⟩ fun e' he' fn _ => ?_
  exact List.foldlRecOn (motive := fun e' : SourceError =>
    e'.category = e.category ∧ e'.cause = e.cause) fn.waiting _ he' fun e'' he'' w _ =>
    hadd e'' _ he''

/-- The task of the inline expression that waits for the call of its function. -/
def calling (g : Staging) (f : Func) (bindings : Array Binding) (heap : Heap) : Task :=
  ⟨.wait ⟨g.span, .compiler, .func f, []⟩, true, ⟨[g.awaiting], bindings, heap⟩, .never, []⟩

/-- A complete program reports its function, and the one of the inline expression is called. -/
theorem Finishing.ends (h : g.Finishing t t') :
    (∀ f heap, ¬ Ends g.plain t (.ok f) heap ∧ ¬ Ends g.inlined t' (.ok f) heap) ∨
      ∃ f f' bindings heap, f.upvalues = [] ∧ f'.upvalues = [] ∧
        f'.withoutLines = f.withoutLines ∧ Ends g.plain t (.ok f) heap ∧
        ∀ r heap', Ends g.inlined t' r heap' ↔
          Ends g.inlined (evaluate .machine (g.calling f' bindings heap)) r heap' := by
  obtain ⟨v, hwaiting, hupvalues, -⟩ := h
  rename_i fn bindings heap
  have hconstant := finishFunction_constant g.inlined { fn with waiting := [], isConstant := true }
    [g.around] bindings heap g.span hupvalues
  have hprogram : ∀ r heap', Ends g.plain ⟨.give v, true, ⟨[fn], bindings, heap⟩, .never, []⟩ r heap' ↔
      Ends g.plain (evaluate .machine (afterAction .never [] (finishFunction g.root true g.plain
        ⟨[{ fn with waiting := [] }], bindings, heap⟩))) r heap' := fun r heap' => by
    rw [← ends_round rfl, advance, resume_eq hwaiting, resumeWith]
  have hinline : ∀ r heap', Ends g.inlined
      ⟨.give v, true, ⟨[g.asConstant fn [], g.around], bindings, heap⟩, .never, []⟩ r heap' ↔
      Ends g.inlined (evaluate .machine (afterAction .never [] (finishFunction g.span false g.inlined
        ⟨[{ fn with waiting := [], isConstant := true }, g.around], bindings, heap⟩))) r heap' :=
    fun r heap' => by
      rw [← ends_round rfl, advance, resume_eq rfl, resumeWith]
      rfl
  rw [finishFunction_root] at hprogram
  rw [hconstant] at hinline
  obtain ⟨e, e', he, he'⟩ | ⟨f, f', hf, hf', hlines⟩ := finished_cases fn g.root g.span
  · rw [he] at hprogram
    rw [he'] at hinline
    refine .inl fun f heap' => ⟨?_, ?_⟩
    · rw [hprogram]
      exact not_ends_of_error
    · rw [hinline]
      exact not_ends_of_error
  · rw [hf] at hprogram
    rw [hf'] at hinline
    refine .inr ⟨f, f', bindings, heap, (upvalues_of_finished hf).trans hupvalues,
      (upvalues_of_finished hf').trans hupvalues, hlines, ?_, fun r heap' => ?_⟩
    · rw [hprogram]
      change Ends g.plain ⟨.finish f, true, ⟨_, bindings, heap⟩, .never, []⟩ _ _
      rw [← ends_round rfl, advance]
      exact (ends_of_inactive rfl).2 ⟨rfl, rfl⟩
    · rw [hinline]
      change Ends g.inlined ⟨.give (.func f'), true, ⟨[g.around], bindings, heap⟩, .never, []⟩ _ _ ↔ _
      rw [← ends_round rfl]
      rfl

/-- The compilation of the inline expression goes on as the call says. -/
theorem ends_calling (g : Staging) (f : Func) (bindings : Array Binding) (heap : Heap)
    {outcome : Outcome} {heap' : Heap}
    (hcall : Machine.call heap .never (.func f) [] = ⟨outcome, heap', .never⟩) :
    match outcome with
    | .value v => Ends g.inlined (evaluate .machine (g.calling f bindings heap))
      (.ok (g.valueFunc v)) heap'
    | .raised e => ∃ error : SourceError,
      Ends g.inlined (evaluate .machine (g.calling f bindings heap)) (.error error) heap' ∧
        error.category = .compiler ∧ error.cause = some (.raised e.type e.message)
    | _ => ∀ f' heap'',
      ¬ Ends g.inlined (evaluate .machine (g.calling f bindings heap)) (.ok f') heap'' := by
  have hevaluate : evaluate .machine (g.calling f bindings heap) =
      deliver ⟨.wait ⟨g.span, .compiler, .func f, []⟩, true, ⟨[g.awaiting], bindings, heap'⟩, .never,
        []⟩ (Evaluator.answerOf outcome) := by
    simp only [evaluate, calling, Evaluator.machine, hcall, List.foldl_cons, List.foldl_nil]
  rw [hevaluate]
  have hfail (e : SourceError) : Ends g.inlined
      ⟨.fail e, true, ⟨[g.awaiting], bindings, heap'⟩, .never, []⟩
      (.error (traced [g.awaiting] e)) heap' := by
    rw [← ends_round rfl, ends_of_inactive rfl]
    exact ⟨rfl, rfl⟩
  cases outcome with
  | value v => exact ends_value g v bindings heap'
  | raised e =>
    obtain ⟨hcategory, hcause⟩ := traced_keeps [g.awaiting]
      (EvalCall.failure ⟨g.span, .compiler, .func f, []⟩ e.display (.raised e.type e.message))
    exact ⟨_, hfail _, hcategory, hcause⟩
  | cancelled => exact fun f' heap'' h => nomatch (h.unique (hfail _)).1
  | stuck | unfinished =>
    intro f' heap'' h
    rw [ends_of_inactive rfl] at h
    cases h.1

def program (g : Staging) : FunctionState :=
  { builder := .empty g.blockSize, waiting := [.finish g.root true] }

theorem start_tasks (g : Staging) (heap : Heap) {e : Expr} (he : e.isAbsent = false) :
    g.Tasks (Task.start g.plain heap .never e)
      (Task.run g.inlined .machine 1 (Task.start g.inlined heap .never (.inline g.span e))) := by
  have hdispatch : dispatch (.inline g.span e) g.inlined
      (Task.start g.inlined heap .never (.inline g.span e)).state = .ok (.compile e)
        ⟨[g.asConstant g.program [], g.around], #[], heap⟩ := by
    change EStateM.Result.ok (Next.compile (e.orNil g.span)) _ = _
    rw [Expr.orNil, he]
    rfl
  change g.Tasks _ (evaluate .machine (afterAction .never [] (dispatch (.inline g.span e) g.inlined
    (Task.start g.inlined heap .never (.inline g.span e)).state)))
  rw [hdispatch]
  exact .compile e ⟨@Functions.body g g.program [] (fun _ h => nomatch h) rfl rfl rfl, rfl, rfl⟩

/-- If one of the two compilations gives a function, the program is compiled, and the compilation of
the inline expression ends as a call of the program does. -/
theorem Tasks.ends (h : g.Tasks t t') {fn : Func} {compiled : Heap}
    (hends : Ends g.plain t (.ok fn) compiled ∨ Ends g.inlined t' (.ok fn) compiled) :
    ∃ f heap, Ends g.plain t (.ok f) heap ∧ ∀ outcome heap',
      Machine.call heap .never (.func f) [] = ⟨outcome, heap', .never⟩ →
        match outcome with
        | .value v => Ends g.inlined t' (.ok (g.valueFunc v)) heap'
        | .raised e => ∃ error : SourceError, Ends g.inlined t' (.error error) heap' ∧
            error.category = .compiler ∧ error.cause = some (.raised e.type e.message)
        | _ => ∀ f' heap'', ¬ Ends g.inlined t' (.ok f') heap'' := by
  obtain ⟨m, hm⟩ := h.finishing hends
  obtain hnone | ⟨f, f', bindings, heap, hf, hf', hlines, hprogram, hinline⟩ := hm.ends
  · simp only [ends_run] at hnone
    exact absurd hends (not_or.2 (hnone fn compiled))
  · simp only [ends_run] at hprogram hinline
    refine ⟨f, heap, hprogram, fun outcome heap' hcall => ?_⟩
    -- the function of the inline expression is called in place of the program
    rw [← Machine.call_withoutLines hf, ← hlines, Machine.call_withoutLines hf'] at hcall
    have hcalling := g.ends_calling f' bindings heap hcall
    cases outcome <;> simpa only [hinline] using hcalling

end Staging

/-- **Inline expressions mean what programs mean.**  Running an expression as a program ends with a
value if and only if running the inline expression does.  If running it raises an error, compiling
the inline expression fails with an error that wraps it. -/
theorem inline_sound (globals : Globals) (blockSize : Int) (heap : Heap) (span : Span) {e : Expr}
    (he : e.isAbsent = false) :
    (∀ v heap', EndsWith globals blockSize heap e (.value v) heap' ↔
      EndsWith globals blockSize heap (.inline span e) (.value v) heap') ∧
    ∀ raised heap', EndsWith globals blockSize heap e (.raised raised) heap' →
      ∃ error : SourceError,
        Reports globals blockSize heap (.inline span e) (.error error) heap' ∧
          error.category = .compiler ∧
          error.cause = some (.raised raised.type raised.message) := by
  let g : Staging := ⟨globals, blockSize, e.span?.getD ⟨[], 0, 0⟩, span⟩
  have htasks := g.start_tasks heap he
  have hroot : Task.rootOf e = e := by simp [Task.rootOf, Expr.orNil, he]
  have hprogram (r : Except SourceError Func) (heap' : Heap) :
      Reports globals blockSize heap e r heap' ↔
        (Task.start g.plain heap .never e).Ends g.plain r heap' := by
    unfold Reports
    rw [hroot]
    rfl
  have hinline (r : Except SourceError Func) (heap' : Heap) :
      Reports globals blockSize heap (.inline span e) r heap' ↔
        (Task.run g.inlined .machine 1 (Task.start g.inlined heap .never (.inline g.span e))).Ends
          g.inlined r heap' :=
    (Task.ends_run 1).symm
  simp only [EndsWith, hprogram, hinline]
  refine ⟨fun v heap' => ⟨?_, ?_⟩, ?_⟩
  · rintro ⟨fn, compiled, hfn, hcall⟩
    obtain ⟨f, heap₀, hf, hends⟩ := htasks.ends (.inl hfn)
    obtain ⟨hfunc, rfl⟩ := hfn.unique hf
    obtain rfl := Except.ok.inj hfunc
    exact ⟨g.valueFunc v, heap', hends _ _ hcall, g.call_valueFunc v heap'⟩
  · rintro ⟨fn, compiled, hfn, hcall⟩
    obtain ⟨f, heap₀, hf, hends⟩ := htasks.ends (.inr hfn)
    have hnever := Machine.call_never heap₀ (.func f) []
    generalize hresult : Machine.call heap₀ .never (.func f) [] = result at hnever
    obtain ⟨outcome, heap₁, cancellation⟩ := result
    obtain rfl : cancellation = .never := hnever
    have hinlined := hends _ _ hresult
    cases outcome with
    | value w =>
      obtain ⟨hfunc, rfl⟩ := hfn.unique hinlined
      obtain rfl := Except.ok.inj hfunc
      rw [g.call_valueFunc] at hcall
      cases hcall
      exact ⟨f, heap₀, hf, hresult⟩
    | raised raised =>
      obtain ⟨error, herror, -⟩ := hinlined
      cases (hfn.unique herror).1
    | cancelled | stuck | unfinished => exact absurd hfn (hinlined _ _)
  · rintro raised heap' ⟨fn, compiled, hfn, hcall⟩
    obtain ⟨f, heap₀, hf, hends⟩ := htasks.ends (.inl hfn)
    obtain ⟨hfunc, rfl⟩ := hfn.unique hf
    obtain rfl := Except.ok.inj hfunc
    exact hends _ _ hcall

/-- The negation of nil is true, as a program and inline. -/
theorem inline_sound_of_negation :
    let e : Expr := .not ⟨[], 1, 1⟩ (.nil ⟨[], 1, 1⟩)
    e.isAbsent = false ∧ EndsWith .empty 64 {} e (.value (.bool true)) {} ∧
      EndsWith .empty 64 {} (.inline ⟨[], 1, 1⟩ e) (.value (.bool true)) {} := by
  have hprogram : EndsWith .empty 64 {} (.not ⟨[], 1, 1⟩ (.nil ⟨[], 1, 1⟩)) (.value (.bool true))
      {} :=
    ⟨_, _, ⟨5, rfl, rfl, rfl⟩, rfl⟩
  exact ⟨rfl, hprogram, ((inline_sound .empty 64 {} ⟨[], 1, 1⟩ rfl).1 _ _).1 hprogram⟩

end StagedScript
