import StagedScript.Proofs.Compile.Verified
import StagedScript.Proofs.Staging.Inline

/-!
# Cancellation is all or nothing

A compilation, and every run that it starts, asks from time to time whether it is cancelled.  As
long as the answer is no, it goes on as if it had not asked.  When the answer is yes, the run that
asked ends, whatever handlers are active in it, and the compilation fails.
-/

variable {e : SourceError}

namespace StagedScript

namespace Cancellation

variable {α β : Type} {setα : α → Cancellation → α} {setβ : β → Cancellation → β} {Cut : α → Prop}
  {Cut' : β → Prop}

/-- A computation asks a number of times.  If the answer is no as often, it gives what it gives when
it is never cancelled.  If not, it is cut short. -/
structure Decides (set : α → Cancellation → α) (Cut : α → Prop) (f : Cancellation → α) : Prop where
  never : set (f .never) .never = f .never
  asks : ∃ k, ∀ n, (k ≤ n → f ⟨some n⟩ = set (f .never) ⟨some (n - k)⟩) ∧ (n < k → Cut (f ⟨some n⟩))

namespace Decides

theorem of_eq {f : Cancellation → α} (h : ∀ c, f c = setα (f .never) c) : Decides setα Cut f where
  never := (h .never).symm
  asks := ⟨0, fun n => ⟨fun _ => h _, fun hn => absurd hn (Nat.not_lt_zero n)⟩⟩

theorem ask {f g : Cancellation → α} (hg : Decides setα Cut g) (hcut : Cut (f ⟨some 0⟩))
    (hnever : f .never = g .never) (hsome : ∀ n, f ⟨some (n + 1)⟩ = g ⟨some n⟩) :
    Decides setα Cut f where
  never := by rw [hnever, hg.never]
  asks := by
    obtain ⟨k, hk⟩ := hg.asks
    refine ⟨k + 1, fun n => ?_⟩
    cases n with
    | zero => exact ⟨fun h => absurd h (by omega), fun _ => hcut⟩
    | succ n =>
      rw [hsome, hnever, Nat.add_sub_add_right]
      exact ⟨fun h => (hk n).1 (by omega), fun h => (hk n).2 (by omega)⟩

theorem andThen {f : Cancellation → α} {next : α → β} (hf : Decides setα Cut f)
    (hnext : Decides setβ Cut' fun c => next (setα (f .never) c))
    (hcut : ∀ a, Cut a → Cut' (next a)) : Decides setβ Cut' fun c => next (f c) where
  never := by simpa only [hf.never] using hnext.never
  asks := by
    obtain ⟨k, hk⟩ := hf.asks
    obtain ⟨l, hl⟩ := hnext.asks
    simp only [hf.never] at hl
    refine ⟨k + l, fun n => ⟨fun hn => ?_, fun hn => ?_⟩⟩
    · rw [(hk n).1 (by omega), (hl (n - k)).1 (by omega), Nat.sub_sub]
    · by_cases hnk : n < k
      · exact hcut _ ((hk n).2 hnk)
      · rw [(hk n).1 (by omega)]
        exact (hl (n - k)).2 (by omega)

end Decides

end Cancellation

open Cancellation (Decides)

/-! ### Runs of the machine -/

namespace Machine

def Result.leaving (r : Result) (c : Cancellation) : Result := { r with cancellation := c }

def proceed (fuel steps : Nat) (after : Except Outcome (List Frame) × Heap) (c : Cancellation) :
    Result :=
  match after with
  | (.error outcome, heap) => ⟨outcome, heap, c⟩
  | (.ok frames, heap) => run fuel ⟨frames, heap, steps, c⟩

theorem run_cons (fuel : Nat) (f : Frame) (rest : List Frame) (heap : Heap) (steps : Nat)
    (c : Cancellation) :
    run (fuel + 1) ⟨f :: rest, heap, steps, c⟩ =
      let asked := if (steps + 1) % checkInterval = 0 then c.ask else (false, c)
      if asked.1 then ⟨.cancelled, heap, asked.2⟩
      else proceed fuel (steps + 1) (afterStep (f.step heap) rest) asked.2 :=
  rfl

/-- Whatever handlers are active in a run, it ends cancelled if it is cut short. -/
theorem run_decides (fuel : Nat) (frames : List Frame) (heap : Heap) (steps : Nat) :
    Decides Result.leaving (fun r => r.outcome = .cancelled) fun c =>
      run fuel ⟨frames, heap, steps, c⟩ := by
  induction fuel generalizing frames heap steps with
  | zero => exact .of_eq fun _ => rfl
  | succ fuel ih =>
    cases frames with
    | nil => exact .of_eq fun _ => rfl
    | cons f rest =>
      simp only [run_cons]
      have hproceed : Decides Result.leaving (fun r => r.outcome = .cancelled)
          (proceed fuel (steps + 1) (afterStep (f.step heap) rest)) := by
        generalize afterStep (f.step heap) rest = after
        match after with
        | (.error outcome, heap) => exact .of_eq fun _ => rfl
        | (.ok frames, heap) => exact ih frames heap (steps + 1)
      by_cases hasks : (steps + 1) % checkInterval = 0
      · simp only [hasks, if_true]
        exact hproceed.ask rfl rfl fun _ => rfl
      · simp only [hasks, if_false, Bool.false_eq_true]
        exact hproceed

theorem call_decides (heap : Heap) (fn : Value) (args : List Value) :
    Decides Result.leaving (fun r => r.outcome = .cancelled) fun c => call heap c fn args := by
  unfold call callWithin
  cases enter heap fn args [] with
  | error outcome => exact .of_eq fun _ => rfl
  | ok frames => exact run_decides _ _ _ _

end Machine

/-! ### Rounds of a compilation -/

namespace Task

variable {settings : Settings}

def leaving (t : Task) (c : Cancellation) : Task := { t with cancellation := c }

/-- A compilation was cut short: it has failed, or is about to, because of the cancellation. -/
def IsCut (t : Task) : Prop :=
  ∃ e : SourceError, e.cause = some .cancelled ∧
    (t.phase = .fail e ∧ t.active = true ∧ t.reports = [] ∨
      t.active = false ∧ t.reports = [.error e])

/-- One round, with the answer to the call it makes. -/
def round (settings : Settings) (t : Task) : Task := evaluate .machine (advance settings t)

variable (t : Task)

theorem deliver_leaving (a : Answer) (c : Cancellation) :
    deliver (t.leaving c) a = (deliver t a).leaving c := by
  obtain ⟨phase, _, _, _, _⟩ := t
  cases phase with
  | wait call => cases a <;> rfl
  | _ => rfl

theorem deliver_reports (a : Answer) : (deliver t a).reports = t.reports := by
  obtain ⟨phase, _, _, _, _⟩ := t
  cases phase with
  | wait call => cases a <;> rfl
  | _ => rfl

/-- A compilation that waits for the answer to a call, with what the call gave. -/
def answered (call : EvalCall) (t : Task) (r : Machine.Result) : Task :=
  deliver ⟨.wait call, true, { t.state with heap := r.heap }, r.cancellation, t.reports⟩
    (Evaluator.answerOf r.outcome)

theorem answered_leaving (call : EvalCall) (t : Task) (r : Machine.Result) (c : Cancellation) :
    answered call t (r.leaving c) = (answered call t r).leaving c :=
  deliver_leaving ⟨.wait call, true, { t.state with heap := r.heap }, r.cancellation, t.reports⟩ _ c

theorem evaluate_wait (call : EvalCall) (t : Task) (hphase : t.phase = .wait call)
    (hactive : t.active = true) :
    evaluate .machine t =
      answered call t (Machine.call t.state.heap t.cancellation call.fn call.args) := by
  obtain ⟨_, _, _, _, _⟩ := t
  dsimp only at hphase hactive
  subst hphase hactive
  rfl

theorem evaluate_reports (ev : Evaluator) (t : Task) : (evaluate ev t).reports = t.reports := by
  unfold evaluate
  split
  · exact List.foldlRecOn (motive := fun u : Task => u.reports = _) _ deliver rfl
      fun u hu a _ => (deliver_reports u a).trans hu
  · rfl

/-- A call that is cut short makes the compilation fail because of the cancellation. -/
theorem evaluate_decides (hreports : t.reports = []) :
    Decides leaving IsCut fun c => evaluate .machine (t.leaving c) := by
  by_cases hwait : ∃ call, t.phase = .wait call ∧ t.active = true
  · obtain ⟨call, hphase, hactive⟩ := hwait
    have hanswer (c : Cancellation) : evaluate .machine (t.leaving c) =
        answered call t (Machine.call t.state.heap c call.fn call.args) :=
      evaluate_wait call (t.leaving c) hphase hactive
    simp only [hanswer]
    refine (Machine.call_decides _ _ _).andThen (.of_eq fun c => ?_) ?_
    · rw [answered_leaving, answered_leaving]
      rfl
    · rintro ⟨outcome, heap, c⟩ rfl
      exact ⟨_, rfl, .inl ⟨rfl, rfl, hreports⟩⟩
  · have hsame (c : Cancellation) : evaluate .machine (t.leaving c) = t.leaving c :=
      evaluate_of_not_wait _ _ fun call hphase =>
        Bool.eq_false_iff.2 fun hactive => hwait ⟨call, hphase, hactive⟩
    exact .of_eq fun c => by rw [hsame, hsame]; rfl

theorem afterAction_leaving (c : Cancellation) (reports : List (Except SourceError Func))
    (r : EStateM.Result Trouble CompileState Next) :
    afterAction c reports r = (afterAction .never reports r).leaving c := by
  match r with
  | .ok _ _ | .error (.error _) _ | .error .stuck _ => rfl

theorem afterAction_reports (c : Cancellation) (reports : List (Except SourceError Func))
    (r : EStateM.Result Trouble CompileState Next) : (afterAction c reports r).reports = reports := by
  match r with
  | .ok _ _ | .error (.error _) _ | .error .stuck _ => rfl

theorem round_decides (hactive : t.active = true) (hreports : t.reports = []) :
    Decides leaving IsCut fun c => round settings (t.leaving c) := by
  have hafter (r : EStateM.Result Trouble CompileState Next) :
      Decides leaving IsCut fun c => evaluate .machine (afterAction c [] r) := by
    rw [funext fun c => congrArg (evaluate .machine) (afterAction_leaving c [] r)]
    exact evaluate_decides _ (afterAction_reports _ _ r)
  obtain ⟨phase, active, state, _, reports⟩ := t
  dsimp only at hactive hreports
  subst hactive hreports
  cases phase with
  | compile e =>
    exact (hafter (Compiling.dispatch e settings state)).ask ⟨_, rfl, .inl ⟨rfl, rfl, rfl⟩⟩ rfl
      fun _ => rfl
  | give v => exact hafter (Compiling.resume v settings state)
  | _ => exact .of_eq fun _ => rfl

/-- What a round reports does not depend on when the compilation is cancelled. -/
theorem round_reports_eq (c c' : Cancellation) :
    (round settings (t.leaving c)).reports = (round settings (t.leaving c')).reports := by
  simp only [round, evaluate_reports]
  obtain ⟨phase, active, state, _, reports⟩ := t
  have hcompile (e : Expr) (c : Cancellation) :
      (advance settings ⟨.compile e, active, state, c, reports⟩).reports = reports := by
    unfold advance
    dsimp only
    split
    · rfl
    · exact afterAction_reports _ _ _
  cases phase with
  | compile e => exact (hcompile e c).trans (hcompile e c').symm
  | give v => exact (afterAction_reports _ _ _).trans (afterAction_reports _ _ _).symm
  | _ => rfl

theorem run_leaving_of_inactive {t : Task} (h : t.active = false) (fuel : Nat) (c : Cancellation) :
    run settings .machine fuel (t.leaving c) = t.leaving c :=
  run_eq_self _ _ h

theorem run_leaving_of_active {t : Task} (h : t.active = true) (fuel : Nat) (c : Cancellation) :
    run settings .machine (fuel + 1) (t.leaving c) =
      run settings .machine fuel (round settings (t.leaving c)) :=
  run_succ _ _ h

theorem run_one_reports_eq (c c' : Cancellation) :
    (run settings .machine 1 (t.leaving c)).reports =
      (run settings .machine 1 (t.leaving c')).reports := by
  cases hactive : t.active with
  | false =>
    rw [run_leaving_of_inactive hactive, run_leaving_of_inactive hactive]
    rfl
  | true =>
    rw [run_leaving_of_active hactive, run_leaving_of_active hactive]
    exact round_reports_eq t c c'

theorem round_reports_of_active (h : (round settings t).active = true) :
    (round settings t).reports = t.reports := by
  rw [round, evaluate_reports]
  obtain ⟨phase, active, state, c, reports⟩ := t
  cases phase with
  | compile e =>
    unfold advance
    dsimp only
    split
    · rfl
    · exact afterAction_reports _ _ _
  | give v => exact afterAction_reports _ _ _
  | fail | finish => cases h
  | _ => rfl

theorem IsCut.run {t : Task} (h : t.IsCut) (fuel : Nat) :
    (Task.run settings .machine fuel t).IsCut := by
  obtain ⟨e, he, ⟨hphase, hactive, hreports⟩ | ⟨hactive, hreports⟩⟩ := h
  · cases fuel with
    | zero => exact ⟨e, he, .inl ⟨hphase, hactive, hreports⟩⟩
    | succ fuel =>
      obtain ⟨phase, active, state, c, reports⟩ := t
      dsimp only at hphase hactive hreports
      subst hphase hactive hreports
      rw [run_succ _ _ rfl, run_eq_self _ _ rfl]
      exact ⟨_, (Staging.traced_keeps state.functions e).2.trans he, .inr ⟨rfl, rfl⟩⟩
  · rw [run_eq_self _ _ hactive]
    exact ⟨e, he, .inr ⟨hactive, hreports⟩⟩

/-- A compilation that was cut short reports so in the next round. -/
theorem IsCut.reports_run_one {t : Task} (h : t.IsCut) :
    ∃ e : SourceError, e.cause = some .cancelled ∧
      (Task.run settings .machine 1 t).reports = [.error e] := by
  obtain ⟨e, he, ⟨hphase, hactive, hreports⟩ | ⟨hactive, hreports⟩⟩ := h
  · obtain ⟨phase, active, state, c, reports⟩ := t
    dsimp only at hphase hactive hreports
    subst hphase hactive hreports
    exact ⟨_, (Staging.traced_keeps state.functions e).2.trans he, rfl⟩
  · rw [run_eq_self _ _ hactive]
    exact ⟨e, he, hreports⟩

theorem run_decides (fuel : Nat) (t : Task) (hreports : t.active = true → t.reports = []) :
    Decides leaving IsCut fun c => run settings .machine fuel (t.leaving c) := by
  induction fuel generalizing t with
  | zero => exact .of_eq fun _ => rfl
  | succ fuel ih =>
    cases hactive : t.active with
    | false =>
      rw [funext (run_leaving_of_inactive hactive _)]
      exact .of_eq fun _ => rfl
    | true =>
      rw [funext (run_leaving_of_active hactive _)]
      refine (round_decides t hactive (hreports hactive)).andThen (ih _ fun h => ?_)
        fun a ha => ha.run fuel
      exact (round_reports_of_active _ h).trans (hreports hactive)

/-- What a compilation reports within a number of rounds is what it reports without a cancellation, or
an error that the cancellation has caused. -/
theorem reports_run_asks (fuel : Nat) (t : Task) (hreports : t.active = true → t.reports = []) :
    ∃ k, ∀ n,
      (k ≤ n → (run settings .machine (fuel + 1) (t.leaving ⟨some n⟩)).reports =
        (run settings .machine (fuel + 1) (t.leaving .never)).reports) ∧
      (n < k → ∃ e : SourceError, e.cause = some .cancelled ∧
        (run settings .machine (fuel + 1) (t.leaving ⟨some n⟩)).reports = [.error e]) := by
  obtain ⟨hnever, k, hk⟩ := @run_decides settings fuel t hreports
  refine ⟨k, fun n => ⟨fun hn => ?_, fun hn => ?_⟩⟩
  · -- The last round may ask too, but what it reports does not depend on the answer.
    rw [run_add, run_add, (hk n).1 hn]
    rw [← hnever]
    exact run_one_reports_eq _ _ _
  · rw [run_add]
    exact ((hk n).2 hn).reports_run_one

end Task

/-! ### Errors without a cancellation -/

/-- The frames and the labels of the functions that are being compiled. -/
def CompileState.ledgers (s : CompileState) : List (List Waiting × Array (Option Aim)) :=
  s.functions.map fun fn => (fn.waiting, fn.builder.aims)

namespace Compiling

/-- The errors of an action arise in the compiler itself. -/
def FailsOwn {α : Type} (x : Compiling α) : Prop :=
  ∀ c s e t, x c s = .error (.error e) t → e.IsOwn

namespace FailsOwn

variable {α β : Type} {x y : Compiling α} {f : α → Compiling β}

theorem pure {a : α} : FailsOwn (Pure.pure a) := nofun

theorem bind (hx : FailsOwn x) (hf : ∀ a, FailsOwn (f a)) : FailsOwn (x >>= f) := by
  intro c s e t hrun
  change EStateM.bind (x c) (fun a => f a c) s = _ at hrun
  unfold EStateM.bind at hrun
  split at hrun
  · exact hf _ c _ e t hrun
  · rename_i trouble u hx'
    cases hrun
    exact hx c s e t hx'

theorem ite {q : Prop} [Decidable q] (hx : FailsOwn x) (hy : FailsOwn y) :
    FailsOwn (if q then x else y) := by
  split
  · exact hx
  · exact hy

theorem fail (he : e.IsOwn) : FailsOwn (throw (.error e) : Compiling α) := by
  rintro c s _ t ⟨⟩
  exact he

theorem stuck : FailsOwn (throw .stuck : Compiling α) := nofun

theorem get : FailsOwn (get : Compiling CompileState) := nofun

theorem read : FailsOwn (read : Compiling Settings) := nofun

theorem modify {k : CompileState → CompileState} : FailsOwn (modify k : Compiling PUnit) := nofun

theorem current : FailsOwn current := by
  refine get.bind fun s => ?_
  split
  · exact .pure
  · exact .stuck

end FailsOwn

section

variable {α β : Type} {c : Settings} {x y : Compiling α} {f : α → Compiling β} {s : CompileState}
  {P : α → CompileState → Prop} {Q : β → CompileState → Prop} {R : SourceError → CompileState → Prop}
  {k : CompileState → CompileState}

/-- What holds of the result of an action and the state after it, or of its error and the state. -/
def Leaves (c : Settings) (x : Compiling α) (s : CompileState) (P : α → CompileState → Prop)
    (R : SourceError → CompileState → Prop) : Prop :=
  match x c s with
  | .ok a t => P a t
  | .error (.error e) t => R e t
  | .error .stuck _ => True

theorem Leaves.bind (hx : Leaves c x s P R) (hf : ∀ a t, P a t → Leaves c (f a) t Q R) :
    Leaves c (x >>= f) s Q R := by
  have hrun : (x >>= f) c s = EStateM.bind (x c) (fun a => f a c) s := rfl
  unfold Leaves at hx ⊢
  rw [hrun, EStateM.bind]
  generalize x c s = r at hx ⊢
  match r with
  | .ok a t => exact hf a t hx
  | .error (.error _) _ => exact hx
  | .error .stuck _ => trivial

theorem Leaves.imp {P' : α → CompileState → Prop} {R' : SourceError → CompileState → Prop}
    (hx : Leaves c x s P R) (hP : ∀ a t, P a t → P' a t) (hR : ∀ e t, R e t → R' e t) :
    Leaves c x s P' R' := by
  unfold Leaves at hx ⊢
  split at hx
  · exact hP _ _ hx
  · exact hR _ _ hx
  · trivial

theorem Leaves.of_current {fn : FunctionState} {rest : List FunctionState}
    {bindings : Array Binding} {heap : Heap} {f : FunctionState → Compiling α}
    (h : Leaves c (f fn) ⟨fn :: rest, bindings, heap⟩ P R) :
    Leaves c (current >>= f) ⟨fn :: rest, bindings, heap⟩ P R := h

/-- An action that leaves frames and labels alone, and whose errors arise in the compiler itself. -/
def Quiet (x : Compiling α) : Prop :=
  ∀ c s, Leaves c x s (fun _ t => t.ledgers = s.ledgers) fun e t => t.ledgers = s.ledgers ∧ e.IsOwn

theorem captureIn_map {φ : FunctionState → α}
    (hφ : ∀ fn upvalues captured, φ { fn with upvalues, captured } = φ fn) (id : BindingId)
    (source : Int) (level : Nat) (fns : List FunctionState) :
    (captureIn id source level fns).2.map φ = fns.map φ := by
  fun_induction captureIn id source level fns with
  | case1 | case2 => rfl
  | case3 | case4 => simp_all

namespace Quiet

theorem own (hx : Quiet x) : FailsOwn x := by
  intro c s e t hrun
  have h := hx c s
  unfold Leaves at h
  rw [hrun] at h
  exact h.2

theorem pure {a : α} : Quiet (Pure.pure a) := fun _ _ => rfl

theorem bind (hx : Quiet x) (hf : ∀ a, Quiet (f a)) : Quiet (x >>= f) :=
  fun c s => (hx c s).bind fun a t ht => ht ▸ hf a c t

theorem ite {q : Prop} [Decidable q] (hx : Quiet x) (hy : Quiet y) : Quiet (if q then x else y) := by
  split
  · exact hx
  · exact hy

theorem fail (he : e.IsOwn) : Quiet (throw (.error e) : Compiling α) :=
  fun _ _ => ⟨rfl, he⟩

theorem get : Quiet (get : Compiling CompileState) := fun _ _ => rfl

theorem read : Quiet (read : Compiling Settings) := fun _ _ => rfl

theorem modify (hk : ∀ s, (k s).ledgers = s.ledgers) : Quiet (modify k : Compiling PUnit) :=
  fun _ => hk

theorem current : Quiet current := by
  refine get.bind fun s => ?_
  split
  · exact .pure
  · exact fun _ _ => trivial

theorem modifyCurrent {k : FunctionState → FunctionState}
    (hk : ∀ fn, (k fn).waiting = fn.waiting ∧ (k fn).builder.aims = fn.builder.aims) :
    Quiet (modifyCurrent k) :=
  .modify fun s => by
    unfold CompileState.ledgers
    split
    · rename_i fn rest hs
      simp [hs, hk fn]
    · rfl

variable (id : BindingId)

theorem binding : Quiet (binding id) := get.bind fun _ => .pure

theorem modifyBinding (k : Binding → Binding) : Quiet (modifyBinding id k) := .modify fun _ => rfl

theorem markForward : Quiet (markForward id) := by
  refine (binding id).bind fun b => ?_
  split
  · exact .ite (fun _ _ => rfl) (modifyBinding id _)
  · exact .pure
  · exact read.bind fun _ => .fail (.plain _ _ _)

theorem bindValue (v : Value) : Quiet (bindValue id v) := by
  refine (binding id).bind fun b => .ite (read.bind fun _ => (fail (.plain _ _ _)).bind fun _ => ?_) ?_
  all_goals
    split
    · exact .bind (.modify (by intro; rfl)) fun _ => modifyBinding id _
    · exact modifyBinding id _

theorem capture (level : Nat) : Quiet (capture id level) :=
  fun _ _ => captureIn_map (fun _ _ _ => rfl) ..

theorem resolve (span : Span) (name : Bytes) : Quiet (resolve span name) := by
  refine get.bind fun s => ?_
  split
  · rename_i id level constantOnly _
    have hcaptured : Quiet (do return Reference.captured (← Compiling.capture id level) id) :=
      (capture id level).bind fun _ => .pure
    have hmarked (b : Binding) : Quiet (do
        if b.state ≠ .bound then Compiling.markForward id
        return Reference.captured (← Compiling.capture id level) id) :=
      .ite ((markForward id).bind fun _ => hcaptured) hcaptured
    refine (binding id).bind fun b => .ite (.ite .pure ?_) (.ite (.ite .pure ?_) (.ite ?_ (hmarked b)))
    · exact (markForward id).bind fun _ => (binding id).bind fun _ => .pure
    · exact (markForward id).bind fun _ => .pure
    · exact (fail (.plain _ _ _)).bind fun _ => hmarked b
  · refine read.bind fun c => ?_
    split
    · exact .fail ⟨rfl, nofun⟩
    · exact .fail (.plain _ _ _)
    · exact .pure

theorem peek? (name : Bytes) : Quiet (peek? name) := by
  refine get.bind fun s => ?_
  split
  · exact (binding _).bind fun _ => .pure
  · refine read.bind fun c => ?_
    split
    · exact .pure
    · exact .pure

theorem newBinding (b : Binding) : Quiet (newBinding b) := fun _ _ => rfl

theorem declareParams (slot : Nat) (params : List Param) : Quiet (declareParams slot params) := by
  induction params generalizing slot with
  | nil => exact .pure
  | cons p params ih =>
    exact (newBinding _).bind fun id => ((binding id).bind fun _ =>
      modifyCurrent (by intro; exact ⟨rfl, rfl⟩)).bind fun _ => ih _

end Quiet

end

namespace FailsOwn

theorem beginFunction (span : Span) (params : List Param) (extra named : Bool) (body : Expr)
    (isConstant : Bool) : FailsOwn (beginFunction span params extra named body isConstant) := by
  unfold Compiling.beginFunction
  match repeated? [] params with
  | some (p, line) =>
    exact (fail (.plain _ _ _)).bind fun _ => read.bind fun _ => modify.bind fun _ =>
      (Quiet.declareParams _ _).own.bind fun _ => modify.bind fun _ => .pure
  | none =>
    exact read.bind fun _ => modify.bind fun _ => (Quiet.declareParams _ _).own.bind fun _ =>
      modify.bind fun _ => .pure

/-- The errors of all rules arise in the compiler itself. -/
theorem closed : Closed fun x _ => FailsOwn x where
  pure _ := .pure
  bind := .bind
  stuck := .stuck
  fail _ := .fail
  failShowing e he f := get.bind fun s => by
    rintro c u _ t ⟨⟩
    exact he s
  current_holds _ hf := current.bind hf
  modifyCurrent_holds _ := .modify
  push_holds _ := .modify
  modifyBinding_holds _ _ := .modify
  newBinding_holds _ := nofun
  binding_holds id := (Quiet.binding id).own
  bindValue_holds id v := (Quiet.bindValue id v).own
  resolve_holds span name := (Quiet.resolve span name).own
  peek?_holds name := (Quiet.peek? name).own
  beginFunction_holds := beginFunction

theorem finishFunction (span : Span) (isRoot : Bool) : FailsOwn (finishFunction span isRoot) := by
  refine closed.op_holds.bind fun _ => current.bind fun fn => ?_
  split
  · exact .fail (.plain _ _ _)
  · exact .ite .pure (modify.bind fun _ => closed.prepareCaptures_holds.bind fun _ => .pure)

theorem resume (v : Value) : FailsOwn (resume v) := by
  refine current.bind fun fn => ?_
  split
  · exact .fail (.plain _ _ _)
  · rename_i w rest _
    refine modify.bind fun _ => ?_
    cases hw : w.isFinish with
    | false => exact closed.resumeWith_holds hw
    | true =>
      cases w with
      | finish span isRoot => exact finishFunction span isRoot
      | _ => cases hw

end FailsOwn

end Compiling

namespace Machine

theorem deliver_ne_cancelled (v : Value) (frames : List Frame) :
    deliver v frames ≠ .error .cancelled := by
  cases frames <;> exact nofun

theorem unwind_ne_cancelled (e : Raised) (frames : List Frame) :
    unwind e frames ≠ .error .cancelled := by
  fun_induction unwind e frames with
  | case2 f rest _ ih => exact ih
  | _ => exact nofun

theorem enter_ne_cancelled (heap : Heap) (fn : Value) (args : List Value) (frames : List Frame) :
    enter heap fn args frames ≠ .error .cancelled := by
  unfold enter
  split
  · exact nofun
  · exact deliver_ne_cancelled _ _
  · exact unwind_ne_cancelled _ _
  · split
    · exact unwind_ne_cancelled _ _
    · split <;> exact nofun

theorem afterStep_ne_cancelled (step : Option Step) (rest : List Frame) :
    (afterStep step rest).1 ≠ .error .cancelled := by
  unfold afterStep
  split
  · exact nofun
  · exact nofun
  · exact deliver_ne_cancelled _ _
  · exact unwind_ne_cancelled _ _
  · exact enter_ne_cancelled _ _ _ _

theorem run_never_ne_cancelled (fuel : Nat) (frames : List Frame) (heap : Heap) (steps : Nat) :
    (run fuel ⟨frames, heap, steps, .never⟩).outcome ≠ .cancelled := by
  induction fuel generalizing frames heap steps with
  | zero => exact nofun
  | succ fuel ih =>
    cases frames with
    | nil => exact nofun
    | cons f rest =>
      have hstep := afterStep_ne_cancelled (f.step heap) rest
      rw [run_succ_never]
      split
      · rename_i outcome heap h
        rintro rfl
        exact hstep (congrArg Prod.fst h)
      · exact ih _ _ _

theorem call_never_ne_cancelled (heap : Heap) (fn : Value) (args : List Value) :
    (call heap .never fn args).outcome ≠ .cancelled := by
  have henter := enter_ne_cancelled heap fn args []
  unfold call callWithin
  split
  · rename_i outcome h
    rintro rfl
    exact henter h
  · exact run_never_ne_cancelled _ _ _ _

end Machine

namespace Task

variable {settings : Settings}

/-- A compilation that is never cancelled waits for nothing after a round, and its errors have other
causes. -/
structure Own (t : Task) : Prop where
  cancellation : t.cancellation = .never
  phase (e : SourceError) : t.phase = .fail e → e.cause ≠ some .cancelled
  reports (e : SourceError) : .error e ∈ t.reports → e.cause ≠ some .cancelled

variable {t : Task} {reports : List (Except SourceError Func)}

theorem Own.evaluate (h : t.Own) : (evaluate .machine t).Own := by
  by_cases hwait : ∃ call, t.phase = .wait call ∧ t.active = true
  · obtain ⟨call, hphase, hactive⟩ := hwait
    rw [evaluate_wait call t hphase hactive, h.cancellation]
    have hcancellation := Machine.call_never t.state.heap call.fn call.args
    have hcancelled := Machine.call_never_ne_cancelled t.state.heap call.fn call.args
    generalize Machine.call t.state.heap .never call.fn call.args = r at hcancellation hcancelled
    obtain ⟨outcome, heap, c⟩ := r
    cases outcome with
    | cancelled => exact absurd rfl hcancelled
    | raised e =>
      refine ⟨hcancellation, ?_, h.reports⟩
      rintro _ ⟨⟩
      exact nofun
    | _ => exact ⟨hcancellation, nofun, h.reports⟩
  · rwa [evaluate_of_not_wait _ _ fun call hphase =>
      Bool.eq_false_iff.2 fun hactive => hwait ⟨call, hphase, hactive⟩]

theorem own_afterAction {x : Compiling Next} (hx : x.FailsOwn) {s : CompileState}
    (hreports : ∀ e : SourceError, .error e ∈ reports → e.cause ≠ some .cancelled) :
    (afterAction .never reports (x settings s)).Own := by
  match hrun : x settings s with
  | .ok next t =>
    refine ⟨rfl, ?_, hreports⟩
    cases next <;> exact nofun
  | .error .stuck t => exact ⟨rfl, nofun, hreports⟩
  | .error (.error e) t =>
    refine ⟨rfl, ?_, hreports⟩
    rintro _ ⟨⟩
    exact (hx _ _ _ _ hrun).cause

theorem Own.advance (h : t.Own) : (advance settings t).Own := by
  obtain ⟨phase, active, state, c, reports⟩ := t
  obtain ⟨hc, hphase, hreports⟩ := h
  dsimp only at hc hphase hreports
  subst hc
  cases phase with
  | compile e => exact own_afterAction Compiling.FailsOwn.closed.dispatch_holds hreports
  | give v => exact own_afterAction (.resume v) hreports
  | fail e =>
    refine ⟨rfl, nofun, fun e' he' => ?_⟩
    obtain he' | he' := List.mem_cons.1 he'
    · cases he'
      rw [(Staging.traced_keeps _ _).2]
      exact hphase e rfl
    · exact hreports e' he'
  | finish fn =>
    refine ⟨rfl, nofun, fun e' he' => ?_⟩
    obtain he' | he' := List.mem_cons.1 he'
    · cases he'
    · exact hreports e' he'
  | _ => exact ⟨rfl, nofun, hreports⟩

theorem own_start (settings : Settings) (heap : Heap) (root : Expr) :
    (start settings heap .never root).Own := by
  refine ⟨rfl, ?_, ?_⟩ <;> rintro e ⟨⟩

theorem Own.run (h : t.Own) (fuel : Nat) : (run settings .machine fuel t).Own := by
  induction fuel generalizing t with
  | zero => exact h
  | succ fuel ih =>
    rw [Task.run]
    split
    · exact ih h.advance.evaluate
    · exact h

def IsAnswered (t : Task) : Prop := ∀ call, t.phase ≠ .wait call

theorem isAnswered_evaluate (h : ∀ call, t.phase = .wait call → t.active = true) :
    (evaluate .machine t).IsAnswered := by
  by_cases hwait : ∃ call, t.phase = .wait call
  · obtain ⟨call, hphase⟩ := hwait
    rw [evaluate_wait call t hphase (h call hphase)]
    generalize Machine.call _ _ _ _ = r
    obtain ⟨outcome, heap, c⟩ := r
    cases outcome <;> exact nofun
  · rw [evaluate_of_not_wait _ _ fun call hphase => absurd ⟨call, hphase⟩ hwait]
    exact fun call hphase => hwait ⟨call, hphase⟩

theorem active_afterAction {c : Cancellation} {r : EStateM.Result Trouble CompileState Next}
    {call : EvalCall} (h : (afterAction c reports r).phase = .wait call) :
    (afterAction c reports r).active = true := by
  match r with
  | .ok _ _ | .error (.error _) _ => rfl
  | .error .stuck _ => cases h

theorem IsAnswered.round (h : t.IsAnswered) : (round settings t).IsAnswered := by
  refine isAnswered_evaluate fun call => ?_
  obtain ⟨phase, active, state, c, reports⟩ := t
  cases phase with
  | compile e =>
    unfold Task.advance
    dsimp only
    split
    · exact nofun
    · exact active_afterAction
  | give v => exact active_afterAction
  | wait call => exact absurd rfl (h call)
  | _ => exact nofun

theorem isAnswered_start (settings : Settings) (heap : Heap) (c : Cancellation) (root : Expr) :
    (start settings heap c root).IsAnswered := by
  rintro call ⟨⟩

theorem IsAnswered.run (h : t.IsAnswered) (fuel : Nat) :
    (run settings .machine fuel t).IsAnswered := by
  induction fuel generalizing t with
  | zero => exact h
  | succ fuel ih =>
    rw [Task.run]
    split
    · exact ih h.round
    · exact h

end Task

/-! ### Compilations -/

/-- The function or the error that a compilation ends with. -/
def CompileOutcome.result? : CompileOutcome → Option (Except SourceError Func)
  | .func fn => some (.ok fn)
  | .error e => some (.error e)
  | .stuck | .unfinished => none

theorem CompileOutcome.isFunc_of_result? {o : CompileOutcome} {fn : Func}
    (h : o.result? = some (.ok fn)) : o.isFunc = true := by
  cases o with
  | func fn => rfl
  | _ => cases h

/-- The result of a compilation whose calls are answered is what it has reported. -/
theorem compileTree_result? (globals : Globals) (blockSize : Int) (heap : Heap)
    (cancellation : Cancellation) (e : Expr) :
    let root := Task.rootOf e
    let settings : Settings := ⟨globals, blockSize, root.span?.getD ⟨[], 0, 0⟩⟩
    (compileTree globals blockSize .machine heap cancellation e).outcome.result? =
      (Task.run settings .machine Task.roundLimit
        (Task.start settings heap cancellation root)).reports.head? := by
  intro root settings
  have hanswered : (Task.run settings .machine Task.roundLimit
      (Task.start settings heap cancellation root)).IsAnswered :=
    (Task.isAnswered_start settings heap cancellation root).run _
  dsimp only [compileTree]
  generalize Task.run _ _ _ _ = t at hanswered ⊢
  obtain ⟨phase, active, state, c, reports⟩ := t
  match reports with
  | .ok fn :: _ | .error e :: _ => rfl
  | [] =>
    cases phase with
    | wait call => exact absurd rfl (hanswered call)
    | _ => rfl

namespace Compiler

/-- What compiling a text gives, with calls run on the machine. -/
def result? (c : Compiler) (heap : Heap) (source text : Bytes) (cancellation : Cancellation) :
    Option (Except SourceError Func) :=
  ({ c with evaluator := .machine }.compileText heap cancellation source text).outcome.result?

/-- A compilation asks a number of times.  It gives the same as without a cancellation if the answer is
no as often, and an error that the cancellation has caused if not. -/
theorem result?_asks (c : Compiler) (heap : Heap) (source text : Bytes) :
    ∃ k, ∀ n,
      (k ≤ n → c.result? heap source text ⟨some n⟩ = c.result? heap source text .never) ∧
      (n < k → ∃ e : SourceError, e.cause = some .cancelled ∧
        c.result? heap source text ⟨some n⟩ = some (.error e)) := by
  simp only [result?, compileText]
  split
  · exact ⟨0, fun n => ⟨fun _ => rfl, fun hn => absurd hn (Nat.not_lt_zero n)⟩⟩
  · rename_i e heap _
    obtain ⟨fuel, hfuel⟩ : ∃ fuel, Task.roundLimit = fuel + 1 := ⟨0xfffffffffffffff, rfl⟩
    simp only [compile, compileTree_result?, hfuel]
    generalize Task.rootOf e = root
    generalize (⟨c.globals, c.blockSize, root.span?.getD ⟨[], 0, 0⟩⟩ : Settings) = settings
    obtain ⟨k, hk⟩ := @Task.reports_run_asks settings fuel
      (Task.start settings heap .never root) fun _ => rfl
    refine ⟨k, fun n => ⟨fun hn => ?_, fun hn => ?_⟩⟩
    · exact congrArg List.head? ((hk n).1 hn)
    · obtain ⟨e, he, hreports⟩ := (hk n).2 hn
      exact ⟨e, he, congrArg List.head? hreports⟩

theorem cause_of_parse {c : Compiler} {heap : Heap} {source text : Bytes}
    (h : c.parse heap source text = .error e) : e.cause = none := by
  unfold parse parseUnit at h
  cases hrun : Parser.run source c.tables Parser.unit
      { Parser.start text with nextDecl := heap.nextDecl } with
  | ok tree s =>
    rw [hrun] at h
    cases h
  | error e s =>
    rw [hrun] at h
    cases h
    cases e <;> rfl

theorem cause_of_result?_never (c : Compiler) (heap : Heap) (source text : Bytes)
    (h : c.result? heap source text .never = some (.error e)) : e.cause ≠ some .cancelled := by
  simp only [result?, compileText] at h
  split at h
  · rename_i e' hparse
    cases h
    rw [cause_of_parse hparse]
    exact nofun
  · rename_i heap _
    simp only [compile, compileTree_result?] at h
    exact ((Task.own_start _ heap _).run _).reports e (List.mem_of_mem_head? h)

/-- Cancelling a compilation does not change what it gives: it ends as if it were never cancelled,
or with an error that the cancellation has caused.  The same is true of a run, whatever handlers are
active in it. -/
theorem cancelled_or_unchanged (c : Compiler) (heap : Heap) (source text : Bytes) :
    (∀ n, c.result? heap source text ⟨some n⟩ = c.result? heap source text .never ∨
      ∃ e, c.result? heap source text ⟨some n⟩ = some (.error e) ∧ e.cause = some .cancelled) ∧
    (∀ n m, n < m → c.result? heap source text ⟨some n⟩ = c.result? heap source text .never →
      c.result? heap source text ⟨some m⟩ = c.result? heap source text .never) ∧
    ∀ fuel frames heap steps n,
      let r := Machine.run fuel ⟨frames, heap, steps, ⟨some n⟩⟩
      let r' := Machine.run fuel ⟨frames, heap, steps, .never⟩
      r.outcome = .cancelled ∨ r.outcome = r'.outcome ∧ r.heap = r'.heap := by
  obtain ⟨k, hk⟩ := c.result?_asks heap source text
  refine ⟨fun n => ?_, fun n m hnm hn => ?_, fun fuel frames heap steps n => ?_⟩
  · by_cases hnk : n < k
    · obtain ⟨e, he, hresult⟩ := (hk n).2 hnk
      exact .inr ⟨e, hresult, he⟩
    · exact .inl ((hk n).1 (by omega))
  · by_cases hnk : n < k
    · obtain ⟨e, he, hresult⟩ := (hk n).2 hnk
      exact absurd he (c.cause_of_result?_never heap source text (hn ▸ hresult))
    · exact (hk m).1 (by omega)
  · obtain ⟨k, hk⟩ := (Machine.run_decides fuel frames heap steps).asks
    by_cases hnk : n < k
    · exact .inl ((hk n).2 hnk)
    · right
      rw [(hk n).1 (by omega)]
      exact ⟨rfl, rfl⟩

/-- An inline expression is run while compiling, inside a block with a handler. -/
theorem cancelled_or_unchanged_of_inline :
    let c : Compiler := ⟨⟨.few, .standard⟩, .prelude, 4, .machine⟩
    let result := c.result? {} "t" "do :(1 + 2) on e do 3 end"
    (∃ e, result ⟨some 7⟩ = some (.error e) ∧ e.cause = some .cancelled) ∧
      ∃ fn, result ⟨some 8⟩ = some (.ok fn) ∧ ∀ m, 8 < m → result ⟨some m⟩ = some (.ok fn) := by
  intro c result
  obtain ⟨hresult, hlarger, -⟩ := cancelled_or_unchanged c {} "t" "do :(1 + 2) on e do 3 end"
  have hfunc : (c.compileText {} ⟨some 8⟩ "t" "do :(1 + 2) on e do 3 end").outcome.isFunc = true := by
    decide +kernel
  have hcancelled :
      (c.compileText {} ⟨some 7⟩ "t" "do :(1 + 2) on e do 3 end").outcome.isFunc = false := by
    decide +kernel
  obtain ⟨fn, hfn⟩ := CompileOutcome.exists_of_isFunc hfunc
  have hok : result ⟨some 8⟩ = some (.ok fn) := congrArg CompileOutcome.result? hfn
  have hnever : result .never = some (.ok fn) := by
    obtain h | ⟨e, h, -⟩ := hresult 8
    · exact h.symm.trans hok
    · cases hok.symm.trans h
  refine ⟨?_, fn, hok, fun m hm => (hlarger 8 m hm (hok.trans hnever.symm)).trans hnever⟩
  obtain h | h := hresult 7
  · exact nomatch hcancelled.symm.trans (CompileOutcome.isFunc_of_result? (h.trans hnever))
  · exact h

end Compiler

end StagedScript
