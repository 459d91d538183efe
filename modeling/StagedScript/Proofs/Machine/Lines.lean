import StagedScript.Code.Builder
import StagedScript.Machine.Run
import StagedScript.Proofs.Machine.Heap

/-!
# Runs and lines

Lines are there for listings and messages.  A call of a function that captures nothing gives the
same when the lines of its own code are forgotten.
-/

variable {fs fs' : List Frame}

namespace StagedScript

def Inst.withoutLine (i : Inst) : Inst := { i with line := 0 }

def Code.withoutLines (c : Code) : Code := { c with blocks := c.blocks.map (·.map Inst.withoutLine) }

def Func.withoutLines (fn : Func) : Func :=
  { fn with source := [], startLine := 0, endLine := 0, code := fn.code.map Code.withoutLines }

/-! ### Layout -/

namespace Builder

def withoutLines (b : Builder) : Builder := { b with insts := b.insts.map Inst.withoutLine }

theorem withoutLine_setTarget (i : Inst) (entry : Option Nat) (address : Int) :
    (setTarget i entry address).withoutLine = setTarget i.withoutLine entry address := by
  cases entry <;> rfl

theorem resolved_withoutLines (b : Builder) :
    b.withoutLines.resolved = b.resolved.map Inst.withoutLine := by
  unfold resolved
  rw [← Array.foldl_toList, ← Array.foldl_toList]
  change b.sites.toList.foldl _ (b.insts.map Inst.withoutLine) = _
  generalize b.insts = insts
  induction b.sites.toList generalizing insts with
  | nil => rfl
  | cons site sites ih =>
    rw [List.foldl_cons, List.foldl_cons, ← ih]
    congr 1
    ext k
    · simp
    · simp only [Array.getElem_map, Array.getElem_modify]
      split
      · exact (withoutLine_setTarget ..).symm
      · rfl

theorem consFirst_withoutLines (i : Inst) (blocks : List (List Inst)) :
    (consFirst i blocks).map (·.map Inst.withoutLine) =
      consFirst i.withoutLine (blocks.map (·.map Inst.withoutLine)) := by
  cases blocks <;> rfl

theorem layout_withoutLines (size block used : Nat) (insts : List Inst) :
    layout size block used (insts.map Inst.withoutLine) =
      (layout size block used insts).map (·.map Inst.withoutLine) := by
  induction insts generalizing block used with
  | nil => rfl
  | cons i insts ih =>
    simp only [List.map_cons, layout, ih]
    split
    · rw [List.map_cons, consFirst_withoutLines]
      rfl
    · rw [consFirst_withoutLines]

theorem finish_withoutLines (b : Builder) :
    b.withoutLines.finish = b.finish.map Code.withoutLines := by
  have hunresolved : (List.range b.withoutLines.aims.size).findSome? b.withoutLines.unresolved? =
    (List.range b.aims.size).findSome? b.unresolved? := rfl
  unfold finish
  rw [hunresolved]
  cases (List.range b.aims.size).findSome? b.unresolved? with
  | some u => rfl
  | none =>
    simp only [Except.map, codeOf, resolved_withoutLines, Array.toList_map, layout_withoutLines]
    rfl

end Builder

theorem Code.at?_withoutLines (c : Code) (address : Int) :
    c.withoutLines.at? address = (c.at? address).map Inst.withoutLine := by
  unfold Code.at? Code.withoutLines
  split
  · rfl
  · simp only [List.getElem?_map]
    cases c.blocks[address.toNat / c.blockSize.toNat]? <;> simp

/-! ### Runs -/

namespace Frame

def withFn (fn : Func) (f : Frame) : Frame := { f with fn }

end Frame

def Step.withFn (fn : Func) : Step → Step
  | .next f h => .next (f.withFn fn) h
  | .return v h => .return v h
  | .raise e f h => .raise e (f.withFn fn) h
  | .call v args f h => .call v args (f.withFn fn) h

namespace Frame

variable (fn : Func) (i : Inst) (f : Frame) (h : Heap)

theorem bind_map {α : Type} {o : Option α} {k k' : α → Option Step} {m : Step → Step}
    (hk : ∀ a, k' a = (k a).map m) : (o >>= k') = (o >>= k).map m := by
  cases o with
  | none => rfl
  | some a => exact hk a

theorem stepSlot_withFn : stepSlot i (f.withFn fn) h = (stepSlot i f h).map (Step.withFn fn) := by
  unfold stepSlot
  split
  all_goals repeat' first
    | refine bind_map fun _ => ?_
    | split
  all_goals rfl

theorem stepControl_withFn :
    stepControl i (f.withFn fn) h = (stepControl i f h).map (Step.withFn fn) := by
  unfold stepControl
  split
  all_goals repeat' first
    | refine bind_map fun _ => ?_
    | split
  all_goals rfl

theorem unpack_withFn (v : Value) (count : Int) :
    (f.withFn fn).unpack h v count = (f.unpack h v count).map (Step.withFn fn) := by
  unfold unpack
  dsimp only
  repeat' split
  all_goals rfl

theorem stepData_withFn : stepData i (f.withFn fn) h = (stepData i f h).map (Step.withFn fn) := by
  unfold stepData
  split
  case h_5 => exact bind_map fun _ => unpack_withFn fn (f.withStack _) h _ _
  case h_10 | h_20 =>
    refine bind_map fun _ => ?_
    dsimp only
    repeat' split
    all_goals rfl
  all_goals repeat' first
    | refine bind_map fun _ => ?_
    | split
  all_goals rfl

theorem execute_withFn : execute i (f.withFn fn) h = (execute i f h).map (Step.withFn fn) := by
  unfold execute
  split
  all_goals first
    | exact stepSlot_withFn fn i f h
    | exact stepControl_withFn fn i f h
    | exact stepData_withFn fn i f h

theorem execute_withoutLine : execute i.withoutLine f h = execute i f h := rfl

/-- A call goes on in the same way without the lines of its code. -/
theorem step_withoutLines :
    (f.withFn f.fn.withoutLines).step h = (f.step h).map (Step.withFn f.fn.withoutLines) := by
  have hcode : (f.withFn f.fn.withoutLines).fn.code = f.fn.code.map Code.withoutLines := rfl
  have hip : (f.withFn f.fn.withoutLines).ip = f.ip := rfl
  unfold step
  dsimp only
  rw [hcode, hip]
  cases f.fn.code with
  | none =>
    dsimp only [Option.map_none]
    split <;> rfl
  | some code =>
    simp only [Option.map_some, Code.at?_withoutLines]
    cases code.at? f.ip with
    | none => rfl
    | some i =>
      simp only [Option.map_some, execute_withoutLine]
      exact execute_withFn f.fn.withoutLines i { f with ip := wrapInt (f.ip + 1) } h

theorem start?_withoutLines (fn : Func) (env : Option Nat) (args : List Value) :
    start? fn.withoutLines env args = (start? fn env args).map (withFn fn.withoutLines) := by
  unfold start?
  dsimp only
  rw [apply_ite (Option.map (withFn fn.withoutLines))]
  rfl

theorem fn_of_start? {fn : Func} {env : Option Nat} {args : List Value} {f : Frame}
    (h : start? fn env args = some f) : f.fn = fn := by
  unfold start? at h
  dsimp only at h
  split at h
  · cases h
  · cases h
    rfl

end Frame

namespace Machine

/-- The calls of two runs are the same, but for the lines of the outermost one. -/
inductive Forgets : List Frame → List Frame → Prop where
  | outermost (f : Frame) : Forgets [f] [f.withFn f.fn.withoutLines]
  | inner (f : Frame) {fs fs' : List Frame} (h : Forgets fs fs') : Forgets (f :: fs) (f :: fs')

/-- Both runs end with the same outcome, or go on with the same calls. -/
inductive ForgetsAfter : Except Outcome (List Frame) → Except Outcome (List Frame) → Prop where
  | error (o : Outcome) : ForgetsAfter (.error o) (.error o)
  | ok {fs fs' : List Frame} (h : Forgets fs fs') : ForgetsAfter (.ok fs) (.ok fs')

theorem Forgets.length (h : Forgets fs fs') : fs'.length = fs.length := by
  induction h with
  | outermost => rfl
  | inner f h ih => simp [ih]

theorem Forgets.unwind (e : Raised) (h : Forgets fs fs') :
    ForgetsAfter (unwind e fs) (Machine.unwind e fs') := by
  induction h with
  | outermost f =>
    have hsame : (f.withFn f.fn.withoutLines).handler = f.handler := rfl
    unfold Machine.unwind
    by_cases hhandler : f.handler = noTarget
    · rw [if_pos hhandler, if_pos (hsame.trans hhandler)]
      exact .error _
    · rw [if_neg hhandler, if_neg (hsame ▸ hhandler)]
      have hcut : (f.withFn f.fn.withoutLines).stack.cut?
          (f.withFn f.fn.withoutLines).handlerDepth = f.stack.cut? f.handlerDepth := rfl
      rw [hcut]
      cases f.stack.cut? f.handlerDepth with
      | none => exact .error _
      | some s =>
        exact .ok (.outermost { f with
          stack := s.push (.error e.type e.message), ip := f.handler, handler := noTarget })
  | inner f h ih =>
    simp only [Machine.unwind]
    split
    · exact ih
    · split
      · exact .error _
      · exact .ok (.inner _ h)

theorem Forgets.deliver (v : Value) (h : Forgets fs fs') :
    ForgetsAfter (deliver v fs) (Machine.deliver v fs') := by
  cases h with
  | outermost f => exact .ok (.outermost (f.push v))
  | inner f h => exact .ok (.inner _ h)

theorem Forgets.enter (heap : Heap) (v : Value) (args : List Value)
    (h : Forgets fs fs') : ForgetsAfter (enter heap v args fs) (Machine.enter heap v args fs') := by
  unfold Machine.enter
  split
  · exact .error _
  · exact h.deliver _
  · exact h.unwind _
  · rw [h.length]
    split
    · exact h.unwind _
    · split
      · exact .error _
      · exact .ok (.inner _ h)

theorem Forgets.afterStep (heap : Heap) {f f' : Frame}
    (h : Forgets (f :: fs) (f' :: fs')) :
    ForgetsAfter (afterStep (f.step heap) fs).1 (Machine.afterStep (f'.step heap) fs').1 ∧
      (Machine.afterStep (f'.step heap) fs').2 = (Machine.afterStep (f.step heap) fs).2 := by
  cases h with
  | outermost =>
    have hkeeps := Frame.step_keeps f heap
    rw [Frame.step_withoutLines]
    generalize f.step heap = step at hkeeps
    have hfn {st : Step} {g : Frame} (hst : step = some st) (hg : st.frame? = some g) :
        Forgets [g] [g.withFn f.fn.withoutLines] := by
      rw [← (hkeeps st hst).fn g hg]
      exact .outermost g
    match step with
    | none => exact ⟨.error _, rfl⟩
    | some (.next g heap') => exact ⟨.ok (hfn rfl rfl), rfl⟩
    | some (.return v heap') => exact ⟨.error _, rfl⟩
    | some (.raise e g heap') => exact ⟨(hfn rfl rfl).unwind e, rfl⟩
    | some (.call v args g heap') => exact ⟨(hfn rfl rfl).enter _ v args, rfl⟩
  | inner f h =>
    generalize f.step heap = step
    match step with
    | none => exact ⟨.error _, rfl⟩
    | some (.next g heap') => exact ⟨.ok (.inner g h), rfl⟩
    | some (.return v heap') => exact ⟨h.deliver v, rfl⟩
    | some (.raise e g heap') => exact ⟨(Forgets.inner g h).unwind e, rfl⟩
    | some (.call v args g heap') => exact ⟨(Forgets.inner g h).enter _ v args, rfl⟩

theorem run_forgets (fuel : Nat) (h : Forgets fs fs') (heap : Heap)
    (steps : Nat) (cancellation : Cancellation) :
    run fuel ⟨fs', heap, steps, cancellation⟩ = run fuel ⟨fs, heap, steps, cancellation⟩ := by
  induction fuel generalizing fs fs' heap steps cancellation with
  | zero => rfl
  | succ fuel ih =>
    obtain ⟨f, rest, f', rest', rfl, rfl⟩ : ∃ f rest f' rest', fs = f :: rest ∧ fs' = f' :: rest' := by
      cases h <;> exact ⟨_, _, _, _, rfl, rfl⟩
    obtain ⟨hafter, hheap⟩ := h.afterStep heap
    unfold run
    dsimp only
    -- both runs have made the same number of steps, so they ask at the same time
    generalize (if (steps + 1) % checkInterval = 0 then cancellation.ask else (false, cancellation))
      = asked
    obtain ⟨isCancelled, cancellation⟩ := asked
    dsimp only
    cases isCancelled with
    | true => rfl
    | false =>
      generalize afterStep (f.step heap) rest = left at hafter hheap
      generalize afterStep (f'.step heap) rest' = right at hafter hheap
      obtain ⟨left, heap'⟩ := left
      obtain ⟨right, heap''⟩ := right
      obtain rfl : heap'' = heap' := hheap
      cases hafter with
      | error o => rfl
      | ok h => exact ih h _ _ _

/-- A call of a function that captures nothing runs its code. -/
theorem callWithin_func {fn : Func} (hupvalues : fn.upvalues = []) (fuel : Nat) (heap : Heap)
    (cancellation : Cancellation) (args : List Value) :
    callWithin fuel heap cancellation (.func fn) args =
      match Frame.start? fn none (args.map heap.deref) with
      | none => ⟨.stuck, heap, cancellation⟩
      | some frame => run fuel ⟨[frame], heap, 0, cancellation⟩ := by
  have hcallee : callee heap expanderLimit (.func fn) args = .run fn none (args.map heap.deref) := by
    change (if fn.upvalues.isEmpty then _ else _) = _
    rw [hupvalues]
    rfl
  have hdepth : ¬ maxCallDepth ≤ ([] : List Frame).length := by decide
  simp only [callWithin, enter, hcallee, if_neg hdepth]
  cases Frame.start? fn none (args.map heap.deref) <;> rfl

/-- A call of a function that captures nothing does not depend on the lines of its code. -/
theorem call_withoutLines {fn : Func} (hupvalues : fn.upvalues = []) (heap : Heap)
    (cancellation : Cancellation) (args : List Value) :
    call heap cancellation (.func fn.withoutLines) args = call heap cancellation (.func fn) args := by
  have hupvalues' : fn.withoutLines.upvalues = [] := hupvalues
  unfold call
  rw [callWithin_func hupvalues, callWithin_func hupvalues', Frame.start?_withoutLines]
  cases hstart : Frame.start? fn none (args.map heap.deref) with
  | none => rfl
  | some frame =>
    have houtermost := Forgets.outermost frame
    rw [Frame.fn_of_start? hstart] at houtermost
    exact run_forgets stepLimit houtermost heap 0 cancellation

end Machine

end StagedScript
