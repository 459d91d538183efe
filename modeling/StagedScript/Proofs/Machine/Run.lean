import StagedScript.Machine.Run
import StagedScript.Proofs.Machine.Heap
import Mathlib.Logic.Relation

/-!
# The states of a run

`Machine.Goes` is one instruction of a run, and `Machine.Reaches` any number of them.  A run ends in
a state that it reaches: because its steps are used up, because it is cancelled there, or with the
outcome of the next instruction.  `Machine.Arrives` follows an error to the calls that it comes to.
-/

namespace StagedScript

namespace Machine

/-- One instruction takes a run from some calls and a heap to others. -/
inductive Goes : List Frame × Heap → List Frame × Heap → Prop where
  | step {f : Frame} {rest frames : List Frame} {h h' : Heap}
      (eq : afterStep (f.step h) rest = (.ok frames, h')) : Goes (f :: rest, h) (frames, h')

/-- Some instructions take a run from some calls and a heap to others. -/
def Reaches : List Frame × Heap → List Frame × Heap → Prop := Relation.ReflTransGen Goes

theorem run_reaches (fuel : Nat) (m : Machine) :
    ∃ frames h, Reaches (m.frames, m.heap) (frames, h) ∧
      ((m.run fuel).heap = h ∧
          ((m.run fuel).outcome = .unfinished ∨ (m.run fuel).outcome = .cancelled) ∨
        ∃ f rest, frames = f :: rest ∧
          afterStep (f.step h) rest = (.error (m.run fuel).outcome, (m.run fuel).heap)) := by
  induction fuel generalizing m with
  | zero => exact ⟨m.frames, m.heap, .refl, .inl ⟨rfl, .inl rfl⟩⟩
  | succ fuel ih =>
    obtain ⟨frames, heap, steps, cancellation⟩ := m
    cases frames with
    | nil => exact ⟨[], heap, .refl, .inl ⟨rfl, .inl rfl⟩⟩
    | cons f rest =>
      unfold run
      dsimp only
      generalize (if (steps + 1) % checkInterval = 0 then cancellation.ask
        else (false, cancellation)) = asked
      obtain ⟨isCancelled, later⟩ := asked
      cases isCancelled with
      | true => exact ⟨f :: rest, heap, .refl, .inl ⟨rfl, .inr rfl⟩⟩
      | false =>
        rcases hstep : afterStep (f.step heap) rest with ⟨result, h'⟩
        cases result with
        | error outcome => exact ⟨f :: rest, heap, .refl, .inr ⟨f, rest, rfl, hstep⟩⟩
        | ok frames' =>
          obtain ⟨frames, h, hreach, hend⟩ := ih ⟨frames', h', steps + 1, later⟩
          exact ⟨frames, h, .head (.step hstep) hreach, hend⟩

/-- What holds at the start of a run and is kept by every instruction holds in every state. -/
theorem Reaches.invariant {P : List Frame → Heap → Prop}
    (hstep : ∀ f rest h frames h', P (f :: rest) h →
      afterStep (f.step h) rest = (.ok frames, h') → P frames h')
    {frames frames' : List Frame} {h h' : Heap} (hreach : Reaches (frames, h) (frames', h'))
    (hstart : P frames h) : P frames' h' := by
  have hgen : ∀ s, Reaches (frames, h) s → P s.1 s.2 := by
    intro s hs
    induction hs with
    | refl => exact hstart
    | tail _ hgo ih =>
      cases hgo with
      | step heq => exact hstep _ _ _ _ _ ih heq
  exact hgen _ hreach

/-! ### The outermost call -/

def outermost? (frames : List Frame) : Option Func := (frames.map (·.fn)).getLast?

theorem outermost?_unwind {e : Raised} {frames frames' : List Frame}
    (hok : unwind e frames = .ok frames') : outermost? frames' = outermost? frames := by
  induction frames with
  | nil => cases hok
  | cons f rest ih =>
    unfold unwind at hok
    split at hok
    · have hrest : rest ≠ [] := by
        rintro rfl
        cases hok
      rw [ih hok, outermost?, outermost?, List.map_cons, List.getLast?_cons_of_ne_nil (by simpa)]
    · split at hok
      · cases hok
      · cases hok
        simp [outermost?]

theorem outermost?_deliver {v : Value} {frames frames' : List Frame}
    (hok : deliver v frames = .ok frames') : outermost? frames' = outermost? frames := by
  cases frames with
  | nil => cases hok
  | cons f rest =>
    cases hok
    simp [outermost?, Frame.push]

theorem outermost?_enter {h : Heap} {v : Value} {args : List Value} {f : Frame}
    {rest frames' : List Frame} (hok : enter h v args (f :: rest) = .ok frames') :
    outermost? frames' = outermost? (f :: rest) := by
  unfold enter at hok
  split at hok
  · cases hok
  · exact outermost?_deliver hok
  · exact outermost?_unwind hok
  · split at hok
    · exact outermost?_unwind hok
    · split at hok
      · cases hok
      · cases hok
        simp [outermost?]

theorem outermost?_of_enter {h : Heap} {fn : Func} {args : List Value} {start : List Frame}
    (hok : enter h (.func fn) args [] = .ok start) : outermost? start = some fn := by
  have hcallee : callee h expanderLimit (.func fn) args =
      if fn.upvalues.isEmpty then .run fn none (args.map h.deref)
      else .done (.error ⟨"CallError", "function at " ++ fn.source ++ ":" ++
        Bytes.ofInt fn.startLine ++ " needs a closure"⟩) := rfl
  unfold enter at hok
  rw [hcallee] at hok
  by_cases hempty : fn.upvalues.isEmpty
  · rw [if_pos hempty] at hok
    dsimp only at hok
    rw [if_neg (by simp [maxCallDepth])] at hok
    split at hok
    · cases hok
    · rename_i frame hframe
      cases hok
      unfold Frame.start? at hframe
      dsimp only at hframe
      split at hframe
      · cases hframe
      · cases hframe
        rfl
  · rw [if_neg hempty] at hok
    cases hok

theorem Reaches.outermost? {frames frames' : List Frame} {h h' : Heap}
    (hreach : Reaches (frames, h) (frames', h')) :
    Machine.outermost? frames' = Machine.outermost? frames := by
  refine hreach.invariant (P := fun frames' _ => Machine.outermost? frames' =
    Machine.outermost? frames) ?_ rfl
  intro f rest h frames' h' hf hstep
  rw [← hf]
  have hkeeps := Frame.step_keeps f h
  cases hst : f.step h with
  | none => simp [hst, afterStep] at hstep
  | some st =>
    rw [hst] at hstep
    have hsame : ∀ f', st.frame? = some f' →
        Machine.outermost? (f' :: rest) = Machine.outermost? (f :: rest) := fun f' hf' => by
      simp [Machine.outermost?, (hkeeps st hst).fn f' hf']
    cases st with
    | next f' h₁ =>
      cases hstep
      exact hsame f' rfl
    | «return» v h₁ =>
      obtain ⟨hstep, -⟩ := Prod.mk.inj hstep
      cases rest with
      | nil => cases hstep
      | cons g rest =>
        rw [outermost?_deliver hstep]
        simp [Machine.outermost?]
    | raise e f' h₁ =>
      rw [outermost?_unwind (Prod.mk.inj hstep).1]
      exact hsame f' rfl
    | call v args f' h₁ =>
      rw [outermost?_enter (Prod.mk.inj hstep).1]
      exact hsame f' rfl

/-! ### Errors on their way -/

/-- Calling a value from some calls raises an error at once. -/
inductive Refuses (h : Heap) (v : Value) (args : List Value) (frames : List Frame) : Raised → Prop where
  | failed {e : Raised} (callee : callee h expanderLimit v args = .done (.error e)) :
      Refuses h v args frames e
  | tooDeep {fn : Func} {env : Option Nat} {params : List Value}
      (callee : callee h expanderLimit v args = .run fn env params)
      (depth : maxCallDepth ≤ frames.length) : Refuses h v args frames tooDeep

/-- The calls after the next instruction of a run. -/
def next (h : Heap) : List Frame → Except Outcome (List Frame)
  | [] => .error .unfinished
  | f :: rest => (afterStep (f.step h) rest).1

/-- An error arrives at a call.  The address is that of the instruction of this call that has raised
the error, or has made the call that the error leaves. -/
inductive Arrives (h : Heap) (frames : List Frame) (e : Raised) :
    (address : Int) → (f : Frame) → (below : List Frame) → Prop where
  | raised {f f' : Frame} {rest : List Frame} {h' : Heap} (state : frames = f :: rest)
      (step : f.step h = some (.raise e f' h')) : Arrives h frames e f.ip f' rest
  | refused {f f' : Frame} {rest : List Frame} {h' : Heap} {v : Value} {args : List Value}
      (state : frames = f :: rest) (step : f.step h = some (.call v args f' h'))
      (refuses : Refuses h' v args (f' :: rest) e) : Arrives h frames e f.ip f' rest
  | left {a : Int} {f g : Frame} {below : List Frame} (inner : Arrives h frames e a g (f :: below))
      (inactive : g.handler = noTarget) : Arrives h frames e (f.ip - 1) f below

variable {h : Heap} {frames below : List Frame} {e : Raised} {a : Int} {f : Frame}

theorem Refuses.enter {v : Value} {args : List Value} (hrefuses : Refuses h v args frames e) :
    enter h v args frames = unwind e frames := by
  unfold Machine.enter
  cases hrefuses with
  | failed hcallee => rw [hcallee]
  | tooDeep hcallee hdepth =>
    rw [hcallee]
    exact if_pos hdepth

/-- An error that arrives at a call goes on from there. -/
theorem Arrives.next (harrives : Arrives h frames e a f below) :
    next h frames = unwind e (f :: below) := by
  induction harrives with
  | raised hstate hstep =>
    subst hstate
    simp [Machine.next, hstep, afterStep]
  | refused hstate hstep hrefuses =>
    subst hstate
    simpa [Machine.next, hstep, afterStep] using hrefuses.enter
  | left _ hinactive ih =>
    rw [ih, unwind, if_pos hinactive]

theorem Arrives.outermost? (harrives : Arrives h frames e a f below) :
    outermost? frames = outermost? (f :: below) := by
  induction harrives with
  | @raised f f' rest h' hstate hstep =>
    subst hstate
    simp [Machine.outermost?, (Frame.step_keeps f h _ hstep).fn f' rfl]
  | @refused f f' rest h' v args hstate hstep =>
    subst hstate
    simp [Machine.outermost?, (Frame.step_keeps f h _ hstep).fn f' rfl]
  | left _ _ ih =>
    rw [ih]
    simp [Machine.outermost?]

end Machine

end StagedScript
