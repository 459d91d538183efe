import StagedScript.Proofs.Sound.Step
import StagedScript.Proofs.Typing.Run

/-!
# Runs of sound functions

In a run that starts with a sound function and sound arguments every call is one of a sound
function, so no instruction lacks what it needs.  An iterator belongs to one slot of one call, and
is at an element as long as it is there.
-/

namespace StagedScript

def Heap.Sound (h : Heap) : Prop := h.AllSound h.capturedCount?

theorem Heap.Grows.extends {h h' : Heap} (hg : h.Grows h') :
    CapturedCounts.Extends h.capturedCount? h'.capturedCount? := hg.captured

/-- A call is one of a sound function, with sound values on its stack and all captured values. -/
structure Frame.Sound (h : Heap) (f : Frame) : Prop where
  fn : f.fn.Sound h.capturedCount?
  stack : f.stack.AllSound h.capturedCount?
  captured : f.HasCaptured h f.fn.upvalues.length

theorem Frame.Sound.mono {h h' : Heap} {f : Frame} (hf : f.Sound h) (hg : h.Grows h') :
    f.Sound h' :=
  ⟨hf.fn.mono hg.extends, hf.stack.mono hg.extends, hf.captured.mono hg⟩

namespace Machine

variable {f : Frame} {frames rest : List Frame} {h h' : Heap} {its own own' others : List Nat}
  {v fn : Value} {args : List Value}

/-- Iterators are different and at an element. -/
def Owned (h : Heap) (its : List Nat) : Prop := its.Nodup ∧ ∀ n ∈ its, h.Live n

theorem Owned.lt (ho : Owned h its) {n : Nat} (hn : n ∈ its) : n < h.iterations.size := by
  obtain ⟨it, hit, -⟩ := ho.2 n hn
  exact (Array.getElem?_eq_some_iff.1 hit).1

theorem Owned.sublist (ho : Owned h its) {its' : List Nat} (hsub : its'.Sublist its) :
    Owned h its' :=
  ⟨ho.1.sublist hsub, fun n hn => ho.2 n (hsub.subset hn)⟩

theorem Owned.moves (ho : Owned h (own ++ others)) (hm : Moves h h' own own') :
    Owned h' (own' ++ others) := by
  obtain ⟨hown, hothers, hdisjoint⟩ := List.nodup_append.1 ho.1
  have hlt : ∀ n ∈ own, n < h.iterations.size := fun n hn => ho.lt (List.mem_append_left _ hn)
  refine ⟨List.nodup_append.2 ⟨hm.nodup hown hlt, hothers, fun n hn m hm' => ?_⟩, fun n hn => ?_⟩
  · rcases hm.origin n hn with hn | rfl
    · exact hdisjoint n hn m hm'
    · exact Nat.ne_of_gt (ho.lt (List.mem_append_right own hm'))
  · rcases List.mem_append.1 hn with hn | hn
    · exact hm.live hown (fun n hn => ho.2 n (List.mem_append_left _ hn)) n hn
    · have hlive := ho.2 n (List.mem_append_right own hn)
      have hnot : n ∉ own := fun hn' => hdisjoint n hn' n hn rfl
      unfold Heap.Live at *
      rwa [hm.others n hnot (ho.lt (List.mem_append_right own hn))]

/-- Sound calls that wait for a value, with all their iterators. -/
def WaitingCalls : List Frame → Heap → List Nat → Prop
  | [], _, its => its = []
  | f :: rest, h, its =>
    f.Sound h ∧ ∃ own others, its = own ++ others ∧ f.Waiting h own ∧ WaitingCalls rest h others

/-- The innermost call runs, the others wait, and all iterators have one owner. -/
def SoundCalls (frames : List Frame) (h : Heap) : Prop :=
  ∃ f rest own others, frames = f :: rest ∧ h.Sound ∧ f.Sound h ∧ f.Running h own ∧
    WaitingCalls rest h others ∧ Owned h (own ++ others)

/-- A run goes on with sound calls, or it ends, but not at an instruction without meaning. -/
def EndsSound (h : Heap) : Except Outcome (List Frame) → Prop
  | .ok frames => SoundCalls frames h
  | .error outcome => outcome ≠ .stuck ∧ ∀ v, outcome = .value v → v.Sound h.capturedCount?

theorem WaitingCalls.mono (hw : WaitingCalls rest h its) (hg : h.Grows h') :
    WaitingCalls rest h' its := by
  induction rest generalizing its with
  | nil => exact hw
  | cons f rest ih =>
    obtain ⟨hf, own, others, rfl, hown, hothers⟩ := hw
    exact ⟨hf.mono hg, own, others, rfl, hown.mono hg, ih hothers⟩

theorem WaitingCalls.deliver (hw : WaitingCalls rest h its) (ho : Owned h its) (hh : h.Sound)
    (hv : v.Sound h.capturedCount?) : EndsSound h (deliver v rest) := by
  cases rest with
  | nil => exact ⟨nofun, fun w hw => by cases hw; exact hv⟩
  | cons f rest =>
    obtain ⟨hf, own, others, rfl, hown, hothers⟩ := hw
    exact ⟨_, rest, own, others, rfl, hh, ⟨hf.fn, hf.stack.push hv, hf.captured⟩, hown.deliver v,
      hothers, ho⟩

theorem handled_sound {e : Raised} (hf : f.Sound h) (hr : f.Raising h own)
    (hw : WaitingCalls rest h others) (ho : Owned h (own ++ others)) (hh : h.Sound)
    (hactive : f.handler ≠ noTarget) : EndsSound h (unwind e (f :: rest)) := by
  obtain ⟨s, own', hs, hsub, hrun⟩ := hr.handle hactive (.error e.type e.message)
  rw [unwind, if_neg hactive, hs]
  refine ⟨_, rest, own', others, rfl, hh, ⟨hf.fn, ?_, hf.captured⟩, hrun, hw,
    ho.sublist (hsub.append_right others)⟩
  exact (hf.stack.cut? hs).push trivial

theorem WaitingCalls.unwind {e : Raised} (hw : WaitingCalls rest h its) (ho : Owned h its)
    (hh : h.Sound) : EndsSound h (unwind e rest) := by
  induction rest generalizing its with
  | nil => exact ⟨nofun, nofun⟩
  | cons f rest ih =>
    obtain ⟨hf, own, others, rfl, hown, hothers⟩ := hw
    by_cases hactive : f.handler = noTarget
    · rw [Machine.unwind, if_pos hactive]
      exact ih hothers (ho.sublist (List.sublist_append_right own others))
    · exact handled_sound hf hown.raising hothers ho hh hactive

theorem unwind_sound {e : Raised} (hf : f.Sound h) (hr : f.Raising h own)
    (hw : WaitingCalls rest h others) (ho : Owned h (own ++ others)) (hh : h.Sound) :
    EndsSound h (unwind e (f :: rest)) := by
  by_cases hactive : f.handler = noTarget
  · rw [Machine.unwind, if_pos hactive]
    exact hw.unwind (ho.sublist (List.sublist_append_right own others)) hh
  · exact handled_sound hf hr hw ho hh hactive

/-- What calling a sound value with sound arguments amounts to. -/
def Callee.Sound (h : Heap) : Callee → Prop
  | .run fn env args =>
    fn.Sound h.capturedCount? ∧ (∀ v ∈ args, v.Sound h.capturedCount?) ∧
      (fn.upvalues.length = 0 ∨
        ∃ e, env = some e ∧ h.capturedCount? e = some fn.upvalues.length)
  | .done (.ok v) => v.Sound h.capturedCount?
  | .done (.error _) | .endless => True

theorem callee_sound (hh : h.Sound) (fuel : Nat) (hfn : fn.Sound h.capturedCount?)
    (hargs : ∀ v ∈ args, v.Sound h.capturedCount?) : (callee h fuel fn args).Sound h := by
  induction fuel generalizing fn args with
  | zero => trivial
  | succ fuel ih =>
    have hargs : ∀ v ∈ args.map h.deref, v.Sound h.capturedCount? := by
      intro v hv
      obtain ⟨w, hw, rfl⟩ := List.mem_map.1 hv
      exact hh.deref (hargs w hw)
    have hfn := hh.deref hfn
    unfold callee
    dsimp only
    split
    · rename_i g env heq
      rw [heq] at hfn
      exact ⟨hfn.1, hargs, .inr ⟨env, rfl, hfn.2⟩⟩
    · rename_i g heq
      rw [heq] at hfn
      split
      · rename_i hempty
        exact ⟨hfn, hargs, .inl (List.length_eq_zero_iff.2 (List.isEmpty_iff.1 hempty))⟩
      · trivial
    · rename_i name action heq
      rw [heq] at hfn
      cases hr : action.apply h.shown (args.map h.deref) with
      | ok v => exact Host.Sound.apply hfn hargs hr
      | error e => trivial
    · rename_i name heq
      cases hr : Method.call name (args.map h.deref) with
      | ok v => exact Method.call_sound hargs hr
      | error e => trivial
    · rename_i name inner arity heq
      rw [heq] at hfn
      exact ih hfn hargs
    · trivial

theorem bindParameters_sound {z : CapturedCounts} {g : Func} {count : Nat}
    (hargs : ∀ v ∈ args, v.Sound z) : ∀ v ∈ Frame.bindParameters g count args, v.Sound z := by
  have filled : ∀ n, ∀ v ∈ args.take n ++ List.replicate (n - args.length) .nil, v.Sound z := by
    intro n v hv
    rcases List.mem_append.1 hv with hv | hv
    · exact hargs v (List.mem_of_mem_take hv)
    · obtain ⟨-, rfl⟩ := List.mem_replicate.1 hv
      trivial
  intro v hv
  unfold Frame.bindParameters at hv
  split at hv
  · rcases List.mem_append.1 hv with hv | hv
    · exact filled _ v hv
    · obtain rfl := List.mem_singleton.1 hv
      exact Value.allSound_iff.2 fun w hw => hargs w (List.mem_of_mem_drop hw)
  · exact filled _ v hv

theorem WaitingCalls.enter (hw : WaitingCalls rest h its) (ho : Owned h its) (hh : h.Sound)
    (hfn : fn.Sound h.capturedCount?) (hargs : ∀ v ∈ args, v.Sound h.capturedCount?) :
    EndsSound h (enter h fn args rest) := by
  have hcallee := callee_sound hh expanderLimit hfn hargs
  unfold Machine.enter
  split
  · exact ⟨nofun, nofun⟩
  · rename_i v heq
    rw [heq] at hcallee
    exact hw.deliver ho hh hcallee
  · exact hw.unwind ho hh
  · rename_i g env args' heq
    rw [heq] at hcallee
    obtain ⟨hg, hargs', henv⟩ := hcallee
    split
    · exact hw.unwind ho hh
    · obtain ⟨f, hf, hffn, hfenv, hrun⟩ := Frame.exists_start? hg.isTyped env args' h
      rw [hf]
      refine ⟨f, rest, [], its, rfl, hh, ⟨hffn ▸ hg, ?_, ?_⟩, hrun, hw, ho⟩
      · unfold Frame.start? at hf
        dsimp only at hf
        split at hf
        · cases hf
        · cases hf
          intro i v hv
          exact bindParameters_sound hargs' v (List.mem_of_getElem? (by simpa using hv))
      · unfold Frame.HasCaptured
        rw [hffn, hfenv]
        exact henv

/-- One instruction of sound calls has a meaning, and keeps them sound. -/
theorem SoundCalls.step (hcalls : SoundCalls (f :: rest) h) :
    h.Grows (afterStep (f.step h) rest).2 ∧ (afterStep (f.step h) rest).2.Sound ∧
      EndsSound (afterStep (f.step h) rest).2 (afterStep (f.step h) rest).1 := by
  obtain ⟨f, rest, own, others, heq, hh, hf, hrun, hw, ho⟩ := hcalls
  cases heq
  obtain ⟨code, i, -, -, -, ⟨-, hwhy⟩ | ⟨st, own', hst, hsustains, hmoves⟩⟩ := hrun.step
  -- an instruction without a meaning would lack what sound calls have
  · rcases hwhy with ⟨-, n, hn, -, hdead⟩ | hlacks
    · exact absurd (ho.2 n (List.mem_append_left _ hn)) hdead
    · exact absurd hf.captured hlacks
  · have hkeeps := Frame.step_keeps f h st hst
    have hg := hkeeps.grows
    have hsound : st.Sound st.heap.capturedCount? :=
      Frame.step_sound (hf.mono hg).fn (hf.mono hg).stack (hh.mono hg.extends) st hst
        fun _ _ => id
    have ho' := ho.moves hmoves
    have hw' := hw.mono hg
    have hframe : ∀ f', st.frame? = some f' → f'.stack.AllSound st.heap.capturedCount? →
        f'.Sound st.heap := fun f' hf' hstack =>
      ⟨hkeeps.fn f' hf' ▸ (hf.mono hg).fn, hstack, by
        rw [hkeeps.fn f' hf']
        have := (hf.mono hg).captured
        unfold Frame.HasCaptured at *
        rwa [hkeeps.env f' hf']⟩
    rw [hst]
    cases st with
    | next f' h' =>
      exact ⟨hg, hsound.2, f', rest, own', others, rfl, hsound.2, hframe f' rfl hsound.1, hsustains,
        hw', ho'⟩
    | «return» v h' =>
      exact ⟨hg, hsound.2, hw'.deliver (ho'.sublist (List.sublist_append_right own' others))
        hsound.2 hsound.1⟩
    | raise e f' h' =>
      exact ⟨hg, hsound.2, unwind_sound (hframe f' rfl hsound.1) hsustains hw' ho' hsound.2⟩
    | call fn args f' h' =>
      obtain ⟨⟨hfn, hargs⟩, hstack, hheap⟩ := hsound
      exact ⟨hg, hheap, WaitingCalls.enter ⟨hframe f' rfl hstack, own', others, rfl, hsustains, hw'⟩
        ho' hheap hfn hargs⟩

/-- Calls stay sound in every state of a run. -/
theorem SoundCalls.reaches {frames' : List Frame} (hcalls : SoundCalls frames h)
    (hreach : Reaches (frames, h) (frames', h')) : SoundCalls frames' h' ∧ h.Grows h' := by
  refine hreach.invariant (P := fun frames' h' => SoundCalls frames' h' ∧ h.Grows h') ?_
    ⟨hcalls, .refl h⟩
  rintro f rest h₁ frames h₂ ⟨hcalls, hg⟩ heq
  have hstep := hcalls.step
  rw [heq] at hstep
  exact ⟨hstep.2.2, hg.trans hstep.1⟩

structure Result.Sound (h : Heap) (r : Result) : Prop where
  grows : h.Grows r.heap
  heap : r.heap.Sound
  outcome : r.outcome ≠ .stuck
  value : ∀ v, r.outcome = .value v → v.Sound r.heap.capturedCount?

theorem SoundCalls.heap (hcalls : SoundCalls frames h) : h.Sound := by
  obtain ⟨f, rest, own, others, -, hh, -⟩ := hcalls
  exact hh

/-- A run of sound calls never gets stuck, and its result is sound. -/
theorem SoundCalls.run (hcalls : SoundCalls frames h) (fuel steps : Nat)
    (cancellation : Cancellation) :
    (run fuel ⟨frames, h, steps, cancellation⟩).Sound h := by
  obtain ⟨frames', h', hreach, hend⟩ := run_reaches fuel ⟨frames, h, steps, cancellation⟩
  generalize Machine.run fuel ⟨frames, h, steps, cancellation⟩ = r at hend
  obtain ⟨hcalls', hg⟩ := hcalls.reaches hreach
  rcases hend with ⟨rfl, ho | ho⟩ | ⟨f, rest, rfl, heq⟩
  · exact ⟨hg, hcalls'.heap, by simp [ho], by simp [ho]⟩
  · exact ⟨hg, hcalls'.heap, by simp [ho], by simp [ho]⟩
  · have hstep := hcalls'.step
    rw [heq] at hstep
    exact ⟨hg.trans hstep.1, hstep.2.1, hstep.2.2.1, hstep.2.2.2⟩

/-- A call of a sound value with sound arguments never gets stuck, and its result is sound. -/
theorem callWithin_sound (hh : h.Sound) (hfn : fn.Sound h.capturedCount?)
    (hargs : ∀ v ∈ args, v.Sound h.capturedCount?) (fuel : Nat) (cancellation : Cancellation) :
    (callWithin fuel h cancellation fn args).Sound h := by
  have hwait : WaitingCalls [] h [] := rfl
  have hends := hwait.enter ⟨.nil, nofun⟩ hh hfn hargs
  unfold callWithin
  split
  · rename_i outcome heq
    rw [heq] at hends
    exact ⟨.refl h, hh, hends.1, hends.2⟩
  · rename_i frames heq
    rw [heq] at hends
    exact hends.run fuel 0 cancellation

end Machine

end StagedScript
