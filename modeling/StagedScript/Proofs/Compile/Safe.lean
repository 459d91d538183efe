import StagedScript.Proofs.Compile.Verified
import StagedScript.Proofs.Sound.Safe

/-!
# Runs of compiled functions are safe

What a text compiles to is sound, so every state of a run of it is safe, and so is every state of a
run of a closure that it has made.  A closure may be given functions that were never compiled; then
only the steps of its own calls are known to be safe.
-/

namespace StagedScript

namespace Machine

variable {h : Heap} {fn : Func} {v : Value} {args : List Value} {frames frames' : List Frame}
  {h' : Heap}

theorem enter_of_numParams_eq_zero (hn : fn.numParams = 0) (args : List Value)
    (frames : List Frame) : enter h (.func fn) args frames = enter h (.func fn) [] frames := by
  have hstart : ∀ env args, Frame.start? fn env args = Frame.start? fn env [] := by
    intro env args
    simp [Frame.start?, Frame.bindParameters, hn]
  have hcallee : ∀ args, callee h expanderLimit (.func fn) args =
      if fn.upvalues.isEmpty then .run fn none (args.map h.deref)
      else .done (.error ⟨"CallError", "function at " ++ fn.source ++ ":" ++
        Bytes.ofInt fn.startLine ++ " needs a closure"⟩) := fun _ => rfl
  unfold enter
  rw [hcallee, hcallee]
  by_cases hempty : fn.upvalues.isEmpty
  · simp only [hempty, if_true]
    rw [hstart, hstart none (List.map h.deref [])]
  · simp only [hempty]
    rfl

theorem WaitingCalls.sound_of_mem {its : List Nat} (hw : WaitingCalls frames h its) {f : Frame}
    (hf : f ∈ frames) : f.Sound h := by
  induction frames generalizing its with
  | nil => cases hf
  | cons g rest ih =>
    obtain ⟨hg, own, others, -, -, hothers⟩ := hw
    rcases List.mem_cons.1 hf with rfl | hf
    · exact hg
    · exact ih hothers hf

/-- All calls in a state of a sound run are sound. -/
theorem SoundCalls.sound_of_mem (hcalls : SoundCalls frames h) {f : Frame} (hf : f ∈ frames) :
    f.Sound h := by
  obtain ⟨g, rest, own, others, rfl, -, hg, -, hw, -⟩ := hcalls
  rcases List.mem_cons.1 hf with rfl | hf
  · exact hg
  · exact hw.sound_of_mem hf

/-- A call of a value with arguments can be begun, it never gets stuck, and every state of its run is
safe. -/
structure SafeCall (h : Heap) (v : Value) (args : List Value) : Prop where
  outcome : ∀ cancellation, (call h cancellation v args).outcome ≠ .stuck
  states : ∀ start frames h', enter h v args [] = .ok start →
    Reaches (start, h) (frames, h') → Safe frames h'

theorem soundCalls_of_enter (hh : h.Sound) (hv : v.Sound h.capturedCount?)
    (hargs : ∀ a ∈ args, a.Sound h.capturedCount?) (henter : enter h v args [] = .ok frames)
    (hreach : Reaches (frames, h) (frames', h')) : SoundCalls frames' h' := by
  have hwait : WaitingCalls [] h [] := rfl
  have hends := hwait.enter ⟨.nil, nofun⟩ hh hv hargs
  rw [henter] at hends
  exact (SoundCalls.reaches hends hreach).1

theorem safeCall_of_sound (hh : h.Sound) (hv : v.Sound h.capturedCount?)
    (hargs : ∀ a ∈ args, a.Sound h.capturedCount?) : SafeCall h v args where
  outcome cancellation := (callWithin_sound hh hv hargs stepLimit cancellation).outcome
  states _ _ _ henter hreach := (soundCalls_of_enter hh hv hargs henter hreach).safe

/-- Whether a call of a function without parameters is safe does not depend on the arguments. -/
theorem SafeCall.of_numParams_eq_zero (hn : fn.numParams = 0) (hcall : SafeCall h (.func fn) [])
    (args : List Value) : SafeCall h (.func fn) args where
  outcome cancellation := by
    have := hcall.outcome cancellation
    unfold call callWithin at this ⊢
    rwa [enter_of_numParams_eq_zero hn]
  states start frames h' henter := by
    rw [enter_of_numParams_eq_zero hn] at henter
    exact hcall.states start frames h' henter

theorem Reaches.grows (hreach : Reaches (frames, h) (frames', h')) : h.Grows h' := by
  refine hreach.invariant (P := fun _ h' => h.Grows h') ?_ (.refl h)
  intro f rest h₁ frames₂ h₂ hgrows heq
  cases hst : f.step h₁ with
  | none => simp [hst, afterStep] at heq
  | some st =>
    have hkeeps := Frame.step_keeps f h₁ st hst
    have hheap : st.heap = h₂ := by
      rw [hst] at heq
      cases st <;> simp only [afterStep, Prod.mk.injEq] at heq <;> exact heq.2
    exact hgrows.trans (hheap ▸ hkeeps.grows)

/-- The steps of the calls of a closure are safe in a state, whatever other functions are called. -/
structure SafeWithin (c : Func) (env : Nat) (frames : List Frame) (h : Heap) : Prop where
  next : ∀ f rest, frames = f :: rest → f.fn = c → f.env = some env →
    ∃ code i, c.code = some code ∧ code.at? f.ip = some i ∧ f.Finds h i ∧
      ∀ st, f.step h = some st → st.HandlerFits
  waiting : ∀ f ∈ frames.tail, f.fn = c → f.HandlerFits

theorem TypedCalls.safeWithin {c : Func} {env : Nat} (hcalls : TypedCalls frames h)
    (hc : c.IsTyped) (henv : h.capturedCount? env = some c.upvalues.length) :
    SafeWithin c env frames h := by
  cases frames with
  | nil => exact ⟨nofun, nofun⟩
  | cons f rest =>
    obtain ⟨hf, hrest⟩ := hcalls
    constructor
    · rintro _ _ ⟨⟩ rfl hfenv
      obtain ⟨code, points, hcode, ht⟩ := hc
      obtain ⟨its, hrun⟩ := hf code points hcode ht
      have hrun : f.Running h its := ⟨code, points, hcode, ht, hrun⟩
      obtain ⟨code, i, hcode, hi, hfinds⟩ := hrun.finds (.inr ⟨env, hfenv, henv⟩)
      refine ⟨code, i, hcode, hi, hfinds, fun st hst => ?_⟩
      obtain ⟨_, _, -, -, -, ⟨hnone, -⟩ | ⟨st', its', hst', hsustains, -⟩⟩ := hrun.step
      · simp [hst] at hnone
      · cases Option.some.inj (hst.symm.trans hst')
        exact Step.Sustains.handlerFits hsustains
    · intro g hg hfn
      obtain ⟨code, points, hcode, ht⟩ := hfn ▸ hc
      obtain ⟨w, its, hw⟩ := hrest g hg code points hcode ht
      exact Frame.Raising.handlerFits ⟨code, points, w, hcode, ht, hw.raisesAt⟩

end Machine

open Machine in
/-- Calls of what a text compiles to are safe, with any arguments, and so are those of a value on
one of the stacks in any state of such a run, in every heap that grows from that of the state.  If
the value is a closure, its own steps are safe whatever it is called with. -/
theorem Compiler.safeCall_compileText (tables : Tables) (blockSize : Int) {heap : Heap}
    (hheap : heap.Sound) (cancellation : Cancellation) (source text : Bytes) {compiled : Compiled}
    (hcompiled : compileText ⟨tables, .prelude, blockSize, .machine⟩ heap cancellation source text =
      compiled) {fn : Func} (hfn : compiled.outcome = .func fn) (args : List Value) :
    SafeCall compiled.heap (.func fn) args ∧
    ∀ start frames h, enter compiled.heap (.func fn) args [] = .ok start →
      Reaches (start, compiled.heap) (frames, h) →
      ∀ f ∈ frames, ∀ slot v, f.stack.get? slot = some v → ∀ h', h.Grows h' →
        (h'.Sound → ∀ args', (∀ a ∈ args', a.Sound h'.capturedCount?) → SafeCall h' v args') ∧
        ∀ c env, v = .closure c env → ∀ args' start' frames' h'',
          enter h' v args' [] = .ok start' → Reaches (start', h') (frames', h'') →
          SafeWithin c env frames' h'' := by
  subst hcompiled
  obtain ⟨hh, hsound, hparams⟩ := compileText_sound Globals.prelude_sound Evaluator.machine_sound
    hheap cancellation source text hfn
  have hn : fn.numParams = 0 := by
    obtain ⟨code, points, -, ht⟩ := hsound.isTyped
    rw [ht.params, hparams]
    rfl
  have hnone : ∀ a ∈ ([] : List Value), a.Sound
      (compileText ⟨tables, .prelude, blockSize, .machine⟩ heap cancellation source
        text).heap.capturedCount? := nofun
  refine ⟨(safeCall_of_sound hh (v := .func fn) hsound hnone).of_numParams_eq_zero hn args, ?_⟩
  intro start frames h henter hreach f hf slot v hv h' hgrows
  rw [enter_of_numParams_eq_zero hn] at henter
  have hcalls := soundCalls_of_enter hh (v := .func fn) hsound hnone henter hreach
  have hvalue : v.Sound h'.capturedCount? :=
    ((hcalls.sound_of_mem hf).stack.get? hv).mono hgrows.extends
  refine ⟨fun hh' args' => safeCall_of_sound hh' hvalue, ?_⟩
  rintro c env rfl args' start' frames' h'' henter' hreach'
  exact ((typedCalls_of_enter henter').reaches hreach').safeWithin hvalue.1.isTyped
    (hreach'.grows.extends _ _ hvalue.2)

theorem Compiler.safeCall_compileText_of_handled_closure :
    ∃ fn, (compileText ⟨⟨.few, .standard⟩, .prelude, 4, .machine⟩ {} .never "t"
        "let f := fun(x) do x + 1 on e do retry end end; loop until f(2), 3 end").outcome =
          .func fn ∧
      Machine.SafeCall (compileText ⟨⟨.few, .standard⟩, .prelude, 4, .machine⟩ {} .never "t"
        "let f := fun(x) do x + 1 on e do retry end end; loop until f(2), 3 end").heap
        (.func fn) [.int 7] := by
  have hcompiles : (compileText ⟨⟨.few, .standard⟩, .prelude, 4, .machine⟩ {} .never "t"
      "let f := fun(x) do x + 1 on e do retry end end; loop until f(2), 3 end").outcome.isFunc =
        true := by
    decide +kernel
  obtain ⟨fn, hfn⟩ := CompileOutcome.exists_of_isFunc hcompiles
  exact ⟨fn, hfn, (safeCall_compileText _ _ Heap.empty_sound _ _ _ rfl hfn [.int 7]).1⟩

end StagedScript
