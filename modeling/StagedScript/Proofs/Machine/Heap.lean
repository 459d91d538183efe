import StagedScript.Machine.Step

/-!
# What a run never takes back

A run adds to the heap and changes what is in it, but the captured values of a closure stay as many
as they were, no iterator disappears, and only a compiler fills placeholders.  `Heap.Grows` states
this of two heaps, and `Frame.step_grows` of every instruction, whether it is typed or not.
-/

namespace StagedScript

namespace Heap

def capturedCount? (h : Heap) (env : Nat) : Option Nat := h.environments[env]?.map Array.size

/-- The later heap has all captured values and iterators of the earlier one, and its placeholders. -/
structure Grows (h h' : Heap) : Prop where
  captured : ∀ env n, h.capturedCount? env = some n → h'.capturedCount? env = some n
  iterations : h.iterations.size ≤ h'.iterations.size
  forwards : h'.forwards = h.forwards

namespace Grows

variable {h h' h'' : Heap}

@[refl, simp] theorem refl (h : Heap) : h.Grows h := ⟨fun _ _ => id, Nat.le_refl _, rfl⟩

theorem trans (h₁ : h.Grows h') (h₂ : h'.Grows h'') : h.Grows h'' :=
  ⟨fun e n he => h₂.captured e n (h₁.captured e n he), Nat.le_trans h₁.iterations h₂.iterations,
    h₂.forwards.trans h₁.forwards⟩

theorem of_eq (he : h'.environments = h.environments) (hi : h'.iterations = h.iterations)
    (hf : h'.forwards = h.forwards) : h.Grows h' :=
  ⟨fun e n => by simp [capturedCount?, he], Nat.le_of_eq (congrArg Array.size hi.symm), hf⟩

@[simp] theorem newCell (h : Heap) (c : Cell) : h.Grows (h.newCell c).2 := of_eq rfl rfl rfl

@[simp] theorem setCell (h : Heap) (index : Nat) (v : Value) : h.Grows (h.setCell index v) :=
  of_eq rfl rfl rfl

@[simp] theorem store (h : Heap) (old v : Value) : h.Grows (h.store old v).2 := by
  unfold Heap.store
  split
  · split
    · exact setCell ..
    · exact refl h
  · exact refl h

@[simp] theorem newEnvironment (h : Heap) (vs : Array Value) : h.Grows (h.newEnvironment vs).2 where
  captured e n he := by
    simp only [capturedCount?, Option.map_eq_some_iff] at he ⊢
    obtain ⟨a, ha, rfl⟩ := he
    have hlt := (Array.getElem?_eq_some_iff.1 ha).1
    refine ⟨a, ?_, rfl⟩
    simp only [Heap.newEnvironment]
    rw [Array.getElem?_push_lt hlt]
    exact ha ▸ Array.getElem?_eq_getElem hlt |>.symm
  iterations := Nat.le_refl _
  forwards := rfl

@[simp] theorem setCaptured (h : Heap) (env index : Nat) (v : Value) :
    h.Grows (h.setCaptured env index v) where
  captured e n he := by
    simp only [capturedCount?, Heap.setCaptured, Array.getElem?_modify, Option.map_eq_some_iff]
      at he ⊢
    obtain ⟨a, ha, rfl⟩ := he
    split
    next => exact ⟨_, by rw [ha]; rfl, by simp⟩
    next => exact ⟨a, ha, rfl⟩
  iterations := Nat.le_refl _
  forwards := rfl

@[simp] theorem newIteration (h : Heap) (it : Iteration) : h.Grows (h.newIteration it).2 :=
  ⟨fun _ _ => id, by simp [Heap.newIteration], rfl⟩

@[simp] theorem advance (h : Heap) (index : Nat) : h.Grows (h.advance index) :=
  ⟨fun _ _ => id, by simp [Heap.advance], rfl⟩

@[simp] theorem newBuffer (h : Heap) : h.Grows h.newBuffer.2 := of_eq rfl rfl rfl

@[simp] theorem write (h : Heap) (index : Nat) (s : Bytes) : h.Grows (h.write index s) :=
  of_eq rfl rfl rfl

end Grows

end Heap

def Step.heap : Step → Heap
  | .next _ h | .return _ h | .raise _ _ h | .call _ _ _ h => h

def Step.frame? : Step → Option Frame
  | .next f _ | .raise _ f _ | .call _ _ f _ => some f
  | .return .. => none

/-- If an instruction has a meaning, the step has a property. -/
def Gives (P : Step → Prop) (o : Option Step) : Prop := ∀ st, o = some st → P st

namespace Gives

variable {P : Step → Prop}

@[simp] theorem none : Gives P none := fun _ h => nomatch h

@[simp] theorem some {st : Step} : Gives P (some st) ↔ P st :=
  ⟨fun h => h st rfl, fun h _ heq => Option.some.inj heq ▸ h⟩

theorem bindEq {α : Type} {o : Option α} {f : α → Option Step}
    (h : ∀ a, o = Option.some a → Gives P (f a)) : Gives P (o >>= f) := by
  cases o with
  | none => exact Gives.none
  | some a => exact h a rfl

theorem bind {α : Type} {o : Option α} {f : α → Option Step} (h : ∀ a, Gives P (f a)) :
    Gives P (o >>= f) := bindEq fun a _ => h a

end Gives

/-- A step stays in its call and takes nothing back from the heap. -/
structure Step.Keeps (f : Frame) (h : Heap) (st : Step) : Prop where
  grows : h.Grows st.heap
  fn : ∀ f', st.frame? = some f' → f'.fn = f.fn
  env : ∀ f', st.frame? = some f' → f'.env = f.env

namespace Step

variable {f f' : Frame} {h h' : Heap}

theorem keeps_iff {st : Step} (hst : st.frame? = some f') :
    st.Keeps f h ↔ h.Grows st.heap ∧ f'.fn = f.fn ∧ f'.env = f.env :=
  ⟨fun k => ⟨k.1, k.2 f' hst, k.3 f' hst⟩, fun k => ⟨k.1, by simp [hst, k.2], by simp [hst, k.2]⟩⟩

@[simp] theorem keeps_next : (next f' h').Keeps f h ↔ h.Grows h' ∧ f'.fn = f.fn ∧ f'.env = f.env :=
  keeps_iff rfl

@[simp] theorem keeps_raise {e : Raised} :
    (raise e f' h').Keeps f h ↔ h.Grows h' ∧ f'.fn = f.fn ∧ f'.env = f.env := keeps_iff rfl

@[simp] theorem keeps_call {fn : Value} {args : List Value} :
    (call fn args f' h').Keeps f h ↔ h.Grows h' ∧ f'.fn = f.fn ∧ f'.env = f.env := keeps_iff rfl

@[simp] theorem keeps_return {v : Value} : (Step.return v h').Keeps f h ↔ h.Grows h' :=
  ⟨fun k => k.1, fun k => ⟨k, nofun, nofun⟩⟩

end Step

namespace Frame

open Heap

@[simp] theorem push_fn (f : Frame) (v : Value) : (f.push v).fn = f.fn := rfl
@[simp] theorem push_env (f : Frame) (v : Value) : (f.push v).env = f.env := rfl
@[simp] theorem withStack_fn (f : Frame) (s : Stack) : (f.withStack s).fn = f.fn := rfl
@[simp] theorem withStack_env (f : Frame) (s : Stack) : (f.withStack s).env = f.env := rfl
@[simp] theorem goto_fn (f : Frame) (a : Int) : (f.goto a).fn = f.fn := rfl
@[simp] theorem goto_env (f : Frame) (a : Int) : (f.goto a).env = f.env := rfl

variable (i : Inst) (f : Frame) (h : Heap)

theorem stepSlot_keeps : Gives (Step.Keeps f h) (stepSlot i f h) := by
  unfold stepSlot
  split
  case h_10 =>
    refine .bind fun old => .bind fun v => .bind fun env => Gives.some.2 ?_
    exact Step.keeps_next.2 ⟨(Grows.store h old v).trans (.setCaptured ..), rfl, rfl⟩
  all_goals repeat' first
    | refine Gives.bind fun _ => ?_
    | split
  all_goals simp [pure, Grows.of_eq]

theorem unpack_keeps (s : Stack) (v : Value) (count : Int) :
    Gives (Step.Keeps f h) ((f.withStack s).unpack h v count) := by
  unfold unpack
  split <;> (try split) <;> simp

theorem stepControl_keeps : Gives (Step.Keeps f h) (stepControl i f h) := by
  unfold stepControl
  split
  all_goals repeat' first
    | refine Gives.bind fun _ => ?_
    | split
  all_goals simp [pure]

theorem stepData_keeps : Gives (Step.Keeps f h) (stepData i f h) := by
  unfold stepData
  split
  -- the instructions that take a value apart, and those that make something new
  case h_5 => exact .bind fun _ => unpack_keeps f h _ _ _
  case h_10 =>
    refine .bind fun _ => ?_
    dsimp only
    repeat' split
    all_goals simp [pure]
  case h_11 =>
    refine .bind fun _ => .bind fun _ => Gives.some.2 ?_
    exact Step.keeps_next.2 ⟨.newEnvironment .., rfl, rfl⟩
  case h_15 => exact Gives.some.2 (Step.keeps_next.2 ⟨.newBuffer h, rfl, rfl⟩)
  case h_20 =>
    refine .bind fun _ => ?_
    dsimp only
    repeat' split
    all_goals simp [pure]
  all_goals repeat' first
    | refine Gives.bind fun _ => ?_
    | split
  all_goals simp [pure, Grows.of_eq]

theorem execute_keeps : Gives (Step.Keeps f h) (execute i f h) := by
  unfold execute
  split <;> first
    | exact stepSlot_keeps i f h
    | exact stepControl_keeps i f h
    | exact stepData_keeps i f h

/-- No instruction leaves its call, or takes back captured values or iterators. -/
theorem step_keeps : Gives (Step.Keeps f h) (f.step h) := by
  unfold step
  split
  · split <;> simp
  · split
    · simp
    · intro st hst
      obtain ⟨grows, fn, env⟩ := execute_keeps _ _ h st hst
      exact ⟨grows, fn, env⟩

end Frame

end StagedScript
