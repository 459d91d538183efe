import StagedScript.Proofs.Compile.Waiting
import StagedScript.Proofs.Sound.Heap

/-!
# The state of a typed compilation

`At` says that the compiler is at a place of typed code, with everything that it has recorded
agreeing with what is known.  `Runs` is partial correctness for actions of the compiler, and each
primitive action has a rule that says where the compiler is after it.
-/

namespace StagedScript

def Binding.slot? (b : Binding) : Option Int := if b.isConstant then none else some b.slot

/-- The value of a declaration and what stands for it are sound. -/
def Binding.Sound (z : CapturedCounts) (b : Binding) : Prop :=
  b.value.Sound z ∧ ∀ v, b.placeholder = some v → v.Sound z

structure Env.Knows (E : Env) (bindings : Array Binding) : Prop where
  slots : E.slots = bindings.toList.map Binding.slot?
  sound : ∀ b ∈ bindings, b.Sound E.counts

/-- The frames and the records of a function that waits for the code of one inside of it. -/
structure Outer.Waits (o : Outer) (fn : FunctionState) : Prop where
  frames : fn.waiting = o.frame :: o.frames
  size : fn.builder.insts.size = o.past.length
  records : fn.records = o.records

/-- The functions around one that captures values are typed and wait for its code, with everything
that they have emitted in the log. -/
def Enclosed (finished : List Func) (slots : List (Option Int)) (counts : CapturedCounts)
    (isRoot : Bool) (upvalues : List Int) (captured : List BindingId) :
    List Outer → List FunctionState → Prop
  | [], [] => isRoot = true ∧ upvalues = [] ∧ captured = []
  | o :: outer, fn :: rest =>
    captured.length = upvalues.length ∧ o.Waits fn ∧ ∃ E x l, E.slots = slots ∧ E.counts = counts ∧
      fn.Typed (.outside o finished) E (.live ⟨l, x.watch⟩) ∧
      x.Fits E l ∧ x.Describes E fn.nesting ∧ AwaitsAnswer E fn.waiting o.pins x l ∧
      (∀ u ∈ upvalues, l.CanCapture E.captures u) ∧
      Enclosed finished slots counts E.isRoot fn.upvalues fn.captured outer rest
  | _, _ => False

/-- The compiler is at a place of typed code. -/
structure At (L : Log) (E : Env) (y : Nesting) (cur : Cursor) (s : CompileState) : Prop where
  functions : ∃ fn rest, s.functions = fn :: rest ∧ fn.nesting = y ∧ fn.Typed L E cur ∧
    Enclosed L.finished E.slots E.counts E.isRoot fn.upvalues fn.captured L.outer rest
  bindings : E.Knows s.bindings
  heap : s.heap.AllSound E.counts
  counts : E.counts = s.heap.capturedCount?

def Log.Counts (L : Log) (s : CompileState) : Prop :=
  ∃ fn rest, s.functions = fn :: rest ∧ fn.builder.insts.size = L.past.length

/-- Nothing has been emitted in the round. -/
def Log.Fresh (L : Log) (s : CompileState) : Prop := L.began = L.past.length ∧ L.Counts s

/-- The frames of all functions. -/
def Log.Waits (L : Log) (ws : List Waiting) (s : CompileState) : Prop :=
  ∃ fn rest, s.functions = fn :: rest ∧ fn.waiting = ws ∧
    fn.builder.insts.size = L.past.length ∧ List.Forall₂ Outer.Waits L.outer rest

/-- What holds after an action, unless it fails. -/
def Runs {α : Type} (c : Settings) (x : Compiling α) (s : CompileState)
    (Q : α → CompileState → Prop) : Prop :=
  ∀ a s', x c s = .ok a s' → Q a s'

namespace Runs

variable {α β : Type} {c : Settings} {s : CompileState} {x y : Compiling α} {f : α → Compiling β}
  {P P' : α → CompileState → Prop} {Q : β → CompileState → Prop}

theorem pure {a : α} (h : P a s) : Runs c (Pure.pure a) s P := by
  rintro a s' ⟨⟩
  exact h

theorem bind (hx : Runs c x s P) (hf : ∀ a s', P a s' → Runs c (f a) s' Q) :
    Runs c (x >>= f) s Q := by
  intro b s' hrun
  change EStateM.bind (x c) (fun a => f a c) s = _ at hrun
  unfold EStateM.bind at hrun
  split at hrun
  · rename_i a t ha
    exact hf a t (hx a t ha) b s' hrun
  · exact nomatch hrun

theorem and (hx : Runs c x s P) (hx' : Runs c x s P') : Runs c x s fun a s' => P a s' ∧ P' a s' :=
  fun a s' hrun => ⟨hx a s' hrun, hx' a s' hrun⟩

theorem imp (hx : Runs c x s P) (h : ∀ a s', P a s' → P' a s') : Runs c x s P' :=
  fun a s' hrun => h a s' (hx a s' hrun)

theorem throw {e : Trouble} : Runs c (throw e : Compiling α) s P := by
  rintro a s' ⟨⟩

theorem get : Runs c (get : Compiling CompileState) s fun a s' => s = a ∧ s = s' := by
  rintro a s' ⟨⟩
  exact ⟨rfl, rfl⟩

theorem read : Runs c (read : Compiling Settings) s fun a s' => c = a ∧ s = s' := by
  rintro a s' ⟨⟩
  exact ⟨rfl, rfl⟩

theorem set {t : CompileState} : Runs c (set t : Compiling PUnit) s fun _ s' => s' = t := by
  rintro a s' ⟨⟩
  rfl

theorem modify {g : CompileState → CompileState} :
    Runs c (modify g : Compiling PUnit) s fun _ s' => s' = g s := by
  rintro a s' ⟨⟩
  rfl

theorem ite {q : Prop} [Decidable q] (hx : q → Runs c x s P) (hy : ¬q → Runs c y s P) :
    Runs c (if q then x else y) s P := by
  split
  · exact hx ‹_›
  · exact hy ‹_›

theorem mapM {R : α → β → Prop} {as : List α}
    (hf : ∀ a ∈ as, Runs c (f a) s fun b s' => s = s' ∧ R a b) :
    Runs c (as.mapM f) s fun bs s' => s = s' ∧ bs.length = as.length ∧
      ∀ b ∈ bs, ∃ a ∈ as, R a b := by
  induction as with
  | nil => exact .pure ⟨rfl, rfl, by simp⟩
  | cons a as ih =>
    rw [List.mapM_cons]
    refine (hf a List.mem_cons_self).bind ?_
    rintro b _ ⟨rfl, hb⟩
    refine (ih fun a ha => hf a (List.mem_cons_of_mem _ ha)).bind ?_
    rintro bs _ ⟨rfl, hlength, hbs⟩
    refine .pure ⟨rfl, by simp [hlength], List.forall_mem_cons.2 ⟨⟨a, by simp, hb⟩, ?_⟩⟩
    exact fun b' hb' => (hbs b' hb').imp fun a' ha' => ⟨List.mem_cons_of_mem _ ha'.1, ha'.2⟩

end Runs

section

variable {finished : List Func} {slots slots' : List (Option Int)}
  {counts counts' : CapturedCounts} {isRoot : Bool} {upvalues : List Int}
  {captured : List BindingId} {outer : List Outer} {fns : List FunctionState}

theorem Enclosed.mono
    (hslots : ∀ (id : BindingId) n, slots[id]? = some n → slots'[id]? = some n)
    (hcounts : counts.Extends counts')
    (h : Enclosed finished slots counts isRoot upvalues captured outer fns) :
    Enclosed finished slots' counts' isRoot upvalues captured outer fns := by
  induction fns generalizing isRoot upvalues captured outer with
  | nil => cases outer <;> exact h
  | cons fn rest ih =>
    cases outer with
    | nil => exact h
    | cons o outer =>
      obtain ⟨hlength, hwaits, E, x, l, rfl, rfl, htyped, hfits, hdesc, hawaits, hups,
        hrest⟩ := h
      have hE : E.Extends { E with slots := slots', counts := counts' } :=
        ⟨rfl, fun _ _ h => h, le_rfl, hslots, hcounts⟩
      exact ⟨hlength, hwaits, _, x, l, rfl, rfl, htyped.mono hE rfl rfl,
        hfits.mono hE (List.suffix_refl l), hdesc.mono hE, hawaits.mono hE, hups, ih hrest⟩

section

variable (h : Enclosed finished slots counts isRoot upvalues captured outer fns)

include h

theorem Enclosed.finish {fn : Func}
    :
    Enclosed (fn :: finished) slots counts isRoot upvalues captured outer fns := by
  induction fns generalizing isRoot upvalues captured outer with
  | nil => cases outer <;> exact h
  | cons fn rest ih =>
    cases outer with
    | nil => exact h
    | cons o outer =>
      obtain ⟨hlength, hwaits, E, x, l, hslots, hcounts, htyped, hfits, hdesc, hawaits, hups,
        hrest⟩ := h
      exact ⟨hlength, hwaits, E, x, l, hslots, hcounts,
        htyped.relog hwaits.size rfl rfl (List.subset_cons_self _ _), hfits, hdesc, hawaits, hups,
        ih hrest⟩

theorem Enclosed.length :
    captured.length = upvalues.length := by
  cases fns with
  | nil =>
    cases outer with
    | nil => rw [h.2.1, h.2.2]; rfl
    | cons => exact h.elim
  | cons fn rest =>
    cases outer with
    | nil => exact h.elim
    | cons => exact h.1

theorem Enclosed.waits :
    List.Forall₂ Outer.Waits outer fns := by
  induction fns generalizing isRoot upvalues captured outer with
  | nil =>
    cases outer with
    | nil => exact .nil
    | cons => exact h.elim
  | cons fn rest ih =>
    cases outer with
    | nil => exact h.elim
    | cons o outer =>
      obtain ⟨-, hwaits, E, x, l, -, -, -, -, -, -, -, hrest⟩ := h
      exact .cons hwaits (ih hrest)

end

theorem At.waits {L : Log} {E : Env} {y : Nesting} {cur : Cursor} {s : CompileState}
    (h : At L E y cur s) (hcounts : L.Counts s) {ws : List Waiting} (hws : y.waiting = ws) :
    L.Waits ws s := by
  obtain ⟨fn, rest, hs, rfl, -, hrest⟩ := h.functions
  obtain ⟨fn', rest', hs', hsize⟩ := hcounts
  cases hs.symm.trans hs'
  exact ⟨fn, rest, hs, hws, hsize, hrest.waits⟩

/-- Declarations in scope around the current function are known. -/
theorem Enclosed.slot_of_scope
    (h : Enclosed finished slots counts isRoot upvalues captured outer fns) {fn : FunctionState}
    (hfn : fn ∈ fns) {id : BindingId} (hid : id ∈ fn.scope) : ∃ n, slots[id]? = some n := by
  induction fns generalizing isRoot upvalues captured outer with
  | nil => cases hfn
  | cons fn' rest ih =>
    cases outer with
    | nil => exact h.elim
    | cons o outer =>
      obtain ⟨-, -, E, x, l, rfl, -, -, -, hdesc, -, -, hrest⟩ := h
      obtain rfl | hfn := List.mem_cons.1 hfn
      · obtain hnone | ⟨n, hn, -⟩ := hdesc.scope id hid
        · exact ⟨none, hnone⟩
        · exact ⟨some n, hn⟩
      · exact ih hrest hfn

theorem Enclosed.dropLast {u : Int} {id : BindingId}
    (h : Enclosed finished slots counts isRoot (upvalues ++ [u]) (captured ++ [id]) outer fns) :
    Enclosed finished slots counts isRoot upvalues captured outer fns := by
  cases fns with
  | nil => cases outer <;> simp [Enclosed] at h
  | cons fn rest =>
    cases outer with
    | nil => exact h.elim
    | cons o outer =>
      obtain ⟨hlength, hwaits, E, x, l, hslots, hcounts, htyped, hfits, hdesc, hawaits, hups,
        hrest⟩ := h
      refine ⟨by simpa using hlength, hwaits, E, x, l, hslots, hcounts, htyped, hfits, hdesc,
        hawaits, fun u hu => hups u (List.mem_append_left _ hu), hrest⟩

end

end StagedScript
