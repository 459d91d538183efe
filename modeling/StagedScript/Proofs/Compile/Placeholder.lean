import StagedScript.Proofs.Compile.Cancellation
import StagedScript.Proofs.Compile.Handover

/-!
# Placeholders of constants are filled

A reference to a constant whose initializer is not finished gets a placeholder, and the placeholder
gets the value of the constant when there is one.  No placeholder is forgotten: a constant is in
scope before it is bound only together with a frame that will bind it, and a compilation that
succeeds has no frames left.
-/

namespace StagedScript

namespace CompileState

/-- What a function says of declarations, and its frames. -/
abbrev View := List Mention × List Waiting

def views (s : CompileState) : List View := s.functions.map fun fn => (fn.mentions, fn.waiting)

/-- A function, or one of its frames, says something of a declaration. -/
def Refers (v : View) (m : Mention) : Prop := m ∈ v.1 ∨ ∃ w ∈ v.2, m ∈ w.mentions

/-- A frame will bind a declaration that is in scope already. -/
def Awaits (s : CompileState) (id : BindingId) : Prop :=
  ∃ v ∈ s.views, ∃ w ∈ v.2, w.binds? = some id

/-- What is true of declarations.  A constant is in scope only if it is bound or about to be. -/
def Holds (s : CompileState) : World
  | .known id => id < s.bindings.size
  | .inScope id => ∃ b, s.bindings[id]? = some b ∧
      (b.isConstant = false ∨ b.state = .bound ∨ s.Awaits id)

/-- A frame that ends a function is the last one, and ends the compilation if no function is
around it. -/
def EndsLast : List View → Prop
  | [] => True
  | v :: rest =>
    (∀ ws span isRoot ws', v.2 = ws ++ .finish span isRoot :: ws' → ws' = [] ∧ isRoot = rest.isEmpty) ∧
      EndsLast rest

/-- A declaration has been given a placeholder. -/
def Owns (bindings : Array Binding) (id : BindingId) (index : Nat) : Prop :=
  ∃ b, bindings[id]? = some b ∧ b.placeholder = some (.forward index b.name)

/-- What a compilation keeps of its placeholders, which begin at `start`: each belongs to one constant,
and is filled with its value unless the constant is about to be bound.  Those of `base` that are
filled stay so. -/
structure Accounts (start : Nat) (base : Array (Option Value)) (s : CompileState) : Prop where
  nonempty : s.functions ≠ []
  ends : EndsLast s.views
  mentioned : ∀ v ∈ s.views, ∀ m, Refers v m → s.Holds m
  kept : ∀ (index : Nat) v, base[index]? = some (some v) → s.heap.forwards[index]? = some (some v)
  start_le : start ≤ s.heap.forwards.size
  fresh : ∀ (id : BindingId) b, s.bindings[id]? = some b → b.state = .unbound → b.placeholder = none
  placed : ∀ (id : BindingId) b v, s.bindings[id]? = some b → b.placeholder = some v →
    ∃ index, v = .forward index b.name ∧ start ≤ index ∧ b.isConstant = true ∧
      (s.heap.forwards[index]? = some (some b.value) ∧ b.state = .bound ∨
        s.heap.forwards[index]? = some none ∧ s.Awaits id)
  owned : ∀ index, start ≤ index → index < s.heap.forwards.size → ∃! id, Owns s.bindings id index

/-- A declaration is bound, and its placeholder filled. -/
def Settled (s : CompileState) (id : BindingId) : Prop :=
  ∃ b, s.bindings[id]? = some b ∧ b.state = .bound ∧
    ∀ index name, b.placeholder = some (.forward index name) →
      s.heap.forwards[index]? = some (some b.value)

/-- A state is followed by one in which everything that was true of declarations still is. -/
structure Leads (start : Nat) (base : Array (Option Value)) (s s' : CompileState) : Prop where
  accounts : s'.Accounts start base
  holds : ∀ m, s.Holds m → s'.Holds m

variable {start : Nat} {base : Array (Option Value)} {s s' s'' : CompileState}

theorem Accounts.refl (h : s.Accounts start base) : Leads start base s s := ⟨h, fun _ => id⟩

theorem Leads.trans (h : Leads start base s s') (h' : Leads start base s' s'') :
    Leads start base s s'' :=
  ⟨h'.accounts, fun m hm => h'.holds m (h.holds m hm)⟩

/-! ### Changes of functions -/

/-- Functions change.  A frame is taken off only when what it binds is settled. -/
theorem Accounts.withFunctions (h : s.Accounts start base) {fns : List FunctionState}
    (hne : fns ≠ []) (hends : EndsLast { s with functions := fns }.views)
    (hawaits : ∀ id, s.Awaits id → { s with functions := fns }.Awaits id ∨ s.Settled id)
    (hm : (∀ m, s.Holds m → { s with functions := fns }.Holds m) →
      ∀ v ∈ { s with functions := fns }.views, v ∈ s.views ∨
        ∀ m, Refers v m → { s with functions := fns }.Holds m) :
    Leads start base s { s with functions := fns } := by
  have hholds : ∀ m, s.Holds m → { s with functions := fns }.Holds m := by
    rintro (id | id) hid
    · exact hid
    · obtain ⟨b, hb, hscoped⟩ := hid
      refine ⟨b, hb, hscoped.imp_right fun hscoped => hscoped.elim .inl fun hid => ?_⟩
      obtain hid | ⟨b', hb', hbound, -⟩ := hawaits id hid
      · exact .inr hid
      · cases hb.symm.trans hb'
        exact .inl hbound
  refine ⟨{ h with
    nonempty := hne
    ends := hends
    mentioned := fun v hv m hmem => (hm hholds v hv).elim
      (fun hv => hholds m (h.mentioned v hv m hmem)) fun hm => hm m hmem
    placed := fun id b v hb hv => ?_ }, hholds⟩
  obtain ⟨index, rfl, hle, hconstant, hset | ⟨hnone, hid⟩⟩ := h.placed id b v hb hv
  · exact ⟨index, rfl, hle, hconstant, .inl hset⟩
  · obtain hid | ⟨b', hb', hbound, hfilled⟩ := hawaits id hid
    · exact ⟨index, rfl, hle, hconstant, .inr ⟨hnone, hid⟩⟩
    · cases hb.symm.trans hb'
      cases hnone.symm.trans (hfilled index _ hv)

theorem Accounts.withCurrent (h : s.Accounts start base) {fn fn' : FunctionState}
    {rest : List FunctionState} (hs : s.functions = fn :: rest) (old new : List Waiting)
    {outer : List Waiting} (hold : fn.waiting = old ++ outer) (hnew : fn'.waiting = new ++ outer)
    (hfinish : ∀ w ∈ new, w.isFinish = false)
    (hframes : ∀ w ∈ old, ∀ id, w.binds? = some id →
      (∃ w' ∈ new, w'.binds? = some id) ∨ s.Settled id)
    (hm : (∀ m, s.Holds m → { s with functions := fn' :: rest }.Holds m) →
      ∀ m ∈ fn'.mentions ++ new.flatMap (·.mentions),
        m ∈ fn.mentions ++ old.flatMap (·.mentions) ∨ { s with functions := fn' :: rest }.Holds m) :
    Leads start base s { s with functions := fn' :: rest } := by
  have hviews : s.views = (fn.mentions, fn.waiting) :: rest.map fun fn => (fn.mentions, fn.waiting) := by
    rw [views, hs, List.map_cons]
  have hends := h.ends
  rw [hviews] at hends
  refine h.withFunctions (List.cons_ne_nil _ _) ⟨fun ws span isRoot ws' hv => ?_, hends.2⟩ ?_ ?_
  · -- no new frame ends the function
    obtain ⟨ws₁, hws₁, houter⟩ | ⟨ws₁, hws₁, hws'⟩ := List.append_eq_append_iff.1 (hnew.symm.trans hv)
    · exact hends.1 (old ++ ws₁) span isRoot ws' (by rw [hold, houter, List.append_assoc])
    · cases ws₁ with
      | nil => exact hends.1 old span isRoot ws' (by rw [hold, ← List.nil_append outer, ← hws'])
      | cons w ws₁ =>
        cases hws'
        cases hfinish _ (hws₁ ▸ List.mem_append_right _ List.mem_cons_self)
  · rintro id ⟨v, hv, w, hw, hid⟩
    obtain rfl | hv := List.mem_cons.1 (hviews ▸ hv)
    · have hframe : (∃ w' ∈ fn'.waiting, w'.binds? = some id) ∨ s.Settled id := by grind
      exact hframe.imp_left fun hw => ⟨_, List.mem_cons_self, hw⟩
    · exact .inl ⟨v, List.mem_cons_of_mem _ hv, w, hw, hid⟩
  · intro hmono v hv
    obtain rfl | hv := List.mem_cons.1 hv
    · refine .inr fun m hmem => ?_
      have hrefers : Refers (fn.mentions, fn.waiting) m ∨
          { s with functions := fn' :: rest }.Holds m := by
        have := hm hmono m
        grind [Refers]
      exact hrefers.elim (fun hm => hmono m (h.mentioned _ (hviews ▸ List.mem_cons_self) m hm)) id
    · exact .inl (hviews ▸ List.mem_cons_of_mem _ hv)

theorem Accounts.pop (h : s.Accounts start base) {fn fn' : FunctionState}
    {rest : List FunctionState} {w : Waiting} {ws : List Waiting} (hs : s.functions = fn :: rest)
    (hwaiting : fn.waiting = w :: ws) (hm : fn'.mentions = fn.mentions) (hwaiting' : fn'.waiting = ws)
    (hset : ∀ id, w.binds? = some id → s.Settled id) :
    Leads start base s { s with functions := fn' :: rest } :=
  h.withCurrent hs [w] [] hwaiting hwaiting' nofun
    (fun _ hw id hid => .inr (hset id (List.mem_singleton.1 hw ▸ hid)))
    fun _ m hmem => .inl (List.mem_append_left _ (by simpa [hm] using hmem))

/-! ### Changes of declarations -/

/-- A later form of a declaration, with the same placeholder. -/
structure Follows (b b' : Binding) : Prop where
  name : b'.name = b.name
  isConstant : b'.isConstant = b.isConstant
  placeholder : b'.placeholder = b.placeholder
  value : b.placeholder ≠ none → b'.value = b.value
  unbound : b'.state = .unbound → b.state = .unbound
  bound : b.state = .bound → b'.state = .bound

theorem Follows.refl (b : Binding) : Follows b b :=
  ⟨rfl, rfl, rfl, fun _ => rfl, fun h => h, fun h => h⟩

theorem Holds.exists_binding {id : BindingId} (h : s.Holds (.known id)) :
    ∃ b, s.bindings[id]? = some b :=
  ⟨_, Array.getElem?_eq_getElem h⟩

theorem holds_of_bindings {bindings : Array Binding} {heap : Heap}
    (hlater : ∀ (id : BindingId) b, s.bindings[id]? = some b → ∃ b', bindings[id]? = some b' ∧
      b'.isConstant = b.isConstant ∧ (b.state = .bound → b'.state = .bound)) :
    ∀ m, s.Holds m → { s with bindings, heap }.Holds m := by
  rintro (id | id) h
  · obtain ⟨b', hb', -⟩ := hlater id _ (Array.getElem?_eq_getElem h)
    exact (Array.getElem?_eq_some_iff.1 hb').1
  · obtain ⟨b, hb, h⟩ := h
    obtain ⟨b', hb', hconstant, hbound⟩ := hlater id b hb
    exact ⟨b', hb', h.imp hconstant.trans (.imp_left hbound)⟩

theorem Accounts.withBindings (h : s.Accounts start base) {bindings : Array Binding}
    (hlater : ∀ (id : BindingId) b, s.bindings[id]? = some b →
      ∃ b', bindings[id]? = some b' ∧ Follows b b')
    (hearlier : ∀ (id : BindingId) b', bindings[id]? = some b' →
      (∃ b, s.bindings[id]? = some b ∧ Follows b b') ∨ b'.placeholder = none) :
    Leads start base s { s with bindings } := by
  have hholds : ∀ m, s.Holds m → { s with bindings }.Holds m := holds_of_bindings fun id b hb =>
    (hlater id b hb).imp fun b' hb' => ⟨hb'.1, hb'.2.isConstant, hb'.2.bound⟩
  have howns (id : BindingId) (index : Nat) : Owns bindings id index ↔ Owns s.bindings id index := by
    grind [Owns, Follows]
  refine ⟨{ h with
    mentioned := fun v hv m hm => hholds m (h.mentioned v hv m hm)
    fresh := by grind [Follows, Accounts]
    placed := fun id b' v hb' hv => ?_
    owned := fun index hle hlt => by simpa only [howns] using h.owned index hle hlt }, hholds⟩
  obtain ⟨b, hb, hf⟩ | hnone := hearlier id b' hb'
  · rw [hf.placeholder] at hv
    obtain ⟨index, rfl, hle, hconstant, hset⟩ := h.placed id b v hb hv
    refine ⟨index, by rw [hf.name], hle, hf.isConstant.trans hconstant, ?_⟩
    rw [hf.value (by simp [hv])]
    exact hset.imp_left fun hset => ⟨hset.1, hf.bound hset.2⟩
  · cases hnone.symm.trans hv

theorem Accounts.withHeap (h : s.Accounts start base) {heap : Heap}
    (hforwards : heap.forwards = s.heap.forwards) : { s with heap }.Accounts start base :=
  { h with
    kept := hforwards ▸ h.kept
    start_le := hforwards ▸ h.start_le
    placed := hforwards ▸ h.placed
    owned := hforwards ▸ h.owned }

theorem Accounts.modify (h : s.Accounts start base) (id : BindingId) {k : Binding → Binding}
    (hk : ∀ b, s.bindings[id]? = some b → Follows b (k b)) :
    Leads start base s { s with bindings := s.bindings.modify id k } := by
  refine h.withBindings (fun j b hb => ?_) fun j b' hb' => ?_ <;> grind [Follows.refl]

/-- A declaration gets a placeholder, or fills the one it has. -/
theorem Accounts.place (h : s.Accounts start base) {id : BindingId} {b : Binding}
    (hb : s.bindings[id]? = some b) (hconstant : b.isConstant = true) {k : Binding → Binding}
    {forwards : Array (Option Value)} {index : Nat} (hle : start ≤ index)
    (hk : (k b).name = b.name ∧ (k b).isConstant = b.isConstant ∧ (k b).state ≠ .unbound ∧
      (b.state = .bound → (k b).state = .bound))
    (hplaceholder : (k b).placeholder = some (.forward index b.name))
    (hold : b.placeholder = none ∨ b.placeholder = some (.forward index b.name))
    (hothers : ∀ i, i ≠ index → forwards[i]? = s.heap.forwards[i]?)
    (hunset : ∀ v, s.heap.forwards[index]? ≠ some (some v))
    (hindex : ∀ j, Owns s.bindings j index → j = id)
    (hset : forwards[index]? = some (some (k b).value) ∧ (k b).state = .bound ∨
      forwards[index]? = some none ∧ s.Awaits id) :
    Leads start base s
      { s with bindings := s.bindings.modify id k, heap := { s.heap with forwards } } := by
  have hat (j : BindingId) :
      (s.bindings.modify id k)[j]? = if j = id then some (k b) else s.bindings[j]? := by
    grind
  have hholds : ∀ m, s.Holds m →
      { s with bindings := s.bindings.modify id k, heap := { s.heap with forwards } }.Holds m :=
    holds_of_bindings fun j a ha => by grind
  have hlt : index < forwards.size := by grind
  -- the owners of all other placeholders stay the same
  have howns (j : BindingId) {i : Nat} (hi : i ≠ index) :
      Owns (s.bindings.modify id k) j i ↔ Owns s.bindings j i := by
    grind [Owns]
  refine ⟨{ h with
    mentioned := fun v hv m hm => hholds m (h.mentioned v hv m hm)
    start_le := Nat.le_trans hle (Nat.le_of_lt hlt)
    kept := by grind [Accounts]
    fresh := by grind [Accounts]
    placed := fun j b' v hb' hv => ?_
    owned := fun i hi hilt => ?_ }, hholds⟩
  · by_cases hj : j = id
    · subst hj
      obtain rfl : k b = b' := by simpa [hat] using hb'
      cases hv.symm.trans hplaceholder
      exact ⟨index, by rw [hk.1], hle, hk.2.1.trans hconstant, hset⟩
    · rw [hat, if_neg hj] at hb'
      obtain ⟨i, rfl, hi, hconst, hset'⟩ := h.placed j b' v hb' hv
      have hi' : i ≠ index := fun heq => hj (hindex j ⟨b', hb', heq ▸ hv⟩)
      exact ⟨i, rfl, hi, hconst, by rw [hothers i hi']; exact hset'⟩
  · by_cases heq : i = index
    · subst heq
      refine ⟨id, ⟨k b, by simp [hat], by rw [hplaceholder, hk.1]⟩, ?_⟩
      rintro j ⟨a, ha, hp⟩
      by_contra hj
      exact hj (hindex j ⟨a, by simpa [hat, hj] using ha, hp⟩)
    · have hlt : i < s.heap.forwards.size := by
        have := hothers i heq
        grind
      simpa only [howns _ heq] using h.owned i hi hlt

end CompileState

namespace Compiling

open CompileState

variable {start : Nat} {base : Array (Option Value)} {s s' : CompileState} {c : Settings}

variable {rest : List FunctionState} {fn : FunctionState} {id : BindingId}

theorem binding_runs {b : Binding} (hb : s.bindings[id]? = some b) :
    Runs c (binding id) s fun b' s' => b = b' ∧ s = s' := by
  rintro _ _ ⟨⟩
  simp [Array.getD_eq_getD_getElem?, hb]

theorem binding_same : Runs c (binding id) s fun _ s' => s' = s := by
  rintro _ _ ⟨⟩
  rfl

theorem bindValue_runs (h : s.Accounts start base) (hid : s.Holds (.known id)) (v : Value)
    (fns : List FunctionState) :
    Runs c (bindValue id v) { s with functions := fns } fun _ s' =>
      ∃ s'', Leads start base s s'' ∧ s''.Settled id ∧ s''.functions = s.functions ∧
        s' = { s'' with functions := fns } := by
  obtain ⟨b, hb⟩ := hid.exists_binding
  refine (binding_runs (s := { s with functions := fns }) hb).bind ?_
  rintro _ _ ⟨rfl, rfl⟩
  refine .ite (fun _ => ?_) fun hstate => ?_
  · exact Runs.read.bind fun _ _ _ => Runs.throw.bind (P := fun _ _ => False) nofun
  have hself (k : Binding → Binding) : (s.bindings.modify id k)[id]? = some (k b) := by
    simp [Array.getElem?_modify, hb]
  dsimp only
  split
  · rename_i index name hp
    obtain ⟨_, ⟨⟩, hle, hconstant, ⟨-, hbound⟩ | ⟨hnone, -⟩⟩ := h.placed id b _ hb hp
    · exact absurd hbound hstate
    have hset : (s.heap.setForward index v).forwards[index]? = some (some v) := by
      simp [Heap.setForward, Array.getElem?_modify, hnone]
    refine Runs.modify.bind ?_
    rintro _ _ rfl
    refine Runs.modify.imp ?_
    rintro _ _ rfl
    refine ⟨{ s with
      heap := s.heap.setForward index v
      bindings := s.bindings.modify id ({ · with state := .bound, value := v }) },
      h.place hb hconstant hle ⟨rfl, rfl, nofun, fun _ => rfl⟩ hp (.inr hp) (fun i hi => ?_)
      (by simp [hnone]) ?_ (.inl ⟨hset, rfl⟩), ⟨_, hself _, rfl, ?_⟩, rfl, rfl⟩
    · simp [Array.getElem?_modify, hi.symm]
    · exact fun j hj => (h.owned index hle (by grind)).unique hj ⟨b, hb, hp⟩
    · intro i name hi
      cases hp.symm.trans hi
      exact hset
  · rename_i hp
    have hp : b.placeholder = none := by
      refine Option.eq_none_iff_forall_ne_some.2 fun w hw => ?_
      obtain ⟨index, rfl, -⟩ := h.placed id b w hb hw
      exact hp index b.name hw
    refine Runs.modify.imp ?_
    rintro _ _ rfl
    refine ⟨{ s with bindings := s.bindings.modify id ({ · with state := .bound, value := v }) },
      h.modify id ?_, ⟨_, hself _, rfl, fun i name hi => ?_⟩, rfl, rfl⟩
    · intro b' hb'
      cases hb.symm.trans hb'
      exact ⟨rfl, rfl, rfl, fun hne => absurd hp hne, nofun, fun _ => rfl⟩
    · cases hp.symm.trans hi

theorem markForward_runs (h : s.Accounts start base) (hid : s.Holds (.inScope id)) :
    Runs c (markForward id) s fun _ s' => Leads start base s s' := by
  obtain ⟨b, hb, hscoped⟩ := hid
  refine (binding_runs hb).bind ?_
  rintro _ _ ⟨rfl, rfl⟩
  split
  · rename_i hstate
    refine .ite (fun hconstant => ?_) fun _ => Runs.modify.imp ?_
    · refine Runs.get.bind ?_
      rintro _ _ ⟨rfl, rfl⟩
      refine Runs.set.bind ?_
      rintro _ _ rfl
      refine Runs.modify.imp ?_
      rintro _ _ rfl
      refine h.place hb hconstant h.start_le ⟨rfl, rfl, nofun, by simp [hstate]⟩ rfl
        (.inl (h.fresh id b hb hstate)) (fun i hi => ?_) (by simp) ?_ (.inr ⟨by simp, ?_⟩)
      · simp [Array.getElem?_push, hi]
      · rintro j ⟨b', hb', hp'⟩
        obtain ⟨_, ⟨⟩, -, -, ⟨hlt, -⟩ | ⟨hlt, -⟩⟩ := h.placed j b' _ hb' hp' <;> simp at hlt
      · simpa [hconstant, hstate] using hscoped
    · rintro _ _ rfl
      refine h.modify id fun b' hb' => ?_
      cases hb.symm.trans hb'
      exact ⟨rfl, rfl, rfl, fun _ => rfl, nofun, by simp [hstate]⟩
  · exact .pure h.refl
  · exact Runs.read.bind fun _ _ _ => .throw

/-- What an action keeps of the placeholders, if the declarations of a world are as it says. -/
def Fills (start : Nat) (base : Array (Option Value)) {α : Type} (V : World) (x : Compiling α)
    (Q : α → Prop) : Prop :=
  ∀ c s, s.Accounts start base → (∀ m, V m → s.Holds m) →
    Runs c x s fun a s' => Q a ∧ Leads start base s s'

namespace Fills

variable {α β : Type} {V : World} {x : Compiling α} {f : α → Compiling β} {Q : β → Prop}

/-- What follows an action knows all that is true after it. -/
theorem bindTo {R : α → CompileState → Prop}
    (hx : ∀ c s, s.Accounts start base → (∀ m, V m → s.Holds m) →
      Runs c x s fun a s' => R a s' ∧ Leads start base s s')
    (hf : ∀ a (s : CompileState), s.Accounts start base → (∀ m, V m → s.Holds m) → R a s →
      Fills start base s.Holds (f a) Q) :
    Fills start base V (x >>= f) Q := fun c s h hV =>
  (hx c s h hV).bind fun a s₁ ⟨hR, h₁⟩ =>
    (hf a s₁ h₁.accounts (fun m hm => h₁.holds m (hV m hm)) hR c s₁ h₁.accounts fun _ => id).imp
      fun _ _ h₂ => ⟨h₂.1, h₁.trans h₂.2⟩

theorem bind (hx : Fills start base V x fun _ => True) (hf : ∀ a, Fills start base V (f a) Q) :
    Fills start base V (x >>= f) Q :=
  .bindTo hx fun a _ _ hV _ c s h hV' => hf a c s h fun m hm => hV' m (hV m hm)

theorem modifyCurrent {k : FunctionState → FunctionState} (new : List Waiting)
    (hwaiting : ∀ fn, (k fn).waiting = new ++ fn.waiting) (hfinish : ∀ w ∈ new, w.isFinish = false)
    (hm : ∀ fn, ∀ m ∈ (k fn).mentions ++ new.flatMap (·.mentions), m ∈ fn.mentions ∨ V m) :
    Fills start base V (modifyCurrent k) fun _ => True := by
  intro c s h hV
  obtain ⟨fn, rest, hs⟩ := List.exists_cons_of_ne_nil h.nonempty
  refine (modifyCurrent_runs hs).imp ?_
  rintro _ _ rfl
  refine ⟨trivial, h.withCurrent hs [] new rfl (hwaiting fn) hfinish nofun fun hmono m hmem => ?_⟩
  exact (hm fn m hmem).imp (List.mem_append_left _) fun hm => hmono m (hV m hm)

theorem current : Fills start base V current fun _ => True := fun _ _ h _ =>
  current_runs.imp fun _ _ ⟨hs, _⟩ => hs ▸ ⟨trivial, h.refl⟩

theorem newLabel : Fills start base V newLabel fun _ => True :=
  .bind current fun _ => .bind
    (.modifyCurrent [] (fun _ => rfl) nofun fun _ _ hm => (List.mem_append.1 hm).imp_right nofun)
    fun _ _ _ h _ => .pure ⟨trivial, h.refl⟩

theorem bindLabel {l : Label} {depth : Int} :
    Fills start base V (bindLabel l depth) fun _ => True := by
  refine .bind current fun _ => ?_
  split
  · exact fun _ _ _ _ => .throw
  · exact .modifyCurrent [] (fun _ => rfl) nofun fun _ _ hm => (List.mem_append.1 hm).imp_right nofun

/-- A single declaration comes into scope together with the frame that will bind it. -/
theorem declareOwn {pattern : Pattern} {ids : List BindingId} {w : Waiting}
    (hw : w.isFinish = false) (hm : w.mentions = ids.map .known)
    (hids : ∀ m ∈ ids.map Mention.known, V m) (hbinds : pattern = .single → w.binds? = ids.head?) :
    Fills start base V (do declareOwn pattern ids; push w) fun _ => True := by
  have hpush : Fills start base V (push w) fun _ => True :=
    .modifyCurrent [w] (fun _ => rfl) (by simpa using hw) fun fn m hmem =>
      (List.mem_append.1 hmem).imp_right fun hmem => hids m (by simpa [hm] using hmem)
  unfold Compiling.declareOwn
  split
  · rename_i hsingle
    cases ids with
    | nil => exact hpush
    | cons id ids =>
      intro c s h hV
      obtain ⟨fn, rest, hs⟩ := List.exists_cons_of_ne_nil h.nonempty
      obtain ⟨b, hb⟩ := (hV _ (hids _ List.mem_cons_self)).exists_binding
      refine Runs.bind (P := fun _ s' => ∃ decls,
        s' = { s with functions := { fn with scope := id :: fn.scope, decls } :: rest })
        ((binding_runs hb).bind ?_) ?_
      · rintro _ _ ⟨rfl, rfl⟩
        exact (modifyCurrent_runs hs).imp fun _ _ hs' => ⟨_, hs'⟩
      · rintro _ _ ⟨decls, rfl⟩
        refine (modifyCurrent_runs rfl).imp ?_
        rintro _ _ rfl
        refine ⟨trivial, h.withCurrent hs [] [w] rfl rfl (by simpa using hw) nofun
          fun hmono m hmem => ?_⟩
        obtain hmem | hmem := List.mem_append.1 hmem
        · obtain rfl | hmem := List.mem_cons.1 hmem
          · exact .inr ⟨b, hb, .inr (.inr ⟨_, List.mem_cons_self, w, List.mem_cons_self,
              hbinds hsingle⟩)⟩
          · exact .inl (List.mem_append_left _ hmem)
        · exact .inr (hmono m (hV m (hids m (by simpa [hm] using hmem))))
  · exact hpush

theorem capture (id : BindingId) (level : Nat) :
    Fills start base V (capture id level) fun _ => True := fun c s h _ => by
  rintro _ _ ⟨⟩
  have hviews : { s with functions :=
      (captureIn id (s.bindings.getD id default).slot level s.functions).2 }.views = s.views :=
    captureIn_map (fun _ _ _ => rfl) ..
  generalize (captureIn id (s.bindings.getD id default).slot level s.functions).2 = fns at hviews ⊢
  refine ⟨trivial, h.withFunctions ?_ (hviews ▸ h.ends) ?_ fun _ v hv => .inl (hviews ▸ hv)⟩
  · rintro rfl
    exact h.nonempty (List.map_eq_nil_iff.1 hviews.symm)
  · rintro id ⟨v, hv, hid⟩
    exact .inl ⟨v, hviews ▸ hv, hid⟩

theorem resolve (span : Span) (name : Bytes) :
    Fills start base V (resolve span name) fun _ => True := fun c s h _ => by
  refine Runs.get.bind ?_
  rintro _ _ ⟨rfl, rfl⟩
  split
  · rename_i id level only hlookup
    obtain ⟨-, fn, hfn, hscope⟩ := lookupOuter_scope hlookup
    have hid : s.Holds (.inScope id) :=
      h.mentioned _ (List.mem_map_of_mem (List.mem_of_getElem? hfn)) _
        (.inl (List.mem_append_left _ (List.mem_map_of_mem hscope)))
    have ⟨b, hb, _⟩ := hid
    have hcaptured {s₁ : CompileState} (h₁ : Leads start base s s₁) :
        Runs c (do return Reference.captured (← Compiling.capture id level) id) s₁
          fun _ s' => True ∧ Leads start base s s' :=
      (capture (V := s.Holds) id level c s₁ h₁.accounts h₁.holds).bind
        fun _ _ h₂ => .pure ⟨trivial, h₁.trans h₂.2⟩
    refine (binding_runs hb).bind ?_
    rintro _ _ ⟨rfl, rfl⟩
    refine .ite (fun _ => .ite (fun _ => .pure ⟨trivial, h.refl⟩) fun _ => ?_) fun _ =>
      .ite (fun _ => .ite (fun _ => .pure ⟨trivial, h.refl⟩) fun _ => ?_) fun _ =>
      .ite (fun _ => Runs.throw.bind (P := fun _ _ => False) nofun) fun _ =>
      .ite (fun _ => ?_) fun _ => hcaptured h.refl
    · refine (markForward_runs h hid).bind fun _ s₁ h₁ => ?_
      exact binding_same.bind fun _ _ hs => .pure ⟨trivial, hs ▸ h₁⟩
    · exact (markForward_runs h hid).bind fun _ _ h₁ => .pure ⟨trivial, h₁⟩
    · exact (markForward_runs h hid).bind fun _ _ h₁ => hcaptured h₁
  · refine Runs.read.bind ?_
    rintro _ _ ⟨rfl, rfl⟩
    split
    · exact .throw
    · exact .throw
    · exact .pure ⟨trivial, h.refl⟩

theorem peek? (name : Bytes) : Fills start base V (peek? name) fun _ => True := fun c s h _ => by
  refine Runs.get.bind ?_
  rintro _ _ ⟨rfl, rfl⟩
  split
  · exact binding_same.bind fun _ _ hs => .pure ⟨trivial, hs ▸ h.refl⟩
  · refine Runs.read.bind ?_
    rintro _ _ ⟨rfl, rfl⟩
    split <;> exact .pure ⟨trivial, h.refl⟩

end Fills

theorem newBinding_runs (h : s.Accounts start base) {b : Binding} (hb : b.placeholder = none) :
    Runs c (newBinding b) s fun id s' =>
      (s'.functions = s.functions ∧ s'.bindings[id]? = some b) ∧ Leads start base s s' := by
  rintro _ _ ⟨⟩
  refine ⟨⟨rfl, Array.getElem?_push_size⟩, h.withBindings ?_ ?_⟩ <;> grind [Follows.refl]

/-- Parameters are declared in a function of their own, which has no frames. -/
theorem declareParams_runs (h : s.Accounts start base) (hs : s.functions = fn :: rest)
    (slot : Nat) (params : List Param) :
    Runs c (declareParams slot params) s fun _ s' => Leads start base s s' ∧
      ∃ fn', s'.functions = fn' :: rest ∧ fn'.waiting = fn.waiting := by
  induction params generalizing slot s fn with
  | nil => exact .pure ⟨h.refl, fn, hs, rfl⟩
  | cons p params ih =>
    refine (newBinding_runs h rfl).bind fun id s₁ ⟨⟨hs₁, hb⟩, h₁⟩ => ?_
    refine Runs.bind (P := fun _ s' => Leads start base s₁ s' ∧
      ∃ fn', s'.functions = fn' :: rest ∧ fn'.waiting = fn.waiting) ?_ ?_
    · refine (binding_runs hb).bind ?_
      rintro _ _ ⟨rfl, rfl⟩
      refine (modifyCurrent_runs (hs₁.trans hs)).imp ?_
      rintro _ _ rfl
      refine ⟨h₁.accounts.withCurrent (hs₁.trans hs) [] [] rfl rfl nofun nofun fun hmono m hm => ?_,
        _, rfl, rfl⟩
      obtain rfl | hm := List.mem_cons.1 hm
      · exact .inr (hmono _ ⟨_, hb, .inr (.inl rfl)⟩)
      · exact .inl hm
    · rintro _ s₂ ⟨h₂, fn', hs₂, hwaiting⟩
      refine (ih h₂.accounts hs₂ _).imp fun _ _ ⟨h₃, fn'', hs₃, hwaiting'⟩ => ?_
      exact ⟨h₁.trans (h₂.trans h₃), fn'', hs₃, hwaiting'.trans hwaiting⟩

theorem beginFunction_fills {V : World} (span : Span) (params : List Param) (extra named : Bool)
    (body : Expr) (isConstant : Bool) :
    Fills start base V (beginFunction span params extra named body isConstant) Next.Continues := by
  intro c s h _
  cases hrepeated : repeated? [] params with
  | some r =>
    simp only [beginFunction, hrepeated]
    exact Runs.throw.bind (P := fun _ _ => False) fun _ _ h => h.elim
  | none =>
    simp only [beginFunction, hrepeated]
    refine Runs.read.bind ?_
    rintro _ _ ⟨rfl, rfl⟩
    refine Runs.modify.bind ?_
    rintro _ _ rfl
    -- while its parameters are declared, nothing waits in the new function
    have h₁ (fn : FunctionState) (hm : fn.mentions = []) (hwaiting : fn.waiting = []) :
        Leads start base s { s with functions := fn :: s.functions } := by
      refine h.withFunctions (List.cons_ne_nil _ _) ⟨by simp [hwaiting], h.ends⟩ ?_ fun _ v hv => ?_
      · rintro id ⟨v, hv, hid⟩
        exact .inl ⟨v, List.mem_cons_of_mem _ hv, hid⟩
      · obtain rfl | hv := List.mem_cons.1 hv
        · exact .inr fun m hmem => by simp [Refers, hm, hwaiting] at hmem
        · exact .inl hv
    refine (declareParams_runs (h₁ _ rfl rfl).accounts rfl 0 params).bind ?_
    rintro _ s₂ ⟨h₂, fn, hs₂, hwaiting⟩
    refine (modifyCurrent_runs hs₂).bind ?_
    rintro _ _ rfl
    refine .pure ⟨trivial, (h₁ _ rfl rfl).trans (h₂.trans ?_)⟩
    have hviews : s₂.views = (fn.mentions, []) :: s.views := by
      rw [views, hs₂, List.map_cons, hwaiting]
      rfl
    refine h₂.accounts.withFunctions (List.cons_ne_nil _ _) ⟨fun ws span' isRoot ws' hv => ?_, h.ends⟩
      ?_ fun hmono v hv => ?_
    · rw [hwaiting] at hv
      cases ws with
      | nil =>
        cases hv
        simpa using h.nonempty
      | cons w ws => simp at hv
    · rintro id ⟨v, hv, w, hw, hid⟩
      obtain rfl | hv := List.mem_cons.1 (hviews ▸ hv)
      · cases hw
      · exact .inl ⟨v, List.mem_cons_of_mem _ hv, w, hw, hid⟩
    · obtain rfl | hv := List.mem_cons.1 hv
      · refine .inr fun m hm => hmono m (h₂.accounts.mentioned _ (hviews ▸ List.mem_cons_self) m ?_)
        simpa [Refers, hwaiting, FunctionState.mentions, Waiting.mentions] using hm
      · exact .inl (hviews ▸ List.mem_cons_of_mem _ hv)

theorem fills_tracking (start : Nat) (base : Array (Option Value)) :
    Tracking fun V x _ _ Q => Fills start base V x Q where
  pure ha c s h _ := .pure ⟨ha, h.refl⟩
  bind := .bind
  owing hx _ := hx
  stuck _ _ _ _ := .throw
  fail _ _ _ _ _ _ := .throw
  failShowing _ _ _ _ _ _ _ := Runs.get.bind fun _ _ _ => Runs.throw.bind (P := fun _ _ => False) nofun
  current_holds _ hf := .bindTo (R := fun fn s' => ∃ rest, s'.functions = fn :: rest)
    (fun c s h _ => current_runs.imp fun fn s' ⟨hs, hrest⟩ => hs ▸ ⟨hrest, h.refl⟩)
    fun fn s h hV ⟨rest, hs⟩ => hf fn s.Holds hV fun m hm =>
      h.mentioned _ (List.mem_map_of_mem (hs ▸ List.mem_cons_self)) m (.inl hm)
  modifyCurrent_holds hk _ hm := .modifyCurrent [] hk.waiting nofun (by simpa using hm)
  newLabel_holds hf := .bind .newLabel hf
  bindLabel_holds := .bindLabel
  push_holds {_ _ w} hw hm := .modifyCurrent [w] (fun _ => rfl) (by simpa using hw) fun fn m hmem =>
    (List.mem_append.1 hmem).imp_right fun hmem => hm m (by simpa using hmem)
  modifyBinding_holds id k hk c s h _ := by
    refine Runs.modify.imp ?_
    rintro _ _ rfl
    refine ⟨trivial, h.modify id fun b _ => ?_⟩
    obtain ⟨isVariable, isReference, hb⟩ := hk b
    rw [hb]
    exact ⟨rfl, rfl, rfl, fun _ => rfl, fun h => h, fun h => h⟩
  newBinding_holds {_ _ _ _ _ b} hb f hf := .bindTo (R := fun id s' => s'.bindings[id]? = some b)
    (fun c s h _ => (newBinding_runs h hb).imp fun _ _ h' => ⟨h'.1.2, h'.2⟩)
    fun id s _ hV hb => hf id s.Holds hV (Array.getElem?_eq_some_iff.1 hb).1
      fun hbound => ⟨_, hb, .inr (.inl hbound)⟩
  binding_holds id c s h _ := binding_same.imp fun _ _ hs => ⟨trivial, hs ▸ h.refl⟩
  markBound_holds {V _ _ _ _ id} hid f hf := .bindTo (R := fun _ s' => s'.Holds (.inScope id))
    (fun c s h hV => by
      obtain ⟨b, hb⟩ := (hV _ hid).exists_binding
      refine Runs.modify.imp ?_
      rintro _ _ rfl
      refine ⟨⟨{ b with state := .bound }, by simp [Array.getElem?_modify, hb], .inr (.inl rfl)⟩,
        h.modify id fun b _ => ⟨rfl, rfl, rfl, fun _ => rfl, nofun, fun _ => rfl⟩⟩)
    fun _ s _ hV hid => hf s.Holds hV hid
  bindValue_holds {V _ _ _ _ id} hid v f hf := .bindTo (R := fun _ s' => s'.Holds (.inScope id))
    (fun c s h hV => (bindValue_runs h (hV _ hid) v s.functions).imp
      fun _ _ ⟨s'', h', ⟨b, hb, hbound, _⟩, hfns, hs'⟩ => by
        rw [← hfns] at hs'
        exact hs' ▸ ⟨⟨b, hb, .inr (.inl hbound)⟩, h'⟩)
    fun _ s _ hV hid => hf s.Holds hV hid
  resolve_holds := .resolve
  peek?_holds := .peek?
  declareOwn_holds hw _ hm hids hbinds f hf := by
    rw [← bind_assoc]
    exact (Fills.declareOwn hw hm hids hbinds).bind hf
  beginFunction_holds := beginFunction_fills

/-! ### Rounds -/

theorem emit_runs (hs : s.functions = fn :: rest) (i : Inst) :
    Runs c (emit i) s fun _ s' => ∃ fn', s' = { s with functions := fn' :: rest } ∧
      fn'.mentions = fn.mentions ∧ fn'.waiting = fn.waiting :=
  (write_runs hs).imp fun _ _ h => ⟨_, h.2, rfl, rfl⟩

/-- A frame binds its declaration, or leaves that to another frame. -/
theorem resumeWith_binds (h : s.Accounts start base) {w : Waiting} {ws : List Waiting}
    (hs : s.functions = fn :: rest) (hwaiting : fn.waiting = w :: ws)
    (hm : ∀ m ∈ w.mentions, s.Holds m) (hid : w.binds? = some id) (v : Value) :
    Runs c (resumeWith w v) { s with functions := { fn with waiting := ws } :: rest } fun next s' =>
      next.Continues ∧ s'.Accounts start base := by
  unfold Waiting.binds? at hid
  split at hid
  · rename_i span ids
    cases v with
    | func f =>
      refine (modifyCurrent_runs rfl).bind ?_
      rintro _ _ rfl
      let w := Waiting.constantValue span (.define .single ids)
      have h₁ : Leads start base s { s with functions := { fn with waiting := w :: ws } :: rest } :=
        h.withCurrent hs [_] [w] hwaiting rfl (List.forall_mem_singleton.2 rfl)
          (fun _ hw id hid => .inl ⟨w, List.mem_cons_self, by rw [← hid, List.mem_singleton.1 hw]; rfl⟩)
          fun _ _ hm => .inl hm
      exact .pure ⟨trivial, h₁.accounts⟩
    | _ => exact .throw
  · rename_i span ids
    obtain ⟨ids, rfl⟩ := List.head?_eq_some_iff.1 hid
    refine (bindValue_runs h (hm _ List.mem_cons_self) v _).bind ?_
    rintro _ _ ⟨s₁, h₁, hset, hfns, rfl⟩
    have h₂ : Leads start base s₁ { s₁ with functions := { fn with waiting := ws } :: rest } :=
      h₁.accounts.pop (hfns.trans hs) hwaiting rfl rfl fun _ hid' =>
        Option.some.inj (hid.symm.trans hid') ▸ hset
    exact ((fills_tracking start base).constant_holds (V := fun _ => False) (L := []) c _ h₂.accounts
      nofun).bind fun _ _ h₃ => .pure ⟨trivial, h₃.2.accounts⟩
  · rename_i span ids
    obtain ⟨ids, rfl⟩ := List.head?_eq_some_iff.1 hid
    refine binding_same.bind ?_
    rintro b _ rfl
    refine (emit_runs rfl _).bind ?_
    rintro _ _ ⟨fn', rfl, hm', hwaiting'⟩
    refine (bindValue_runs h (hm _ List.mem_cons_self) .nil _).bind ?_
    rintro _ _ ⟨s₁, h₁, hset, hfns, rfl⟩
    exact .pure ⟨trivial, (h₁.accounts.pop (hfns.trans hs) hwaiting hm' hwaiting' fun _ hid' =>
      Option.some.inj (hid.symm.trans hid') ▸ hset).accounts⟩
  · cases hid

/-- A function ends when none of its frames wait. -/
theorem finishFunction_accounts (h : s.Accounts start base) (hs : s.functions = fn :: rest)
    (hwaiting : fn.waiting = []) (span : Span) :
    Runs c (finishFunction span rest.isEmpty) s fun next s' =>
      (next.Continues ∨ ∀ id, ¬s'.Awaits id) ∧ s'.Accounts start base := by
  refine (emit_runs hs _).bind ?_
  rintro _ _ ⟨fn', rfl, hm', hwaiting'⟩
  have h₁ := h.withCurrent hs [] [] rfl hwaiting' nofun nofun fun _ m hmem => .inl (hm' ▸ hmem)
  have hawaits (id : BindingId) (hid : { s with functions := fn' :: rest }.Awaits id) :
      { s with functions := rest }.Awaits id := by
    obtain ⟨v, hv, w, hw, hid⟩ := hid
    obtain rfl | hv := List.mem_cons.1 hv
    · simp [hwaiting', hwaiting] at hw
    · exact ⟨v, hv, w, hw, hid⟩
  refine current_runs.bind ?_
  rintro _ _ ⟨rfl, _, ⟨⟩⟩
  split
  · exact .throw
  refine .ite (fun hroot => .pure ⟨.inr fun id hid => ?_, h₁.accounts⟩) fun hroot => ?_
  · obtain ⟨v, hv, -⟩ := hawaits id hid
    rw [List.isEmpty_iff.1 hroot] at hv
    cases hv
  refine Runs.modify.bind ?_
  rintro _ _ rfl
  have h₂ : Leads start base { s with functions := fn' :: rest } { s with functions := rest } :=
    h₁.accounts.withFunctions (mt List.isEmpty_iff.2 hroot) h₁.accounts.ends.2
      (fun id hid => .inl (hawaits id hid)) fun _ v hv => .inl (List.mem_cons_of_mem _ hv)
  exact ((fills_tracking start base).prepareCaptures_holds (V := fun _ => False) (L := []) c _
    h₂.accounts nofun).bind fun _ _ h₃ => .pure ⟨.inl trivial, h₃.2.accounts⟩

theorem resume_accounts (h : s.Accounts start base) (v : Value) :
    Runs c (resume v) s fun next s' =>
      (next.Continues ∨ ∀ id, ¬s'.Awaits id) ∧ s'.Accounts start base := by
  refine current_runs.bind ?_
  rintro fn _ ⟨rfl, rest, hs⟩
  split
  · exact .throw
  rename_i w ws hwaiting
  refine (modifyCurrent_runs hs).bind ?_
  rintro _ _ rfl
  have hm (m : Mention) (hm : m ∈ w.mentions) : s.Holds m :=
    h.mentioned _ (List.mem_map_of_mem (hs ▸ List.mem_cons_self)) m (.inr ⟨w, by simp [hwaiting], hm⟩)
  cases hbinds : w.binds? with
  | some id => exact (resumeWith_binds h hs hwaiting hm hbinds v).imp fun _ _ h' => ⟨.inl h'.1, h'.2⟩
  | none =>
    have h₁ : Leads start base s { s with functions := { fn with waiting := ws } :: rest } :=
      h.pop hs hwaiting rfl rfl (by simp [hbinds])
    cases hw : w.isFinish with
    | false =>
      exact ((fills_tracking start base).resumeWith_holds (V := s.Holds) hw hm c _ h₁.accounts
        h₁.holds).imp fun _ _ h' => ⟨.inl h'.1, h'.2.accounts⟩
    | true =>
      cases w with
      | finish span isRoot =>
        have hends := h.ends
        rw [views, hs, List.map_cons, hwaiting] at hends
        obtain ⟨rfl, hroot⟩ := hends.1 [] span isRoot ws rfl
        rw [List.isEmpty_map] at hroot
        exact hroot ▸ finishFunction_accounts h₁.accounts rfl rfl span
      | _ => cases hw

end Compiling

/-- Whenever an evaluator gives a value, it has left the placeholders as they were. -/
def Evaluator.KeepsPlaceholders (ev : Evaluator) : Prop :=
  ∀ call heap c v, .value v ∈ (ev call heap c).answers →
    (ev call heap c).heap.forwards = heap.forwards

/-- A run that is not stuck leaves placeholders alone. -/
theorem Machine.run_forwards (fuel : Nat) (frames : List Frame) (heap : Heap) (steps : Nat)
    (c : Cancellation) :
    (run fuel ⟨frames, heap, steps, c⟩).outcome = .stuck ∨
      (run fuel ⟨frames, heap, steps, c⟩).heap.forwards = heap.forwards := by
  induction fuel generalizing frames heap steps c with
  | zero => exact .inr rfl
  | succ fuel ih =>
    cases frames with
    | nil => exact .inr rfl
    | cons f rest =>
      rw [run_cons]
      generalize (if (steps + 1) % checkInterval = 0 then c.ask else (false, c)) = asked
      dsimp only
      split
      · exact .inr rfl
      cases hst : f.step heap with
      | none => exact .inl rfl
      | some st =>
        have hheap : (afterStep (some st) rest).2.forwards = heap.forwards := by
          rw [← (Frame.step_keeps f heap st hst).grows.forwards]
          cases st <;> rfl
        generalize afterStep (some st) rest = after at hheap
        match after with
        | (.error _, _) => exact .inr hheap
        | (.ok _, _) => exact (ih ..).imp_right (·.trans hheap)

theorem Evaluator.machine_keepsPlaceholders : Evaluator.machine.KeepsPlaceholders := by
  intro call heap c v hv
  have hvalue : answerOf (Machine.call heap c call.fn call.args).outcome = .value v :=
    (List.mem_singleton.1 hv).symm
  unfold machine
  dsimp only
  unfold Machine.call Machine.callWithin at hvalue ⊢
  split at hvalue
  · rfl
  · refine (Machine.run_forwards ..).resolve_left fun hstuck => ?_
    rw [hstuck] at hvalue
    cases hvalue

namespace Task

open CompileState (Accounts)

variable {settings : Settings} {ev : Evaluator} {start : Nat} {base : Array (Option Value)} {t : Task}

/-- A compilation that goes on keeps account of its placeholders, and when it is finished no
declaration is about to be bound. -/
def Fills (start : Nat) (base : Array (Option Value)) (t : Task) : Prop :=
  match t.phase with
  | .compile _ | .give _ => t.state.Accounts start base ∧ t.reports = []
  | .finish _ => (t.state.Accounts start base ∧ ∀ id, ¬t.state.Awaits id) ∧ t.reports = []
  | .reported => ∀ fn, .ok fn ∈ t.reports → t.state.Accounts start base ∧ ∀ id, ¬t.state.Awaits id
  | _ => t.reports = []

theorem Fills.rebase (h : t.Fills start base) : t.Fills start t.state.heap.forwards := by
  have hrebase (h : t.state.Accounts start base) : t.state.Accounts start t.state.heap.forwards :=
    { h with kept := fun _ _ => id }
  obtain ⟨phase, _, _, _, _⟩ := t
  cases phase with
  | compile | give => exact ⟨hrebase h.1, h.2⟩
  | finish => exact ⟨⟨hrebase h.1.1, h.1.2⟩, h.2⟩
  | reported => exact fun fn hfn => ⟨hrebase (h fn hfn).1, (h fn hfn).2⟩
  | _ => exact h

/-- A compilation that waits keeps account too, as long as it can be answered. -/
structure Keeps (start : Nat) (base : Array (Option Value)) (t : Task) : Prop where
  fills : t.Fills start base
  waits : ∀ call, t.phase = .wait call → t.state.Accounts start base

theorem afterAction_keeps {x : Compiling Next} {s : CompileState}
    (hx : Runs settings x s fun next s' =>
      (next.Continues ∨ ∀ id, ¬s'.Awaits id) ∧ s'.Accounts start base) (c : Cancellation) :
    (afterAction c [] (x settings s)).Keeps start base := by
  match hrun : x settings s with
  | .ok next s' =>
    obtain ⟨hnext, h⟩ := hx next s' hrun
    cases next with
    | compile | give => exact ⟨⟨h, rfl⟩, nofun⟩
    | wait call => exact ⟨rfl, fun _ _ => h⟩
    | done fn => exact ⟨⟨⟨h, hnext.resolve_left id⟩, rfl⟩, nofun⟩
  | .error (.error e) s' => exact ⟨rfl, nofun⟩
  | .error .stuck s' => exact ⟨rfl, nofun⟩

theorem Keeps.advance (h : t.Keeps start base) : (t.advance settings).Keeps start base := by
  obtain ⟨phase, active, s, c, reports⟩ := t
  obtain ⟨h, hwaits⟩ := h
  cases phase with
  | compile e =>
    obtain ⟨h, rfl⟩ := h
    unfold Task.advance
    dsimp only
    split
    · exact ⟨rfl, nofun⟩
    · refine afterAction_keeps ?_ _
      exact ((Compiling.fills_tracking start base).dispatch_holds (V := fun _ => False) settings s h
        nofun).imp fun _ _ h' => ⟨.inl h'.1, h'.2.accounts⟩
  | give v =>
    obtain ⟨h, rfl⟩ := h
    exact afterAction_keeps (Compiling.resume_accounts h v) _
  | fail e =>
    obtain rfl : reports = [] := h
    refine ⟨fun fn hfn => ?_, nofun⟩
    cases List.mem_singleton.1 hfn
  | finish fn => exact ⟨fun _ _ => h.1, nofun⟩
  | wait | reported | stuck => exact ⟨h, hwaits⟩

section

variable (hev : ev.KeepsPlaceholders)

include hev

theorem Keeps.evaluate (h : t.Keeps start base) : (t.evaluate ev).Fills start base := by
  obtain heq | ⟨call, hwait, heq⟩ := t.evaluate_cases ev
  · rw [heq]
    exact h.fills
  have hreports : t.reports = [] := by
    have hfills := h.fills
    unfold Fills at hfills
    rwa [hwait] at hfills
  obtain ⟨hstate, hreports', hphase⟩ :=
    deliverAll_cases _ (ev call t.state.heap t.cancellation).answers
  rw [← heq] at hstate hreports' hphase
  replace hreports := hreports'.trans hreports
  unfold Fills
  obtain hphase | ⟨v, hv, hphase⟩ | hfails := hphase
  · rw [hphase, show Task.phase _ = _ from hwait]
    exact hreports
  · rw [hphase, hstate]
    exact ⟨(h.waits call hwait).withHeap (hev call _ _ v hv), hreports⟩
  · split <;> simp_all [Phase.isFailure]

theorem Fills.round (h : t.Fills start base) :
    (evaluate ev (advance settings t)).Fills start base := by
  by_cases hwait : ∃ call, t.phase = .wait call
  · obtain ⟨phase, active, s, c, reports⟩ := t
    obtain ⟨call, rfl⟩ := hwait
    exact h
  · exact (Keeps.mk h fun call hcall => absurd ⟨call, hcall⟩ hwait).advance.evaluate hev

theorem Fills.run (h : t.Fills start base) (rounds : Nat) :
    (run settings ev rounds t).Fills start base := by
  induction rounds generalizing t with
  | zero => exact h
  | succ rounds ih =>
    rw [Task.run]
    split
    · exact ih (h.round hev)
    · exact h

end

theorem Fills.finished (h : t.Fills start base) {fn : Func} (hok : .ok fn ∈ t.reports) :
    t.state.Accounts start base ∧ ∀ id, ¬t.state.Awaits id := by
  obtain ⟨phase, _, _, _, reports⟩ := t
  cases phase with
  | reported => exact h fn hok
  | compile | give | finish =>
    obtain rfl : reports = [] := h.2
    cases hok
  | fail | wait | stuck =>
    obtain rfl : reports = [] := h
    cases hok

/-- A compilation that will succeed keeps account of its placeholders. -/
theorem Fills.accounts (h : t.Fills start base) {rounds : Nat} {fn : Func}
    (hok : .ok fn ∈ (Task.run settings ev rounds t).reports) : t.state.Accounts start base := by
  obtain ⟨phase, active, s, c, reports⟩ := t
  cases rounds with
  | zero => exact (h.finished hok).1
  | succ rounds =>
    cases active with
    | false => exact (h.finished hok).1
    | true =>
      rw [run_succ _ _ rfl] at hok
      cases phase with
      | compile | give => exact h.1
      | finish => exact h.1.1
      | fail e =>
        obtain rfl : reports = [] := h
        rw [run_eq_self _ _ rfl] at hok
        cases List.mem_singleton.1 hok
      | wait | reported | stuck =>
        rw [run_eq_self _ _ rfl] at hok
        exact (h.finished hok).1

theorem start_fills (settings : Settings) (heap : Heap) (c : Cancellation) (root : Expr) :
    (Task.start settings heap c root).Fills heap.forwards.size heap.forwards := by
  refine ⟨{
    nonempty := List.cons_ne_nil _ _
    ends := ⟨fun ws span isRoot ws' hv => ?_, trivial⟩
    mentioned := by simp [Task.start, CompileState.views, CompileState.Refers,
      FunctionState.mentions, Waiting.mentions]
    kept := fun _ _ => id
    start_le := Nat.le_refl _
    fresh := by simp [Task.start]
    placed := by simp [Task.start]
    owned := fun index hle hlt => absurd hlt (Nat.not_lt.2 hle) }, rfl⟩
  cases ws with
  | nil =>
    cases hv
    exact ⟨rfl, rfl⟩
  | cons w ws => simp at hv

/-- What is never taken back was given at some first time. -/
theorem exists_first {o : Nat → Option Value} {rounds : Nat}
    (hkept : ∀ n < rounds, ∀ v, o n = some v → o (n + 1) = some v) :
    ∃ first, ∀ n ≤ rounds, o n = if n < first then none else o rounds := by
  induction rounds with
  | zero => exact ⟨0, by simp⟩
  | succ rounds ih =>
    obtain ⟨first, hfirst⟩ := ih fun n hn => hkept n (by omega)
    cases hlast : o rounds with
    | none => exact ⟨rounds + 1, by grind⟩
    | some v => exact ⟨first, by grind⟩

/-- Every placeholder that a compilation has made belongs to one constant.  It was filled once, with
the value of that constant, and no unset placeholder is left that was not there before. -/
def Filled (heap : Heap) (after : Nat → CompileState) (rounds : Nat) : Prop :=
  (∀ index, heap.forwards.size ≤ index → index < (after rounds).heap.forwards.size →
    ∃ (id : BindingId) (b : Binding), (after rounds).bindings[id]? = some b ∧ b.isConstant = true ∧
      b.state = .bound ∧ b.placeholder = some (.forward index b.name) ∧
      (∀ (id' : BindingId) b', (after rounds).bindings[id']? = some b' →
        b'.placeholder = some (.forward index b'.name) → id' = id) ∧
      ∃ first ≤ rounds, ∀ n ≤ rounds,
        (after n).heap.forwards.getD index none = if n < first then none else some b.value) ∧
  ∀ index : Nat, (after rounds).heap.forwards[index]? = some none →
    heap.forwards[index]? = some none

theorem Filled.of_kept {heap : Heap} {after : Nat → CompileState} {rounds : Nat}
    (hfinal : (after rounds).Accounts heap.forwards.size heap.forwards)
    (hawaits : ∀ id, ¬(after rounds).Awaits id)
    (hkept : ∀ n < rounds, ∀ (index : Nat) v, (after n).heap.forwards[index]? = some (some v) →
      (after (n + 1)).heap.forwards[index]? = some (some v)) : Filled heap after rounds := by
  have hget (forwards : Array (Option Value)) (index : Nat) (v : Value) :
      forwards.getD index none = some v ↔ forwards[index]? = some (some v) := by
    rw [Array.getD_eq_getD_getElem?, Option.getD_eq_iff]
    simp
  refine ⟨fun index hle hlt => ?_, fun index hnone => ?_⟩
  · obtain ⟨id, ⟨b, hb, hp⟩, hunique⟩ := hfinal.owned index hle hlt
    obtain ⟨_, ⟨⟩, -, hconstant, ⟨hset, hbound⟩ | ⟨-, hid⟩⟩ := hfinal.placed id b _ hb hp
    · have hkept' (n : Nat) (hn : n < rounds) (v : Value) :
          (after n).heap.forwards.getD index none = some v →
            (after (n + 1)).heap.forwards.getD index none = some v := by
        simpa only [hget] using hkept n hn index v
      obtain ⟨first, hfirst⟩ := exists_first hkept'
      rw [(hget _ _ _).2 hset] at hfirst
      have hle : first ≤ rounds := by
        have hlast := hfirst rounds le_rfl
        grind
      exact ⟨id, b, hb, hconstant, hbound, hp, fun id' b' hb' hp' => hunique id' ⟨b', hb', hp'⟩,
        first, hle, hfirst⟩
    · exact absurd hid (hawaits id)
  · obtain hlt | hle := Nat.lt_or_ge index heap.forwards.size
    · cases hvalue : heap.forwards[index] with
      | none => exact Array.getElem?_eq_some_iff.2 ⟨hlt, hvalue⟩
      | some v => cases hnone.symm.trans (hfinal.kept index v
        (Array.getElem?_eq_some_iff.2 ⟨hlt, hvalue⟩))
    · obtain ⟨id, ⟨b, hb, hp⟩, -⟩ := hfinal.owned index hle (Array.getElem?_eq_some_iff.1 hnone).1
      obtain ⟨_, ⟨⟩, -, -, ⟨hset, -⟩ | ⟨-, hid⟩⟩ := hfinal.placed id b _ hb hp
      · cases hnone.symm.trans hset
      · exact absurd hid (hawaits id)

/-! ### Answers at any moment -/

/-- A compilation will not succeed any more. -/
def Lost (t : Task) : Prop :=
  (t.phase.isFailure = true ∨ t.phase = .reported) ∧ ∀ fn, .ok fn ∉ t.reports

theorem Keeps.accounts_or_lost (h : t.Keeps start base) : t.state.Accounts start base ∨ t.Lost := by
  obtain ⟨phase, active, s, c, reports⟩ := t
  obtain ⟨h, hwaits⟩ := h
  cases phase with
  | compile | give => exact .inl h.1
  | finish => exact .inl h.1.1
  | wait call => exact .inl (hwaits call rfl)
  | fail | stuck =>
    obtain rfl : reports = [] := h
    exact .inr ⟨.inl rfl, fun _ => List.not_mem_nil⟩
  | reported =>
    by_cases hok : ∃ fn, .ok fn ∈ reports
    · exact .inl (h hok.choose hok.choose_spec).1
    · exact .inr ⟨.inr rfl, not_exists.1 hok⟩

theorem Lost.advance (h : t.Lost) : (t.advance settings).Lost := by
  obtain ⟨phase, active, s, c, reports⟩ := t
  obtain ⟨hphase, hnever⟩ := h
  cases phase with
  | fail e =>
    refine ⟨.inr rfl, fun fn hfn => ?_⟩
    obtain hfn | hfn := List.mem_cons.1 hfn
    · cases hfn
    · exact hnever fn hfn
  | stuck | reported => exact ⟨hphase, hnever⟩
  | _ => obtain hphase | hphase := hphase <;> cases hphase

theorem Keeps.deliver {call : EvalCall} (h : t.Keeps start base) (hwait : t.phase = .wait call)
    (a : Answer) : (t.deliver a).Keeps start base := by
  obtain ⟨phase, active, s, c, reports⟩ := t
  cases hwait
  cases a with
  | value v => exact ⟨⟨h.waits call rfl, h.fills⟩, nofun⟩
  | _ => exact ⟨h.fills, nofun⟩

theorem Keeps.withHeap (h : t.Keeps start base) {heap : Heap} (c : Cancellation)
    (hforwards : heap.forwards = t.state.heap.forwards) :
    Keeps start base { t with state := { t.state with heap }, cancellation := c } := by
  obtain ⟨phase, active, s, _, reports⟩ := t
  obtain ⟨h, hwaits⟩ := h
  refine ⟨?_, fun call hwait => (hwaits call hwait).withHeap hforwards⟩
  cases phase with
  | compile | give => exact ⟨h.1.withHeap hforwards, h.2⟩
  | finish => exact ⟨⟨h.1.1.withHeap hforwards, h.1.2⟩, h.2⟩
  | reported => exact fun fn hfn => ⟨(h fn hfn).1.withHeap hforwards, (h fn hfn).2⟩
  | wait | fail | stuck => exact h

theorem Keeps.rebase (h : t.Keeps start base) : t.Keeps start t.state.heap.forwards :=
  ⟨h.fills.rebase, fun call hwait => { h.waits call hwait with kept := fun _ _ => id }⟩

namespace Shared

/-- Only loops make and fill placeholders: who leaves the loops as they are leaves the placeholders
alone. -/
def KeepsPlaceholders (x y : Shared) : Prop :=
  x.loops = y.loops → y.task.state.heap.forwards = x.task.state.heap.forwards

/-- The compilation that loops carry on keeps account of its placeholders. -/
structure Fills (start : Nat) (base : Array (Option Value)) (x : Shared) : Prop where
  orderly : x.Orderly
  takes : x.Takes
  keeps : x.task.Keeps start base

variable {x y : Shared}

theorem Fills.step (h : x.Fills start base) (hstep : Step settings x y)
    (hconduct : KeepsPlaceholders x y) :
    y.Fills start base ∧ (x.task.Lost → y.task.Lost) := by
  obtain ⟨htakes, ⟨heap, cancellation, htask, hheap⟩ | htask | ⟨call, a, -, hwait, htask⟩⟩ :=
    h.takes.step h.orderly hstep
  · have hforwards : heap.forwards = x.task.state.heap.forwards := by
      obtain hloops | rfl := hheap
      · simpa [htask] using hconduct hloops
      · rfl
    refine ⟨⟨h.orderly.step hstep, htakes, htask ▸ h.keeps.withHeap cancellation hforwards⟩, ?_⟩
    rw [htask]
    exact id
  · refine ⟨⟨h.orderly.step hstep, htakes, htask ▸ h.keeps.advance⟩, fun hlost => ?_⟩
    rw [htask]
    exact hlost.advance
  · refine ⟨⟨h.orderly.step hstep, htakes, htask ▸ h.keeps.deliver hwait a⟩, ?_⟩
    rintro ⟨hlost, -⟩
    rw [hwait] at hlost
    obtain hlost | hlost := hlost <;> cases hlost

end Shared

section

variable {settings : Settings} {heap : Heap} {cancellation : Cancellation} {root : Expr}
  {states : Nat → Shared} (hstates : Shared.History settings Shared.KeepsPlaceholders
    (Shared.start settings heap cancellation root) states)

include hstates

theorem fills_history : ∀ n, (states n).Fills heap.forwards.size heap.forwards :=
  hstates.all ⟨Shared.start_orderly _ _ _ _, Shared.start_takes _ _ _ _,
    start_fills settings heap cancellation root, nofun⟩
    fun h hstep hconduct => (h.step hstep hconduct).1

theorem lost_history {n m : Nat} (h : (states n).task.Lost) (hle : n ≤ m) :
    (states m).task.Lost := by
  induction m, hle using Nat.le_induction with
  | base => exact h
  | succ m _ ih =>
    obtain heq | ⟨hstep, hconduct⟩ := hstates.succ m
    · rwa [heq]
    · exact ((fills_history hstates m).step hstep hconduct).2 ih

end

/-- Whenever a compilation has succeeded, all placeholders that it has made are filled.  It may have
been answered by an evaluator at once, or by others at any moment. -/
theorem placeholders_filled (settings : Settings) (heap : Heap) (cancellation : Cancellation)
    (root : Expr) {rounds : Nat} {fn : Func} :
    (∀ ev : Evaluator, ev.KeepsPlaceholders →
      .ok fn ∈ (Task.run settings ev rounds (.start settings heap cancellation root)).reports →
      Filled heap
        (fun n => (Task.run settings ev n (.start settings heap cancellation root)).state) rounds) ∧
    ∀ states, Shared.History settings Shared.KeepsPlaceholders
        (.start settings heap cancellation root) states →
      .ok fn ∈ (states rounds).task.reports →
      Filled heap (fun n => (states n).task.state) rounds := by
  refine ⟨fun ev hev hok => ?_, fun states hstates hok => ?_⟩
  · have hfills : ∀ n, (Task.run settings ev n (.start settings heap cancellation root)).Fills
        heap.forwards.size heap.forwards := (start_fills settings heap cancellation root).run hev
    obtain ⟨hfinal, hawaits⟩ := (hfills rounds).finished hok
    refine .of_kept hfinal hawaits fun n hn index v hv => ?_
    have hnext : (Task.run settings ev 1 _).Fills _ _ := (hfills n).rebase.run hev 1
    rw [← run_add] at hnext
    obtain ⟨k, rfl⟩ := Nat.exists_eq_add_of_le (Nat.succ_le_of_lt hn)
    rw [run_add] at hok
    exact (hnext.accounts hok).kept index v hv
  · have hfills := fills_history hstates
    obtain ⟨hfinal, hawaits⟩ := (hfills rounds).keeps.fills.finished hok
    refine .of_kept hfinal hawaits fun n hn index v hv => ?_
    obtain heq | ⟨hstep, hconduct⟩ := hstates.succ n
    · rwa [heq]
    have hrebased : (states n).Fills heap.forwards.size (states n).task.state.heap.forwards :=
      { hfills n with keeps := (hfills n).keeps.rebase }
    obtain haccounts | hlost := (hrebased.step hstep hconduct).1.keeps.accounts_or_lost
    · exact haccounts.kept index v hv
    · exact absurd hok ((lost_history hstates hlost hn).2 fn)

theorem exists_ok {reports : List (Except SourceError Func)} (h : reports.any Except.isOk = true) :
    ∃ fn, .ok fn ∈ reports := by
  obtain ⟨r, hr, hisOk⟩ := List.any_eq_true.1 h
  cases r with
  | error => cases hisOk
  | ok fn => exact ⟨fn, hr⟩

/-- The function is a constant, and refers to itself.  Its value is given at once, or later. -/
theorem placeholders_filled_of_recursion :
    let span : Span := ⟨[], 1, 1⟩
    let settings : Settings := ⟨.empty, 64, span⟩
    let d : Decl := ⟨0, "f", 1, false⟩
    let root : Expr := .block span [] [] [d]
      [.bind span .constant .single [d] (.function span [] false false (.ident span "f"))] []
    (Evaluator.machine.KeepsPlaceholders ∧
      ∃ t, t = Task.run settings .machine 12 (.start settings {} .never root) ∧
        (∃ fn, .ok fn ∈ t.reports) ∧ t.state.heap.forwards.size = 1 ∧
        ∀ index : Nat, t.state.heap.forwards[index]? ≠ some none) ∧
    ∃ states, Shared.History settings Shared.KeepsPlaceholders (.start settings {} .never root) states ∧
      (states 20).loops.isEmpty = true ∧ (∃ fn, .ok fn ∈ (states 29).task.reports) ∧
      (states 29).task.state.heap.forwards.size = 1 ∧
      ∀ index : Nat, (states 29).task.state.heap.forwards[index]? ≠ some none := by
  intro span settings d root
  constructor
  · obtain ⟨tasks, htasks⟩ : ∃ tasks : Nat → Task, tasks = fun n =>
      Task.run settings .machine n (.start settings {} .never root) := ⟨_, rfl⟩
    obtain ⟨fn, hok⟩ : ∃ fn, .ok fn ∈ (tasks 12).reports := exists_ok (by rw [htasks]; decide +kernel)
    have hfilled : Filled {} (fun n => (tasks n).state) 12 := by
      subst htasks
      exact (placeholders_filled settings {} .never root).1 _ Evaluator.machine_keepsPlaceholders hok
    refine ⟨Evaluator.machine_keepsPlaceholders, tasks 12, congrFun htasks 12, ⟨fn, hok⟩,
      by rw [htasks]; decide +kernel, fun index hnone => ?_⟩
    simpa using hfilled.2 index hnone
  · let answer? (n : Nat) : Option Answer := if n = 20 then some (.value (.int 5)) else none
    obtain ⟨states, hplay⟩ : ∃ states, states = Shared.play settings answer?
      (.start settings {} .never root) := ⟨_, rfl⟩
    have hstates : Shared.History settings Shared.KeepsPlaceholders (.start settings {} .never root)
        states := by
      rw [hplay]
      refine Shared.play_history _ (fun n => ?_) fun x y hstate _ hloops => ?_
      · by_cases hn : n = 20 <;> simp [answer?, hn]
      · rw [hstate hloops]
    obtain ⟨fn, hok⟩ : ∃ fn, .ok fn ∈ (states 29).task.reports :=
      exists_ok (by rw [hplay]; decide +kernel)
    refine ⟨states, hstates, by rw [hplay]; decide +kernel, ⟨fn, hok⟩, by rw [hplay]; decide +kernel,
      fun index hnone => ?_⟩
    simpa using ((placeholders_filled settings {} .never root).2 states hstates hok).2 index hnone

end Task

end StagedScript
