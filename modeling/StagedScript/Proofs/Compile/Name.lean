import StagedScript.Proofs.Compile.Action

/-!
# Declarations and names

Declarations keep their slots once they are made.  A name in scope is therefore found where its
declaration says: in a slot of the current layout, among the captured values, or as a sound
constant.
-/

namespace StagedScript

variable {L : Log} {E E' : Env} {y : Nesting} {cur cur' : Cursor} {s s' : CompileState}
  {c : Settings} {p q : Point Label} {x : Context}

theorem At.extend (h : At L E y cur s) (hE : E.Extends E') (hlabels : E'.labels = E.labels)
    (hcaptures : E'.captures = E.captures) (hfunctions : s'.functions = s.functions)
    (hbindings : E'.Knows s'.bindings) (hheap : s'.heap.AllSound E'.counts)
    (hcounts : E'.counts = s'.heap.capturedCount?) : At L E' y cur s' := by
  obtain ⟨fn, rest, hs, hy, htyped, hrest⟩ := h.functions
  refine ⟨⟨fn, rest, hfunctions.trans hs, hy, htyped.mono hE hlabels hcaptures, ?_⟩, hbindings,
    hheap, hcounts⟩
  rw [hE.isRoot]
  exact hrest.mono hE.slots hE.counts

/-- The declarations change, but not their slots. -/
theorem At.withBindings (h : At L E y cur s) {bindings : Array Binding}
    (hbindings : E.Knows bindings) : At L E y cur { s with bindings } :=
  ⟨h.functions, hbindings, h.heap, h.counts⟩

theorem At.withForwards (h : At L E y cur s) {forwards : Array (Option Value)}
    (hheap : Heap.AllSound E.counts { s.heap with forwards }) :
    At L E y cur { s with heap := { s.heap with forwards } } :=
  ⟨h.functions, h.bindings, hheap, h.counts⟩

namespace Env

variable {bindings : Array Binding}

theorem Knows.slot (h : E.Knows bindings) {id : BindingId} {n : Option Int}
    (hn : E.slots[id]? = some n) : (bindings.getD id default).slot? = n := by
  rw [h.slots, List.getElem?_map, Array.getElem?_toList, Option.map_eq_some_iff] at hn
  obtain ⟨b, hb, rfl⟩ := hn
  rw [Array.getD_eq_getD_getElem?, hb]
  rfl

theorem Knows.getD_sound (h : E.Knows bindings) (id : BindingId) :
    (bindings.getD id default).Sound E.counts := by
  rw [Array.getD_eq_getD_getElem?]
  cases hb : bindings[id]? with
  | none => exact ⟨trivial, nofun⟩
  | some b => exact h.sound b (Array.mem_of_getElem? hb)

theorem Knows.modify (h : E.Knows bindings) {f : Binding → Binding}
    (hf : ∀ b, b.Sound E.counts → (f b).Sound E.counts ∧ (f b).slot? = b.slot?) (id : BindingId) :
    E.Knows (bindings.modify id f) := by
  constructor
  · rw [h.slots]
    refine List.ext_getElem? fun k => ?_
    simp only [List.getElem?_map, Array.getElem?_toList, Array.getElem?_modify]
    split
    · cases hb : bindings[k]? with
      | none => simp
      | some b => simp [(hf b (h.sound b (Array.mem_of_getElem? hb))).2]
    · rfl
  · intro b hb
    obtain ⟨k, hk, rfl⟩ := Array.mem_iff_getElem.1 hb
    rw [Array.getElem_modify]
    split
    · exact (hf _ (h.sound _ (Array.getElem_mem _))).1
    · exact h.sound _ (Array.getElem_mem _)

theorem Knows.push (h : E.Knows bindings) {b : Binding} (hb : b.Sound E.counts) :
    (E.withSlot b.slot?).Knows (bindings.push b) := by
  refine ⟨by simp [withSlot, h.slots], fun b' hb' => ?_⟩
  obtain hb' | rfl := Array.mem_push.1 hb'
  · exact h.sound b' hb'
  · exact hb

end Env

def Reference.Valid (E : Env) (l : Layout) : Reference → Prop
  | .constant v _ => v.Sound E.counts
  | .slot index _ | .slotIndirect index _ => l.kindAt? index = some .value
  | .captured index _ => 0 ≤ index ∧ index < E.captures

def Globals.Sound (g : Globals) : Prop :=
  ∀ z name v, g.lookup name = .ok (some v) → v.Sound z

namespace Compiling

/-! ### Declarations -/

section

variable (h : At L E y cur s)

include h

theorem binding_at (id : BindingId) :
    Runs c (binding id) s fun b s' => s = s' ∧ b = s.bindings.getD id default ∧
      b.Sound E.counts ∧ ∀ n, E.slots[id]? = some n → b.slot? = n := by
  refine Runs.get.bind ?_
  rintro _ _ ⟨rfl, rfl⟩
  exact .pure ⟨rfl, rfl, h.bindings.getD_sound id, fun n hn => h.bindings.slot hn⟩

theorem modifyBinding_at (id : BindingId) {f : Binding → Binding}
    (hf : ∀ b, b.Sound E.counts → (f b).Sound E.counts ∧ (f b).slot? = b.slot?) :
    Runs c (modifyBinding id f) s fun _ s' => At L E y cur s' := by
  refine Runs.modify.imp ?_
  rintro _ _ rfl
  exact h.withBindings (h.bindings.modify hf id)

theorem newBinding_at {b : Binding} (hb : b.Sound E.counts) :
    Runs c (newBinding b) s fun id s' => ∃ E', E.Extends E' ∧ E'.slots[id]? = some b.slot? ∧
      At L E' y cur s' := by
  rintro _ s' ⟨⟩
  refine ⟨_, E.extends_withSlot b.slot?, ?_, h.extend (E.extends_withSlot _) rfl rfl rfl
    (h.bindings.push hb) h.heap h.counts⟩
  rw [← E.slots_withSlot b.slot?, h.bindings.slots]
  simp

theorem declare_at (id : BindingId) :
    Runs c (declare id) s fun _ s' => At L E { y with scope := id :: y.scope } cur s' := by
  refine (binding_at h id).bind ?_
  rintro b _ ⟨rfl, -⟩
  exact modifyCurrent_at (fun y => { y with scope := id :: y.scope }) h fun _ => rfl

theorem markBound_at (id : BindingId) :
    Runs c (markBound id) s fun _ s' => At L E y cur s' :=
  modifyBinding_at h id fun _ hb => ⟨hb, rfl⟩

theorem bindValue_at (id : BindingId) {v : Value} (hv : v.Sound E.counts) :
    Runs c (bindValue id v) s fun _ s' => At L E y cur s' := by
  have finish : ∀ {s : CompileState}, At L E y cur s →
      Runs c (modifyBinding id ({ · with state := .bound, value := v })) s
        fun _ s' => At L E y cur s' :=
    fun h => modifyBinding_at h id fun _ hb => ⟨⟨hv, hb.2⟩, rfl⟩
  unfold bindValue
  refine (binding_at h id).bind ?_
  rintro b _ ⟨rfl, -⟩
  refine .ite (fun _ => ?_) fun _ => ?_
  · exact Runs.read.bind fun _ _ _ => Runs.throw.bind (P := fun _ _ => False) nofun
  · dsimp only
    split
    · refine Runs.modify.bind ?_
      rintro _ _ rfl
      exact finish (h.withForwards (h.heap.setForward hv _))
    · exact finish h

theorem markForward_at (id : BindingId) :
    Runs c (markForward id) s fun _ s' => At L E y cur s' := by
  refine (binding_at h id).bind ?_
  rintro b _ ⟨rfl, -⟩
  split
  · refine .ite (fun _ => ?_) fun _ => modifyBinding_at h id fun _ hb => ⟨hb, rfl⟩
    refine Runs.get.bind ?_
    rintro _ _ ⟨rfl, rfl⟩
    refine Runs.set.bind ?_
    rintro _ _ rfl
    refine modifyBinding_at (h.withForwards (h.heap.newForward b.name)) id fun b' hb' =>
      ⟨⟨hb'.1, ?_⟩, rfl⟩
    rintro _ ⟨⟩
    trivial
  · exact .pure h
  · exact Runs.read.bind fun _ _ _ => .throw

end

theorem markForward_functions (id : BindingId) :
    Runs c (markForward id) s fun _ s' => s'.functions = s.functions := by
  unfold markForward
  refine Runs.bind (P := fun _ s' => s = s') ?_ ?_
  · refine Runs.get.bind ?_
    rintro _ _ ⟨rfl, rfl⟩
    exact .pure rfl
  rintro b _ rfl
  split
  · refine .ite (fun _ => ?_) fun _ => Runs.modify.imp (by rintro _ _ rfl; rfl)
    refine Runs.get.bind ?_
    rintro _ _ ⟨rfl, rfl⟩
    refine Runs.set.bind ?_
    rintro _ _ rfl
    exact Runs.modify.imp (by rintro _ _ rfl; rfl)
  · exact .pure rfl
  · exact Runs.read.bind fun _ _ _ => .throw

/-! ### Captured values -/

variable {id : BindingId}

/-- Capturing keeps the functions around typed, and the one inside can capture from the result. -/
theorem captureIn_enclosed {finished : List Func} {slots : List (Option Int)}
    {counts : CapturedCounts} {n : Int} (hslot : slots[id]? = some (some n)) (level : Nat)
    {fns : List FunctionState} {outer : List Outer} {isRoot : Bool} {upvalues : List Int}
    {captured : List BindingId}
    (h : Enclosed finished slots counts isRoot upvalues captured outer fns)
    (hscope : ∃ fn, fns[level]? = some fn ∧ id ∈ fn.scope) :
    Enclosed finished slots counts isRoot (upvalues ++ [(captureIn id n level fns).1])
      (captured ++ [id]) outer (captureIn id n level fns).2 := by
  induction level generalizing fns outer isRoot upvalues captured with
  | zero =>
    obtain ⟨fn, hfn, hid⟩ := hscope
    obtain ⟨rest, rfl⟩ : ∃ rest, fns = fn :: rest := by
      cases fns with
      | nil => cases hfn
      | cons fn' rest => exact ⟨rest, by simpa using hfn⟩
    obtain _ | ⟨o, outer⟩ := outer
    · exact h.elim
    obtain ⟨hlength, hwaits, E, x, l, rfl, hcounts, htyped, hfits, hdesc, hawaits, hups,
      hrest⟩ := h
    refine ⟨by simpa using hlength, hwaits, E, x, l, rfl, hcounts, htyped, hfits, hdesc,
      hawaits, ?_, hrest⟩
    intro u hu
    obtain hu | hu := List.mem_append.1 hu
    · exact hups u hu
    -- a name that is in scope has a slot, and it holds a value
    · obtain rfl := List.mem_singleton.1 hu
      obtain hnone | ⟨m, hm, hkind⟩ := hdesc.scope id hid
      · simp [hslot] at hnone
      · cases Option.some.inj (Option.some.inj (hslot.symm.trans hm))
        have hkind := Layout.kindAt?_of_suffix hfits.floor hkind
        exact ⟨fun _ => hkind, fun hneg => absurd (Layout.lt_of_kindAt? hkind).1 (by omega)⟩
  | succ level ih =>
    obtain _ | ⟨fn, rest⟩ := fns
    · simp at hscope
    obtain _ | ⟨o, outer⟩ := outer
    · exact h.elim
    obtain ⟨hlength, hwaits, E, x, l, hslots, hcounts, htyped, hfits, hdesc, hawaits, hups,
      hrest⟩ := h
    have hcap := hrest.length
    have hrest' := ih hrest (by simpa using hscope)
    unfold captureIn
    dsimp only
    split
    · rename_i i hi
      have hlt : i < fn.captured.length := (List.idxOf?_eq_some_iff.1 hi).1
      refine ⟨by simpa using hlength, hwaits, E, x, l, hslots, hcounts, htyped, hfits, hdesc,
        hawaits, ?_, hrest'.dropLast⟩
      intro u hu
      obtain hu | hu := List.mem_append.1 hu
      · exact hups u hu
      · obtain rfl := List.mem_singleton.1 hu
        have := htyped.captures
        exact ⟨fun h => by omega, fun _ => by omega⟩
    · have hE : E.Extends { E with captures := E.captures + 1 } :=
        ⟨rfl, fun _ _ h => h, Nat.le_succ _, fun _ _ h => h, fun _ _ h => h⟩
      refine ⟨by simpa using hlength, ⟨hwaits.frames, hwaits.size, hwaits.records⟩,
        { E with captures := E.captures + 1 }, x, l,
        hslots, hcounts, htyped.capture rfl (by simp) rfl rfl rfl,
        hfits.mono hE (List.suffix_refl l), hdesc.mono hE, hawaits.mono hE, ?_, hrest'⟩
      intro u hu
      obtain hu | hu := List.mem_append.1 hu
      · exact (hups u hu).mono (List.suffix_refl l) (Nat.le_succ _)
      · obtain rfl := List.mem_singleton.1 hu
        have := htyped.captures
        exact ⟨fun h => by omega, fun _ => by push_cast; omega⟩

theorem capture_at (h : At L E y cur s) {n : Int} {level : Nat}
    (hslot : E.slots[id]? = some (some n))
    (hscope : ∃ fn, s.functions[level + 1]? = some fn ∧ id ∈ fn.scope) :
    Runs c (capture id (level + 1)) s fun i s' => ∃ E', E.Extends E' ∧ At L E' y cur s' ∧ 0 ≤ i ∧
      i < E'.captures := by
  obtain ⟨⟨fn, rest, hs, rfl, htyped, hrest⟩, hbindings, hheap, hcounts⟩ := h
  have hb : (s.bindings.getD id default).slot = n := by
    have := hbindings.slot hslot
    unfold Binding.slot? at this
    split at this
    · cases this
    · exact Option.some.inj this
  have hrest' := captureIn_enclosed hslot level hrest (by simpa [hs] using hscope)
  have hcap := hrest.length
  have hcaptures := htyped.captures
  unfold capture
  refine Runs.get.bind ?_
  rintro _ _ ⟨rfl, rfl⟩
  refine Runs.bind (P := fun b s' => b.slot = n ∧ s = s') ?_ ?_
  · refine Runs.get.bind ?_
    rintro _ _ ⟨rfl, rfl⟩
    exact .pure ⟨hb, rfl⟩
  rintro b _ ⟨rfl, rfl⟩
  refine Runs.set.bind ?_
  rintro _ _ rfl
  refine .pure ?_
  rw [hs]
  unfold captureIn
  dsimp only
  split
  · rename_i i hi
    have hlt : i < fn.captured.length := (List.idxOf?_eq_some_iff.1 hi).1
    refine ⟨E, .refl E, ⟨⟨fn, _, rfl, rfl, htyped, hrest'.dropLast⟩, hbindings, hheap, hcounts⟩, ?_,
      ?_⟩ <;> omega
  · refine ⟨{ E with captures := E.captures + 1 },
      ⟨rfl, fun _ _ h => h, Nat.le_succ _, fun _ _ h => h, fun _ _ h => h⟩,
      ⟨⟨_, _, rfl, rfl, htyped.capture rfl (by simp) rfl rfl rfl, hrest'⟩,
        ⟨hbindings.slots, hbindings.sound⟩, hheap, hcounts⟩, ?_, ?_⟩
    · omega
    · push_cast
      omega

/-! ### Names -/

theorem lookupOuter_scope {bindings : Array Binding} {name : Bytes} {first level : Nat}
    {only only' : Bool} {fns : List FunctionState}
    (h : lookupOuter bindings name first only fns = some (id, level, only')) :
    first ≤ level ∧ ∃ fn, fns[level - first]? = some fn ∧ id ∈ fn.scope := by
  induction fns generalizing first only with
  | nil => cases h
  | cons fn rest ih =>
    unfold lookupOuter at h
    split at h
    · rename_i id' hid
      cases h
      exact ⟨le_rfl, fn, by simp, List.mem_of_find?_eq_some hid⟩
    · obtain ⟨hle, fn', hfn, hid⟩ := ih h
      refine ⟨by omega, fn', ?_, hid⟩
      rw [show level - first = level - (first + 1) + 1 by omega]
      exact hfn

/-- A declaration that is found for a name is known, and the current function sees its own. -/
theorem lookup_sees (h : At L E y cur s) (hx : x.Describes E y) {name : Bytes} {level : Nat}
    {only : Bool}
    (hlookup : lookupOuter s.bindings name 0 false s.functions = some (id, level, only)) :
    (level = 0 → E.Sees x.floor id) ∧ (∃ n, E.slots[id]? = some n) ∧
      ∃ fn, s.functions[level]? = some fn ∧ id ∈ fn.scope := by
  obtain ⟨-, fn, hfn, hid⟩ := lookupOuter_scope hlookup
  obtain ⟨fn', rest, hs, rfl, -, hrest⟩ := h.functions
  have hsees : fn' = fn → E.Sees x.floor id := by
    rintro rfl
    exact hx.scope id hid
  refine ⟨?_, ?_, fn, hfn, hid⟩
  · rintro rfl
    exact hsees (by simpa [hs] using hfn)
  · obtain rfl | hmem := List.mem_cons.1 (hs ▸ List.mem_of_getElem? hfn)
    · obtain hnone | ⟨n, hn, -⟩ := hsees rfl
      · exact ⟨none, hnone⟩
      · exact ⟨some n, hn⟩
    · exact hrest.slot_of_scope hmem hid

theorem resolve_at (h : At L E y cur s) (hx : x.Describes E y) {l : Layout} (hl : x.floor <:+ l)
    (hglobals : c.globals.Sound) (span : Span) (name : Bytes) :
    Runs c (resolve span name) s fun r s' => ∃ E', E.Extends E' ∧ At L E' y cur s' ∧
      r.Valid E' l := by
  unfold resolve
  refine Runs.get.bind ?_
  rintro _ _ ⟨rfl, rfl⟩
  split
  -- a declaration of this function has a slot, and one of a function around is captured
  · rename_i id level only hlookup
    obtain ⟨hsees, ⟨n, hn⟩, hscope⟩ := lookup_sees h hx hlookup
    refine (binding_at h id).bind ?_
    rintro b _ ⟨rfl, -, hb, hslot⟩
    refine .ite (fun _ => ?_) fun hconst => ?_
    · refine .ite (fun _ => .pure ⟨E, .refl E, h, hb.1⟩) fun _ => ?_
      refine (markForward_at h id).bind fun _ _ h => (binding_at h id).bind ?_
      rintro b _ ⟨rfl, -, hb, -⟩
      refine .pure ⟨E, .refl E, h, ?_⟩
      cases hp : b.placeholder with
      | none => trivial
      | some v => exact hb.2 v hp
    have hslot : E.slots[id]? = some (some b.slot) := by
      rw [hn, ← hslot n hn, Binding.slot?, if_neg hconst]
    refine .ite (fun hlevel => ?_) fun hlevel => ?_
    · have hkind : l.kindAt? b.slot = some .value := by
        obtain hnone | ⟨m, hm, hkind⟩ := hsees hlevel
        · simp [hslot] at hnone
        · cases Option.some.inj (Option.some.inj (hslot.symm.trans hm))
          exact Layout.kindAt?_of_suffix hl hkind
      refine .ite (fun _ => .pure ⟨E, .refl E, h, hkind⟩) fun _ => ?_
      exact (markForward_at h id).bind fun _ _ h => .pure ⟨E, .refl E, h, hkind⟩
    · refine .ite (fun _ => Runs.throw.bind (P := fun _ _ => False) nofun) fun _ => ?_
      obtain ⟨level, rfl⟩ := Nat.exists_eq_succ_of_ne_zero hlevel
      have captured : ∀ {s' : CompileState}, At L E y cur s' → s'.functions = s.functions →
          Runs c (do return .captured (← capture id (level + 1)) id) s' fun r s' =>
            ∃ E', E.Extends E' ∧ At L E' y cur s' ∧ Reference.Valid E' l r := by
        intro s' h hfns
        refine (capture_at h hslot (hfns ▸ hscope)).bind ?_
        rintro i s' ⟨E', hE, h, hi⟩
        exact .pure ⟨E', hE, h, hi⟩
      refine .ite (fun _ => ?_) fun _ => captured h rfl
      exact ((markForward_at h id).and (markForward_functions id)).bind fun _ _ h =>
        captured h.1 h.2
  · refine Runs.read.bind ?_
    rintro _ _ ⟨rfl, rfl⟩
    split
    · exact .throw
    · exact .throw
    · rename_i v hv
      exact .pure ⟨E, .refl E, h, hglobals _ _ _ hv⟩

theorem peek?_at (h : At L E y cur s) (hglobals : c.globals.Sound) (name : Bytes) :
    Runs c (peek? name) s fun o s' => s = s' ∧ ∀ v, o = some v → v.Sound E.counts := by
  unfold peek?
  refine Runs.get.bind ?_
  rintro _ _ ⟨rfl, rfl⟩
  split
  · rename_i id _ _ _
    refine (binding_at h id).bind ?_
    rintro b _ ⟨rfl, -, hb, -⟩
    refine .pure ⟨rfl, fun v hv => ?_⟩
    split at hv
    · cases hv
      exact hb.1
    · cases hv
  · refine Runs.read.bind ?_
    rintro _ _ ⟨rfl, rfl⟩
    split
    · rename_i hlookup
      refine .pure ⟨rfl, fun v hv => hglobals _ _ v (hlookup.trans ?_)⟩
      rw [hv]
    · exact .pure ⟨rfl, nofun⟩

/-- What is known of an expression while compiling is sound. -/
theorem constantOf?_at (h : At L E y cur s) (hglobals : c.globals.Sound) {e : Expr}
    (he : e.Sound E.counts) :
    Runs c (constantOf? e) s fun o s' => s = s' ∧ ∀ v, o = some v → v.Sound E.counts := by
  induction e using constantOf?.induct with
  | case1 span v =>
    refine .pure ⟨rfl, ?_⟩
    rintro _ ⟨⟩
    exact he
  | case2 span name => exact peek?_at h hglobals name
  | case3 span parent name ih =>
    unfold constantOf?
    refine (ih he).bind ?_
    rintro o _ ⟨rfl, ho⟩
    refine .pure ⟨rfl, fun v hv => ?_⟩
    obtain ⟨w, rfl, hw⟩ := Option.bind_eq_some_iff.1 hv
    exact Value.member?_sound (ho w rfl) hw
  | case4 e h₁ h₂ h₃ =>
    unfold constantOf?
    split
    · exact absurd rfl (h₁ _ _)
    · exact absurd rfl (h₂ _ _)
    · exact absurd rfl (h₃ _ _ _)
    · exact .pure ⟨rfl, nofun⟩

end Compiling

end StagedScript
