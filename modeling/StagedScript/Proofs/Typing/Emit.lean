import StagedScript.Proofs.Typing.Builder

/-!
# Emitting typed code

Each operation of a builder keeps the code under construction typed: appending an instruction whose
ways out lead to points, making a label with any point, and fixing a label at a place that has its
point.
-/

namespace StagedScript

section

variable {α : Type} {points points' : α → Option (Point α)}
  (hpoints : ∀ a p, points a = some p → points' a = some p)

include hpoints

theorem Layout.HandledAt.mono {base : Layout} {place : α} (h : base.HandledAt points place) :
    base.HandledAt points' place :=
  h.imp fun _ hq => ⟨hpoints _ _ hq.1, hq.2⟩

theorem Watch.Catches.mono {w : Watch α} {l : Layout} (h : w.Catches points l) :
    w.Catches points' l := by
  cases w with
  | unknown => exact h
  | off => trivial
  | «at» place =>
    obtain ⟨base, hbase, hsuf⟩ := h
    exact ⟨base, hbase.mono hpoints, hsuf⟩

theorem Inst.Leads.mono {i : Inst} {targets : List α} {p : Point α} {next : Option (Point α)}
    {f : Flow} (h : i.Leads points targets p next f) : i.Leads points' targets p next f where
  falls := h.falls
  jumps l hl t ht := (h.jumps l hl t ht).imp fun _ hq => ⟨hpoints _ _ hq.1, hq.2⟩
  raises l hl := (h.raises l hl).mono hpoints
  installs hop t ht :=
    (h.installs hop t ht).imp fun _ hb => ⟨hb.1.mono hpoints, hb.2⟩

end

/-- What is known of the next place only matters where control falls through. -/
theorem Inst.Leads.next {α : Type} {points : α → Option (Point α)} {i : Inst} {targets : List α}
    {p : Point α} {next next' : Option (Point α)} {f : Flow}
    (h : i.Leads points targets p next f)
    (hnext : ∀ q, next = some q → ∃ q', next' = some q' ∧ q.Enters q') :
    i.Leads points targets p next' f where
  falls l hl := by
    obtain ⟨q, hq, henter⟩ := h.falls l hl
    obtain ⟨q', hq', henter'⟩ := hnext q hq
    exact ⟨q', hq', henter.trans henter'⟩
  jumps := h.jumps
  raises := h.raises
  installs := h.installs

namespace Builder.Typing

variable {b : Builder} {labels : List (Point Label)} {captures : Nat} {size size' : Int}
  {pts : List (Point Label)} {cur : Option (Point Label)} {p q : Point Label}

/-- A function may turn out to capture more values. -/
theorem mono_captures (ht : b.Typing labels captures size pts cur) {captures' : Nat}
    (hc : captures ≤ captures') : b.Typing labels captures' size pts cur :=
  { ht with
    insts := fun k i hi => by
      obtain ⟨p, f, hp, hflow, hrest⟩ := ht.insts k i hi
      exact ⟨p, f, hp, hflow.mono hc, hrest⟩ }

theorem mono_size (ht : b.Typing labels captures size pts cur) (hs : size ≤ size') :
    b.Typing labels captures size' pts cur :=
  { ht with
    insts := fun k i hi => by
      obtain ⟨p, f, hp, hflow, hleads, hfalls⟩ := ht.insts k i hi
      exact ⟨p, f, hp, hflow, hleads, fun l hl => (hfalls l hl).imp_left (Int.le_trans · hs)⟩
    fixed := fun l a ha => by
      obtain ⟨k, q, q', hk, hq, hq', henter, hlen⟩ := ht.fixed l a ha
      exact ⟨k, q, q', hk, hq, hq', henter, Int.le_trans hlen hs⟩ }

section

variable (henter : ∀ p ∈ cur, p.Enters q)

include henter

theorem exists_enters {k : Nat} {r : Point Label} (hr : (pts ++ cur.toList)[k]? = some r) :
    ∃ r', (pts ++ (some q).toList)[k]? = some r' ∧ r.Enters r' := by
  by_cases hk : k < pts.length
  · rw [List.getElem?_append_left hk] at hr ⊢
    exact ⟨r, hr, .refl r⟩
  · rw [List.getElem?_append_right (by omega)] at hr ⊢
    obtain ⟨hlt, rfl⟩ := List.getElem?_eq_some_iff.1 hr
    cases cur with
    | none => cases hlt
    | some p =>
      have hzero : k - pts.length = 0 := by simpa using hlt
      refine ⟨q, by simp [hzero], ?_⟩
      simpa [hzero] using henter p rfl

/-- Less may be assumed about the next place, and anything if control cannot reach it. -/
theorem weaken (ht : b.Typing labels captures size pts cur) :
    b.Typing labels captures size pts (some q) :=
  { ht with
    insts := fun k i hi => by
      obtain ⟨p, f, hp, hflow, hleads, hfalls⟩ := ht.insts k i hi
      exact ⟨p, f, hp, hflow, hleads.next fun _ hr => exists_enters henter hr, hfalls⟩
    fixed := fun l a ha => by
      obtain ⟨k, r, r', hk, hr, hr', henter', hlen⟩ := ht.fixed l a ha
      obtain ⟨r'', hr'', henter''⟩ := exists_enters henter hr'
      exact ⟨k, r, r'', hk, hr, hr'', henter'.trans henter'', henter''.1 ▸ hlen⟩ }

end

theorem newLabel (ht : b.Typing labels captures size pts cur) (q : Point Label) :
    b.newLabel.2.Typing (labels ++ [q]) captures size pts cur := by
  have hlabels : ∀ (l : Label) r, labels[l]? = some r → (labels ++ [q])[l]? = some r := by
    intro l r hr
    rw [List.getElem?_append_left (List.getElem?_eq_some_iff.1 hr).1]
    exact hr
  exact {
    blockSize := ht.blockSize
    count := ht.count
    aims := by simp [Builder.newLabel, ht.aims]
    insts := fun k i hi => by
      obtain ⟨p, f, hp, hflow, hleads, hfalls⟩ := ht.insts k i hi
      exact ⟨p, f, hp, hflow, hleads.mono hlabels, hfalls⟩
    sites := ht.sites
    places := ht.places
    fixed := fun l a ha => by
      simp only [Builder.newLabel, Array.getElem?_push] at ha
      split at ha
      · cases ha
      · obtain ⟨k, r, r', hk, hr, hrest⟩ := ht.fixed l a ha
        exact ⟨k, r, r', hk, hlabels l r hr, hrest⟩ }

theorem bind (ht : b.Typing labels captures size pts (some q)) {l : Label}
    (hl : labels[l]? = some q) (hsize : (q.layout.length : Int) ≤ size) {b' : Builder}
    (hb : b.bind l = some b') : b'.Typing labels captures size pts (some q) := by
  unfold Builder.bind aim at hb
  split at hb
  · cases hb
  · cases hb
    exact { ht with
      aims := by simpa using ht.aims
      fixed := fun l' a ha => by
        simp only [Array.getElem?_setIfInBounds] at ha
        split at ha
        · rename_i heq
          subst heq
          split at ha
          · cases ha
            exact ⟨b.insts.size, q, q, rfl, hl, by simp [← ht.count], .refl q, hsize⟩
          · cases ha
        · exact ht.fixed l' a ha }

theorem append (ht : b.Typing labels captures size pts (some p)) {i : Inst} {f : Flow}
    {sites : List Site} (hflow : i.Flows captures p.layout f)
    (hleads : i.Leads (labels[·]?) (sites.map (·.label)) p cur f)
    (hfit : SitesFit b.insts.size i sites) (hplaces : ∀ s ∈ sites, s.inst = b.insts.size)
    (hsize : size ≤ size')
    (hfalls : ∀ l, f.fall = some l → (l.length : Int) ≤ size' ∨ i.op = .install) :
    (b.withInst i sites).Typing labels captures size' (pts ++ [p]) cur := by
  have ht := ht.mono_size hsize
  have hold : ∀ k, k ≠ b.insts.size → (b.withInst i sites).sitesOf k = b.sitesOf k :=
    fun _ => sitesOf_withInst_of_ne hplaces
  have hnew : (b.withInst i sites).sitesOf b.insts.size = sites :=
    sitesOf_withInst_self hplaces ht.places
  have hpt : ∀ (k : Nat) r, (pts ++ (some p).toList)[k]? = some r →
      ((pts ++ [p]) ++ cur.toList)[k]? = some r := by
    intro k r hr
    rw [Option.toList_some] at hr
    rw [List.getElem?_append_left (List.getElem?_eq_some_iff.1 hr).1]
    exact hr
  constructor
  · exact ht.blockSize
  · simp [withInst, ht.count]
  · exact ht.aims
  -- the new instruction leads to the cursor, and the one before it to the new one
  · intro k j hj
    rw [withInst, Array.getElem?_push] at hj
    split at hj
    · rename_i hk
      cases hj
      subst hk
      refine ⟨p, f, by simp [← ht.count], hflow, ?_, hfalls⟩
      unfold targetsOf
      rw [hnew]
      refine hleads.next fun q hq => ⟨q, ?_, .refl q⟩
      rw [List.getElem?_append_right (by simp [ht.count])]
      simp [ht.count, hq]
    · rename_i hk
      obtain ⟨p', f', hp', hflow', hleads', hfalls'⟩ := ht.insts k j hj
      refine ⟨p', f', ?_, hflow', ?_, hfalls'⟩
      · rw [List.getElem?_append_left (List.getElem?_eq_some_iff.1 hp').1]
        exact hp'
      · unfold targetsOf
        rw [hold k hk]
        exact hleads'.next fun q hq => ⟨q, hpt _ q hq, .refl q⟩
  · intro k j hj
    rw [withInst, Array.getElem?_push] at hj
    split at hj
    · rename_i hk
      cases hj
      rw [hk, hnew]
      exact hfit
    · rename_i hk
      rw [hold k hk]
      exact ht.sites k j hj
  · intro s hs
    simp only [withInst, Array.mem_append, List.mem_toArray] at hs
    rw [withInst, Array.size_push]
    rcases hs with hs | hs
    · have := ht.places s hs
      omega
    · have := hplaces s hs
      omega
  · intro l a ha
    obtain ⟨k, q, q', hk, hq, hq', hrest⟩ := ht.fixed l a ha
    exact ⟨k, q, q', hk, hq, hpt k q' hq', hrest⟩

end Builder.Typing

end StagedScript
