import StagedScript.Token.KeywordTable
import Mathlib.Data.List.Nodup
import Mathlib.Data.List.Perm.Basic

/-!
# The table of reserved words is exact

A table is filled bucket by bucket.  While it is filled, every word placed so far is found again
through the seed of its bucket, and the slots in use hold exactly these words.  There are as many
slots as words, so in the end no slot is free, and a word that is found is one of the set.
-/

namespace StagedScript

/-! ### The order of texts -/

namespace Bytes

theorem le_cons_cons {a b : UInt8} {as bs : Bytes} :
    le (a :: as) (b :: bs) = true ↔ a < b ∨ a = b ∧ le as bs = true := by
  rw [le, order]
  by_cases hlt : a < b
  · simp [hlt]
  · by_cases hgt : b < a
    · have hne : a ≠ b := fun heq => hlt (heq ▸ hgt)
      simp [hlt, hgt, hne]
    · obtain rfl : a = b := UInt8.le_antisymm (UInt8.not_lt.1 hgt) (UInt8.not_lt.1 hlt)
      simp [le]

theorem le_total (a b : Bytes) : (le a b || le b a) = true := by
  induction a generalizing b with
  | nil => cases b <;> rfl
  | cons a as ih =>
    cases b with
    | nil => rfl
    | cons b bs =>
      have htail := ih bs
      simp only [Bool.or_eq_true, le_cons_cons] at htail ⊢
      obtain hlt | heq | hgt := Nat.lt_trichotomy a.toNat b.toNat
      · exact .inl (.inl hlt)
      · obtain rfl := UInt8.toNat_inj.1 heq
        exact htail.imp (fun h => .inr ⟨rfl, h⟩) (fun h => .inr ⟨rfl, h⟩)
      · exact .inr (.inl hgt)

theorem le_trans (a b c : Bytes) (hab : le a b = true) (hbc : le b c = true) : le a c = true := by
  induction a generalizing b c with
  | nil => cases c <;> rfl
  | cons a as ih =>
    cases b with
    | nil => cases hab
    | cons b bs =>
      cases c with
      | nil => cases hbc
      | cons c cs =>
        rw [le_cons_cons] at hab hbc ⊢
        obtain hab | ⟨rfl, hab⟩ := hab
        · obtain hbc | ⟨rfl, -⟩ := hbc
          · exact .inl (UInt8.lt_trans hab hbc)
          · exact .inl hab
        · exact hbc.imp id fun h => ⟨h.1, ih _ _ hab h.2⟩

theorem le_antisymm {a b : Bytes} (hab : le a b = true) (hba : le b a = true) : a = b := by
  induction a generalizing b with
  | nil =>
    cases b with
    | nil => rfl
    | cons b bs => cases hba
  | cons a as ih =>
    cases b with
    | nil => cases hab
    | cons b bs =>
      rw [le_cons_cons] at hab hba
      obtain hab | ⟨rfl, hab⟩ := hab
      · obtain hba | ⟨rfl, -⟩ := hba
        · exact absurd hab (UInt8.lt_asymm hba)
        · exact absurd hab (UInt8.lt_irrefl _)
      · obtain hba | ⟨-, hba⟩ := hba
        · exact absurd hba (UInt8.lt_irrefl _)
        · rw [ih hab hba]

end Bytes

namespace KeywordTable

abbrev Slots := Array (Option (Bytes × Keyword))

/-! ### Placing a bucket -/

section

variable {table : Slots} {bucket : Bucket} {slots : List Nat}

theorem place?_eq_some {slot : Bytes → Nat} {taken : List Nat} (htaken : taken.Nodup)
    (h : place? table slot taken bucket = some slots) :
    slots = taken.reverse ++ bucket.map (fun e => slot e.1) ∧ slots.Nodup ∧
      ∀ e ∈ bucket, table[slot e.1]? = some none := by
  induction bucket generalizing taken with
  | nil =>
    obtain rfl := Option.some.inj h
    exact ⟨by simp, List.nodup_reverse.2 htaken, by simp⟩
  | cons e rest ih =>
    rw [place?] at h
    split at h
    · rename_i hfree
      by_cases hs : slot e.1 ∈ taken
      · simp [hs] at h
      · simp only [List.contains_eq_mem, hs, decide_false, Bool.false_eq_true, if_false] at h
        obtain ⟨hslots, hnodup, hall⟩ := ih (List.nodup_cons.2 ⟨hs, htaken⟩) h
        refine ⟨by simpa using hslots, hnodup, ?_⟩
        exact List.forall_mem_cons.2 ⟨hfree, hall⟩
    · cases h

theorem findSeed_eq_some {seed : UInt32} {fuel start : Nat}
    (h : findSeed table bucket fuel start = some (seed, slots)) :
    place? table (slotOf table.size seed) [] bucket = some slots := by
  induction fuel generalizing start with
  | zero => cases h
  | succ fuel ih =>
    rw [findSeed] at h
    split at h
    · rename_i found hplace
      cases h
      exact hplace
    · exact ih h

end

def occupied (table : Slots) : Bucket := table.toList.filterMap id

theorem filterMap_set_perm {α : Type} {l : List (Option α)} {i : Nat} (a : α)
    (h : l[i]? = some none) : ((l.set i (some a)).filterMap id).Perm (a :: l.filterMap id) := by
  induction l generalizing i with
  | nil => cases h
  | cons o l ih =>
    cases i with
    | zero =>
      obtain rfl : o = none := by simpa using h
      exact .refl _
    | succ i =>
      have hrest := ih (by simpa using h)
      cases o with
      | none => exact hrest
      | some b => exact (hrest.cons b).trans (.swap a b _)

section

variable {slots : List Nat} {bucket : Bucket}

@[simp] theorem size_fill (table : Slots) (slots : List Nat) (bucket : Bucket) :
    (fill table slots bucket).size = table.size := by
  induction slots generalizing table bucket with
  | nil => cases bucket <;> rfl
  | cons s slots ih =>
    cases bucket with
    | nil => rfl
    | cons e bucket => simp [fill, ih]

theorem getElem?_fill_of_notMem {table : Slots} {s : Nat} (hs : s ∉ slots) :
    (fill table slots bucket)[s]? = table[s]? := by
  induction slots generalizing table bucket with
  | nil => cases bucket <;> rfl
  | cons t slots ih =>
    obtain ⟨hne, hs⟩ := not_or.1 (mt List.mem_cons.2 hs)
    cases bucket with
    | nil => rfl
    | cons e bucket =>
      rw [fill, ih hs, Array.getElem?_setIfInBounds_ne (Ne.symm hne)]

/-- Words that are put into free slots are found there, and nothing else is added. -/
theorem fill_free {table : Slots} {f : Bytes × Keyword → Nat} (hnodup : (bucket.map f).Nodup)
    (hfree : ∀ e ∈ bucket, table[f e]? = some none) :
    (∀ e ∈ bucket, (fill table (bucket.map f) bucket)[f e]? = some (some e)) ∧
      (occupied (fill table (bucket.map f) bucket)).Perm (bucket ++ occupied table) := by
  induction bucket generalizing table with
  | nil => exact ⟨by simp, .refl _⟩
  | cons e bucket ih =>
    obtain ⟨hnotMem, hnodup⟩ := List.nodup_cons.1 hnodup
    obtain ⟨hhere, hrest⟩ := List.forall_mem_cons.1 hfree
    have hbound : f e < table.size := (Array.getElem?_eq_some_iff.1 hhere).1
    -- The other words go to other slots, which are still free.
    have hstill : ∀ e' ∈ bucket, (table.setIfInBounds (f e) (some e))[f e']? = some none := by
      intro e' he'
      have hne : f e ≠ f e' := fun h => hnotMem (h ▸ List.mem_map_of_mem he')
      rw [Array.getElem?_setIfInBounds_ne hne, hrest e' he']
    obtain ⟨hfound, hperm⟩ := ih hnodup hstill
    have hset : (occupied (table.setIfInBounds (f e) (some e))).Perm (e :: occupied table) := by
      rw [occupied, Array.toList_setIfInBounds]
      exact filterMap_set_perm e (by simpa using hhere)
    refine ⟨List.forall_mem_cons.2 ⟨?_, hfound⟩, ?_⟩
    · rw [List.map_cons, fill, getElem?_fill_of_notMem hnotMem,
        Array.getElem?_setIfInBounds_self_of_lt hbound]
    · exact (hperm.trans (hset.append_left bucket)).trans List.perm_middle

end

/-! ### Placing all buckets -/

/-- A table while it is filled: the words of the buckets placed so far are found, and there are no
other words in it. -/
structure Filling (size : Nat) (placed : List (Nat × Bucket)) (seeds : Array UInt32)
    (table : Slots) : Prop where
  size_eq : table.size = size
  found : ∀ b ∈ placed, ∀ e ∈ b.2, table[slotOf size (seeds.getD b.1 0) e.1]? = some (some e)
  entries : (occupied table).Perm (placed.flatMap (·.2))

section

variable {size : Nat} {placed : List (Nat × Bucket)} {seeds : Array UInt32} {table : Slots}

theorem Filling.empty (size count : Nat) :
    Filling size [] (Array.replicate count 0) (Array.replicate size none) where
  size_eq := by simp
  found := by simp
  entries := by simp [occupied]

theorem Filling.place {i : Nat} {bucket : Bucket} {seed : UInt32} {slots : List Nat}
    (h : Filling size placed seeds table) (hi : i < seeds.size) (hnew : i ∉ placed.map (·.1))
    (hplace : place? table (slotOf table.size seed) [] bucket = some slots) :
    Filling size (placed ++ [(i, bucket)]) (seeds.setIfInBounds i seed)
      (fill table slots bucket) := by
  obtain ⟨hslots, hnodup, hfree⟩ := place?_eq_some List.nodup_nil hplace
  rw [List.reverse_nil, List.nil_append] at hslots
  subst hslots
  rw [h.size_eq] at hnodup hfree ⊢
  obtain ⟨hfound, hperm⟩ := fill_free hnodup hfree
  refine ⟨by rw [size_fill, h.size_eq], ?_, ?_⟩
  · intro b hb e he
    obtain hb | hb := List.mem_append.1 hb
    · -- A word that was placed before keeps its slot, which was not free.
      have hne : i ≠ b.1 := fun heq => hnew (heq ▸ List.mem_map_of_mem hb)
      have hold := h.found b hb e he
      have hnotMem : slotOf size (seeds.getD b.1 0) e.1 ∉
          bucket.map (fun e => slotOf size seed e.1) := by
        intro hmem
        obtain ⟨e', he', heq⟩ := List.mem_map.1 hmem
        have := hfree e' he'
        rw [heq, hold] at this
        cases this
      rw [Array.getD_eq_getD_getElem?, Array.getElem?_setIfInBounds_ne hne,
        ← Array.getD_eq_getD_getElem?, getElem?_fill_of_notMem hnotMem, hold]
    · obtain rfl := List.mem_singleton.1 hb
      rw [Array.getD_eq_getD_getElem?, Array.getElem?_setIfInBounds_self_of_lt hi]
      exact hfound e he
  · rw [List.flatMap_append, List.flatMap_singleton]
    exact (hperm.trans (h.entries.append_left bucket)).trans List.perm_append_comm

theorem Filling.placeAll {rest : List (Nat × Bucket)} {seeds' : Array UInt32} {table' : Slots}
    (h : Filling size placed seeds table) (hrest : ∀ b ∈ rest, b.1 < seeds.size)
    (hnodup : ((placed ++ rest).map (·.1)).Nodup)
    (hall : KeywordTable.placeAll rest seeds table = .ok (seeds', table')) :
    seeds'.size = seeds.size ∧ Filling size (placed ++ rest) seeds' table' := by
  induction rest generalizing placed seeds table with
  | nil =>
    cases hall
    rw [List.append_nil]
    exact ⟨rfl, h⟩
  | cons b rest ih =>
    obtain ⟨i, bucket⟩ := b
    obtain ⟨hi, hrest⟩ := List.forall_mem_cons.1 hrest
    have hnew : i ∉ placed.map (·.1) := by
      rw [List.map_append, List.map_cons] at hnodup
      exact fun hmem => (List.disjoint_of_nodup_append hnodup) hmem List.mem_cons_self
    rw [KeywordTable.placeAll] at hall
    -- Placing the first bucket leaves the rest to place.
    suffices hstep : ∀ seeds₁ table₁, seeds₁.size = seeds.size →
        Filling size (placed ++ [(i, bucket)]) seeds₁ table₁ →
        KeywordTable.placeAll rest seeds₁ table₁ = .ok (seeds', table') →
        seeds'.size = seeds.size ∧ Filling size (placed ++ (i, bucket) :: rest) seeds' table' by
      split at hall
      · rename_i hempty
        obtain rfl := List.isEmpty_iff.1 hempty
        refine hstep seeds table rfl ⟨h.size_eq, ?_, ?_⟩ hall
        · intro b hb e he
          obtain hb | hb := List.mem_append.1 hb
          · exact h.found b hb e he
          · obtain rfl := List.mem_singleton.1 hb
            cases he
        · simpa using h.entries
      · split at hall
        · rename_i hfind
          exact hstep _ _ (by simp) (h.place hi hnew (findSeed_eq_some hfind)) hall
        · cases hall
    intro seeds₁ table₁ hsize hfilling hrun
    rw [List.append_cons] at hnodup ⊢
    rw [← hsize] at hrest ⊢
    exact ih hfilling hrest hnodup hrun

end

/-! ### Finished tables -/

/-- A finished table holds exactly the words of a set, and finds each of them. -/
structure Exact (t : KeywordTable) (words : Bucket) : Prop where
  perm : t.slots.toList.Perm words
  found : ∀ e ∈ words,
    t.slots[slotOf t.slots.size (t.seeds.getD (bucketOf t.seeds.size e.1) 0) e.1]? = some e

theorem map_some_filterMap {α : Type} {l : List (Option α)}
    (h : (l.filterMap id).length = l.length) : (l.filterMap id).map some = l := by
  induction l with
  | nil => rfl
  | cons o l ih =>
    cases o with
    | none =>
      have hle := List.length_filterMap_le id l
      have heq : (l.filterMap id).length = l.length + 1 := h
      omega
    | some a => simpa using ih (by simpa using h)

/-- A table with as many words as slots has no free slot. -/
theorem Filling.exact {size : Nat} {placed : List (Nat × Bucket)} {seeds : Array UInt32}
    {table : Slots} {words : Bucket} (h : Filling size placed seeds table)
    (hsize : size = words.length) (hwords : (placed.flatMap (·.2)).Perm words)
    (hplaced : ∀ e ∈ words, ∃ b ∈ placed, e ∈ b.2 ∧ b.1 = bucketOf seeds.size e.1) :
    Exact ⟨seeds, table.filterMap id⟩ words := by
  have hperm : (occupied table).Perm words := h.entries.trans hwords
  have hfull : (occupied table).map some = table.toList := by
    apply map_some_filterMap
    exact hperm.length_eq.trans (hsize.symm.trans h.size_eq.symm)
  have hcount : (table.filterMap id).size = size := by
    rw [← Array.length_toList, Array.toList_filterMap, hsize]
    exact hperm.length_eq
  refine ⟨by rw [Array.toList_filterMap]; exact hperm, fun e he => ?_⟩
  obtain ⟨b, hb, heb, hi⟩ := hplaced e he
  have hslot := h.found b hb e heb
  rw [hcount, ← hi, ← Array.getElem?_toList, Array.toList_filterMap]
  rw [← Array.getElem?_toList, ← hfull, List.getElem?_map] at hslot
  obtain ⟨e', he', heq⟩ := Option.map_eq_some_iff.1 hslot
  obtain rfl := Option.some.inj heq
  exact he'

theorem flatMap_filter_perm {words : Bucket} {count : Nat} (hcount : 0 < count)
    (hwords : words.Nodup) :
    ((List.range count).flatMap fun i => words.filter fun e => bucketOf count e.1 = i).Perm
      words := by
  refine (List.perm_ext_iff_of_nodup (List.nodup_flatMap.2 ⟨?_, ?_⟩) hwords).2 ?_
  · intro i _
    exact hwords.filter _
  · refine List.nodup_range.imp fun {i j} hne => ?_
    intro e hi hj
    simp only [List.mem_filter, decide_eq_true_eq] at hi hj
    exact hne (hi.2.symm.trans hj.2)
  · intro e
    have hlt : bucketOf count e.1 < count := Nat.mod_lt _ hcount
    simp only [List.mem_flatMap, List.mem_range, List.mem_filter, decide_eq_true_eq]
    exact ⟨fun ⟨_, _, he, _⟩ => he, fun he => ⟨_, hlt, he, rfl⟩⟩

theorem exact_of_build {words : Bucket} {t : KeywordTable} (hkeys : (words.map (·.1)).Nodup)
    (h : build words = .ok t) : Exact t words := by
  simp only [build] at h
  by_cases hempty : words.length = 0
  · obtain rfl := List.length_eq_zero_iff.1 hempty
    rw [if_pos hempty] at h
    cases h
    exact ⟨.refl _, by simp⟩
  rw [if_neg hempty] at h
  generalize hcount : words.length / 2 + 1 = count at h
  have hpos : 0 < count := by omega
  generalize hsorted : words.mergeSort (fun a b => Bytes.le a.1 b.1) = sorted at h
  have hsort : sorted.Perm words := hsorted ▸ List.mergeSort_perm _ _
  generalize hbuckets : (List.range count).map (fun i =>
    (i, sorted.filter fun e => bucketOf count e.1 = i)) = buckets at h
  generalize hordered : buckets.mergeSort (fun a b => b.2.length ≤ a.2.length) = ordered at h
  have horder : ordered.Perm buckets := hordered ▸ List.mergeSort_perm _ _
  have hnumbers : buckets.map (·.1) = List.range count := by
    simp [← hbuckets, List.map_map, Function.comp_def]
  cases hall : placeAll ordered (Array.replicate count 0) (Array.replicate words.length none) with
  | error bucket =>
    rw [hall] at h
    cases h
  | ok result =>
    obtain ⟨seeds, table⟩ := result
    rw [hall] at h
    cases h
    -- the buckets are placed in another order, but each one once
    have hbound : ∀ b ∈ ordered, b.1 < (Array.replicate count (0 : UInt32)).size := by
      intro b hb
      have hmem : b.1 ∈ buckets.map (·.1) := List.mem_map_of_mem (horder.mem_iff.1 hb)
      rw [hnumbers, List.mem_range] at hmem
      simpa using hmem
    have hnodup : ((([] : List (Nat × Bucket)) ++ ordered).map (·.1)).Nodup := by
      rw [List.nil_append, (horder.map _).nodup_iff, hnumbers]
      exact List.nodup_range
    obtain ⟨hsize, hfilling⟩ := (Filling.empty words.length count).placeAll hbound hnodup hall
    rw [Array.size_replicate] at hsize
    rw [List.nil_append] at hfilling
    refine hfilling.exact rfl ?_ ?_
    · refine (horder.flatMap_right _).trans ?_
      rw [← hbuckets, List.flatMap_map]
      exact (flatMap_filter_perm hpos (hsort.nodup_iff.2 (.of_map _ hkeys))).trans hsort
    · intro e he
      have hlt : bucketOf count e.1 < count := Nat.mod_lt _ hpos
      refine ⟨(bucketOf count e.1, sorted.filter fun e' => bucketOf count e'.1 = bucketOf count e.1),
        horder.mem_iff.2 ?_, ?_, ?_⟩
      · rw [← hbuckets]
        exact List.mem_map.2 ⟨_, List.mem_range.2 hlt, rfl⟩
      · simpa using hsort.mem_iff.2 he
      · rw [hsize]

section

variable {t : KeywordTable} {words : Bucket}

theorem mem_of_lookup {w : Bytes} {k : Keyword} (h : words.lookup w = some k) :
    (w, k) ∈ words := by
  obtain ⟨l₁, l₂, rfl, -⟩ := List.lookup_eq_some_iff.1 h
  simp

theorem Exact.lookup_eq (h : Exact t words) (w : Bytes) : t.lookup w = words.lookup w := by
  cases hw : words.lookup w with
  | some k =>
    have hfound := h.found _ (mem_of_lookup hw)
    have hne : t.slots.isEmpty = false := by
      by_contra hempty
      rw [Bool.not_eq_false, Array.isEmpty_iff] at hempty
      simp [hempty] at hfound
    rw [lookup, hne, if_neg Bool.false_ne_true]
    dsimp only at hfound ⊢
    rw [hfound]
    exact if_pos rfl
  | none =>
    rw [List.lookup_eq_none_iff] at hw
    rw [lookup]
    split
    · rfl
    · dsimp only
      split
      · rename_i key k hslot
        -- The slot holds a word of the set, and `w` is none of them.
        have hmem : (key, k) ∈ t.slots.toList := by
          rw [← Array.getElem?_toList] at hslot
          exact List.mem_of_getElem? hslot
        have hkey : w ≠ key := by simpa using hw _ (h.perm.mem_iff.1 hmem)
        exact if_neg (Ne.symm hkey)
      · rfl

theorem Exact.words_sorted (h : Exact t words) :
    t.words.Pairwise (fun a b => Bytes.le a b = true) ∧ t.words.Perm (words.map (·.1)) :=
  ⟨List.pairwise_mergeSort Bytes.le_trans Bytes.le_total _,
    (List.mergeSort_perm _ _).trans (h.perm.map _)⟩

/-- Sorting forgets the order in which a set of words was given. -/
theorem build_perm {words' : Bucket} (hkeys : (words.map (·.1)).Nodup)
    (hperm : words'.Perm words) : build words' = build words := by
  have hsort : words'.mergeSort (fun a b => Bytes.le a.1 b.1) =
      words.mergeSort (fun a b => Bytes.le a.1 b.1) := by
    have hsorted (l : Bucket) : (l.mergeSort fun a b => Bytes.le a.1 b.1).Pairwise
        fun a b => Bytes.le a.1 b.1 = true :=
      List.pairwise_mergeSort (fun a b c => Bytes.le_trans a.1 b.1 c.1)
        (fun a b => Bytes.le_total a.1 b.1) l
    refine List.Perm.eq_of_pairwise ?_ (hsorted words') (hsorted words)
      ((List.mergeSort_perm _ _).trans (hperm.trans (List.mergeSort_perm _ _).symm))
    intro a b ha hb hab hba
    rw [List.mem_mergeSort] at ha hb
    exact List.inj_on_of_nodup_map hkeys (hperm.mem_iff.1 ha) hb (Bytes.le_antisymm hab hba)
  simp only [build, hsort, hperm.length_eq]

end

/-- **The table of reserved words is exact.**  Looking up any text gives its meaning in the set that
the table was built from, and nothing if it is not one of the words.  The order in which the words
are given does not matter. -/
theorem build_exact (words : Bucket) (hkeys : (words.map (·.1)).Nodup) :
    (∀ t, build words = .ok t →
      (∀ w, t.lookup w = words.lookup w) ∧
        t.words.Pairwise (fun a b => Bytes.le a b = true) ∧ t.words.Perm (words.map (·.1))) ∧
    ∀ words', words'.Perm words → build words' = build words := by
  refine ⟨fun t ht => ?_, fun words' hperm => build_perm hkeys hperm⟩
  have hexact := exact_of_build hkeys ht
  exact ⟨hexact.lookup_eq, hexact.words_sorted⟩

/-- Two of the words share a bucket, and the empty text is none of them. -/
theorem build_exact_of_shared_bucket :
    let words : Bucket := [("wenn", .kwIf), ("dann", .kwThen), ("ende", .kwEnd)]
    (words.map (·.1)).Nodup ∧ ∃ t, build words = .ok t ∧ t.lookup "ende" = some .kwEnd ∧
      t.lookup [] = none ∧ t.words.Perm (words.map (·.1)) := by
  intro words
  let sorted : Bucket := [("dann", .kwThen), ("ende", .kwEnd), ("wenn", .kwIf)]
  have hkeys : (words.map (·.1)).Nodup := by decide +kernel
  have hsort : sorted.mergeSort (fun a b => Bytes.le a.1 b.1) = sorted :=
    List.mergeSort_of_pairwise (by decide +kernel)
  have hok : (build sorted).isOk = true := by
    simp only [build, hsort]
    rw [List.mergeSort_of_pairwise (by decide +kernel)]
    decide +kernel
  rw [(build_exact words hkeys).2 sorted (by decide +kernel)] at hok
  cases ht : build words with
  | error bucket =>
    rw [ht] at hok
    cases hok
  | ok t =>
    obtain ⟨hlookup, -, hwords⟩ := (build_exact words hkeys).1 t ht
    refine ⟨hkeys, t, rfl, ?_, ?_, hwords⟩
    · rw [hlookup]
      decide +kernel
    · rw [hlookup]
      decide +kernel

end KeywordTable

end StagedScript
