import Mathlib.Data.List.Induction
import StagedScript.Machine.Method

/-!
# Equal values and maps

Keys are equal by type and value: a symmetric and transitive relation in which no NaN takes part.  A
map has its keys and values side by side and an index of positions; `OrderedMap.Holds` says that
these agree and what they hold in terms of the entries stored.  The comparisons `=` and `!=`
complement each other, except with nil.
-/

namespace StagedScript

namespace Real64

variable {x y z : Real64}

theorem isZero_iff : x.isZero ↔ ∃ negative e, x.view = .finite negative 0 e := by
  unfold isZero
  split <;> simp_all

theorem beq_iff :
    x.beq y ↔ x.view ≠ .nan ∧ y.view ≠ .nan ∧ (x = y ∨ x.isZero ∧ y.isZero) := by
  unfold beq
  split
  case h_1 h | h_2 h _ => simp [h]
  case h_3 hx hy => simp [isZero, hx, hy]
  case h_4 hx hy hzero =>
    have hzero : ¬ (x.isZero ∧ y.isZero) := by
      rw [isZero_iff, isZero_iff]
      rintro ⟨⟨a, e, hx⟩, b, f, hy⟩
      exact hzero a e b f hx hy
    have hbits : x.bits = y.bits ↔ x = y := by rw [Real64.mk.injEq]
    simp [hbits, hzero, show x.view ≠ .nan from hx, show y.view ≠ .nan from hy]

theorem beq_symm (h : x.beq y) : y.beq x := by
  obtain ⟨hx, hy, h⟩ := beq_iff.1 h
  exact beq_iff.2 ⟨hy, hx, h.imp Eq.symm And.symm⟩

theorem beq_trans (h : x.beq y) (h' : y.beq z) : x.beq z := by
  obtain ⟨hx, -, rfl | ⟨hzero, -⟩⟩ := beq_iff.1 h
  · exact h'
  · obtain ⟨-, hz, rfl | ⟨-, hzero'⟩⟩ := beq_iff.1 h'
    · exact h
    · exact beq_iff.2 ⟨hx, hz, .inr ⟨hzero, hzero'⟩⟩

end Real64

namespace Value

variable {a b c : Value}

/-- Equal keys are the same value, but for numbers that are written in two ways. -/
theorem sameKey_cases (h : a.sameKey b) :
    a = b ∨ (∃ x y, a = .real x ∧ b = .real y ∧ x.beq y) ∨
      ∃ x y x' y', a = .complex x y ∧ b = .complex x' y' ∧ x.beq x' ∧ y.beq y' := by
  unfold sameKey at h
  split at h <;> grind

theorem sameKey_symm (h : a.sameKey b) : b.sameKey a := by
  obtain rfl | ⟨x, y, rfl, rfl, hxy⟩ | ⟨x, y, x', y', rfl, rfl, hx, hy⟩ := sameKey_cases h
  · exact h
  · exact Real64.beq_symm hxy
  · simp [sameKey, Real64.beq_symm hx, Real64.beq_symm hy]

theorem sameKey_trans (h : a.sameKey b) (h' : b.sameKey c) : a.sameKey c := by
  obtain rfl | ⟨x, y, rfl, rfl, hxy⟩ | ⟨x, y, x', y', rfl, rfl, hx, hy⟩ := sameKey_cases h
  · exact h'
  all_goals cases c <;> grind [sameKey, Real64.beq_trans]

end Value

/-- Of equal elements the first one stays, so a last element is kept only if it is new. -/
theorem eraseDupsBy_concat {α : Type} (r : α → α → Bool) (l : List α) (a : α) :
    (l ++ [a]).eraseDupsBy r =
      if (l.eraseDupsBy r).any (r a) then l.eraseDupsBy r else l.eraseDupsBy r ++ [a] := by
  have loop : ∀ kept, List.eraseDupsBy.loop r (l ++ [a]) kept =
      if (List.eraseDupsBy.loop r l kept).any (r a) then List.eraseDupsBy.loop r l kept
      else List.eraseDupsBy.loop r l kept ++ [a] := by
    induction l with
    | nil =>
      intro kept
      by_cases h : kept.any (r a) <;> simp [List.eraseDupsBy.loop, h]
    | cons b l ih =>
      intro kept
      by_cases h : kept.any (r b) <;> simp only [List.cons_append, List.eraseDupsBy.loop, h, ih]
  exact loop []

theorem Value.isKey_of_sameKey {a b : Value} (h : a.sameKey b) : b.isKey := by
  obtain rfl | ⟨x, y, rfl, rfl, -⟩ | ⟨x, y, x', y', rfl, rfl, -⟩ := sameKey_cases h
  · unfold sameKey at h
    split at h <;> first | rfl | cases h
  all_goals rfl

namespace OrderedMap

open Mapping (notKey)

variable {m m' : OrderedMap} {stored : List Entry} {sh : Shown} {key value : Value}

/-- Keys and values stand side by side, and the index has the positions of all keys. -/
structure Consistent (m : OrderedMap) : Prop where
  size : m.keys.size = m.values.size
  position : ∀ k i, m.position? k = some i ↔ ∃ k', m.keys[i]? = some k' ∧ k'.sameKey k

theorem empty_consistent : Consistent {} := ⟨rfl, by simp [position?]⟩

/-- What an insertion does: a new value in the place of a known key, or a new key at the end. -/
inductive Inserts (m : OrderedMap) (key value : Value) : OrderedMap → Prop where
  | known (i : Nat) (hi : m.position? key = some i) :
      Inserts m key value { m with values := m.values.setIfInBounds i value }
  | new (hnew : m.position? key = none) :
      Inserts m key value ⟨m.keys.push key, m.values.push value, (key, m.keys.size) :: m.index⟩

theorem inserts_of_insert (h : m.insert sh key value = .ok m') : m.Inserts key value m' := by
  unfold insert at h
  split at h
  · split at h
    · rename_i i hi
      cases h
      exact .known i hi
    · rename_i hnew
      cases h
      exact .new hnew
  · cases h

theorem position?_new (k : Value) :
    position? ⟨m.keys.push key, m.values.push value, (key, m.keys.size) :: m.index⟩ k =
      if key.sameKey k then some m.keys.size else m.position? k := by
  simp only [position?, List.find?_cons]
  by_cases h : key.sameKey k <;> simp [h]

namespace Consistent

theorem lt_size (h : m.Consistent) {k : Value} {i : Nat} (hi : m.position? k = some i) :
    i < m.keys.size := by
  obtain ⟨k', hk', -⟩ := (h.position k i).1 hi
  exact (Array.getElem?_eq_some_iff.1 hk').1

/-- The position of a key is that of all equal ones. -/
theorem position?_eq_iff (h : m.Consistent) {i : Nat} (hi : m.position? key = some i) (k : Value) :
    m.position? k = some i ↔ key.sameKey k := by
  obtain ⟨k', hk', hsame⟩ := (h.position key i).1 hi
  rw [h.position]
  constructor
  · rintro ⟨k'', hk'', hk⟩
    cases hk'.symm.trans hk''
    exact Value.sameKey_trans (Value.sameKey_symm hsame) hk
  · exact fun hk => ⟨k', hk', Value.sameKey_trans hsame hk⟩

theorem inserts (h : m.Consistent) (hm : m.Inserts key value m') : m'.Consistent := by
  cases hm with
  | known i hi => exact ⟨by simp [h.size], h.position⟩
  | new hnew =>
    refine ⟨by simp [h.size], fun k i => ?_⟩
    rw [position?_new, Array.getElem?_push]
    by_cases hsame : key.sameKey k
    · rw [if_pos hsame]
      constructor
      · rintro ⟨⟩
        exact ⟨key, if_pos rfl, hsame⟩
      · rintro ⟨k', hk', hk⟩
        split at hk'
        · rename_i hi
          rw [hi]
        · -- an equal key that is known already would have been found
          have hfound := (h.position key i).2
            ⟨k', hk', Value.sameKey_trans hk (Value.sameKey_symm hsame)⟩
          cases hnew.symm.trans hfound
    · rw [if_neg hsame, h.position]
      constructor
      · rintro ⟨k', hk', hk⟩
        exact ⟨k', by rw [if_neg (Nat.ne_of_lt (Array.getElem?_eq_some_iff.1 hk').1), hk'], hk⟩
      · rintro ⟨k', hk', hk⟩
        split at hk'
        · cases hk'
          exact absurd hk hsame
        · exact ⟨k', hk', hk⟩

theorem distinct (h : m.Consistent) : m.keys.toList.Pairwise fun k k' => ¬ k.sameKey k' := by
  refine List.pairwise_iff_getElem.2 fun i j hi hj hlt hsame => ?_
  have hget (i : Nat) (hi : i < m.keys.toList.length) : m.keys[i]? = some m.keys.toList[i] := by
    simp
  have hi := (h.position _ i).2 ⟨_, hget i hi, hsame⟩
  have hself := Value.sameKey_trans (Value.sameKey_symm hsame) hsame
  have hj := (h.position _ j).2 ⟨_, hget j hj, hself⟩
  rw [hi, Option.some.injEq] at hj
  omega

theorem any_sameKey (h : m.Consistent) :
    m.keys.toList.any (·.sameKey key) = (m.position? key).isSome := by
  rw [Bool.eq_iff_iff, List.any_eq_true, Option.isSome_iff_exists]
  constructor
  · rintro ⟨k, hk, hsame⟩
    obtain ⟨i, hi⟩ := List.mem_iff_getElem?.1 hk
    exact ⟨i, (h.position key i).2 ⟨k, by simpa using hi, hsame⟩⟩
  · rintro ⟨i, hi⟩
    obtain ⟨k, hk, hsame⟩ := (h.position key i).1 hi
    exact ⟨k, List.mem_of_getElem? (by simpa using hk), hsame⟩

end Consistent

theorem get?_eq (m : OrderedMap) (k : Value) :
    m.get? k = (m.position? k).bind fun i => m.values[i]? := by
  unfold get?
  split
  · rfl
  · rename_i hk
    cases hi : m.position? k with
    | none => rfl
    | some i =>
      obtain ⟨e, he, -⟩ := Option.map_eq_some_iff.1 hi
      exact absurd (Value.isKey_of_sameKey (a := e.1) (by simpa using List.find?_some he)) hk

theorem get?_inserts (h : m.Consistent) (hm : m.Inserts key value m') (k : Value) :
    m'.get? k = if key.sameKey k then some value else m.get? k := by
  rw [get?_eq, get?_eq]
  cases hm with
  | known i hi =>
    have hlt := h.size ▸ h.lt_size hi
    change (m.position? k).bind _ = _
    by_cases hk : key.sameKey k
    · rw [if_pos hk, (h.position?_eq_iff hi k).2 hk]
      simp [hlt]
    · rw [if_neg hk]
      cases hj : m.position? k with
      | none => rfl
      | some j =>
        have hne : i ≠ j := fun heq => hk ((h.position?_eq_iff hi k).1 (heq ▸ hj))
        simp [hne]
  | new =>
    rw [position?_new]
    by_cases hk : key.sameKey k
    · simp [hk, h.size]
    · rw [if_neg hk, if_neg hk]
      cases hj : m.position? k with
      | none => rfl
      | some j =>
        have hlt := h.size ▸ h.lt_size hj
        simp [Array.getElem?_push, Nat.ne_of_lt hlt]

theorem keys_inserts (h : m.Consistent) (hm : m.Inserts key value m') :
    m'.keys.toList = if m.keys.toList.any (·.sameKey key) then m.keys.toList
      else m.keys.toList ++ [key] := by
  rw [h.any_sameKey]
  cases hm with
  | known i hi => simp [hi]
  | new hnew => simp [hnew]

/-! ### Entries -/

/-- The entries with a new value in the place of a known key, or with a new entry at the end. -/
def updated (key value : Value) (entries : List Entry) : List Entry :=
  if entries.any (·.key.sameKey key) then
    entries.map fun e => if e.key.sameKey key then ⟨e.key, value⟩ else e
  else entries ++ [⟨key, value⟩]

theorem entries_getElem? (m : OrderedMap) (j : Nat) :
    m.entries[j]? = m.keys[j]?.bind fun k => m.values[j]?.map fun v => ⟨k, v⟩ := by
  rw [entries, List.getElem?_zipWith, Array.getElem?_toList, Array.getElem?_toList]
  cases m.keys[j]? <;> cases m.values[j]? <;> rfl

theorem Consistent.map_key_entries (h : m.Consistent) : m.entries.map (·.key) = m.keys.toList := by
  refine List.ext_getElem? fun j => ?_
  rw [List.getElem?_map, entries_getElem?, Array.getElem?_toList]
  obtain hj | hj := Nat.lt_or_ge j m.keys.size
  · simp [hj, h.size ▸ hj]
  · simp [hj]

/-- The finished map of an insertion, as a list of entries. -/
theorem entries_inserts (h : m.Consistent) (hm : m.Inserts key value m') :
    m'.entries = updated key value m.entries := by
  have hany : m.entries.any (·.key.sameKey key) = (m.position? key).isSome := by
    rw [← h.any_sameKey, ← h.map_key_entries, List.any_map]
    rfl
  unfold updated
  rw [hany]
  cases hm with
  | known i hi =>
    rw [hi, Option.isSome_some, if_pos rfl]
    refine List.ext_getElem? fun j => ?_
    rw [List.getElem?_map, entries_getElem?, entries_getElem?]
    have hlt := h.size ▸ h.lt_size hi
    cases hk : m.keys[j]? with
    | none => rfl
    | some k =>
      have hsame : k.sameKey key ↔ j = i := by
        have hj : m.position? key = some j ↔ k.sameKey key := by simp [h.position, hk]
        rw [← hj, hi, Option.some.injEq, eq_comm]
      by_cases hij : j = i
      · subst hij
        simp [hsame.2 rfl, hlt]
      · simp [hsame, hij, Ne.symm hij, Option.map_map, Function.comp_def]
  | new hnew =>
    rw [hnew, Option.isSome_none, if_neg Bool.false_ne_true]
    simp only [entries, Array.toList_push]
    rw [List.zipWith_append (by simpa using h.size)]
    rfl

theorem Consistent.get?_entries (h : m.Consistent) (k : Value) :
    Mapping.get? m.entries k = m.get? k := by
  rw [get?_eq, Mapping.get?]
  cases hi : m.position? k with
  | none =>
    have hnone : ∀ e ∈ m.entries, ¬ e.key.sameKey k := by
      have hany : m.keys.toList.any (·.sameKey k) = _ := h.any_sameKey
      rw [hi, Option.isSome_none, ← h.map_key_entries] at hany
      simpa using hany
    rw [List.find?_eq_none.2 hnone]
    rfl
  | some i =>
    obtain ⟨k', hk', hsame⟩ := (h.position k i).1 hi
    have hlt := h.size ▸ h.lt_size hi
    have hentry : m.entries[i]? = some ⟨k', m.values[i]⟩ := by
      simp [entries_getElem?, hk', hlt]
    have hfind : m.entries.find? (·.key.sameKey k) = some ⟨k', m.values[i]⟩ := by
      obtain ⟨hlt', hget⟩ := List.getElem?_eq_some_iff.1 hentry
      refine List.find?_eq_some_iff_getElem.2 ⟨hsame, i, hlt', hget, fun j hj => ?_⟩
      rw [Bool.not_eq_true', Bool.eq_false_iff]
      intro hsame'
      have hkey : m.keys[j]? = some m.entries[j].key := by
        rw [← Array.getElem?_toList, ← h.map_key_entries, List.getElem?_map,
          List.getElem?_eq_getElem (Nat.lt_trans hj hlt'), Option.map_some]
      have hj' := (h.position k j).2 ⟨_, hkey, hsame'⟩
      rw [hi, Option.some.injEq] at hj'
      omega
    rw [hfind]
    simp [hlt]

/-! ### Sequences of insertions -/

/-- A map holds the entries that were stored in it one after the other. -/
structure Holds (stored : List Entry) (m : OrderedMap) : Prop extends m.Consistent where
  /-- The keys stand in the order of their first insertion. -/
  order : m.keys.toList = (stored.map (·.key)).eraseDupsBy fun k k' => k'.sameKey k
  /-- Under a key stands the value that was stored last under an equal one. -/
  get : ∀ k, m.get? k = (stored.reverse.find? (·.key.sameKey k)).map (·.value)

theorem Holds.inserts (h : Holds stored m) (hm : m.Inserts key value m') :
    Holds (stored ++ [⟨key, value⟩]) m' where
  toConsistent := h.toConsistent.inserts hm
  order := by
    rw [keys_inserts h.toConsistent hm, h.order, List.map_append, List.map_singleton,
      eraseDupsBy_concat]
  get k := by
    rw [get?_inserts h.toConsistent hm, h.get]
    by_cases hk : key.sameKey k <;> simp [hk]

/-- The map that a sequence of insertions leaves, each under the printed forms of its time. An
insertion that is refused leaves the map as it was. -/
def filled (calls : List (Shown × Entry)) : OrderedMap :=
  calls.foldl (fun m c => (m.insert c.1 c.2.key c.2.value).toOption.getD m) {}

/-- The entries of the insertions that are not refused. -/
def accepted (calls : List (Shown × Entry)) : List Entry :=
  (calls.map (·.2)).filter (·.key.isKey)

theorem insert_cases (m : OrderedMap) (sh : Shown) (key value : Value) :
    key.isKey = true ∧ (∃ m', m.insert sh key value = .ok m' ∧ m.Inserts key value m') ∨
      key.isKey = false ∧ m.insert sh key value = .error (notKey sh key) := by
  cases hkey : key.isKey with
  | true =>
    have hok : ∃ m', m.insert sh key value = .ok m' := by
      unfold insert
      rw [if_pos hkey]
      split <;> exact ⟨_, rfl⟩
    exact .inl ⟨rfl, hok.imp fun m' hm' => ⟨hm', inserts_of_insert hm'⟩⟩
  | false => exact .inr ⟨rfl, if_neg (by simp [hkey])⟩

theorem filled_concat (calls : List (Shown × Entry)) (sh : Shown) (key value : Value) :
    filled (calls ++ [(sh, ⟨key, value⟩)]) =
      ((filled calls).insert sh key value).toOption.getD (filled calls) := by
  simp [filled]

theorem filled_holds (calls : List (Shown × Entry)) : Holds (accepted calls) (filled calls) := by
  induction calls using List.reverseRecOn with
  | nil => exact ⟨empty_consistent, rfl, fun k => get?_eq {} k⟩
  | append_singleton calls c ih =>
    obtain ⟨sh, key, value⟩ := c
    rw [filled_concat, accepted, List.map_append, List.filter_append]
    obtain ⟨hkey, m', hm', hinserts⟩ | ⟨hkey, herror⟩ := (filled calls).insert_cases sh key value
    · rw [hm']
      simpa [hkey, accepted, Except.toOption] using ih.inserts hinserts
    · rw [herror]
      simpa [hkey, accepted, Except.toOption] using ih

/-- Every sequence of insertions makes an ordered map of the entries that were not refused. -/
theorem filled_ordered_map (calls : List (Shown × Entry)) :
    let m := filled calls
    m.keys.size = m.values.size ∧ (m.keys.toList.Pairwise fun k k' => ¬ k.sameKey k') ∧
      Holds (accepted calls) m ∧ (∀ k, Mapping.get? m.entries k = m.get? k) ∧
      ∀ sh key value,
        (key.isKey = true → ∃ m', m.insert sh key value = .ok m' ∧
          filled (calls ++ [(sh, ⟨key, value⟩)]) = m' ∧ m'.entries = updated key value m.entries) ∧
        (key.isKey = false → m.insert sh key value = .error (notKey sh key) ∧
          filled (calls ++ [(sh, ⟨key, value⟩)]) = m) := by
  have h := filled_holds calls
  refine ⟨h.size, h.distinct, h, h.get?_entries, fun sh key value => ?_⟩
  rw [filled_concat]
  obtain ⟨hkey, m', hm', hinserts⟩ | ⟨hkey, herror⟩ := (filled calls).insert_cases sh key value
  · rw [hm']
    exact ⟨fun _ => ⟨m', rfl, rfl, entries_inserts h.toConsistent hinserts⟩, by simp [hkey]⟩
  · rw [herror]
    exact ⟨by simp [hkey], fun _ => ⟨rfl, rfl⟩⟩

end OrderedMap

namespace Method

variable {a b : Value}

theorem call_binaryOther? {name : Bytes} (hints : onIntegers name = fun _ _ => none)
    (hreals : onReals name = fun _ _ => none) (hplus : name ≠ "+") :
    call name [a, b] =
      ((binaryOther? name a b).map .ok).getD (.error (undefined name [a, b])) := by
  unfold call binary?
  dsimp only
  congr 1
  split
  · simp [hints]
  · simp [hplus]
  · split <;> simp [hreals]

/-- On values that can be keys, one of `=` and `!=` gives the right operand and the other nil, so
exactly one of them holds unless that operand is nil. -/
theorem equal_or_unequal (ha : a.isKey) (hb : b.isKey) :
    ∃ u v, call "=" [a, b] = .ok u ∧ call "!=" [a, b] = .ok v ∧
      (u = b ∧ v = .nil ∨ u = .nil ∧ v = b) ∧ (b ≠ .nil → (u ≠ .nil ↔ v = .nil)) := by
  obtain ⟨eq, heq⟩ : ∃ eq, equal? a b = some eq := by
    unfold equal?
    split
    · exact ⟨_, rfl⟩
    · exact ⟨_, if_pos (by simp [ha, hb])⟩
  refine ⟨whenHolds eq b, whenHolds (!eq) b, ?_, ?_, ?_⟩
  · rw [call_binaryOther? rfl rfl (by decide)]
    simp [binaryOther?, heq]
  · rw [call_binaryOther? rfl rfl (by decide)]
    have hne : Bytes.ofString "!=" ≠ Bytes.ofString "=" := by decide
    simp [binaryOther?, heq, hne]
  · cases eq <;> simp [whenHolds]

theorem equal_or_unequal_of_number_and_text :
    (Value.int 1).isKey ∧ (Value.str "1").isKey ∧
      ∃ u v, call "=" [.int 1, .str "1"] = .ok u ∧ call "!=" [.int 1, .str "1"] = .ok v ∧
        (u = .str "1" ∧ v = .nil ∨ u = .nil ∧ v = .str "1") ∧
          (Value.str "1" ≠ .nil → (u ≠ .nil ↔ v = .nil)) :=
  ⟨rfl, rfl, equal_or_unequal rfl rfl⟩

/-- Whether nil equals nil cannot be told, as the operand that says so is nil. -/
theorem nil_neither_equal_nor_unequal :
    ¬ ∀ a b : Value, a.isKey → b.isKey → ∃ u v,
      call "=" [a, b] = .ok u ∧ call "!=" [a, b] = .ok v ∧ (u ≠ .nil ↔ v = .nil) := by
  intro h
  obtain ⟨u, v, hu, hv, huv⟩ := h .nil .nil rfl rfl
  obtain rfl : Value.nil = u := Except.ok.inj hu
  obtain rfl : Value.nil = v := Except.ok.inj hv
  exact huv.2 rfl rfl

end Method

end StagedScript
