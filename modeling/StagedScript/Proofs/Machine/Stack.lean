import StagedScript.Machine.Frame

/-!
# The operand stack as a list of values

The operand stack of a call is an array with a height.  `Stack.Holds` views it as the list of the
values below the height, the top first, and each operation of the stack is an operation on that
list.
-/

namespace StagedScript

namespace Stack

/-- A stack holds values, the top first, and has room for them. -/
structure Holds (s : Stack) (vs : List Value) : Prop where
  slots : ∀ i < s.depth, s.slots[i]? = vs.reverse[i]?
  depth : s.depth = vs.length
  room : s.depth ≤ s.room

variable {s : Stack} {v : Value} {vs ws : List Value}

theorem Holds.depth_le_size (h : s.Holds vs) : s.depth ≤ s.slots.size := by
  rcases Nat.eq_zero_or_pos s.depth with h0 | hpos
  · omega
  · have hslot := h.slots (s.depth - 1) (by omega)
    rw [List.getElem?_eq_getElem (by rw [List.length_reverse, ← h.depth]; omega)] at hslot
    have := (Array.getElem?_eq_some_iff.1 hslot).1
    omega

theorem le_grownRoom (room height : Nat) : height ≤ grownRoom room height := by
  unfold grownRoom
  split <;> omega

theorem grownRoom_ge (room height : Nat) : room ≤ grownRoom room height := by
  unfold grownRoom
  split <;> omega

theorem push_eq (s : Stack) (v : Value) : s.push v =
    ⟨if s.depth < s.slots.size then s.slots.setIfInBounds s.depth v else s.slots.push v,
      s.depth + 1, grownRoom s.room (s.depth + 1)⟩ := by
  show (if s.depth < s.slots.size then _ else _) = _
  split <;> rfl

theorem push_depth (s : Stack) (v : Value) : (s.push v).depth = s.depth + 1 := by
  rw [push_eq]

theorem push_room (s : Stack) (v : Value) : (s.push v).room = grownRoom s.room (s.depth + 1) := by
  rw [push_eq]

/-- Pushing changes the slot at the height and no slot below it. -/
theorem push_slots (hsize : s.depth ≤ s.slots.size) (i : Nat) :
    (s.push v).slots[i]? = if i = s.depth then some v else s.slots[i]? := by
  rw [push_eq]
  split
  next hlt =>
    rw [Array.getElem?_setIfInBounds]
    grind
  next hge =>
    rw [Array.getElem?_push]
    grind

theorem Holds.push (h : s.Holds vs) (v : Value) : (s.push v).Holds (v :: vs) where
  slots i hi := by
    rw [push_depth] at hi
    rw [push_slots h.depth_le_size, List.reverse_cons]
    have hdepth := h.depth
    split
    next heq => simp [heq, hdepth]
    next hne =>
      rw [List.getElem?_append_left (by rw [List.length_reverse]; omega)]
      exact h.slots i (by omega)
  depth := by rw [push_depth, h.depth, List.length_cons]
  room := by rw [push_depth, push_room]; exact le_grownRoom _ _

theorem Holds.pushAll (h : s.Holds vs) (ws : List Value) :
    (s.pushAll ws).Holds (ws.reverse ++ vs) := by
  induction ws generalizing s vs with
  | nil => simpa [Stack.pushAll] using h
  | cons w ws ih => simpa [Stack.pushAll] using ih (h.push w)

theorem Holds.append (h : s.Holds vs) (ws : List Value) :
    (s.append ws).Holds (ws.reverse ++ vs) := by
  have hgrown : Holds { s with room := grownRoom s.room (s.depth + ws.length) } vs :=
    ⟨h.slots, h.depth, Nat.le_trans h.room (grownRoom_ge _ _)⟩
  exact hgrown.pushAll ws

theorem Holds.top? (h : s.Holds (v :: vs)) : s.top? = some v := by
  have hdepth : s.depth = vs.length + 1 := h.depth
  rw [Stack.top?, if_neg (by omega), h.slots _ (by omega)]
  simp [hdepth]

theorem Holds.lower (h : s.Holds (ws ++ vs)) : Holds { s with depth := vs.length } vs where
  slots i hi := by
    have hdepth := h.depth
    rw [List.length_append] at hdepth
    have hi' : i < vs.length := hi
    show s.slots[i]? = _
    rw [h.slots i (by omega), List.reverse_append,
      List.getElem?_append_left (by rw [List.length_reverse]; exact hi')]
  depth := rfl
  room := by
    have hdepth := h.depth
    have hroom := h.room
    rw [List.length_append] at hdepth
    show vs.length ≤ s.room
    omega

theorem Holds.pop? (h : s.Holds (v :: vs)) :
    ∃ s', s.pop? = some (v, s') ∧ s'.Holds vs ∧ s'.room = s.room := by
  have hdepth : s.depth = vs.length + 1 := h.depth
  refine ⟨{ s with depth := vs.length }, ?_, (show s.Holds ([v] ++ vs) from h).lower, rfl⟩
  simp [Stack.pop?, h.top?, hdepth]

theorem Holds.popN? (h : s.Holds (ws ++ vs)) :
    ∃ s', s.popN? ws.length = some (ws.reverse, s') ∧ s'.Holds vs ∧ s'.room = s.room := by
  have hdepth := h.depth
  rw [List.length_append] at hdepth
  refine ⟨{ s with depth := vs.length }, ?_, h.lower, rfl⟩
  have hheight : s.depth - ws.length = vs.length := by omega
  rw [Stack.popN?, if_neg (by simp; omega)]
  simp only [Int.toNat_natCast, hheight, Option.some.injEq, Prod.mk.injEq, and_true]
  apply List.ext_getElem?
  intro i
  rw [Array.getElem?_toList, Array.getElem?_extract]
  have hsize := h.depth_le_size
  split
  next hi =>
    rw [h.slots _ (by omega), List.reverse_append, List.getElem?_append_right (by simp)]
    simp
  next hi => rw [List.getElem?_eq_none (by simp; omega)]

theorem Holds.get? (h : s.Holds (ws ++ v :: vs)) : s.get? vs.length = some v := by
  have hdepth := h.depth
  rw [List.length_append, List.length_cons] at hdepth
  rw [Stack.get?, if_neg (by simp; omega), h.slots _ (by simp; omega)]
  simp

theorem Holds.set? (h : s.Holds (ws ++ v :: vs)) (w : Value) :
    ∃ s', s.set? vs.length w = some s' ∧ s'.Holds (ws ++ w :: vs) ∧ s'.room = s.room := by
  have hdepth := h.depth
  have hsize := h.depth_le_size
  rw [List.length_append, List.length_cons] at hdepth
  refine ⟨{ s with slots := s.slots.setIfInBounds vs.length w }, ?_, ?_, rfl⟩
  · rw [Stack.set?, if_neg (by simp; omega), Int.toNat_natCast]
  · refine ⟨fun i hi => ?_, by simp [hdepth], h.room⟩
    show (s.slots.setIfInBounds vs.length w)[i]? = _
    have hi' : i < s.depth := hi
    rw [Array.getElem?_setIfInBounds, h.slots i hi']
    simp only [List.reverse_append, List.reverse_cons, List.append_assoc, List.getElem?_append,
      List.length_reverse, List.length_singleton]
    grind

theorem Holds.cut? (h : s.Holds (ws ++ vs)) :
    ∃ s', s.cut? vs.length = some s' ∧ s'.Holds vs ∧ s'.room = s.room := by
  have hdepth := h.depth
  have hroom := h.room
  have hsize := h.depth_le_size
  rw [List.length_append] at hdepth
  refine ⟨{ s with depth := vs.length }, ?_, h.lower, rfl⟩
  rw [Stack.cut?, if_neg (by simp; omega)]
  simp [show vs.length - s.slots.size = 0 by omega]

theorem Holds.drop? (h : s.Holds (v :: (ws ++ vs))) :
    ∃ s', s.drop? ws.length = some s' ∧ s'.Holds (v :: vs) := by
  obtain ⟨s₁, hpop, h₁, -⟩ := h.pop?
  obtain ⟨s₂, hcut, h₂, -⟩ := h₁.cut?
  refine ⟨s₂.push v, ?_, h₂.push v⟩
  have hdepth := h₁.depth
  rw [List.length_append] at hdepth
  have hheight : (s₁.depth : Int) - ws.length = vs.length := by omega
  simp [Stack.drop?, hpop, hheight, hcut]

end Stack

end StagedScript
