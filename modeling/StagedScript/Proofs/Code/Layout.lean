import StagedScript.Code.Builder

/-!
# Where instructions are laid out

`Builder.indexAt` is the number of the instruction that control reaches at an address: the one laid
out there, or the one that a link there leads to.  The addresses of instructions and the places of
labels are addresses with their number.
-/

namespace StagedScript

namespace Builder

variable {size : Nat} {insts : List Inst} {address : Nat}

/-- The number of the instruction that control reaches at an address. -/
def indexAt (size address : Nat) : Nat := address / size * (size - 1) + address % size

theorem layout_of_le {block used : Nat} (h : used + insts.length ≤ size - 1) :
    layout size block used insts = [insts] := by
  induction insts generalizing used with
  | nil => rfl
  | cons i rest ih =>
    rw [List.length_cons] at h
    rw [layout, if_neg (by omega), ih (by omega)]
    rfl

/-- A block that gets full ends with a link, and the rest of the instructions follow in new
blocks. -/
theorem layout_of_gt (block used : Nat) (hsize : 2 ≤ size) (hused : used ≤ size - 1)
    (h : size - 1 < used + insts.length) :
    ∃ line, layout size block used insts =
      (insts.take (size - 1 - used) ++ [link size line (block + 1)]) ::
        layout size (block + 1) 0 (insts.drop (size - 1 - used)) := by
  induction insts generalizing used with
  | nil => simp at h; omega
  | cons i rest ih =>
    rw [List.length_cons] at h
    by_cases hfull : used = size - 1
    · refine ⟨i.line, ?_⟩
      have hnew : layout size (block + 1) 0 (i :: rest) =
          consFirst i (layout size (block + 1) 1 rest) := by
        rw [layout, if_neg (by omega)]
      rw [layout, if_pos hfull, hfull, Nat.sub_self]
      simp only [List.take_zero, List.drop_zero, List.nil_append]
      rw [hnew]
    · obtain ⟨line, hrest⟩ := ih (used + 1) (by omega) (by omega)
      refine ⟨line, ?_⟩
      have hstep : size - 1 - used = size - 1 - (used + 1) + 1 := by omega
      rw [layout, if_neg hfull, hrest, hstep]
      rfl

/-- The instructions of each block, and the links between blocks. -/
theorem layout_getElem? (hsize : 2 ≤ size) (block j r : Nat)
    (h : j * (size - 1) + r < insts.length) (hr : r < size) :
    ∃ line, ((layout size block 0 insts)[j]?).bind (·[r]?) =
      if r < size - 1 then insts[j * (size - 1) + r]?
      else some (link size line (block + j + 1)) := by
  induction j generalizing block insts with
  | zero =>
    rw [Nat.zero_mul, Nat.zero_add] at h ⊢
    by_cases hone : insts.length ≤ size - 1
    · refine ⟨0, ?_⟩
      rw [layout_of_le (by omega), if_pos (by omega)]
      rfl
    · obtain ⟨line, hlayout⟩ := layout_of_gt block 0 hsize (by omega)
        (show size - 1 < 0 + insts.length by omega)
      refine ⟨line, ?_⟩
      rw [hlayout, List.getElem?_cons_zero, Option.bind_some, Nat.sub_zero]
      split
      · rw [List.getElem?_append_left (by simp; omega), List.getElem?_take_of_lt (by omega)]
      · rw [List.getElem?_append_right (by simp; omega)]
        have hlast : r - (insts.take (size - 1)).length = 0 := by simp; omega
        rw [hlast]
        rfl
  | succ j ih =>
    rw [Nat.succ_mul] at h ⊢
    obtain ⟨line, hlayout⟩ := layout_of_gt block 0 hsize (by omega)
      (show size - 1 < 0 + insts.length by omega)
    have hdrop : j * (size - 1) + r < (insts.drop (size - 1)).length := by simp; omega
    obtain ⟨line', hrest⟩ := ih (block + 1) hdrop
    refine ⟨line', ?_⟩
    rw [hlayout, List.getElem?_cons_succ, Nat.sub_zero, hrest, List.getElem?_drop]
    have hindex : size - 1 + (j * (size - 1) + r) = j * (size - 1) + (size - 1) + r := by omega
    have hblock : block + 1 + j + 1 = block + (j + 1) + 1 := by omega
    rw [hindex, hblock]

/-- At an address there is the instruction with its number, or the link that leads to it. -/
theorem codeOf_at? (hsize : 2 ≤ size)
    (h : indexAt size address < insts.length) :
    ∃ line, (codeOf size insts).at? address =
      if address % size < size - 1 then insts[indexAt size address]?
      else some (link size line (address / size + 1)) := by
  obtain ⟨line, hget⟩ := layout_getElem? hsize 0 (address / size) (address % size) h
    (Nat.mod_lt _ (by omega))
  refine ⟨line, ?_⟩
  rw [Nat.zero_add] at hget
  unfold Code.at? codeOf indexAt
  have hneg : ¬ ((address : Int) < 0 || (size : Int) ≤ 0) = true := by simp; omega
  rw [if_neg hneg]
  exact hget

theorem indexAt_succ (h : address % size < size - 1) :
    indexAt size (address + 1) = indexAt size address + 1 := by
  have hmod : (address + 1) % size = address % size + 1 := by
    rw [Nat.add_mod, Nat.mod_eq_of_lt (a := 1) (by omega), Nat.mod_eq_of_lt (by omega)]
  have hdiv : (address + 1) / size = address / size := by
    have h₁ := Nat.div_add_mod address size
    have h₂ := Nat.div_add_mod (address + 1) size
    have : size * ((address + 1) / size) = size * (address / size) := by omega
    exact Nat.eq_of_mul_eq_mul_left (by omega) this
  unfold indexAt
  rw [hmod, hdiv]
  omega

theorem indexAt_link (hsize : 2 ≤ size) (h : ¬ address % size < size - 1) :
    indexAt size ((address / size + 1) * size) = indexAt size address := by
  have := Nat.mod_lt address (show 0 < size by omega)
  unfold indexAt
  rw [Nat.mul_mod_left, Nat.mul_div_cancel _ (by omega), Nat.succ_mul]
  omega

theorem indexAt_addressOf (hsize : 2 ≤ size) (k : Nat) : indexAt size (addressOf size k) = k := by
  have hlt : k % (size - 1) < size := by
    have := Nat.mod_lt k (show 0 < size - 1 by omega)
    omega
  have hdiv : addressOf size k / size = k / (size - 1) := by
    unfold addressOf
    rw [Nat.mul_comm, Nat.mul_add_div (by omega), Nat.div_eq_of_lt hlt, Nat.add_zero]
  have hmod : addressOf size k % size = k % (size - 1) := by
    unfold addressOf
    rw [Nat.mul_comm, Nat.mul_add_mod, Nat.mod_eq_of_lt hlt]
  unfold indexAt
  rw [hdiv, hmod, Nat.mul_comm]
  exact Nat.div_add_mod k (size - 1)

theorem addressOf_mod_lt (hsize : 2 ≤ size) (k : Nat) : addressOf size k % size < size - 1 := by
  have hlt := Nat.mod_lt k (show 0 < size - 1 by omega)
  unfold addressOf
  rw [Nat.mul_comm, Nat.mul_add_mod, Nat.mod_eq_of_lt (by omega)]
  exact hlt

theorem addressOf_indexAt (h : address % size < size - 1) :
    addressOf size (indexAt size address) = address := by
  have hdiv : indexAt size address / (size - 1) = address / size := by
    unfold indexAt
    rw [Nat.mul_comm, Nat.mul_add_div (by omega), Nat.div_eq_of_lt h, Nat.add_zero]
  have hmod : indexAt size address % (size - 1) = address % size := by
    unfold indexAt
    rw [Nat.mul_comm, Nat.mul_add_mod, Nat.mod_eq_of_lt h]
  unfold addressOf
  rw [hdiv, hmod, Nat.mul_comm]
  exact Nat.div_add_mod address size

theorem indexAt_placeOf (hsize : 2 ≤ size) (k : Nat) : indexAt size (placeOf size k) = k := by
  unfold placeOf
  split
  next h =>
    simp only [Bool.and_eq_true, decide_eq_true_eq, ne_eq] at h
    obtain ⟨hmod, hk⟩ := h
    obtain ⟨q, rfl⟩ := Nat.dvd_of_mod_eq_zero hmod
    obtain ⟨q, rfl⟩ : ∃ p, q = p + 1 := Nat.exists_eq_succ_of_ne_zero (by rintro rfl; simp at hk)
    have hprev : (size - 1) * (q + 1) - 1 = (size - 1) * q + (size - 2) := by
      rw [Nat.mul_succ]
      omega
    have hlast : addressOf size ((size - 1) * (q + 1) - 1) = q * size + (size - 2) := by
      unfold addressOf
      rw [hprev, Nat.mul_add_div (by omega), Nat.mul_add_mod, Nat.div_eq_of_lt (by omega),
        Nat.mod_eq_of_lt (by omega), Nat.add_zero]
    have hmod' : addressOf size ((size - 1) * (q + 1) - 1) % size < size - 1 := by
      rw [hlast, Nat.mul_comm q, Nat.mul_add_mod, Nat.mod_eq_of_lt (by omega)]
      omega
    rw [indexAt_succ hmod', indexAt_addressOf hsize]
    have : 0 < (size - 1) * (q + 1) := Nat.mul_pos (by omega) (by omega)
    omega
  next => exact indexAt_addressOf hsize k

/-- Addresses are at most twice as large as the numbers of instructions. -/
theorem le_of_indexAt (hsize : 2 ≤ size) (address : Nat) : address ≤ 2 * indexAt size address := by
  have hdm := Nat.div_add_mod address size
  have hle : address / size ≤ address / size * (size - 1) :=
    Nat.le_mul_of_pos_right _ (by omega)
  have hsplit : size * (address / size) = address / size * (size - 1) + address / size := by
    rw [Nat.mul_comm, ← Nat.mul_succ]
    congr 1
    omega
  unfold indexAt
  omega

theorem mem_codeOf (hsize : 2 ≤ size) {block : List Inst} {i : Inst}
    (hb : block ∈ (codeOf size insts).blocks) (hi : i ∈ block) :
    i ∈ insts ∨ ∃ line target, i = link size line target := by
  -- the induction is on a bound of the length, since the layout recurses on the rest
  have all : ∀ n block insts, insts.length ≤ n → ∀ b ∈ layout size block 0 insts, ∀ i ∈ b,
      i ∈ insts ∨ ∃ line target, i = link size line target := by
    intro n
    induction n with
    | zero =>
      intro block insts hn b hb i hi
      rw [layout_of_le (by omega), List.mem_singleton] at hb
      exact .inl (hb ▸ hi)
    | succ n ih =>
      intro block insts hn b hb i hi
      by_cases hone : insts.length ≤ size - 1
      · rw [layout_of_le (by omega), List.mem_singleton] at hb
        exact .inl (hb ▸ hi)
      · obtain ⟨line, hlayout⟩ := layout_of_gt block 0 hsize (by omega)
          (show size - 1 < 0 + insts.length by omega)
        rw [hlayout] at hb
        rcases List.mem_cons.1 hb with rfl | hb
        · rcases List.mem_append.1 hi with hi | hi
          · exact .inl (List.mem_of_mem_take hi)
          · exact .inr ⟨line, block + 1, List.mem_singleton.1 hi⟩
        · rcases ih _ _ (by simp; omega) b hb i hi with hi | hi
          · exact .inl (List.mem_of_mem_drop hi)
          · exact .inr hi
  exact all insts.length 0 insts (Nat.le_refl _) block hb i hi

end Builder

end StagedScript
