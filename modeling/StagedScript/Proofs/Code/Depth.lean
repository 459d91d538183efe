import Mathlib.Order.Bounds.Basic
import StagedScript.Code.Verify

/-!
# Heights that paths reach

The paths of a function start at its entry, with one value for each parameter, and go on along the
jumps of the instructions they meet, and to the next instruction if control falls through.

Exploring code keeps a list of edges that are still to be followed, and the heights of the addresses
that it has seen.  The seen addresses are closed under going on, but for these edges; so when none
is left, they are all that paths reach.
-/

variable {i : Inst}

namespace StagedScript

open Inst

/-- Some path from a first state leads to a state. -/
inductive Code.Reaches (c : Code) (start : Edge) : Edge → Prop where
  | start : Reaches c start start
  | jump {e e' : Edge} {i : Inst} (path : Reaches c start e) (found : c.at? e.address = some i)
      (edge : e' ∈ i.successors e.depth) : Reaches c start e'
  | fall {e : Edge} {i : Inst} (path : Reaches c start e) (found : c.at? e.address = some i)
      (falls : i.op.isTerminal = false) :
      Reaches c start ⟨wrapInt (e.address + 1), wrapInt (e.depth - i.effect.1 + i.effect.2)⟩

/-- An instruction passes its checks at a height: its slot lies below the height, its jumps have
targets and leave no negative height, and the values that it pops are there. -/
structure Inst.Passes (i : Inst) (depth : Int) : Prop where
  target : i.op.hasTarget = true → i.target ≠ pendingTarget
  slot : i.op.isSlotAccess = true →
    0 ≤ i.count ∧ i.count < if i.op.isSlotLoad then depth else wrapInt (depth - 1)
  jumps : ∀ e ∈ i.successors depth, e.address ≠ pendingTarget ∧ 0 ≤ e.depth
  operands : i.op.isTerminal = false → i.effect.1 ≤ depth

namespace Inst

theorem findSome?_jumps_eq_none {edges : List Edge} :
    edges.findSome? (fun e =>
      if e.address = pendingTarget then some (Defect.unresolved i.op)
      else if e.depth < 0 then some (.underflow i.op) else none) = none ↔
      ∀ e ∈ edges, e.address ≠ pendingTarget ∧ 0 ≤ e.depth := by
  rw [List.findSome?_eq_none_iff]
  refine forall₂_congr fun e _ => ?_
  split
  · simp [*]
  · split <;> simp_all

theorem defect?_eq_none {depth : Int} : i.defect? depth = none ↔ i.Passes depth := by
  rw [defect?]
  generalize hlimit : (if i.op.isSlotLoad then depth else wrapInt (depth - 1)) = limit
  constructor
  · intro h
    split at h
    · cases h
    rename_i htarget
    split at h
    · cases h
    rename_i hslot
    split at h
    · cases h
    rename_i hjumps
    refine ⟨?_, ?_, findSome?_jumps_eq_none.1 hjumps, ?_⟩
    · simpa using htarget
    · simpa [hlimit] using hslot
    · simpa using h
  · rintro ⟨htarget, hslot, hjumps, hpops⟩
    rw [hlimit] at hslot
    rw [findSome?_jumps_eq_none.2 hjumps, if_neg, if_neg, if_neg]
    · simpa using hpops
    · simpa using hslot
    · simpa using htarget

theorem mem_outgoing {address depth : Int} {e : Edge} :
    e ∈ i.outgoing address depth ↔ e ∈ i.successors depth ∨ i.op.isTerminal = false ∧
      e = ⟨wrapInt (address + 1), wrapInt (depth - i.effect.1 + i.effect.2)⟩ := by
  unfold outgoing
  split <;> rename_i hterminal <;> simp [hterminal, or_comm]

/-- An instruction has at most as many jumps as its table has entries, or one. -/
theorem length_outgoing_le (i : Inst) (address depth : Int) :
    (i.outgoing address depth).length ≤ i.table.length + 2 := by
  have hjumps : (i.successors depth).length ≤ i.table.length + 1 := by
    fun_cases successors <;> simp
  unfold outgoing
  split <;> simp <;> omega

end Inst

namespace Code

variable {c : Code} {start : Edge}

theorem Reaches.outgoing {e e' : Edge} (path : c.Reaches start e)
    (found : c.at? e.address = some i) (edge : e' ∈ i.outgoing e.address e.depth) :
    c.Reaches start e' := by
  obtain hjump | ⟨hterminal, rfl⟩ := mem_outgoing.1 edge
  · exact path.jump found hjump
  · exact path.fall found hterminal

/-! ### Each instruction is left once -/

def placed (c : Code) : List (Int × Inst) :=
  c.blocks.zipIdx.flatMap fun (block, b) =>
    block.zipIdx.map fun (i, k) => (((b * c.blockSize.toNat + k : Nat) : Int), i)

theorem mem_placed {address : Int} (h : c.at? address = some i) :
    (address, i) ∈ c.placed := by
  unfold at? at h
  split at h
  · cases h
  rename_i hrange
  obtain ⟨block, hblock, hi⟩ := Option.bind_eq_some_iff.1 h
  simp only [Bool.or_eq_true, decide_eq_true_eq, not_or, not_lt, not_le] at hrange
  refine List.mem_flatMap.2 ⟨(block, address.toNat / c.blockSize.toNat),
    List.mem_zipIdx_iff_getElem?.2 hblock, List.mem_map.2
      ⟨(i, address.toNat % c.blockSize.toNat), List.mem_zipIdx_iff_getElem?.2 hi, ?_⟩⟩
  have hdiv := Nat.div_add_mod' address.toNat c.blockSize.toNat
  simp only [Prod.mk.injEq, and_true]
  omega

/-- How many edges can still come from instructions that have not been seen. -/
def edgesAhead (seen : List (Int × Int)) : List (Int × Inst) → Nat
  | [] => 0
  | (a, i) :: placed =>
    (if (seen.lookup a).isSome then 0 else i.table.length + 2) + edgesAhead seen placed

theorem edgesAhead_cons_le (seen : List (Int × Int)) (placed : List (Int × Inst)) (a d : Int) :
    edgesAhead ((a, d) :: seen) placed ≤ edgesAhead seen placed := by
  induction placed with
  | nil => exact le_rfl
  | cons p placed ih =>
    refine Nat.add_le_add ?_ ih
    rw [List.lookup_cons]
    split
    · simp
    · exact le_rfl

/-- Seeing an instruction uses up all the edges that can come from it. -/
theorem edgesAhead_cons {seen : List (Int × Int)} {placed : List (Int × Inst)} {a : Int}
    (hmem : (a, i) ∈ placed) (hnew : seen.lookup a = none) (d : Int) :
    edgesAhead ((a, d) :: seen) placed + (i.table.length + 2) ≤ edgesAhead seen placed := by
  induction placed with
  | nil => cases hmem
  | cons p placed ih =>
    obtain rfl | hmem := List.mem_cons.1 hmem
    · have hrest := edgesAhead_cons_le seen placed a d
      simp only [edgesAhead, List.lookup_cons, beq_self_eq_true, hnew, Option.isSome_some,
        Option.isSome_none, if_true, Bool.false_eq_true, if_false]
      omega
    · have hp := edgesAhead_cons_le seen [p] a d
      have hrest := ih hmem
      simp only [edgesAhead] at hp ⊢
      omega

theorem edgesAhead_nil (placed : List (Int × Inst)) (n : Nat) :
    (placed.map (·.2)).foldl (fun n i => n + i.table.length + 2) n =
      n + edgesAhead [] placed := by
  induction placed generalizing n with
  | nil => rfl
  | cons p placed ih =>
    rw [List.map_cons, List.foldl_cons, ih]
    simp only [edgesAhead, List.lookup_nil, Option.isSome_none, Bool.false_eq_true, if_false]
    omega

theorem edgeBound_eq (c : Code) : c.edgeBound = 2 + edgesAhead [] c.placed := by
  have hplaced : c.placed.map (·.2) = c.blocks.flatten := by
    simp only [placed, List.map_flatMap, List.map_map, Function.comp_def]
    rw [List.flatMap_def]
    calc (c.blocks.zipIdx.map fun x => x.1.zipIdx.map fun y => y.1).flatten
      _ = (c.blocks.zipIdx.map Prod.fst).flatten := by
        congr 2
        funext x
        exact List.zipIdx_map_fst 0 x.1
      _ = c.blocks.flatten := by rw [List.zipIdx_map_fst]
  rw [edgeBound, ← hplaced, edgesAhead_nil]

/-! ### One step of exploring -/

/-- An edge is still to be followed, or its address has been seen with its height. -/
def Covers (heights : List (Int × Int)) (edges : List Edge) (e : Edge) : Prop :=
  e ∈ edges ∨ heights.lookup e.address = some e.depth

section

variable {heights : List (Int × Int)} {edges rest next : List Edge} {e e' : Edge}

theorem covers_drop (hseen : heights.lookup e.address = some e.depth) :
    Covers heights rest e' ↔ Covers heights (e :: rest) e' := by
  unfold Covers
  rw [List.mem_cons]
  constructor
  · rintro (hmem | hlookup)
    · exact .inl (.inr hmem)
    · exact .inr hlookup
  · rintro ((rfl | hmem) | hlookup)
    · exact .inr hseen
    · exact .inl hmem
    · exact .inr hlookup

theorem covers_see (hnew : heights.lookup e.address = none) :
    Covers ((e.address, e.depth) :: heights) (next ++ rest) e' ↔
      e' ∈ next ∨ Covers heights (e :: rest) e' := by
  unfold Covers
  rw [List.mem_append, List.mem_cons, List.lookup_cons]
  by_cases heq : e'.address = e.address
  · have hdepth : e.depth = e'.depth ↔ e' = e := by
      obtain ⟨a, d⟩ := e
      obtain ⟨a', d'⟩ := e'
      obtain rfl : a' = a := heq
      rw [Edge.mk.injEq, eq_comm]
      simp
    simp only [heq, hnew, beq_self_eq_true, Option.some.injEq, hdepth, reduceCtorEq, or_false]
    tauto
  · have hne : e' ≠ e := fun h => heq (congrArg Edge.address h)
    simp only [beq_eq_false_iff_ne.2 heq, hne, false_or, or_assoc]

end

theorem isGreatest_foldl_max (edges : List Edge) (m : Int) :
    IsGreatest {d | d = m ∨ ∃ e ∈ edges, e.depth = d}
      (edges.foldl (fun m e => max m e.depth) m) := by
  induction edges generalizing m with
  | nil => simp [IsGreatest, upperBounds]
  | cons e edges ih =>
    obtain ⟨hmem, hbound⟩ := ih (max m e.depth)
    rw [List.foldl_cons]
    refine ⟨?_, ?_⟩
    · obtain heq | ⟨e', he', heq⟩ := hmem
      · rw [Set.mem_ofPred_eq, heq]
        obtain hm | hm := le_total e.depth m
        · exact .inl (max_eq_left hm)
        · exact .inr ⟨e, List.mem_cons_self, (max_eq_right hm).symm⟩
      · exact .inr ⟨e', List.mem_cons_of_mem e he', heq⟩
    · have hmax := hbound (.inl rfl)
      rintro d (rfl | ⟨e', he', rfl⟩)
      · exact le_trans (le_max_left _ _) hmax
      · obtain rfl | he' := List.mem_cons.1 he'
        · exact le_trans (le_max_right _ _) hmax
        · exact hbound (.inr ⟨e', he', rfl⟩)

/-- While exploring, all that is covered is reached, and the addresses that have been seen pass
their checks and lead to what is covered. -/
structure Explored.Tracks (c : Code) (start : Edge) (edges : List Edge) (found : Explored) :
    Prop where
  begun : Covers found.heights edges start
  reached : ∀ e, Covers found.heights edges e → c.Reaches start e
  closed : ∀ e : Edge, found.heights.lookup e.address = some e.depth → ∃ i, c.at? e.address = some i ∧
    i.Passes e.depth ∧ ∀ e' ∈ i.outgoing e.address e.depth, Covers found.heights edges e'
  bounds : ∀ e, Covers found.heights edges e → e.depth ≤ found.greatest
  attained : ∃ e, c.Reaches start e ∧ e.depth = found.greatest

namespace Explored.Tracks

variable {edges rest : List Edge} {found : Explored} {e : Edge}

theorem drop (h : Tracks c start (e :: rest) found)
    (hseen : found.heights.lookup e.address = some e.depth) : Tracks c start rest found where
  begun := (covers_drop hseen).2 h.begun
  reached e' he' := h.reached e' ((covers_drop hseen).1 he')
  closed e' he' := by
    obtain ⟨i, hi, hpasses, hout⟩ := h.closed e' he'
    exact ⟨i, hi, hpasses, fun e'' he'' => (covers_drop hseen).2 (hout e'' he'')⟩
  bounds e' he' := h.bounds e' ((covers_drop hseen).1 he')
  attained := h.attained

theorem see (h : Tracks c start (e :: rest) found)
    (hnew : found.heights.lookup e.address = none) (hi : c.at? e.address = some i)
    (hpasses : i.Passes e.depth) :
    Tracks c start (i.outgoing e.address e.depth ++ rest)
      ⟨(e.address, e.depth) :: found.heights,
        (i.outgoing e.address e.depth).foldl (fun m e => max m e.depth) found.greatest⟩ := by
  obtain ⟨hmem, hbound⟩ := isGreatest_foldl_max (i.outgoing e.address e.depth) found.greatest
  have hpath : c.Reaches start e := h.reached e (.inl List.mem_cons_self)
  refine ⟨(covers_see hnew).2 (.inr h.begun), ?_, ?_, ?_, ?_⟩
  · intro e' he'
    obtain hout | hold := (covers_see hnew).1 he'
    · exact hpath.outgoing hi hout
    · exact h.reached e' hold
  · intro e' he'
    rw [List.lookup_cons] at he'
    split at he'
    · rename_i heq
      obtain rfl : e' = e := by
        cases e
        cases e'
        simp_all
      exact ⟨i, hi, hpasses, fun e'' he'' => (covers_see hnew).2 (.inl he'')⟩
    · obtain ⟨j, hj, hpasses', hout⟩ := h.closed e' he'
      exact ⟨j, hj, hpasses', fun e'' he'' => (covers_see hnew).2 (.inr (hout e'' he''))⟩
  · intro e' he'
    obtain hout | hold := (covers_see hnew).1 he'
    · exact hbound (.inr ⟨e', hout, rfl⟩)
    · exact le_trans (h.bounds e' hold) (hbound (.inl rfl))
  · obtain heq | ⟨e', hout, hdepth⟩ := hmem
    · rw [heq]
      exact h.attained
    · exact ⟨e', hpath.outgoing hi hout, hdepth⟩

theorem seen_of_reaches (h : Tracks c start [] found) (path : c.Reaches start e) :
    found.heights.lookup e.address = some e.depth := by
  have hseen {e : Edge} (he : Covers found.heights [] e) :
      found.heights.lookup e.address = some e.depth := he.resolve_left List.not_mem_nil
  induction path with
  | start => exact hseen h.begun
  | jump _ hfound hedge ih =>
    obtain ⟨i, hi, -, hout⟩ := h.closed _ ih
    cases Option.some.inj (hfound.symm.trans hi)
    exact hseen (hout _ (mem_outgoing.2 (.inl hedge)))
  | fall _ hfound hfalls ih =>
    obtain ⟨i, hi, -, hout⟩ := h.closed _ ih
    cases Option.some.inj (hfound.symm.trans hi)
    exact hseen (hout _ (mem_outgoing.2 (.inr ⟨hfalls, rfl⟩)))

end Explored.Tracks

/-- All states that paths reach have an instruction that passes its checks, and no address is
reached with two heights. -/
structure IsConsistent (c : Code) (start : Edge) : Prop where
  passes : ∀ e, c.Reaches start e → ∃ i, c.at? e.address = some i ∧ i.Passes e.depth
  agree : ∀ a d d', c.Reaches start ⟨a, d⟩ → c.Reaches start ⟨a, d'⟩ → d = d'

/-! ### Exploring -/

theorem length_outgoing_add_edgesAhead_le {seen : List (Int × Int)} {e : Edge}
    (hi : c.at? e.address = some i) (hnew : seen.lookup e.address = none) :
    (i.outgoing e.address e.depth).length +
      edgesAhead ((e.address, e.depth) :: seen) c.placed ≤ edgesAhead seen c.placed := by
  have hahead := edgesAhead_cons (mem_placed hi) hnew e.depth
  have hlength := i.length_outgoing_le e.address e.depth
  omega

/-- Exploring with enough fuel follows all edges, or meets an inconsistency. -/
theorem explore_spec {fuel : Nat} {edges : List Edge} {found : Explored}
    (h : found.Tracks c start edges)
    (hfuel : edges.length + edgesAhead found.heights c.placed ≤ fuel) :
    (∃ found', c.explore fuel edges found = .ok found' ∧ found'.Tracks c start []) ∨
      (∃ err, c.explore fuel edges found = .error err) ∧ ¬ c.IsConsistent start := by
  induction fuel generalizing edges found with
  | zero =>
    obtain rfl : edges = [] := List.eq_nil_of_length_eq_zero (by omega)
    exact .inl ⟨found, rfl, h⟩
  | succ fuel ih =>
    cases edges with
    | nil => exact .inl ⟨found, rfl, h⟩
    | cons e rest =>
      have hpath : c.Reaches start e := h.reached e (.inl List.mem_cons_self)
      rw [List.length_cons] at hfuel
      rw [explore]
      cases hlookup : found.heights.lookup e.address with
      | some depth =>
        by_cases heq : depth = e.depth
        -- another way to an address with a known height has nothing new to follow
        · subst heq
          simp only [if_true]
          exact ih (h.drop hlookup) (by omega)
        · simp only [heq, if_false]
          refine .inr ⟨⟨_, rfl⟩, fun hconsistent => ?_⟩
          exact heq (hconsistent.agree _ _ _ (h.reached ⟨e.address, depth⟩ (.inr hlookup)) hpath)
      | none =>
        cases hi : c.at? e.address with
        | none =>
          -- the path leaves the code
          refine .inr ⟨⟨_, rfl⟩, fun hconsistent => ?_⟩
          obtain ⟨i, hi', -⟩ := hconsistent.passes e hpath
          rw [hi] at hi'
          cases hi'
        | some i =>
          cases hdefect : i.defect? e.depth with
          | some d =>
            simp only [hdefect]
            refine .inr ⟨⟨_, rfl⟩, fun hconsistent => ?_⟩
            obtain ⟨j, hj, hpasses⟩ := hconsistent.passes e hpath
            cases Option.some.inj (hi.symm.trans hj)
            rw [defect?_eq_none.2 hpasses] at hdefect
            cases hdefect
          | none =>
            simp only [hdefect]
            -- the edges out of the address were counted as edges ahead, and now as edges to follow
            refine ih (h.see hlookup hi (defect?_eq_none.1 hdefect)) ?_
            have hless := length_outgoing_add_edgesAhead_le hi hlookup
            rw [List.length_append]
            dsimp only
            omega

/-- Exploring ends by itself: more fuel than enough changes nothing. -/
theorem explore_of_le {fuel fuel' : Nat} {edges : List Edge} {found : Explored}
    (hfuel : edges.length + edgesAhead found.heights c.placed ≤ fuel) (hle : fuel ≤ fuel') :
    c.explore fuel' edges found = c.explore fuel edges found := by
  induction fuel generalizing edges found fuel' with
  | zero =>
    obtain rfl : edges = [] := List.eq_nil_of_length_eq_zero (by omega)
    cases fuel' <;> rfl
  | succ fuel ih =>
    obtain ⟨fuel', rfl⟩ : ∃ n, fuel' = n + 1 := ⟨fuel' - 1, by omega⟩
    cases edges with
    | nil => rfl
    | cons e rest =>
      rw [List.length_cons] at hfuel
      rw [explore, explore]
      cases hlookup : found.heights.lookup e.address with
      | some depth =>
        have hrest : c.explore fuel' rest found = c.explore fuel rest found :=
          ih (by omega) (by omega)
        simp only [hrest]
      | none =>
        cases hi : c.at? e.address with
        | none => rfl
        | some i =>
          cases hdefect : i.defect? e.depth with
          | some d => simp only [hdefect]
          | none =>
            have hless := length_outgoing_add_edgesAhead_le hi hlookup
            simp only [hdefect]
            refine ih ?_ (by omega)
            rw [List.length_append]
            dsimp only
            omega

end Code

/-! ### The greatest height -/

namespace Func

/-- The state that the paths of a function start in. -/
def start (fn : Func) : Edge := ⟨fn.entry, fn.params.length⟩

variable {fn : Func} {code : Code}

theorem tracks_start (fn : Func) (code : Code) :
    Code.Explored.Tracks code fn.start [fn.start] ⟨[], fn.params.length⟩ where
  begun := .inl (List.mem_singleton_self _)
  reached e he := by
    obtain hmem | hlookup := he
    · rw [List.mem_singleton.1 hmem]
      exact .start
    · cases hlookup
  closed e he := by cases he
  bounds e he := by
    obtain hmem | hlookup := he
    · rw [List.mem_singleton.1 hmem]
      exact le_rfl
    · cases hlookup
  attained := ⟨fn.start, .start, rfl⟩

theorem edgeBound_enough (fn : Func) (code : Code) :
    [fn.start].length + Code.edgesAhead [] code.placed ≤ code.edgeBound := by
  rw [Code.edgeBound_eq, List.length_singleton]
  omega

theorem maxDepth_of_explore_ok (hcode : fn.code = some code) {found : Code.Explored}
    (h : code.explore code.edgeBound [fn.start] ⟨[], fn.params.length⟩ = .ok found) :
    fn.maxDepth = .ok found.greatest := by
  unfold start at h
  rw [maxDepth, hcode]
  simp only [h]

theorem maxDepth_of_explore_error (hcode : fn.code = some code) {err : Int × Defect}
    (h : code.explore code.edgeBound [fn.start] ⟨[], fn.params.length⟩ = .error err) :
    fn.maxDepth = .error (fn.errorAt err.1 err.2) := by
  unfold start at h
  rw [maxDepth, hcode]
  simp only [h]

/-- When all edges have been followed, the greatest height is that of the states on the paths. -/
theorem isGreatest_of_tracks {start : Edge} {found : Code.Explored}
    (h : found.Tracks code start []) :
    IsGreatest {d | ∃ a, code.Reaches start ⟨a, d⟩} found.greatest := by
  refine ⟨?_, ?_⟩
  · obtain ⟨e, hpath, hdepth⟩ := h.attained
    exact ⟨e.address, hdepth ▸ hpath⟩
  · rintro d ⟨a, hpath⟩
    exact h.bounds _ (.inr (h.seen_of_reaches hpath))

/-- Exploring a function finds the greatest height exactly if every state on a path has an
instruction that passes its checks and no address is reached with two heights. -/
theorem maxDepth_eq_ok_iff (hcode : fn.code = some code) (m : Int) :
    (∀ fuel ≥ code.edgeBound, code.explore fuel [fn.start] ⟨[], fn.params.length⟩ =
        code.explore code.edgeBound [fn.start] ⟨[], fn.params.length⟩) ∧
      (fn.maxDepth = .ok m ↔
        (∀ e, code.Reaches fn.start e → ∃ i, code.at? e.address = some i ∧ i.Passes e.depth) ∧
        (∀ a d d', code.Reaches fn.start ⟨a, d⟩ → code.Reaches fn.start ⟨a, d'⟩ → d = d') ∧
        IsGreatest {d | ∃ a, code.Reaches fn.start ⟨a, d⟩} m) := by
  refine ⟨fun fuel hfuel => Code.explore_of_le (edgeBound_enough fn code) hfuel, ?_⟩
  obtain ⟨found, hexplore, htracks⟩ | ⟨⟨err, hexplore⟩, hinconsistent⟩ :=
    Code.explore_spec (tracks_start fn code) (edgeBound_enough fn code)
  · have hgreatest := isGreatest_of_tracks htracks
    rw [maxDepth_of_explore_ok hcode hexplore]
    constructor
    · intro hm
      obtain rfl : found.greatest = m := Except.ok.inj hm
      refine ⟨?_, ?_, hgreatest⟩
      · intro e hpath
        obtain ⟨i, hi, hpasses, -⟩ := htracks.closed e (htracks.seen_of_reaches hpath)
        exact ⟨i, hi, hpasses⟩
      · intro a d d' hpath hpath'
        exact Option.some.inj
          ((htracks.seen_of_reaches hpath).symm.trans (htracks.seen_of_reaches hpath'))
    · rintro ⟨-, -, hm⟩
      rw [hgreatest.unique hm]
  · rw [maxDepth_of_explore_error hcode hexplore]
    constructor
    · intro hm
      cases hm
    · rintro ⟨hpasses, hagree, -⟩
      exact absurd ⟨hpasses, hagree⟩ hinconsistent

/-- A loop that pushes a value and leaves when it is nil has the greatest height one. -/
theorem maxDepth_eq_ok_iff_of_loop :
    ∃ (fn : Func) (code : Code), fn.code = some code ∧
      code.Reaches fn.start ⟨0, 0⟩ ∧ code.at? 1 = some ⟨.ifNotNil, 1, 0, 0, .nil, [], [], [], none⟩ ∧
      (∀ e, code.Reaches fn.start e → ∃ i, code.at? e.address = some i ∧ i.Passes e.depth) ∧
      (∀ a d d', code.Reaches fn.start ⟨a, d⟩ → code.Reaches fn.start ⟨a, d'⟩ → d = d') ∧
      IsGreatest {d | ∃ a, code.Reaches fn.start ⟨a, d⟩} 1 := by
  refine ⟨⟨"t", 1, 1, 0, 1, 0, 0, [], [], [], some ⟨4, [[.plain 1 .nil,
    { Inst.plain 1 .ifNotNil with target := 0 }, .plain 1 .nil, .plain 1 .ret]]⟩⟩, _, rfl,
    .start, rfl, ?_⟩
  exact ((maxDepth_eq_ok_iff rfl 1).2.1 rfl)

end Func

end StagedScript
