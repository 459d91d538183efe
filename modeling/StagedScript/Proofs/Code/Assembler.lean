import StagedScript.Code.Assembler
import StagedScript.Proofs.Code.Labels

/-!
# Blocks under construction

A builder that leaves labels and blocks to the end makes the same code as an assembler that writes
every target as soon as it can.  `Builder.assembled` is the assembler that has done what a builder was
asked for so far, and it does the same with every further request.
-/

namespace StagedScript

namespace Builder

open Assembler (append place)

variable {size : Nat} {insts : List Inst}

/-! ### Blocks -/

def prepend (front : List Inst) : List (List Inst) → List (List Inst)
  | [] => [front]
  | is :: rest => (front ++ is) :: rest

theorem prepend_consFirst (front : List Inst) (i : Inst) (blocks : List (List Inst)) :
    prepend front (consFirst i blocks) = prepend (front ++ [i]) blocks := by
  cases blocks <;> simp [prepend, consFirst]

theorem prepend_ne_nil (front : List Inst) (blocks : List (List Inst)) :
    prepend front blocks ≠ [] := by
  cases blocks <;> exact List.cons_ne_nil _ _

theorem prepend_nil {blocks : List (List Inst)} (h : blocks ≠ []) : prepend [] blocks = blocks := by
  cases blocks with
  | nil => exact absurd rfl h
  | cons => rfl

theorem append_cons {blocks : List (List Inst)} (h : blocks ≠ []) (i : Inst) (block : Nat)
    (is : List Inst) : append size i block (is :: blocks) = is :: append size i (block + 1) blocks := by
  cases blocks with
  | nil => exact absurd rfl h
  | cons => rfl

/-- The layout of some instructions behind `used` others that are already in the first block. -/
theorem prepend_layout_cons (front : List Inst) (block : Nat) (i : Inst) (rest : List Inst) :
    prepend front (layout size block front.length (i :: rest)) =
      if front.length = size - 1 then
        (front ++ [link size i.line (block + 1)]) :: prepend [i] (layout size (block + 1) 1 rest)
      else prepend (front ++ [i]) (layout size block (front ++ [i]).length rest) := by
  have hfirst : ∀ blocks, consFirst i blocks = prepend [i] blocks := fun blocks => by
    cases blocks <;> rfl
  rw [layout]
  split
  · rw [hfirst]
    rfl
  · rw [prepend_consFirst, List.length_append, List.length_singleton]

theorem layout_concat (i : Inst) :
    layout size 0 0 (insts ++ [i]) = append size i 0 (layout size 0 0 insts) := by
  have general : ∀ block front, prepend front (layout size block front.length (insts ++ [i])) =
      append size i block (prepend front (layout size block front.length insts)) := by
    induction insts with
    | nil =>
      intro block front
      rw [List.nil_append, prepend_layout_cons]
      simp only [layout, prepend, append, List.append_nil]
    | cons j rest ih =>
      intro block front
      rw [List.cons_append, prepend_layout_cons, prepend_layout_cons]
      split
      · rw [append_cons (prepend_ne_nil _ _)]
        exact congrArg _ (ih (block + 1) [j])
      · exact ih block (front ++ [j])
  have h := general 0 []
  rwa [List.length_nil, prepend_nil (layout_ne_nil _ _ _ _), prepend_nil (layout_ne_nil _ _ _ _)] at h

theorem modify_length (front : List Inst) (i : Inst) (rest : List Inst) (f : Inst → Inst) :
    (front ++ i :: rest).modify front.length f = front ++ f i :: rest := by
  induction front with
  | nil => rfl
  | cons j front ih => exact congrArg (j :: ·) ih

/-- An instruction that changes, but not its line, changes at its address. -/
theorem layout_modify (hsize : 2 ≤ size) {f : Inst → Inst} (hf : ∀ i, (f i).line = i.line) {k : Nat}
    (hk : k < insts.length) :
    layout size 0 0 (insts.modify k f) =
      (layout size 0 0 insts).modify (k / (size - 1)) (·.modify (k % (size - 1)) f) := by
  have general : ∀ k block front, k < insts.length → front.length ≤ size - 1 →
      prepend front (layout size block front.length (insts.modify k f)) =
        (prepend front (layout size block front.length insts)).modify
          ((front.length + k) / (size - 1)) (·.modify ((front.length + k) % (size - 1)) f) := by
    clear hk
    induction insts with
    | nil => exact fun k _ _ hk => absurd hk (Nat.not_lt_zero k)
    | cons j rest ih =>
      intro k block front hk hfront
      have hpos : 0 < size - 1 := by omega
      cases k with
      | zero =>
        rw [List.modify_zero_cons, prepend_layout_cons, prepend_layout_cons, hf]
        simp only [Nat.add_zero]
        split
        · rename_i hfull
          rw [hfull, Nat.div_self hpos, Nat.mod_self, List.modify_succ_cons]
          cases layout size (block + 1) 1 rest <;> rfl
        · rw [Nat.div_eq_of_lt (by omega), Nat.mod_eq_of_lt (by omega), List.length_append,
            List.length_append]
          cases layout size block (front.length + 1) rest <;> simp [prepend, modify_length]
      | succ k =>
        rw [List.modify_succ_cons, prepend_layout_cons, prepend_layout_cons]
        split
        · rename_i hfull
          have hrest := ih k (block + 1) [j] (Nat.lt_of_succ_lt_succ hk) hpos
          rw [hfull, Nat.add_div_left _ hpos, Nat.add_mod_left, List.modify_succ_cons]
          rw [List.length_singleton, Nat.add_comm 1 k] at hrest
          rw [hrest]
        · rw [ih k block (front ++ [j]) (Nat.lt_of_succ_lt_succ hk) (by simp; omega),
            List.length_append, List.length_singleton, Nat.add_assoc, Nat.add_comm 1 k]
  have h := general k 0 [] hk (Nat.zero_le _)
  rwa [List.length_nil, prepend_nil (layout_ne_nil _ _ _ _), prepend_nil (layout_ne_nil _ _ _ _),
    Nat.zero_add] at h

/-! ### Addresses -/

theorem addressOf_add (hsize : 2 ≤ size) (n : Nat) :
    addressOf size (size - 1 + n) = size + addressOf size n := by
  unfold addressOf
  rw [Nat.add_div_left _ (by omega), Nat.add_mod_left, Nat.succ_mul]
  omega

theorem placeOf_succ (hsize : 2 ≤ size) (n : Nat) : placeOf size (n + 1) = addressOf size n + 1 := by
  have hlt := Nat.mod_lt n (show 0 < size - 1 by omega)
  have hsplit : n + 1 = (size - 1) * (n / (size - 1)) + (n % (size - 1) + 1) := by
    rw [← Nat.add_assoc, Nat.div_add_mod]
  unfold placeOf
  by_cases hlast : n % (size - 1) + 1 = size - 1
  · have hmod : (n + 1) % (size - 1) = 0 := by
      rw [hsplit, hlast, Nat.mul_add_mod, Nat.mod_self]
    simp [hmod]
  · have hmod : (n + 1) % (size - 1) = n % (size - 1) + 1 := by
      rw [hsplit, Nat.mul_add_mod, Nat.mod_eq_of_lt (by omega)]
    have hdiv : (n + 1) / (size - 1) = n / (size - 1) := by
      rw [hsplit, Nat.mul_add_div (by omega), Nat.div_eq_of_lt (by omega : n % _ + 1 < _),
        Nat.add_zero]
    rw [if_neg (by simp [hmod]), addressOf, hmod, hdiv]
    rfl

theorem place_cons {blocks : List (List Inst)} (h : blocks ≠ []) (is : List Inst) :
    place size (is :: blocks) = size + place size blocks := by
  obtain ⟨b, rest, rfl⟩ := List.exists_cons_of_ne_nil h
  simp only [place, List.length_cons, List.getLastD_cons, Nat.add_sub_cancel, Nat.succ_mul]
  omega

theorem place_layout (hsize : 2 ≤ size) :
    place size (layout size 0 0 insts) = placeOf size insts.length := by
  have general : ∀ block front, front.length ≤ size - 1 →
      place size (prepend front (layout size block front.length insts)) =
        placeOf size (front.length + insts.length) := by
    induction insts with
    | nil =>
      intro block front hfront
      have hplace : place size [front ++ []] = front.length := by simp [place]
      rw [layout, prepend, hplace, List.length_nil, Nat.add_zero]
      cases hn : front.length with
      | zero => simp [placeOf, addressOf]
      | succ n =>
        rw [placeOf_succ hsize, addressOf, Nat.div_eq_of_lt (by omega), Nat.mod_eq_of_lt (by omega)]
        omega
    | cons i rest ih =>
      intro block front hfront
      rw [prepend_layout_cons, List.length_cons]
      split
      · rename_i hfull
        have hrest := ih (block + 1) [i] (by simp; omega)
        rw [List.length_singleton, Nat.add_comm 1 rest.length, placeOf_succ hsize] at hrest
        rw [place_cons (prepend_ne_nil _ _), hrest, ← Nat.add_assoc front.length,
          placeOf_succ hsize, hfull, addressOf_add hsize, Nat.add_assoc]
      · rw [ih block (front ++ [i]) (by simp; omega), List.length_append, List.length_singleton,
          Nat.add_assoc, Nat.add_comm 1]
  have h := general 0 [] (Nat.zero_le _)
  rwa [List.length_nil, prepend_nil (layout_ne_nil _ _ _ _), Nat.zero_add] at h

/-! ### Targets -/

/-- Instructions with the targets of some sites set. -/
def resolveAll (target : Label → Int) (sites : List Site) (insts : List Inst) : List Inst :=
  sites.foldl (fun is s => is.modify s.inst fun i => setTarget i s.entry (target s.label)) insts

theorem resolved_toList (b : Builder) :
    b.resolved.toList = resolveAll b.target b.sites.toList b.insts.toList := by
  unfold resolved resolveAll
  rw [← Array.foldl_toList]
  generalize b.insts = insts
  induction b.sites.toList generalizing insts with
  | nil => rfl
  | cons s sites ih => rw [List.foldl_cons, List.foldl_cons, ih, Array.toList_modify]

theorem length_resolveAll (target : Label → Int) (sites : List Site) :
    (resolveAll target sites insts).length = insts.length := by
  induction sites generalizing insts with
  | nil => rfl
  | cons s sites ih => exact (ih ..).trans (List.length_modify ..)

theorem modify_concat {k : Nat} (hk : k < insts.length) (f : Inst → Inst) (i : Inst) :
    (insts ++ [i]).modify k f = insts.modify k f ++ [i] := by
  induction insts generalizing k with
  | nil => exact absurd hk (Nat.not_lt_zero k)
  | cons j rest ih =>
    cases k with
    | zero => rfl
    | succ k => exact congrArg (j :: ·) (ih (Nat.lt_of_succ_lt_succ hk))

theorem resolveAll_concat {sites : List Site} (h : ∀ s ∈ sites, s.inst < insts.length)
    (target : Label → Int) (i : Inst) :
    resolveAll target sites (insts ++ [i]) = resolveAll target sites insts ++ [i] := by
  induction sites generalizing insts with
  | nil => rfl
  | cons s sites ih =>
    obtain ⟨hs, h⟩ := List.forall_mem_cons.1 h
    simp only [resolveAll, List.foldl_cons, modify_concat hs]
    exact ih (by simpa using h)

def Apart (s s' : Site) : Prop := s.inst = s'.inst → s.entry ≠ s'.entry

theorem setTarget_setTarget (i : Inst) (entry : Option Nat) (a a' : Int) :
    setTarget (setTarget i entry a) entry a' = setTarget i entry a' := by
  cases entry with
  | none => rfl
  | some k => simp [setTarget]

theorem setTarget_comm {entry entry' : Option Nat} (h : entry ≠ entry') (a a' : Int) (i : Inst) :
    setTarget (setTarget i entry a) entry' a' = setTarget (setTarget i entry' a') entry a := by
  rcases entry with _ | k <;> rcases entry' with _ | k'
  · exact absurd rfl h
  · rfl
  · rfl
  · simp only [setTarget]
    rw [List.set_comm _ _ fun hk => h (congrArg some hk)]

/-- Targets of other sites do not matter for a site. -/
theorem modify_resolveAll {s : Site} {sites : List Site} (h : ∀ s' ∈ sites, Apart s s')
    (target : Label → Int) (a : Int) :
    (resolveAll target sites insts).modify s.inst (setTarget · s.entry a) =
      resolveAll target sites (insts.modify s.inst (setTarget · s.entry a)) := by
  induction sites generalizing insts with
  | nil => rfl
  | cons s' sites ih =>
    obtain ⟨hs, h⟩ := List.forall_mem_cons.1 h
    refine (ih h).trans ?_
    rw [resolveAll, resolveAll, List.foldl_cons]
    by_cases hinst : s.inst = s'.inst
    · have hcomm := funext (setTarget_comm (hs hinst).symm (target s'.label) a)
      rw [hinst, List.modify_modify_eq, List.modify_modify_eq, Function.comp_def, hcomm,
        Function.comp_def]
    · rw [List.modify_modify_ne _ _ _ hinst]

/-- Writing the targets that were taken from a label again, the latest first. -/
theorem resolveAll_update {sites : List Site} (h : sites.Pairwise Apart) (target : Label → Int)
    (l : Label) (a : Int) :
    (sites.filter (·.label = l)).foldr (fun s is => is.modify s.inst (setTarget · s.entry a))
      (resolveAll target sites insts) =
    resolveAll (fun l' => if l' = l then a else target l') sites insts := by
  induction sites generalizing insts with
  | nil => rfl
  | cons s sites ih =>
    obtain ⟨hs, h⟩ := List.pairwise_cons.1 h
    have hcons (target : Label → Int) : resolveAll target (s :: sites) insts =
      resolveAll target sites (insts.modify s.inst (setTarget · s.entry (target s.label))) := rfl
    rw [hcons, hcons]
    by_cases hl : s.label = l
    · rw [List.filter_cons_of_pos (by simpa using hl), List.foldr_cons, ih h,
        modify_resolveAll hs, List.modify_modify_eq, if_pos hl]
      exact congrArg _ (congrArg _ (funext fun i => setTarget_setTarget i _ _ _))
    · rw [List.filter_cons_of_neg (by simpa using hl), ih h, if_neg hl]

/-! ### The two ways of building -/

/-- The targets that are taken from a label and are pending as long as it is not fixed. -/
def holes (b : Builder) (l : Label) : List Hole :=
  (b.sites.toList.filter (·.label = l)).map fun s => ⟨addressOf b.blockSize s.inst, s.entry⟩

def labelState (b : Builder) (l : Label) : LabelState :=
  if b.isFixed l then ⟨b.target l, true, []⟩ else ⟨0, false, b.holes l⟩

/-- The assembler that has done what the builder was asked for so far. -/
def assembled (b : Builder) : Assembler :=
  ⟨b.blockSize, layout b.blockSize 0 0 b.resolved.toList, (Array.range b.aims.size).map b.labelState,
    b.last⟩

/-- Sites belong to instructions and labels that exist, and each target has one site at most. -/
structure Sited (b : Builder) : Prop where
  two_le : 2 ≤ b.blockSize
  inst : ∀ s ∈ b.sites.toList, s.inst < b.insts.size
  label : ∀ s ∈ b.sites.toList, s.label < b.aims.size
  apart : b.sites.toList.Pairwise Apart

variable {b b' : Builder} {l : Label}

theorem assembled_label? (l : Label) :
    b.assembled.labels[l]? = if l < b.aims.size then some (b.labelState l) else none := by
  split <;> simp_all [assembled]

theorem length_resolved (b : Builder) : b.resolved.toList.length = b.insts.size := by
  rw [resolved_toList, length_resolveAll, Array.length_toList]

theorem last_emit (b : Builder) (i : Inst) : (b.emit i).last = addressOf b.blockSize b.insts.size := by
  simp [last, emit]

theorem here_assembled (hsize : 2 ≤ b.blockSize) : (b.assembled.here : Int) = b.here := by
  rw [Assembler.here, assembled, place_layout hsize, length_resolved]
  rfl

theorem Sited.emit_assembled (h : b.Sited) (i : Inst) :
    b.assembled.emit i = (b.emit i).assembled := by
  have hresolved : (b.emit i).resolved.toList = b.resolved.toList ++ [i] := by
    rw [resolved_toList, resolved_toList, emit, Array.toList_push]
    exact resolveAll_concat (by simpa using h.inst) _ i
  have hblocks : append b.blockSize i 0 b.assembled.blocks = (b.emit i).assembled.blocks := by
    simp only [assembled]
    rw [hresolved, layout_concat]
    rfl
  have hplace : place b.blockSize (b.emit i).assembled.blocks =
      addressOf b.blockSize b.insts.size + 1 := by
    refine (place_layout h.two_le).trans ?_
    rw [length_resolved, emit, Array.size_push, placeOf_succ h.two_le]
  refine (Assembler.mk.injEq ..).mpr ⟨rfl, hblocks, rfl, ?_⟩
  refine Eq.trans ?_ (last_emit b i).symm
  rw [show append b.assembled.blockSize i 0 b.assembled.blocks = _ from hblocks]
  exact (congrArg (fun n : Nat => (n : Int) - 1) hplace).trans (by simp)

def withSite (b : Builder) (s : Site) : Builder := { b with sites := b.sites.push s }

theorem write_layout {a : Assembler} (hsize : 2 ≤ a.blockSize)
    (ha : a.blocks = layout a.blockSize 0 0 insts) {k : Nat} (hk : k < insts.length)
    (entry : Option Nat) (t : Int) :
    a.write (addressOf a.blockSize k) entry t =
      { a with blocks := layout a.blockSize 0 0 (insts.modify k (setTarget · entry t)) } := by
  have hlt : k % (a.blockSize - 1) < a.blockSize := by
    have := Nat.mod_lt k (show 0 < a.blockSize - 1 by omega)
    omega
  have hdiv : addressOf a.blockSize k / a.blockSize = k / (a.blockSize - 1) := by
    rw [addressOf, Nat.mul_comm, Nat.mul_add_div (by omega), Nat.div_eq_of_lt hlt, Nat.add_zero]
  have hmod : addressOf a.blockSize k % a.blockSize = k % (a.blockSize - 1) := by
    rw [addressOf, Nat.mul_comm, Nat.mul_add_mod, Nat.mod_eq_of_lt hlt]
  have hline : ∀ i, (setTarget i entry t).line = i.line := fun i => by cases entry <;> rfl
  rw [Assembler.write, hdiv, hmod, ha, layout_modify hsize hline hk]

theorem setIfInBounds_labels {f g : Label → LabelState} {x : LabelState} (n : Nat)
    (hf : ∀ l', f l' = if l' = l then x else g l') :
    ((Array.range n).map g).setIfInBounds l x = (Array.range n).map f := by
  apply Array.ext
  · simp
  · intro l' hl hl'
    rw [Array.getElem_setIfInBounds (by simpa using hl')]
    simp only [Array.getElem_map, Array.getElem_range, hf]
    simp only [eq_comm]

theorem setTarget_assembled (hsize : 2 ≤ b.blockSize) {s : Site} (hs : s.inst < b.insts.size) :
    b.assembled.setTarget (addressOf b.blockSize s.inst) s.entry s.label =
      if s.label < b.aims.size then some (b.withSite s).assembled else none := by
  have hresolved : (b.withSite s).resolved.toList =
      b.resolved.toList.modify s.inst (setTarget · s.entry (b.target s.label)) := by
    rw [resolved_toList, resolved_toList, withSite, Array.toList_push, resolveAll, List.foldl_append]
    rfl
  have hwrite (labels : Array LabelState) :
      { b.assembled with labels }.write (addressOf b.blockSize s.inst) s.entry (b.target s.label) =
        { (b.withSite s).assembled with labels } := by
    refine (write_layout (a := { b.assembled with labels }) hsize rfl (by rwa [length_resolved])
      _ _).trans ?_
    rw [← hresolved]
    rfl
  have hholes (l : Label) : (b.withSite s).holes l =
      if l = s.label then b.holes l ++ [⟨addressOf b.blockSize s.inst, s.entry⟩] else b.holes l := by
    unfold holes withSite
    rw [Array.toList_push, List.filter_append]
    split
    · rename_i hl
      simp [hl]
    · rename_i hl
      simp [Ne.symm hl]
  have hstate (l : Label) : (b.withSite s).labelState l =
      if b.isFixed l then ⟨b.target l, true, []⟩ else ⟨0, false, (b.withSite s).holes l⟩ := rfl
  unfold Assembler.setTarget
  rw [assembled_label?]
  by_cases hl : s.label < b.aims.size
  · rw [if_pos hl, if_pos hl]
    dsimp only
    by_cases hfixed : b.isFixed s.label
    · have hlabels : b.labelState = (b.withSite s).labelState := by
        funext l
        rw [hstate, labelState, hholes]
        grind
      rw [labelState, if_pos hfixed, if_pos rfl]
      refine congrArg some ((hwrite b.assembled.labels).trans ?_)
      simp only [assembled, hlabels]
      rfl
    · have hpending : b.target s.label = pendingTarget := by
        unfold isFixed at hfixed
        unfold target
        grind
      rw [labelState, if_neg hfixed, if_neg Bool.false_ne_true, ← hpending]
      refine congrArg some ((hwrite _).trans ?_)
      refine (Assembler.mk.injEq ..).mpr ⟨rfl, rfl, setIfInBounds_labels _ fun l => ?_, rfl⟩
      rw [hstate, labelState, hholes]
      grind
  · rw [if_neg hl, if_neg hl]

theorem last_assembled_emit (b : Builder) (i : Inst) :
    (b.emit i).assembled.last.toNat = addressOf b.blockSize b.insts.size := by
  rw [assembled, last_emit, Int.toNat_natCast]

theorem Sited.emitJump_assembled (h : b.Sited) (i : Inst) (l : Label) :
    b.assembled.emitJump i l =
      if l < b.aims.size then some (b.emitJump i l).assembled else none := by
  unfold Assembler.emitJump
  rw [h.emit_assembled]
  dsimp only
  rw [last_assembled_emit]
  exact setTarget_assembled (b := b.emit i) (s := ⟨b.insts.size, none, l⟩) h.two_le (by simp [emit])

theorem setTable_assembled (hsize : 2 ≤ b.blockSize) {k : Nat} (hk : k < b.insts.size)
    (entry : Nat) (ls : List Label) :
    Assembler.setTable (addressOf b.blockSize k) entry ls b.assembled =
      if ls.all (· < b.aims.size) then
        some { b with sites := b.sites ++ (tableSites k entry ls).toArray }.assembled
      else none := by
  induction ls generalizing b entry with
  | nil => simp [Assembler.setTable, tableSites]
  | cons l ls ih =>
    have hstep := setTarget_assembled (s := ⟨k, some entry, l⟩) hsize hk
    rw [Assembler.setTable, hstep, List.all_cons]
    by_cases hl : l < b.aims.size
    · rw [if_pos hl, Option.bind_some, decide_eq_true hl, Bool.true_and]
      have hsites : (b.withSite ⟨k, some entry, l⟩).sites ++ (tableSites k (entry + 1) ls).toArray =
          b.sites ++ (tableSites k entry (l :: ls)).toArray := by simp [withSite, tableSites]
      rw [← hsites]
      exact ih (b := b.withSite _) hsize hk (entry + 1)
    · simp [hl]

theorem Sited.emitSwitch_assembled (h : b.Sited) (line : Int) (ls : List Label) :
    b.assembled.emitSwitch line ls =
      if ls.all (· < b.aims.size) then some (b.emitSwitch line ls).assembled else none := by
  unfold Assembler.emitSwitch
  rw [h.emit_assembled]
  dsimp only
  rw [last_assembled_emit]
  exact setTable_assembled (b := b.emit _) h.two_le (by simp [emit]) 0 ls

theorem Sited.newLabel_assembled (h : b.Sited) :
    b.assembled.newLabel.2 = b.newLabel.2.assembled := by
  have hget (l : Label) : (b.aims.push none).getD l none = b.aims.getD l none := by
    rw [Array.getD_eq_getD_getElem?, Array.getD_eq_getD_getElem?, Array.getElem?_push]
    grind
  have hstate : b.newLabel.2.labelState = b.labelState := by
    funext l
    simp only [labelState, isFixed, target, newLabel, hget]
    rfl
  have hnew : b.labelState b.aims.size = {} := by
    have hnone : b.holes b.aims.size = [] := by
      unfold holes
      rw [List.filter_eq_nil_iff.2 fun s hs => ?_, List.map_nil]
      simpa using Nat.ne_of_lt (h.label s hs)
    simp [labelState, isFixed, hnone]
  have htarget : b.newLabel.2.target = b.target := by
    funext l
    simp only [target, newLabel, hget]
    rfl
  have hresolved : b.newLabel.2.resolved.toList = b.resolved.toList := by
    rw [resolved_toList, resolved_toList, htarget]
    rfl
  refine (Assembler.mk.injEq ..).mpr ⟨rfl, ?_, ?_, rfl⟩
  · simp only [assembled]
    rw [hresolved]
    rfl
  · have hsize : b.newLabel.2.aims.size = b.aims.size + 1 := Array.size_push _
    simp only [assembled, hstate, hsize]
    simp [Array.range_succ, hnew]

theorem foldr_write (insts : List Inst) (sites : List Site) {a : Assembler} (hsize : 2 ≤ a.blockSize)
    (hsites : ∀ s ∈ sites, s.inst < insts.length) (t : Int) :
    (sites.map fun s => Hole.mk (addressOf a.blockSize s.inst) s.entry).foldr
      (fun s a => a.write s.address s.entry t) { a with blocks := layout a.blockSize 0 0 insts } =
    { a with blocks := layout a.blockSize 0 0 <|
        sites.foldr (fun s is => is.modify s.inst (setTarget · s.entry t)) insts } := by
  induction sites with
  | nil => rfl
  | cons s sites ih =>
    obtain ⟨hs, hsites⟩ := List.forall_mem_cons.1 hsites
    have hlength : ∀ sites : List Site, (sites.foldr
        (fun s is => is.modify s.inst (setTarget · s.entry t)) insts).length = insts.length := by
      intro sites
      induction sites with
      | nil => rfl
      | cons s sites ih => rw [List.foldr_cons, List.length_modify, ih]
    rw [List.map_cons, List.foldr_cons, ih hsites, List.foldr_cons]
    generalize hinsts : sites.foldr _ insts = insts'
    rw [← hlength sites, hinsts] at hs
    exact write_layout (a := { a with blocks := layout a.blockSize 0 0 insts' }) hsize rfl hs s.entry t

theorem Sited.fix_assembled (h : b.Sited) (l : Label) (a : Aim) :
    b.assembled.fix l (b.resolveAim a) =
      if l < b.aims.size then (b.aim l a).map assembled else none := by
  unfold Assembler.fix aim
  rw [assembled_label?]
  by_cases hl : l < b.aims.size
  · rw [if_pos hl, if_pos hl]
    dsimp only
    by_cases hfixed : b.isFixed l
    · rw [labelState, if_pos hfixed, if_pos rfl, if_pos hfixed]
      rfl
    · let b' : Builder := { b with aims := b.aims.setIfInBounds l (some a) }
      have hget (l' : Label) : b'.aims.getD l' none =
          if l' = l then some a else b.aims.getD l' none := by
        rw [Array.getD_eq_getD_getElem?, Array.getD_eq_getD_getElem?, Array.getElem?_setIfInBounds]
        grind
      have htarget : b'.target = fun l' => if l' = l then b.resolveAim a else b.target l' := by
        funext l'
        simp only [target, hget]
        by_cases hl' : l' = l
        · rw [if_pos hl', if_pos hl']
          cases a <;> rfl
        · rw [if_neg hl', if_neg hl']
          rfl
      have hresolved : b'.resolved.toList = (b.sites.toList.filter (·.label = l)).foldr
          (fun s is => is.modify s.inst (setTarget · s.entry (b.resolveAim a)))
          b.resolved.toList := by
        rw [resolved_toList, htarget, resolved_toList, resolveAll_update h.apart]
      have hstate (l' : Label) : b'.labelState l' =
          if l' = l then ⟨b.resolveAim a, true, []⟩ else b.labelState l' := by
        simp only [labelState, isFixed, hget, htarget]
        by_cases hl' : l' = l
        · simp only [hl', if_true, Option.isSome_some]
        · simp only [hl', if_false]
          rfl
      rw [labelState, if_neg hfixed, if_neg Bool.false_ne_true, if_neg hfixed, Option.map_some]
      refine congrArg some ((foldr_write b.resolved.toList (b.sites.toList.filter (·.label = l))
        (a := { b.assembled with
          labels := b.assembled.labels.setIfInBounds l ⟨b.resolveAim a, true, []⟩ }) h.two_le
        (fun s hs => ?_) _).trans ?_)
      · rw [length_resolved]
        exact h.inst s (List.mem_filter.1 hs).1
      · rw [← hresolved]
        refine (Assembler.mk.injEq ..).mpr
          ⟨rfl, rfl, (setIfInBounds_labels b.aims.size hstate).trans ?_, rfl⟩
        simp [b']
  · rw [if_neg hl, if_neg hl]

theorem finish_assembled : b.assembled.finish = b.finish := by
  have hunresolved : ∀ l ∈ List.range b.aims.size, b.assembled.unresolved? l = b.unresolved? l := by
    intro l hl
    have hstate : b.assembled.labels.getD l {} = b.labelState l := by
      rw [Array.getD_eq_getD_getElem?, assembled_label?, if_pos (List.mem_range.1 hl)]
      rfl
    unfold Assembler.unresolved? unresolved?
    rw [hstate, labelState]
    by_cases hfixed : b.isFixed l
    · rw [if_pos hfixed, if_pos hfixed]
    · rw [if_neg hfixed, if_neg hfixed]
      simp only [holes]
      cases b.sites.toList.filter (·.label = l) <;> simp
  have hfirst : (List.range b.assembled.labels.size).findSome? b.assembled.unresolved? =
      (List.range b.aims.size).findSome? b.unresolved? := by
    rw [show b.assembled.labels.size = b.aims.size by simp [assembled], ← List.head?_filterMap,
      List.filterMap_congr hunresolved, List.head?_filterMap]
  unfold Assembler.finish finish
  rw [hfirst]
  rfl

variable {r : Request} {requests : List Request}

theorem apart_tableSites (k entry : Nat) (ls : List Label) :
    (tableSites k entry ls).Pairwise Apart := by
  have hentry : ∀ entry ls, ∀ s ∈ tableSites k entry ls, ∃ e, s.entry = some e ∧ entry ≤ e := by
    intro entry ls
    induction ls generalizing entry with
    | nil => exact List.forall_mem_nil _
    | cons l ls ih =>
      refine List.forall_mem_cons.2 ⟨⟨entry, rfl, Nat.le_refl _⟩, fun s hs => ?_⟩
      obtain ⟨e, he, hle⟩ := ih (entry + 1) s hs
      exact ⟨e, he, Nat.le_of_succ_le hle⟩
  induction ls generalizing entry with
  | nil => exact .nil
  | cons l ls ih =>
    refine List.pairwise_cons.2 ⟨fun s hs _ heq => ?_, ih (entry + 1)⟩
    obtain ⟨e, he, hle⟩ := hentry (entry + 1) ls s hs
    rw [he] at heq
    cases heq
    exact Nat.not_succ_le_self _ hle

theorem Sited.perform (h : b.Sited) (hperform : b.perform r = some b') : b'.Sited := by
  have hspec := perform_spec hperform
  have hsites : b'.sites.toList = b.sites.toList ++ r.sites b.insts.size := by
    rw [hspec.sites, sitesFrom, sitesFrom, List.append_nil]
  have hsize : b'.insts.size = b.insts.size + r.inst?.toList.length := by
    rw [← Array.length_toList, hspec.insts, List.length_append, Array.length_toList,
      List.filterMap_cons, List.filterMap_nil]
    cases r.inst? <;> rfl
  refine ⟨hspec.blockSize ▸ h.two_le, fun s hs => ?_, fun s hs => ?_, ?_⟩
  · rw [hsites, List.mem_append] at hs
    rcases hs with hs | hs
    · exact Nat.lt_of_lt_of_le (h.inst s hs) (by omega)
    · rw [inst_of_mem_sites hs, hsize]
      cases r with
      | emitJump | emitSwitch => exact Nat.lt_succ_self _
      | _ => cases hs
  · rw [hsites, List.mem_append] at hs
    rcases hs with hs | hs
    · exact Nat.lt_of_lt_of_le (h.label s hs) hspec.aims
    · exact hspec.known r List.mem_cons_self _ (mem_labels_iff.1 ⟨s, hs, rfl⟩)
  · rw [hsites]
    refine List.pairwise_append.2 ⟨h.apart, ?_, fun s hs s' hs' hinst => ?_⟩
    · cases r with
      | emitJump i l => exact List.pairwise_singleton ..
      | emitSwitch line ls => exact apart_tableSites _ 0 ls
      | _ => exact .nil
    · -- the instruction is a new one
      have hlt := h.inst s hs
      rw [hinst, inst_of_mem_sites hs'] at hlt
      exact absurd hlt (Nat.lt_irrefl _)

/-! ### Finished code -/

/-- In finished code every label that a target is taken from has been fixed. -/
theorem target_mem_fixings {blockSize : Int} {code : Code}
    (hrun : (empty blockSize).performAll requests = some b) (hcode : b.finish = .ok code)
    (hr : r ∈ requests) (hl : l ∈ r.labels) : (l, b.target l) ∈ fixings b.blockSize 0 requests := by
  by_contra hnever
  obtain ⟨u, hu⟩ := (finish_eq_error_iff_of_performAll hrun).2 ⟨r, hr, l, hl, fun a ha => by
    obtain ⟨-, rfl⟩ := (isFixedTo_iff hrun l a).2 ha
    exact hnever ha⟩
  rw [hcode] at hu
  cases hu

section

variable (hsize : 2 ≤ size) {j k : Nat} {block : List Inst} {i : Inst}
  (hblock : (codeOf size insts).blocks[j]? = some block)

include hsize hblock

theorem full_of_succ_lt (hj : j + 1 < (codeOf size insts).blocks.length) :
    block.length = size ∧ ∃ line, block.getLast? = some (link size line (j + 1)) := by
  rcases layout_getElem?_eq hsize 0 j hblock with ⟨-, hfull, line, rfl⟩ | ⟨hlast, -⟩
  · exact ⟨hfull, line, by simp⟩
  · exact absurd hj (by rw [codeOf, hlast]; exact Nat.lt_irrefl _)

theorem last_of_link (hops : ∀ i ∈ insts, i.op ≠ .link) (hk : block[k]? = some i)
    (hi : i.op = .link) : k + 1 = size ∧ j + 1 < (codeOf size insts).blocks.length := by
  rcases layout_getElem?_eq hsize 0 j hblock with ⟨hj, hfull, line, rfl⟩ | ⟨-, -, rfl⟩
  -- Of a full block only the last instruction was not emitted.
  · refine ⟨?_, hj⟩
    rw [List.getElem?_append] at hk
    split at hk
    · have hmem := List.mem_of_mem_drop (List.mem_of_mem_take (List.mem_of_getElem? hk))
      exact absurd hi (hops i hmem)
    · rename_i hge
      have hlast := (List.getElem?_eq_some_iff.1 hk).1
      rw [List.length_append] at hfull
      rw [List.length_singleton] at hfull hlast
      omega
  · exact absurd hi (hops i (List.mem_of_mem_drop (List.mem_of_getElem? hk)))

end

end Builder

namespace Assembler

open Builder (Request fixings placeOf addressOf emitted assembled)

variable {a : Assembler} {b : Builder} {r : Request} {requests : List Request}

def perform (a : Assembler) : Request → Option Assembler
  | .emit i => some (a.emit i)
  | .emitJump i l => a.emitJump i l
  | .emitSwitch line ls => a.emitSwitch line ls
  | .newLabel => some a.newLabel.2
  | .bind l => a.bind l
  | .fix l address => a.fix l address

def performAll (a : Assembler) : List Request → Option Assembler
  | [] => some a
  | r :: rest => (a.perform r).bind fun a => a.performAll rest

theorem perform_assembled (h : b.Sited) : b.assembled.perform r = (b.perform r).map assembled := by
  cases r with
  | emit i => exact congrArg some (h.emit_assembled i)
  | emitJump i l =>
    rw [perform, h.emitJump_assembled]
    simp only [Builder.perform, Request.labels, Request.fixing?]
    split <;> simp_all
  | emitSwitch line ls =>
    rw [perform, h.emitSwitch_assembled]
    simp only [Builder.perform, Request.labels, Request.fixing?]
    split <;> simp_all
  | newLabel => exact congrArg some h.newLabel_assembled
  | bind l =>
    rw [perform, bind, Builder.here_assembled h.two_le]
    refine (h.fix_assembled l (.place b.insts.size)).trans ?_
    by_cases hl : l < b.aims.size <;>
      simp [Builder.perform, Request.labels, Request.fixing?, Builder.bind, hl]
  | fix l address =>
    refine (h.fix_assembled l (.address address)).trans ?_
    by_cases hl : l < b.aims.size <;> simp [Builder.perform, Request.labels, Request.fixing?, hl]

theorem performAll_assembled (h : b.Sited) :
    b.assembled.performAll requests = (b.performAll requests).map assembled := by
  induction requests generalizing b with
  | nil => rfl
  | cons r rest ih =>
    rw [performAll, perform_assembled h, Builder.performAll]
    cases hr : b.perform r with
    | none => rfl
    | some b' => exact ih (h.perform hr)

theorem sited_empty (blockSize : Int) : (Builder.empty blockSize).Sited :=
  have hrun : (Builder.empty blockSize).performAll [] = some (.empty blockSize) := rfl
  ⟨Builder.two_le_blockSize hrun, List.forall_mem_nil _, List.forall_mem_nil _, .nil⟩

/-- What requests make of a new assembler is what they make of a builder. -/
theorem exists_builder {blockSize : Int} (h : (empty blockSize).performAll requests = some a) :
    ∃ b, (Builder.empty blockSize).performAll requests = some b ∧ a = b.assembled := by
  have hempty : empty blockSize = (Builder.empty blockSize).assembled := by
    simp [empty, Builder.empty, assembled, Builder.resolved, Builder.layout, Builder.last]
  rw [hempty, performAll_assembled (sited_empty blockSize), Option.map_eq_some_iff] at h
  obtain ⟨b, hb, rfl⟩ := h
  exact ⟨b, hb, rfl⟩

theorem performAll_append (pre rest : List Request) :
    a.performAll (pre ++ rest) = (a.performAll pre).bind fun a => a.performAll rest := by
  induction pre generalizing a with
  | nil => rfl
  | cons r pre ih =>
    rw [List.cons_append, performAll, performAll, Option.bind_assoc]
    exact congrArg _ (funext fun a => ih)

theorem here_eq {blockSize : Int} (h : (empty blockSize).performAll requests = some a) :
    a.here = placeOf a.blockSize (emitted requests) := by
  obtain ⟨b, hb, rfl⟩ := exists_builder h
  have hsize : b.insts.size = emitted requests := by
    rw [← Array.length_toList, (Builder.performAll_spec hb).insts]
    rfl
  have hhere := Builder.here_assembled (Builder.two_le_blockSize hb)
  rw [Builder.here, hsize] at hhere
  exact Int.ofNat.inj hhere

/-- Labels resolve everywhere.  Finishing code fails if and only if some target is taken from a
label that is never fixed.  Otherwise the code consists of the emitted instructions in order, where
every target that was taken from a label is the address that this label was fixed to, and of links.
A pending target is left only if a label was fixed to it.  Every block but the last one is full and
ends with a link to the next one, and there are no other links.  From the place where a label was
bound, links lead to the instruction that was emitted next. -/
theorem labels_resolve {blockSize : Int} (hrun : (empty blockSize).performAll requests = some a)
    (hlinks : ∀ r ∈ requests, ∀ i, r.inst? = some i → i.op ≠ .link) :
    ((fixings a.blockSize 0 requests).map Prod.fst).Nodup ∧
    ((∃ u, a.finish = .error u) ↔
      ∃ r ∈ requests, ∃ l ∈ r.labels, ∀ x, (l, x) ∉ fixings a.blockSize 0 requests) ∧
    ∀ code, a.finish = .ok code → code.blockSize = a.blockSize ∧
      (∃ address : Label → Int,
        (∀ r ∈ requests, ∀ l ∈ r.labels, (l, address l) ∈ fixings a.blockSize 0 requests ∧
          (address l = pendingTarget → .fix l pendingTarget ∈ requests)) ∧
        ∀ x i, i.op ≠ .link → (code.at? x = some i ↔ ∃ n, x = addressOf a.blockSize n ∧
          (requests.filterMap (Request.resolved? address))[n]? = some i)) ∧
      (∀ j block, code.blocks[j]? = some block → j + 1 < code.blocks.length →
        block.length = a.blockSize ∧
          ∃ line, block.getLast? = some (Builder.link a.blockSize line (j + 1))) ∧
      (∀ j block r i, code.blocks[j]? = some block → block[r]? = some i → i.op = .link →
        r + 1 = a.blockSize ∧ j + 1 < code.blocks.length) ∧
      ∀ pre l post, requests = pre ++ .bind l :: post →
        ∃ a₁, (empty blockSize).performAll pre = some a₁ ∧
          (l, (a₁.here : Int)) ∈ fixings a.blockSize 0 requests ∧
          (emitted pre < emitted requests →
            code.Leads a₁.here (addressOf a.blockSize (emitted pre))) := by
  obtain ⟨b, hb, rfl⟩ := exists_builder hrun
  have hblockSize : b.assembled.blockSize = b.blockSize := rfl
  rw [Builder.finish_assembled, hblockSize]
  have hsize := Builder.two_le_blockSize hb
  refine ⟨(Builder.performAll_spec hb).blockSize ▸ (Builder.performAll_spec hb).once,
    Builder.finish_eq_error_iff_of_performAll hb, fun code hcode => ?_⟩
  have hlabels : ∀ r ∈ requests, ∀ l ∈ r.labels,
      (l, b.target l) ∈ fixings b.blockSize 0 requests :=
    fun r hr l hl => Builder.target_mem_fixings hb hcode hr hl
  have hops := Builder.op_ne_link_of_resolved b.target hlinks
  cases Builder.finish_eq_ok hcode
  rw [Builder.resolved_eq hb] at *
  refine ⟨rfl, ⟨b.target, fun r hr l hl => ⟨hlabels r hr l hl, fun hpending => ?_⟩,
    fun a i hi => Builder.codeOf_at?_eq_some_iff hsize hi⟩,
    fun j block hblock hj => Builder.full_of_succ_lt hsize hblock hj,
    fun j block r i hblock hr hi => Builder.last_of_link hsize hblock hops hr hi, ?_⟩
  · rcases Builder.mem_fixings (hlabels r hr l hl) with hfix | ⟨k, hk⟩
    · rwa [hpending] at hfix
    · rw [hpending, pendingTarget] at hk
      omega
  · rintro pre l post rfl
    rw [performAll_append] at hrun
    obtain ⟨a₁, ha₁, -⟩ := Option.bind_eq_some_iff.1 hrun
    have hsame : a₁.blockSize = b.blockSize := by
      obtain ⟨b₁, hb₁, rfl⟩ := exists_builder ha₁
      exact (Builder.performAll_spec hb₁).blockSize.trans (Builder.performAll_spec hb).blockSize.symm
    refine ⟨a₁, ha₁, ?_, fun hn => ?_⟩ <;> rw [here_eq ha₁, hsame]
    · rw [Builder.fixings_append, Nat.zero_add]
      exact List.mem_append_right _ List.mem_cons_self
    · exact Builder.leads_placeOf hsize (by rwa [Builder.length_filterMap_resolved?])

theorem labels_resolve_of_bound_at_link :
    let requests : List Request := [.newLabel, .emitJump (Inst.plain 1 .jump) 0,
      .emit (Inst.plain 1 .nil), .emit (Inst.plain 1 .pop), .bind 0, .emit (Inst.plain 2 .ret)]
    ∃ a code, (empty 4).performAll requests = some a ∧ a.finish = .ok code ∧
      code.at? 0 = some { Inst.plain 1 .jump with target := 3 } ∧ code.Leads 3 4 ∧
      code.at? 4 = some (Inst.plain 2 .ret) := by
  intro requests
  obtain ⟨a, ha⟩ : ∃ a, (empty 4).performAll requests = some a := ⟨_, rfl⟩
  obtain ⟨code, hcode⟩ : ∃ code, a.finish = .ok code := by
    cases ha
    exact ⟨_, rfl⟩
  have hsize : a.blockSize = 4 := by
    cases ha
    rfl
  have hlinks : ∀ r ∈ requests, ∀ i, r.inst? = some i → i.op ≠ .link := by
    simp [requests, Request.inst?, Inst.plain]
  obtain ⟨-, -, hfinished⟩ := labels_resolve ha hlinks
  obtain ⟨-, ⟨address, haddress, hinsts⟩, -, -, hbound⟩ := hfinished code hcode
  rw [hsize] at haddress hinsts hbound
  have hzero : address 0 = 3 := by
    have hmem := (haddress (.emitJump (Inst.plain 1 .jump) 0) (by simp [requests]) 0
      (by simp [Request.labels])).1
    exact (Prod.mk.inj (List.mem_singleton.1 hmem)).2
  refine ⟨a, code, ha, hcode, ?_, ?_, ?_⟩
  · exact (hinsts 0 _ (by simp [Inst.plain])).2 ⟨0, rfl, by rw [← hzero]; rfl⟩
  · obtain ⟨a₁, ha₁, -, hleads⟩ := hbound [.newLabel, .emitJump (Inst.plain 1 .jump) 0,
      .emit (Inst.plain 1 .nil), .emit (Inst.plain 1 .pop)] 0 _ rfl
    cases ha₁
    exact hleads (by decide)
  · exact (hinsts 4 _ (by simp [Inst.plain])).2 ⟨3, rfl, rfl⟩

/-- A label can be fixed to the address that stands for a pending target. -/
theorem finished_code_pending :
    ∃ a code, (empty 4).performAll [.newLabel, .emitJump (Inst.plain 1 .jump) 0,
        .fix 0 pendingTarget] = some a ∧ a.finish = .ok code ∧
      code.at? 0 = some { Inst.plain 1 .jump with target := pendingTarget } :=
  ⟨_, _, rfl, rfl, rfl⟩

end Assembler

end StagedScript
