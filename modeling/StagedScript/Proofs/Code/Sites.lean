import StagedScript.Proofs.Typing.Flow
import StagedScript.Code.Builder

/-!
# Targets taken from labels

Each instruction of code under construction has the sites that its operation asks for: one for a
jump or a handler, one for each entry of a table, and none otherwise.  Resolving them gives the
instruction the addresses of the labels as targets and changes nothing else.
-/

namespace StagedScript

namespace Builder

def sitesOf (b : Builder) (k : Nat) : List Site := b.sites.toList.filter fun s => s.inst = k

def targetsOf (b : Builder) (k : Nat) : List Label := (b.sitesOf k).map (·.label)

theorem bind_same {b b' : Builder} {l : Label} (h : b.bind l = some b') :
    b'.insts = b.insts ∧ b'.sites = b.sites := by
  unfold bind aim at h
  split at h
  · cases h
  · cases h
    exact ⟨rfl, rfl⟩

/-- A label is fixed once, so fixing another one changes nothing for it. -/
theorem bind_keeps {b b' : Builder} {l : Label} (h : b.bind l = some b') (l' : Label) (a : Aim)
    (ha : b.aims[l']? = some (some a)) : b'.aims[l']? = some (some a) := by
  unfold bind aim at h
  split at h
  · cases h
  · rename_i hfree
    cases h
    have hne : l ≠ l' := by
      rintro rfl
      simp [isFixed, Array.getD_eq_getD_getElem?, ha] at hfree
    rwa [Array.getElem?_setIfInBounds_ne hne]

theorem bind_place {b b' : Builder} {l : Label} (h : b.bind l = some b') (hl : l < b.aims.size) :
    b'.aims[l]? = some (some (.place b.insts.size)) := by
  unfold bind aim at h
  split at h
  · cases h
  · cases h
    exact Array.getElem?_setIfInBounds_self_of_lt hl

/-- The labels that have been fixed, with the numbers of the instructions at their places. -/
def places (b : Builder) : List (Label × Nat) :=
  (List.range b.aims.size).filterMap fun l =>
    match b.aims.getD l none with
    | some (.place k) => some (l, k)
    | _ => none

theorem mem_places {b : Builder} {l : Label} {k : Nat} :
    (l, k) ∈ b.places ↔ b.aims[l]? = some (some (.place k)) := by
  unfold places
  rw [List.mem_filterMap]
  constructor
  · rintro ⟨l', -, hl'⟩
    split at hl'
    next hplace =>
      cases hl'
      rw [Array.getD_eq_getD_getElem?] at hplace
      cases ha : b.aims[l]? with
      | none => simp [ha] at hplace
      | some a => simpa [ha] using hplace
    next => cases hl'
  · intro hl
    refine ⟨l, List.mem_range.2 (Array.getElem?_eq_some_iff.1 hl).1, ?_⟩
    rw [Array.getD_eq_getD_getElem?, hl]
    rfl

def withInst (b : Builder) (i : Inst) (sites : List Site) : Builder :=
  ⟨b.blockSize, b.insts.push i, b.aims, b.sites ++ sites.toArray⟩

section

variable {b : Builder} {i : Inst} {sites : List Site} {n k : Nat}
  (hplaces : ∀ s ∈ sites, s.inst = n)

include hplaces

theorem sitesOf_withInst_of_ne (hk : k ≠ n) : (b.withInst i sites).sitesOf k = b.sitesOf k := by
  unfold sitesOf withInst
  simp only [Array.toList_append, List.filter_append, List.append_right_eq_self]
  exact List.filter_eq_nil_iff.2 fun s hs => by simp [hplaces s hs, hk.symm]

theorem sitesOf_withInst_self (hold : ∀ s ∈ b.sites, s.inst < n) :
    (b.withInst i sites).sitesOf n = sites := by
  unfold sitesOf withInst
  simp only [Array.toList_append, List.filter_append]
  rw [List.filter_eq_nil_iff.2 fun s hs => ?_, List.nil_append, List.filter_eq_self.2]
  · exact fun s hs => by simp [hplaces s hs]
  · have := hold s (by simpa using hs)
    simp; omega

end

/-- Sites of an instruction that its operation asks for. -/
inductive SitesFit (k : Nat) (i : Inst) : List Site → Prop where
  | none (op : i.op ≠ .switch)
      (target : i.op.hasTarget = true → i.op = .install ∧ i.target = noTarget) : SitesFit k i []
  | target (l : Label) (op : i.op ≠ .switch) (target : i.op.hasTarget = true) :
      SitesFit k i [⟨k, .none, l⟩]
  | table (ls : List Label) (op : i.op = .switch) (length : i.table.length = ls.length) :
      SitesFit k i (tableSites k 0 ls)

/-- An instruction with the targets of some sites set. -/
def setTargets (b : Builder) (i : Inst) (sites : List Site) : Inst :=
  sites.foldl (fun i s => setTarget i s.entry (b.target s.label)) i

section

variable (b : Builder)

/-- What an instruction does, apart from where it jumps to. -/
structure SameButTargets (i j : Inst) : Prop where
  op : j.op = i.op
  count : j.count = i.count
  value : j.value = i.value
  decls : j.decls = i.decls
  func : j.func = i.func
  table : j.table.length = i.table.length

theorem SameButTargets.refl (i : Inst) : SameButTargets i i := ⟨rfl, rfl, rfl, rfl, rfl, rfl⟩

theorem SameButTargets.trans {i j k : Inst} (h : SameButTargets i j) (h' : SameButTargets j k) :
    SameButTargets i k :=
  ⟨h'.op.trans h.op, h'.count.trans h.count, h'.value.trans h.value, h'.decls.trans h.decls,
    h'.func.trans h.func, h'.table.trans h.table⟩

theorem setTarget_same (i : Inst) (entry : Option Nat) (address : Int) :
    SameButTargets i (setTarget i entry address) := by
  cases entry with
  | none => exact ⟨rfl, rfl, rfl, rfl, rfl, rfl⟩
  | some k => exact ⟨rfl, rfl, rfl, rfl, rfl, List.length_set⟩

theorem setTargets_same (i : Inst) (sites : List Site) :
    SameButTargets i (b.setTargets i sites) := by
  induction sites generalizing i with
  | nil => exact .refl i
  | cons s sites ih => exact (setTarget_same i s.entry _).trans (ih _)

theorem resolved_getElem? (k : Nat) :
    b.resolved[k]? = (b.insts[k]?).map fun i => b.setTargets i (b.sitesOf k) := by
  unfold resolved sitesOf
  rw [← Array.foldl_toList]
  generalize b.sites.toList = sites
  generalize b.insts = insts
  induction sites generalizing insts with
  | nil => simp [setTargets]
  | cons s sites ih =>
    rw [List.foldl_cons, ih, Array.getElem?_modify, List.filter_cons]
    by_cases hk : s.inst = k
    · rw [if_pos hk, if_pos (by simpa using hk), Option.map_map]
      rfl
    · rw [if_neg hk, if_neg (by simpa using hk)]

theorem map_label_tableSites (k entry : Nat) (ls : List Label) :
    (tableSites k entry ls).map (·.label) = ls := by
  induction ls generalizing entry with
  | nil => rfl
  | cons l ls ih => exact congrArg (l :: ·) (ih (entry + 1))

theorem inst_of_mem_tableSites (k entry : Nat) (ls : List Label) :
    ∀ s ∈ tableSites k entry ls, s.inst = k := by
  induction ls generalizing entry with
  | nil => nofun
  | cons l ls ih => exact List.forall_mem_cons.2 ⟨rfl, ih (entry + 1)⟩

theorem table_setTargets {i : Inst} {k entry : Nat} {ls : List Label}
    (h : i.table.length = entry + ls.length) :
    (b.setTargets i (tableSites k entry ls)).table = i.table.take entry ++ ls.map b.target := by
  induction ls generalizing i entry with
  | nil =>
    simp only [List.length_nil, Nat.add_zero] at h
    simp [setTargets, tableSites, ← h]
  | cons l ls ih =>
    rw [List.length_cons] at h
    have hset : b.setTargets i (tableSites k entry (l :: ls)) =
        b.setTargets (setTarget i (some entry) (b.target l)) (tableSites k (entry + 1) ls) := rfl
    rw [hset, ih (by simp [setTarget]; omega)]
    simp only [setTarget, List.map_cons]
    rw [List.take_add_one, List.take_set_of_le (Nat.le_refl _),
      List.getElem?_set_self (by omega), List.append_assoc]
    rfl

variable {b} {i : Inst} {k : Nat} {sites : List Site}

theorem SitesFit.targets (h : SitesFit k i sites)
    (hfixed : ∀ s ∈ sites, b.target s.label ≠ noTarget) :
    (b.setTargets i sites).targets = (sites.map (·.label)).map b.target := by
  cases h with
  | none op target =>
    simp only [setTargets, List.foldl_nil, List.map_nil]
    unfold Inst.targets
    split
    next hop => exact absurd hop op
    next hop => simp [(target (by rw [hop]; rfl)).2]
    next hop => simpa using fun hb => hop (target hb).1
  | target l op target =>
    have hl := hfixed ⟨k, .none, l⟩ (by simp)
    simp only [setTargets, setTarget, List.foldl_cons, List.foldl_nil, List.map_cons, List.map_nil]
    unfold Inst.targets
    split
    next hop => exact absurd hop op
    next => simp [hl]
    next => simp [target]
  | table ls op length =>
    unfold Inst.targets
    rw [(setTargets_same b i _).op, op]
    dsimp only
    rw [table_setTargets b (by omega), map_label_tableSites]
    simp

end

end Builder

theorem Inst.Flows.of_same {c : Nat} {i j : Inst} {l : Layout} {f : Flow} (h : i.Flows c l f)
    (hs : Builder.SameButTargets i j) : j.Flows c l f := by
  obtain ⟨hop, hcount, hvalue, hdecls, hfunc, htable⟩ := hs
  cases h with
  | enter l op => rw [← hdecls]; exact .enter l (hop.trans op)
  | symbols l op => rw [← hdecls]; exact .symbols l (hop.trans op)
  | switch l op table =>
    refine .switch l (hop.trans op) fun hnil => table ?_
    rw [hnil] at htable
    exact List.length_eq_zero_iff.1 htable.symm
  | _ => grind [Inst.Flows]

end StagedScript
