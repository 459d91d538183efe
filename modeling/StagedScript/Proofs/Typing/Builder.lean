import StagedScript.Proofs.Code.Layout
import StagedScript.Proofs.Code.Sites
import StagedScript.Proofs.Typing.Verify

/-!
# Typed code under construction

Code under construction is typed over labels: every label has a point from the moment it is made,
every emitted instruction has a point, and so has the place of the next instruction, unless control
cannot reach it.  Code that cannot be reached is typed too, with the layout that the compiler counts
with there, but such points are left out in the end.
-/

variable {i : Inst} {l : Layout}

namespace StagedScript

namespace Watch

variable {α β : Type} (f : α → β)

def map : Watch α → Watch β
  | .unknown => .unknown
  | .off => .off
  | .at place => .at (f place)

end Watch

namespace Point

variable {α β : Type}

def map (f : α → β) (p : Point α) : Point β := ⟨p.layout, p.watch.map f⟩

theorem Enters.trans {p q r : Point α} (h : p.Enters q) (h' : q.Enters r) : p.Enters r := by
  refine ⟨h'.1.trans h.1, ?_⟩
  rcases h'.2 with hr | hr
  · exact .inl hr
  · rcases h.2 with hq | hq
    · exact .inl (hr.trans hq)
    · exact .inr (hr.trans hq)

@[refl] theorem Enters.refl (p : Point α) : p.Enters p := ⟨rfl, .inr rfl⟩

theorem Enters.map {p q : Point α} (h : p.Enters q) (f : α → β) : (p.map f).Enters (q.map f) := by
  refine ⟨h.1, ?_⟩
  rcases h.2 with hq | hq
  · exact .inl (by simp [Point.map, hq, Watch.map])
  · exact .inr (by simp [Point.map, hq])

end Point

theorem Inst.watchAfter_map {α β : Type} (f : α → β) {i j : Inst} (hop : j.op = i.op)
    (targets : List α) (w : Watch α) :
    j.watchAfter (targets.map f) (w.map f) = (i.watchAfter targets w).map f := by
  unfold Inst.watchAfter
  rw [hop]
  split
  · cases targets <;> rfl
  · rfl

theorem Inst.Flows.slot_lt_fall {c : Nat} {f : Flow} (h : i.Flows c l f)
    (hop : i.op.isSlotAccess = true) : ∃ l', f.fall = some l' ∧ i.count < l'.length := by
  cases h with
  | load l op slot | element l op slot | store l op slot =>
    have := Layout.lt_of_kindAt? slot
    refine ⟨_, rfl, ?_⟩
    rw [List.length_cons]
    omega
  | box l op slot => exact ⟨l, rfl, (Layout.lt_of_kindAt? slot).2⟩
  | push l op | jump l op | test l op | connective l op | through n l op | collect n l op =>
    rcases op with op | op <;> simp [op, Opcode.isSlotAccess] at hop
  | _ => simp [*, Opcode.isSlotAccess] at hop

theorem Inst.Flows.fall_of_install {c : Nat} {f : Flow}
    (h : i.Flows c l f) (hop : i.op = .install) : f.fall = some l := by
  cases h <;> simp_all

namespace Builder

theorem SitesFit.jump_isSome {k c : Nat} {sites : List Site} {s : Site}
    {f : Flow} (h : SitesFit k i sites) (hs : s ∈ sites) (hflow : i.Flows c l f)
    (hop : i.op ≠ .install) : f.jump.isSome = true := by
  cases h with
  | none op target => cases hs
  | target l op target => exact hflow.jump_isSome target hop
  | table ls op length => exact hflow.jump_of_switch op

/-- Points for code under construction. -/
structure Typing (b : Builder) (labels : List (Point Label)) (captures : Nat) (size : Int)
    (pts : List (Point Label)) (cur : Option (Point Label)) : Prop where
  blockSize : 2 ≤ b.blockSize
  count : pts.length = b.insts.size
  aims : b.aims.size = labels.length
  insts : ∀ (k : Nat) (i : Inst), b.insts[k]? = some i → ∃ p f, pts[k]? = some p ∧
    i.Flows captures p.layout f ∧
    i.Leads (labels[·]?) (b.targetsOf k) p ((pts ++ cur.toList)[k + 1]?) f ∧
    ∀ l, f.fall = some l → (l.length : Int) ≤ size ∨ i.op = .install
  sites : ∀ (k : Nat) (i : Inst), b.insts[k]? = some i → SitesFit k i (b.sitesOf k)
  places : ∀ s ∈ b.sites, s.inst < b.insts.size
  fixed : ∀ (l : Label) a, b.aims[l]? = some (some a) → ∃ k q q', a = .place k ∧
    labels[l]? = some q ∧ (pts ++ cur.toList)[k]? = some q' ∧ q.Enters q' ∧
    (q'.layout.length : Int) ≤ size

namespace Typing

variable {b : Builder} {labels : List (Point Label)} {captures : Nat} {size : Int}
  {pts : List (Point Label)}

/-! ### Finishing -/

theorem target_of_isFixed (ht : b.Typing labels captures size pts none) {l : Label}
    (hfixed : b.isFixed l = true) : ∃ k q q', b.target l = placeOf b.blockSize k ∧
      labels[l]? = some q ∧ pts[k]? = some q' ∧ q.Enters q' ∧ (q'.layout.length : Int) ≤ size := by
  unfold isFixed at hfixed
  rw [Array.getD_eq_getD_getElem?] at hfixed
  cases ha : b.aims[l]? with
  | none => simp [ha] at hfixed
  | some o =>
    cases o with
    | none => simp [ha] at hfixed
    | some a =>
      obtain ⟨k, q, q', rfl, hq, hq', henter, hlen⟩ := ht.fixed l a ha
      refine ⟨k, q, q', ?_, hq, by simpa using hq', henter, hlen⟩
      unfold target
      rw [Array.getD_eq_getD_getElem?, ha]
      rfl

/-- Finished code has no jump to a label that was never fixed. -/
theorem isFixed_of_finish {code : Code} (ht : b.Typing labels captures size pts none)
    (hfinish : b.finish = .ok code) {k : Nat} (hi : b.insts[k]? = some i) {l : Label}
    (hl : l ∈ b.targetsOf k) : b.isFixed l = true := by
  obtain ⟨s, hs, rfl⟩ := List.mem_map.1 hl
  have hmem : s ∈ b.sites.toList := (List.mem_filter.1 hs).1
  -- a label that is a target has a point, so it is one of the builder
  have hlt : s.label < b.aims.size := by
    obtain ⟨p, f, -, hflow, hleads, -⟩ := ht.insts k i hi
    rw [ht.aims]
    by_cases hins : i.op = .install
    · obtain ⟨base, ⟨q, hq, -⟩, -⟩ := hleads.installs hins s.label hl
      exact (List.getElem?_eq_some_iff.1 hq).1
    · obtain ⟨l', hl'⟩ :=
        Option.isSome_iff_exists.1 ((ht.sites k i hi).jump_isSome hs hflow hins)
      obtain ⟨q, hq, -⟩ := hleads.jumps l' hl' s.label hl
      exact (List.getElem?_eq_some_iff.1 hq).1
  unfold finish at hfinish
  split at hfinish
  · cases hfinish
  · rename_i hnone
    have hun := List.findSome?_eq_none_iff.1 hnone s.label (List.mem_range.2 hlt)
    unfold unresolved? at hun
    split at hun
    · assumption
    · split at hun
      · rename_i hempty
        have hin : s ∈ b.sites.toList.filter fun s' => s'.label = s.label :=
          List.mem_filter.2 ⟨hmem, by simp⟩
        rw [hempty] at hin
        cases hin
      · cases hun

/-- Whether a point stays when code is finished. -/
def isKept (b : Builder) (frame : Int) (p : Point Label) : Bool :=
  decide ((p.layout.length : Int) ≤ frame) &&
    match p.watch with
    | .at h => b.isFixed h
    | _ => true

def addressPoints (b : Builder) (frame : Int) (pts : List (Point Label)) (address : Int) :
    Option (Point Int) :=
  if address < 0 then none
  else ((pts[indexAt b.blockSize address.toNat]?).filter (isKept b frame)).map (·.map b.target)

variable {frame : Int} {p q : Point Label}

theorem isKept_iff :
    isKept b frame p = true ↔
      (p.layout.length : Int) ≤ frame ∧ ∀ h, p.watch = .at h → b.isFixed h = true := by
  unfold isKept
  rw [Bool.and_eq_true, decide_eq_true_eq]
  refine and_congr_right fun _ => ?_
  cases p.watch <;> simp

theorem addressPoints_eq_some {address : Int} {r : Point Int} :
    addressPoints b frame pts address = some r ↔
      0 ≤ address ∧ ∃ p, pts[indexAt b.blockSize address.toNat]? = some p ∧
        isKept b frame p = true ∧ p.map b.target = r := by
  unfold addressPoints
  split
  · simp; omega
  · simp only [Option.map_eq_some_iff, Option.filter_eq_some_iff, and_assoc]
    refine ⟨fun h => ⟨by omega, h⟩, fun h => h.2⟩

/-- Control goes from a kept point to one that is kept too. -/
theorem isKept_of_enters {w : Watch Label} (henter : Point.Enters ⟨l, w⟩ q)
    (hl : (l.length : Int) ≤ frame) (hw : ∀ h, w = .at h → b.isFixed h = true) :
    isKept b frame q = true := by
  rw [isKept_iff]
  refine ⟨henter.1 ▸ hl, fun h hq => ?_⟩
  rcases henter.2 with hu | hu
  · simp [hu] at hq
  · exact hw h (hu.symm.trans hq)

section

variable {code : Code} (ht : b.Typing labels captures size pts none)

include ht

theorem addressPoints_target (hframe : size ≤ frame) {l : Label} (hl : labels[l]? = some q)
    (hfixed : b.isFixed l = true) (hq : ∀ h, q.watch = .at h → b.isFixed h = true) :
    ∃ r, addressPoints b frame pts (b.target l) = some r ∧ (q.map b.target).Enters r := by
  obtain ⟨k, q₁, q', htarget, hq₁, hq', henter, hlen⟩ := ht.target_of_isFixed hfixed
  cases Option.some.inj (hl.symm.trans hq₁)
  refine ⟨q'.map b.target, addressPoints_eq_some.2 ⟨by omega, q', ?_, ?_, rfl⟩, henter.map _⟩
  · rw [htarget, Int.toNat_natCast, indexAt_placeOf ht.blockSize]
    exact hq'
  · exact isKept_of_enters (l := q.layout) (w := q.watch) henter (henter.1 ▸ by omega) hq

theorem handledAt_target (hframe : size ≤ frame) {l : Label} {base : Layout}
    (hl : base.HandledAt (labels[·]?) l) (hfixed : b.isFixed l = true) :
    base.HandledAt (addressPoints b frame pts) (b.target l) := by
  obtain ⟨q, hq, henter⟩ := hl
  obtain ⟨r, hr, henter'⟩ := addressPoints_target ht hframe hq hfixed fun h hw => by
    rcases henter.2 with hu | hu <;> simp [hu] at hw
  exact ⟨r, hr, (henter.map b.target).trans henter'⟩

section

variable (hfinish : b.finish = .ok code)

include hfinish

theorem targets_resolved {k : Nat}
    (hi : b.insts[k]? = some i) :
    (b.setTargets i (b.sitesOf k)).targets = (b.targetsOf k).map b.target := by
  refine (ht.sites k i hi).targets fun s hs => ?_
  have hfixed := ht.isFixed_of_finish hfinish hi (List.mem_map_of_mem hs)
  obtain ⟨n, -, -, htarget, -⟩ := ht.target_of_isFixed hfixed
  rw [htarget]
  unfold noTarget
  omega

/-- A resolved instruction agrees with the points of finished code. -/
theorem typed_resolved (hframe : size ≤ frame) {k : Nat}
    (hi : b.insts[k]? = some i) (hp : pts[k]? = some p) (hkept : isKept b frame p = true)
    {next : Option (Point Int)}
    (hnext : ∀ q, pts[k + 1]? = some q → isKept b frame q = true → next = some (q.map b.target)) :
    (b.setTargets i (b.sitesOf k)).Typed (addressPoints b frame pts) captures
      (b.setTargets i (b.sitesOf k)).targets (p.map b.target) next := by
  obtain ⟨p', f, hp', hflow, hleads, hfalls⟩ := ht.insts k i hi
  cases Option.some.inj (hp.symm.trans hp')
  have hsame := setTargets_same b i (b.sitesOf k)
  have hfixed : ∀ l ∈ b.targetsOf k, b.isFixed l = true := fun l hl =>
    ht.isFixed_of_finish hfinish hi hl
  have htargets := ht.targets_resolved hfinish hi
  obtain ⟨hlen, hwatch⟩ := isKept_iff.1 hkept
  refine ⟨f, hflow.of_same hsame, ?_, ?_, ?_, ?_⟩
  · intro l hl
    obtain ⟨q, hq, henter⟩ := hleads.falls l hl
    have hq : pts[k + 1]? = some q := by simpa using hq
    refine ⟨q.map b.target, hnext q hq (isKept_of_enters henter ?_ ?_), ?_⟩
    · rcases hfalls l hl with hle | hop
      · omega
      · cases Option.some.inj (hl.symm.trans (hflow.fall_of_install hop))
        exact hlen
    -- the handler that is active next was active before, or the instruction installs it
    · intro h hh
      unfold Inst.watchAfter at hh
      split at hh
      · cases hts : b.targetsOf k with
        | nil => simp [hts] at hh
        | cons t ts =>
          rw [hts] at hh
          cases hh
          exact hfixed h (by simp [hts])
      · exact hwatch h hh
    · rw [htargets]
      have := henter.map b.target
      rwa [Point.map, ← Inst.watchAfter_map b.target hsame.op] at this
  · intro l hl t hmem
    rw [htargets] at hmem
    obtain ⟨t, ht', rfl⟩ := List.mem_map.1 hmem
    obtain ⟨q, hq, henter⟩ := hleads.jumps l hl t ht'
    obtain ⟨r, hr, henter'⟩ := addressPoints_target ht hframe hq (hfixed t ht') fun h hw => by
      rcases henter.2 with hu | hu
      · simp [hu] at hw
      · exact hwatch h (hu.symm.trans hw)
    exact ⟨r, hr, (henter.map b.target).trans henter'⟩
  · intro l hl
    have hcatch := hleads.raises l hl
    revert hcatch hwatch
    simp only [Point.map]
    cases p.watch with
    | unknown => exact fun _ h => h
    | off => exact fun _ _ => trivial
    | «at» h =>
      rintro hwatch ⟨base, hbase, hsuf⟩
      exact ⟨base, handledAt_target ht hframe hbase (hwatch h rfl), hsuf⟩
  · intro hop t hmem
    rw [htargets] at hmem
    obtain ⟨t, ht', rfl⟩ := List.mem_map.1 hmem
    obtain ⟨base, hbase, hcount, hsuf⟩ := hleads.installs (hsame.op.symm.trans hop) t ht'
    exact ⟨base, handledAt_target ht hframe hbase (hfixed t ht'), hcount.trans hsame.count.symm,
      hsuf⟩

theorem finish_eq :
    code = codeOf b.blockSize b.resolved.toList ∧ b.resolved.toList.length = pts.length := by
  constructor
  · unfold Builder.finish at hfinish
    split at hfinish
    · cases hfinish
    · cases hfinish
      rfl
  · have hnone : ∀ k : Nat, b.resolved[k]? = none ↔ b.insts[k]? = none := by
      intro k
      rw [resolved_getElem?, Option.map_eq_none_iff]
    rw [ht.count, Array.length_toList]
    simp only [Array.getElem?_eq_none_iff] at hnone
    have h₁ := (hnone b.insts.size).2 (Nat.le_refl _)
    have h₂ := (hnone b.resolved.size).1 (Nat.le_refl _)
    omega

theorem slots_lt {e : Int × Inst} (he : e ∈ code.walk)
    (hop : e.2.op.isSlotAccess = true) : e.2.count < size := by
  have hmem : ∀ (blocks : List (List Inst)) (step first : Int),
      e ∈ Code.walkBlocks step first blocks → ∃ block ∈ blocks, e.2 ∈ block := by
    have hblock : ∀ (block : List Inst) (first : Int), e ∈ Code.addressed first block →
        e.2 ∈ block := by
      intro block
      induction block with
      | nil => exact fun _ h => nomatch h
      | cons i rest ih =>
        intro first h
        rcases List.mem_cons.1 h with rfl | h
        · exact List.mem_cons_self
        · exact List.mem_cons_of_mem _ (ih _ h)
    intro blocks
    induction blocks with
    | nil => exact fun _ _ h => nomatch h
    | cons block rest ih =>
      intro step first h
      rcases List.mem_append.1 h with h | h
      · exact ⟨block, List.mem_cons_self, hblock block first h⟩
      · obtain ⟨block', hb, hi⟩ := ih step _ h
        exact ⟨block', List.mem_cons_of_mem _ hb, hi⟩
  obtain ⟨block, hb, hi⟩ := hmem _ _ _ he
  rw [(finish_eq ht hfinish).1] at hb
  rcases mem_codeOf ht.blockSize hb hi with hi | ⟨line, target, hi⟩
  · obtain ⟨k, hk⟩ := List.mem_iff_getElem?.1 hi
    rw [Array.getElem?_toList, resolved_getElem?] at hk
    obtain ⟨i, hi, hset⟩ := Option.map_eq_some_iff.1 hk
    have hsame := setTargets_same b i (b.sitesOf k)
    rw [hset] at hsame
    obtain ⟨p, f, -, hflow, -, hfalls⟩ := ht.insts k i hi
    obtain ⟨l, hl, hlt⟩ := hflow.slot_lt_fall (hsame.op ▸ hop)
    rw [hsame.count]
    rcases hfalls l hl with hle | hinstall
    · omega
    · simp [hsame.op, hinstall, Opcode.isSlotAccess] at hop
  · simp [hi, link, Inst.plain, Opcode.isSlotAccess] at hop

/-- The instruction at an address agrees with the points of finished code. -/
theorem typed_at (hframe : size ≤ frame) {address : Nat}
    (hp : pts[indexAt b.blockSize address]? = some p) (hkept : isKept b frame p = true) :
    ∃ i, code.at? address = some i ∧
      i.Typed (addressPoints b frame pts) captures i.targets (p.map b.target)
        (addressPoints b frame pts (address + 1)) := by
  obtain ⟨hcode, hlen⟩ := finish_eq ht hfinish
  have hlt := (List.getElem?_eq_some_iff.1 hp).1
  obtain ⟨line, hat⟩ := codeOf_at? ht.blockSize (hlen ▸ hlt : _ < b.resolved.toList.length)
  rw [hcode, hat]
  split
  next hinner =>
    rw [Array.getElem?_toList, resolved_getElem?]
    have hi := Array.getElem?_eq_getElem (ht.count ▸ hlt : _ < b.insts.size)
    refine ⟨_, by rw [hi]; rfl, typed_resolved ht hfinish hframe hi hp hkept ?_⟩
    intro q hq hkept'
    refine addressPoints_eq_some.2 ⟨by omega, q, ?_, hkept', rfl⟩
    rw [show ((address : Int) + 1).toNat = address + 1 by omega, indexAt_succ hinner]
    exact hq
  next hlink =>
    -- a link leads to the next block, whose first instruction has the same point
    refine ⟨_, rfl, { jump := some p.layout }, .jump _ (.inl rfl), ?_⟩
    have htargets : (link b.blockSize line (address / b.blockSize + 1)).targets =
        [((address / b.blockSize + 1 : Nat) : Int) * b.blockSize] := rfl
    rw [htargets]
    refine ⟨nofun, ?_, nofun, nofun⟩
    intro l hl t hmem
    cases hl
    obtain rfl := List.mem_singleton.1 hmem
    rw [← Int.natCast_mul]
    refine ⟨p.map b.target, addressPoints_eq_some.2 ⟨Int.natCast_nonneg _, p, ?_, hkept, rfl⟩,
      .refl _⟩
    rw [Int.toNat_natCast, indexAt_link ht.blockSize hlink]
    exact hp

theorem finish {fn : Func} (hentry : fn.entry = 0) (hparams : fn.numParams = fn.params.length)
    (hcaptures : fn.upvalues.length = captures) (hframe : size ≤ fn.frameSize)
    (hroom : fn.frameSize < Frame.roomLimit) (hinsts : b.insts.size < Frame.roomLimit)
    (hfit : (fn.params.length : Int) ≤ fn.frameSize)
    (hstart : ∃ q, pts[0]? = some q ∧
      Point.Enters ⟨Layout.values fn.params.length, .off⟩ q) :
    fn.Typing code (addressPoints b fn.frameSize pts) := by
  refine ⟨hparams, hroom, ?_, ?_, ?_, ?_, ?_⟩
  · obtain ⟨q, hq, henter⟩ := hstart
    refine ⟨q.map b.target, addressPoints_eq_some.2 ⟨by omega, q, ?_, ?_, rfl⟩, ?_⟩
    · rw [hentry]
      simpa [indexAt] using hq
    · exact isKept_of_enters henter (by simpa using hfit) nofun
    · exact henter.map b.target
  · intro a r hr
    obtain ⟨ha, p, hp, -⟩ := addressPoints_eq_some.1 hr
    have hlt := (List.getElem?_eq_some_iff.1 hp).1
    rw [ht.count] at hlt
    have hle := le_of_indexAt ht.blockSize a.toNat
    unfold Frame.roomLimit at hinsts
    unfold Func.addressLimit
    omega
  · intro a r hr
    obtain ⟨-, p, -, hkept, rfl⟩ := addressPoints_eq_some.1 hr
    exact (isKept_iff.1 hkept).1
  · intro a r hr
    obtain ⟨ha, p, hp, hkept, rfl⟩ := addressPoints_eq_some.1 hr
    obtain ⟨n, rfl⟩ := Int.eq_ofNat_of_zero_le ha
    rw [hcaptures]
    exact typed_at ht hfinish hframe hp hkept
  · intro e he hop
    have := slots_lt ht hfinish he hop
    omega

end

end

end Typing

end Builder

end StagedScript
