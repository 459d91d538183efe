import StagedScript.Code.Verify
import StagedScript.Proofs.Typing.Flow

/-!
# Typed functions pass verification

The points of a typed function give every address a height.  Following the paths of the function
therefore never meets a defect: every edge leads to an address with the height that belongs to it.
-/

namespace StagedScript

namespace Inst

variable {i : Inst} {c : Nat} {l l' : Layout} {f : Flow}

/-- Control falls through exactly when the operation is not terminal. -/
theorem Flows.fall_isSome (h : i.Flows c l f) : f.fall.isSome = !i.op.isTerminal := by
  cases h with
  | push l op | load l op | element l op | jump l op | test l op | connective l op
  | through n l op | collect n l op =>
    rcases op with op | op <;> simp [op, Opcode.isTerminal]
  | store l op => rcases op with op | op | op | op | op <;> simp [op, Opcode.isTerminal]
  | _ => simp [*, Opcode.isTerminal]

/-- Jumps lead to targets, at the height of the layout after the jump. -/
theorem Flows.successor (h : i.Flows c l f) (hl : (l.length : Int) < Func.addressLimit)
    (hop : i.op ≠ .install) {e : Edge} (he : e ∈ i.successors l.length) :
    e.address ∈ i.targets ∧ ∃ l', f.jump = some l' ∧ e.depth = l'.length := by
  unfold Func.addressLimit at hl
  -- heights are too small for the difference to wrap around
  have hw : ∀ n m : Nat, m + n = l.length → wrapInt ((l.length : Int) - n) = m := by
    intro n m hm
    rw [wrapInt_of_small (by omega) (by omega)]
    omega
  cases h with
  | jump l op | connective l op =>
    rcases op with op | op <;> simp [successors, op] at he <;>
      simp [targets, op, Opcode.hasTarget, Opcode.shape, he]
  | test l op =>
    have := hw 1 l.length (by simp)
    rcases op with op | op <;> simp [successors, op] at he <;>
      simp_all [targets, Opcode.hasTarget, Opcode.shape]
  | goto top l op count =>
    have := hw top.length l.length (by simp; omega)
    simp_all [successors, targets, Opcode.hasTarget, Opcode.shape]
  | exit top l op count =>
    have := hw top.length (l.length + 1) (by simp; omega)
    simp_all [successors, targets, Opcode.hasTarget, Opcode.shape]
  | catchOn n l op count =>
    have := hw n (l.length + 1) (by simp; omega)
    simp_all [successors, targets, Opcode.hasTarget, Opcode.shape]
  | iterate l op | advance l op =>
    have := hw 1 l.length (by simp)
    simp_all [successors, targets, Opcode.hasTarget, Opcode.shape]
  | retry top l op count =>
    simp_all [successors, targets, Opcode.hasTarget, Opcode.shape]
  | switch l op =>
    have := hw 1 l.length (by simp)
    simp only [successors, op, List.mem_map] at he
    obtain ⟨address, hmem, rfl⟩ := he
    simp_all [targets]
  | install l op => exact absurd op hop
  | push l op | load l op | element l op | through n l op | collect n l op =>
    rcases op with op | op <;> simp [successors, op] at he
  | store l op => rcases op with op | op | op | op | op <;> simp [successors, op] at he
  | _ => simp [successors, *] at he

/-- Operations with a target jump, except for those that install a handler. -/
theorem Flows.jump_isSome (h : i.Flows c l f) (hop : i.op.hasTarget = true)
    (hne : i.op ≠ .install) : f.jump.isSome = true := by
  cases h with
  | push l op | load l op | element l op | jump l op | test l op | connective l op
  | through n l op | collect n l op =>
    rcases op with op | op <;> simp [op, Opcode.hasTarget, Opcode.shape] at hop ⊢
  | store l op =>
    rcases op with op | op | op | op | op <;> simp [op, Opcode.hasTarget, Opcode.shape] at hop
  | install l op => exact absurd op hne
  | _ => simp [*, Opcode.hasTarget, Opcode.shape] at hop ⊢

theorem Flows.jump_of_switch (h : i.Flows c l f) (hop : i.op = .switch) : f.jump.isSome = true := by
  cases h <;> simp_all

theorem Flows.slot (h : i.Flows c l f) (hop : i.op.isSlotAccess = true) :
    0 ≤ i.count ∧ i.count < (if i.op.isSlotLoad then (l.length : Int) else l.length - 1) := by
  cases h with
  | load l op slot | element l op slot =>
    have := Layout.lt_of_kindAt? slot
    rcases op with op | op <;> simpa [op, Opcode.isSlotLoad] using this
  | box l op slot =>
    have := Layout.lt_of_kindAt? slot
    simpa [op, Opcode.isSlotLoad] using this
  | store l op slot =>
    have := Layout.lt_of_kindAt? slot
    rcases op with op | op | op | op | op <;> simpa [op, Opcode.isSlotLoad] using this
  | push l op | jump l op | test l op | connective l op | through n l op | collect n l op =>
    rcases op with op | op <;> simp [op, Opcode.isSlotAccess] at hop
  | _ => simp [*, Opcode.isSlotAccess] at hop

variable {points : Int → Option (Point Int)} {p : Point Int} {next : Option (Point Int)}

def Edge.Meets (points : Int → Option (Point Int)) (e : Edge) : Prop :=
  ∃ q, points e.address = some q ∧ e.depth = q.layout.length

theorem Typed.successor (h : i.Typed points c i.targets p next)
    (hl : (p.layout.length : Int) < Func.addressLimit) {e : Edge}
    (he : e ∈ i.successors p.layout.length) : e.Meets points := by
  obtain ⟨f, hf, hlead⟩ := h
  by_cases hop : i.op = .install
  · simp only [successors, hop] at he
    split at he
    next => exact absurd he (by simp)
    next ht =>
      obtain ⟨base, ⟨q, hq, henter⟩, hcount, hsuf⟩ :=
        hlead.installs hop i.target (by simp [targets, hop, ht])
      have := hsuf.length_le
      unfold Func.addressLimit at hl
      rw [List.mem_singleton.1 he]
      refine ⟨q, hq, ?_⟩
      show wrapInt (i.count + 1) = _
      rw [wrapInt_of_small (by omega) (by omega), ← hcount, henter.1]
      simp
  · obtain ⟨ht, l', hjump, hdepth⟩ := hf.successor hl hop he
    obtain ⟨q, hq, henter⟩ := hlead.jumps l' hjump _ ht
    exact ⟨q, hq, by rw [hdepth, henter.1]⟩

/-- Addresses and heights are far from the greatest machine integer. -/
def WithinLimits (points : Int → Option (Point Int)) : Prop :=
  ∀ a q, points a = some q →
    0 ≤ a ∧ a < Func.addressLimit ∧ (q.layout.length : Int) < Func.addressLimit

theorem Typed.outgoing (hb : WithinLimits points) {a : Int} (hp : points a = some p)
    (h : i.Typed points c i.targets p (points (a + 1))) {e : Edge}
    (he : e ∈ i.outgoing a p.layout.length) : e.Meets points := by
  obtain ⟨ha, ha', hl⟩ := hb a p hp
  unfold Inst.outgoing at he
  split at he
  next => exact h.successor hl (List.mem_reverse.1 he)
  next hterm =>
    rcases List.mem_cons.1 he with rfl | he
    · obtain ⟨f, hf, hlead⟩ := h
      obtain ⟨l', hl'⟩ : ∃ l', f.fall = some l' := by
        rw [← Option.isSome_iff_exists, hf.fall_isSome]
        simpa using hterm
      obtain ⟨q, hq, henter⟩ := hlead.falls l' hl'
      have hlen := (hf.length_fall hl hl').2
      have hlayout : q.layout = l' := henter.1
      have hq' := (hb _ q hq).2.2
      rw [hlayout] at hq'
      unfold Func.addressLimit at ha' hq'
      refine ⟨q, ?_, ?_⟩
      · rwa [wrapInt_of_small (by omega) (by omega)]
      · show wrapInt _ = _
        rw [hlayout, ← hlen, wrapInt_of_small (by omega) (by omega)]
    · exact h.successor hl (List.mem_reverse.1 he)

theorem Typed.point_of_target (h : i.Typed points c i.targets p next) {t : Int}
    (ht : t ∈ i.targets) : ∃ q, points t = some q := by
  obtain ⟨f, hf, hlead⟩ := h
  by_cases hins : i.op = .install
  · obtain ⟨base, ⟨q, hq, -⟩, -⟩ := hlead.installs hins t ht
    exact ⟨q, hq⟩
  · have hjump : f.jump.isSome = true := by
      by_cases hop : i.op.hasTarget = true
      · exact hf.jump_isSome hop hins
      · have hswitch : i.op = .switch := by
          unfold targets at ht
          split at ht <;> simp_all
        exact hf.jump_of_switch hswitch
    obtain ⟨l, hl⟩ := Option.isSome_iff_exists.1 hjump
    obtain ⟨q, hq, -⟩ := hlead.jumps l hl t ht
    exact ⟨q, hq⟩

theorem Typed.target_ne_pending (hb : WithinLimits points)
    (h : i.Typed points c i.targets p next) {t : Int} (ht : t ∈ i.targets) :
    t ≠ pendingTarget := by
  obtain ⟨q, hq⟩ := h.point_of_target ht
  have := (hb _ q hq).1
  unfold pendingTarget
  omega

/-- The target of an operation that has one is among the targets, unless it is none. -/
theorem target_mem_targets (hop : i.op.hasTarget = true) (hne : i.target ≠ noTarget) :
    i.target ∈ i.targets := by
  unfold targets
  split
  · rename_i hswitch
    simp [hswitch, Opcode.hasTarget, Opcode.shape] at hop
  · simp [hne]
  · simp [hop]

theorem Typed.defect? (hb : WithinLimits points) (h : i.Typed points c i.targets p next)
    (hl : (p.layout.length : Int) < Func.addressLimit) : i.defect? p.layout.length = none := by
  have hsucc : (i.successors p.layout.length).findSome? (fun e =>
      if e.address = pendingTarget then some (Defect.unresolved i.op)
      else if e.depth < 0 then some (.underflow i.op) else none) = none := by
    rw [List.findSome?_eq_none_iff]
    intro e he
    obtain ⟨q, hq, hdepth⟩ := h.successor hl he
    have := (hb _ q hq).1
    rw [if_neg (by unfold pendingTarget; omega), if_neg (by omega)]
  have htarget : i.op.hasTarget = true → i.target ≠ pendingTarget := by
    intro hop heq
    have hne : i.target ≠ noTarget := by simp [heq, noTarget, pendingTarget]
    exact h.target_ne_pending hb (target_mem_targets hop hne) heq
  obtain ⟨f, hf, hlead⟩ := h
  have heffect : i.op.isTerminal = false → i.effect.1 ≤ p.layout.length := by
    intro hterm
    obtain ⟨l', hl'⟩ : ∃ l', f.fall = some l' := by
      rw [← Option.isSome_iff_exists, hf.fall_isSome, hterm]
      rfl
    exact (hf.length_fall hl hl').1
  have hlimit : wrapInt ((p.layout.length : Int) - 1) = p.layout.length - 1 := by
    unfold Func.addressLimit at hl
    exact wrapInt_of_small (by omega) (by omega)
  unfold Inst.defect?
  rw [hsucc, if_neg, if_neg, if_neg]
  · intro hpop
    simp only [Bool.and_eq_true, Bool.not_eq_true', decide_eq_true_eq] at hpop
    have := heffect hpop.1
    omega
  · intro hslot
    simp only [Bool.and_eq_true, Bool.or_eq_true, decide_eq_true_eq, hlimit] at hslot
    have := hf.slot hslot.1
    omega
  · intro ht
    simp only [Bool.and_eq_true, decide_eq_true_eq] at ht
    exact htarget ht.1 ht.2

end Inst

namespace Code

open Inst

/-- Exploring code along edges that lead to points finds no defect, and no height above that of
the points. -/
theorem explore_ok {c : Code} {points : Int → Option (Point Int)} {captures : Nat} {size : Int}
    (hb : WithinLimits points)
    (hsize : ∀ a q, points a = some q → (q.layout.length : Int) ≤ size)
    (hcode : ∀ a p, points a = some p →
      ∃ i, c.at? a = some i ∧ i.Typed points captures i.targets p (points (a + 1)))
    (fuel : Nat) (edges : List Edge) (found : Explored)
    (hedges : ∀ e ∈ edges, e.Meets points)
    (hfound : ∀ a d, found.heights.lookup a = some d → Edge.Meets points ⟨a, d⟩)
    (hgreatest : found.greatest ≤ size) :
    ∃ found', c.explore fuel edges found = .ok found' ∧ found'.greatest ≤ size := by
  induction fuel generalizing edges found with
  | zero => exact ⟨found, rfl, hgreatest⟩
  | succ fuel ih =>
    cases edges with
    | nil => exact ⟨found, rfl, hgreatest⟩
    | cons e rest =>
      obtain ⟨q, hq, hdepth⟩ := hedges e (by simp)
      have hrest : ∀ e ∈ rest, e.Meets points := fun e he => hedges e (by simp [he])
      unfold explore
      split
      next d hd =>
        obtain ⟨q', hq', hd'⟩ := hfound _ _ hd
        have heq : d = e.depth := by
          rw [hdepth, show d = _ from hd', Option.some.inj (hq'.symm.trans hq)]
        rw [if_pos heq]
        exact ih rest found hrest hfound hgreatest
      next hnone =>
        obtain ⟨i, hi, htyped⟩ := hcode _ q hq
        have hout : ∀ e' ∈ i.outgoing e.address e.depth, e'.Meets points := by
          rw [hdepth]
          exact fun e' he' => htyped.outgoing hb hq he'
        have hdefect : i.defect? e.depth = none := by
          rw [hdepth]
          exact htyped.defect? hb (hb _ q hq).2.2
        simp only [hi, hdefect]
        apply ih
        · intro e' he'
          rcases List.mem_append.1 he' with he' | he'
          · exact hout e' he'
          · exact hrest e' he'
        · intro a d hd
          rw [List.lookup_cons] at hd
          split at hd
          next heq =>
            rw [beq_iff_eq] at heq
            cases Option.some.inj hd
            exact heq ▸ ⟨q, hq, hdepth⟩
          next => exact hfound a d hd
        · refine List.foldlRecOn (motive := (· ≤ size)) _ _ hgreatest fun m hm e' he' => ?_
          obtain ⟨q', hq', hd'⟩ := hout e' he'
          have := hsize _ q' hq'
          omega

end Code

namespace Func

theorem IsTyped.verifyAlone {fn : Func} (h : fn.IsTyped) : fn.verifyAlone = .ok () := by
  obtain ⟨code, points, hcode, ht⟩ := h
  have hb : Inst.WithinLimits points := by
    intro a q hq
    have h₁ := ht.addresses a q hq
    have h₂ := ht.heights a q hq
    have h₃ := ht.room
    refine ⟨h₁.1, h₁.2, ?_⟩
    unfold Frame.roomLimit at h₃
    unfold addressLimit
    omega
  obtain ⟨q, hq, henter⟩ := ht.entry
  have hlen : (q.layout.length : Int) = fn.params.length := by rw [henter.1]; simp
  obtain ⟨found, hfound, hgreatest⟩ := Code.explore_ok hb ht.heights ht.typed code.edgeBound
    [⟨fn.entry, fn.params.length⟩] ⟨[], fn.params.length⟩
    (by simpa using ⟨q, hq, hlen.symm⟩) (by simp) (by rw [← hlen]; exact ht.heights _ q hq)
  have hmax : fn.maxDepth = .ok found.greatest := by
    simp only [maxDepth, hcode, hfound]
  unfold Func.verifyAlone
  rw [hmax]
  simp only [bind, Except.bind]
  rw [if_neg (by omega), hcode, List.find?_eq_none.2]
  · rfl
  intro e he hslot
  simp only [Bool.and_eq_true, decide_eq_true_eq] at hslot
  have := ht.slots e he hslot.1
  omega

theorem verifyEach_eq_ok {fns : List Func} :
    verifyEach fns = .ok () ↔ ∀ fn ∈ fns, fn.verifyAlone = .ok () := by
  induction fns with
  | nil => simp [verifyEach]
  | cons fn rest ih =>
    rw [List.forall_mem_cons, ← ih, verifyEach]
    cases hfn : fn.verifyAlone with
    | error e => simp [bind, Except.bind]
    | ok u => simp [bind, Except.bind]

end Func

end StagedScript
