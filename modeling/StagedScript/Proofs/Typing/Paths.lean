import StagedScript.Proofs.Typing.Verify

/-!
# Paths through typed functions

All paths of a typed function are coherent: they stay inside the code, meet at every address with
one height, and find at every instruction the slots and the values that it uses.
-/

namespace StagedScript

/-- An instruction finds what it uses at a height: its slot, the values that it pops, and the
targets of its jumps. -/
structure Inst.Admits (i : Inst) (depth : Int) : Prop where
  slot : i.op.isSlotAccess = true →
    0 ≤ i.count ∧ i.count < if i.op.isSlotLoad then depth else depth - 1
  pops : i.op.isTerminal = false → i.effect.1 ≤ depth
  targets : ∀ t ∈ i.targets, t ≠ pendingTarget

/-- A typed instruction finds what it uses at the height of its point. -/
theorem Inst.Typed.admits {points : Int → Option (Point Int)} {i : Inst} {c : Nat}
    {p : Point Int} {next : Option (Point Int)} (hb : WithinLimits points)
    (h : i.Typed points c i.targets p next) (hl : (p.layout.length : Int) < Func.addressLimit) :
    i.Admits p.layout.length where
  slot hop := by
    obtain ⟨f, hf, -⟩ := h
    exact hf.slot hop
  pops hterm := by
    obtain ⟨f, hf, -⟩ := h
    obtain ⟨l, hl'⟩ : ∃ l, f.fall = some l := by
      rw [← Option.isSome_iff_exists, hf.fall_isSome, hterm]
      rfl
    exact (hf.length_fall hl hl').1
  targets t ht := h.target_ne_pending hb ht

namespace Func

open Inst

/-- Some path of a function with the given code leads to an address and a height. -/
inductive Visits (fn : Func) (code : Code) : Edge → Prop where
  | entry : Visits fn code ⟨fn.entry, fn.params.length⟩
  | follow {e e' : Edge} {i : Inst} (visit : Visits fn code e) (found : code.at? e.address = some i)
      (edge : e' ∈ i.outgoing e.address e.depth) : Visits fn code e'

/-- All paths of a function stay inside its code and its frame, and agree on the height at every
address. -/
structure Coherent (fn : Func) (code : Code) : Prop where
  agree : ∀ e e', fn.Visits code e → fn.Visits code e' → e.address = e'.address → e.depth = e'.depth
  height : ∀ e, fn.Visits code e → 0 ≤ e.depth ∧ e.depth ≤ fn.frameSize
  inside : ∀ e, fn.Visits code e → ∃ i, code.at? e.address = some i ∧ i.Admits e.depth

variable {fn : Func} {code : Code} {points : Int → Option (Point Int)}

theorem Typing.withinLimits (ht : fn.Typing code points) : WithinLimits points := by
  intro a q hq
  have haddress := ht.addresses a q hq
  have hheight := ht.heights a q hq
  have hroom := ht.room
  refine ⟨haddress.1, haddress.2, ?_⟩
  unfold Frame.roomLimit at hroom
  unfold addressLimit
  omega

theorem Visits.meets (ht : fn.Typing code points) {e : Edge} (hvisit : fn.Visits code e) :
    e.Meets points := by
  induction hvisit with
  | entry =>
    obtain ⟨q, hq, henter⟩ := ht.entry
    exact ⟨q, hq, by rw [henter.1]; simp⟩
  | follow _ hfound hedge ih =>
    obtain ⟨p, hp, hdepth⟩ := ih
    obtain ⟨i, hi, htyped⟩ := ht.typed _ p hp
    cases Option.some.inj (hfound.symm.trans hi)
    exact htyped.outgoing ht.withinLimits hp (hdepth ▸ hedge)

theorem Typing.coherent (ht : fn.Typing code points) : fn.Coherent code where
  agree e e' hvisit hvisit' heq := by
    obtain ⟨q, hq, hdepth⟩ := hvisit.meets ht
    obtain ⟨q', hq', hdepth'⟩ := hvisit'.meets ht
    rw [heq] at hq
    cases Option.some.inj (hq.symm.trans hq')
    exact hdepth.trans hdepth'.symm
  height e hvisit := by
    obtain ⟨q, hq, hdepth⟩ := hvisit.meets ht
    have := ht.heights _ q hq
    omega
  inside e hvisit := by
    obtain ⟨q, hq, hdepth⟩ := hvisit.meets ht
    obtain ⟨i, hi, htyped⟩ := ht.typed _ q hq
    refine ⟨i, hi, ?_⟩
    rw [hdepth]
    exact htyped.admits ht.withinLimits (ht.withinLimits _ q hq).2.2

theorem IsTyped.coherent (h : fn.IsTyped) : ∃ code, fn.code = some code ∧ fn.Coherent code := by
  obtain ⟨code, points, hcode, ht⟩ := h
  exact ⟨code, hcode, ht.coherent⟩

end Func

end StagedScript
