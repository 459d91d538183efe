import StagedScript.Machine.Run
import StagedScript.Proofs.Sound.Copy
import StagedScript.Proofs.Sound.Heap

/-!
# Instructions keep values sound

An instruction of a sound function leaves sound values on the stack and in the heap.  The only
instruction that adds captured values is the one that makes a closure, and it adds as many of them
as the function uses.
-/

namespace StagedScript

variable {z : CapturedCounts}

def Step.Sound (z : CapturedCounts) : Step → Prop
  | .next f h => f.stack.AllSound z ∧ h.AllSound z
  | .return v h => v.Sound z ∧ h.AllSound z
  | .raise _ f h => f.stack.AllSound z ∧ h.AllSound z
  | .call fn args f h => (fn.Sound z ∧ ∀ v ∈ args, v.Sound z) ∧ f.stack.AllSound z ∧ h.AllSound z

namespace Frame

variable {i : Inst} {f : Frame} {h : Heap}

theorem captured?_sound (hh : h.AllSound z) {index : Int} {v : Value}
    (hv : f.captured? h index = some v) : v.Sound z := by
  unfold Frame.captured? at hv
  split at hv
  · cases hv
  · obtain ⟨env, -, hv⟩ := Option.bind_eq_some_iff.1 hv
    exact hh.captured? hv

theorem capture?_sound (hf : f.stack.AllSound z) (hh : h.AllSound z) {u : Int} {v : Value}
    (hv : f.capture? h u = some v) : v.Sound z := by
  unfold Frame.capture? at hv
  split at hv
  · exact hf.get? hv
  · exact captured?_sound hh hv

theorem collect_sound (hh : h.AllSound z) : ∀ (vs : List Value) (m m' : OrderedMap),
    (∀ v ∈ vs, v.Sound z) → m.AllSound z → collect h vs m = .ok m' → m'.AllSound z
  | [], _, _, _, hm, heq => by
    cases heq
    exact hm
  | [_], _, _, _, hm, heq => by
    cases heq
    exact hm
  | k :: v :: rest, m, m', hvs, hm, heq => by
    obtain ⟨hk, hvs⟩ := List.forall_mem_cons.1 hvs
    obtain ⟨hv, hvs⟩ := List.forall_mem_cons.1 hvs
    rw [collect] at heq
    cases hinsert : m.insert h.shown (h.deref k) v with
    | error =>
      rw [hinsert] at heq
      cases heq
    | ok m₁ =>
      rw [hinsert] at heq
      exact collect_sound hh rest _ _ hvs (hm.insert_sound (hh.deref hk) hv hinsert) heq

theorem elements_sound {vs : List Value} (hvs : ∀ v ∈ vs, v.Sound z) (n : Nat) :
    ∀ v ∈ elements vs n, v.Sound z := by
  intro v hv
  rcases List.mem_append.1 hv with hv | hv
  · exact hvs v (List.mem_of_mem_take hv)
  · obtain ⟨-, rfl⟩ := List.mem_replicate.1 hv
    trivial

theorem unpack_sound (hf : f.stack.AllSound z) (hh : h.AllSound z) {v : Value} (hv : v.Sound z)
    (count : Int) : Gives (Step.Sound z) (f.unpack h v count) := by
  have pushed : ∀ elems : List Value, (∀ v ∈ elems, v.Sound z) →
      Gives (Step.Sound z) (if count < 0 then none
        else some (.next (f.withStack (f.stack.append (elements elems count.toNat))) h)) := by
    intro elems helems
    split
    · exact Gives.none
    · exact Gives.some.2 ⟨hf.append (elements_sound helems _), hh⟩
  have hv := hh.deref hv
  unfold unpack
  dsimp only
  split
  case h_1 heq | h_2 heq =>
    rw [heq] at hv
    exact pushed _ (Value.allSound_iff.1 hv)
  case h_3 => exact pushed [] (by simp)
  case h_4 => exact Gives.some.2 ⟨hf, hh⟩

theorem stepSlot_sound (hf : f.stack.AllSound z) (hh : h.AllSound z) :
    Gives (Step.Sound z) (stepSlot i f h) := by
  unfold stepSlot
  split
  case h_1 =>
    exact .bindEq fun v hv => Gives.some.2 ⟨hf.push (hh.deref (hf.get? hv)), hh⟩
  case h_2 =>
    refine .bindEq fun v hv => ?_
    split
    · exact .bindEq fun s hs => Gives.some.2
        ⟨(hf.set? (v := .cell _) trivial hs).push trivial, hh.newCell trivial⟩
    · exact Gives.some.2 ⟨hf.push (hh.deref (hf.get? hv)), hh⟩
  case h_3 =>
    exact .bindEq fun v hv => Gives.some.2 ⟨hf.push (hh.deref (captured?_sound hh hv)), hh⟩
  case h_4 =>
    refine .bindEq fun old hold => .bindEq fun v hv => ?_
    have hstore := hh.store (hf.get? hold) (hf.top? hv)
    exact .bindEq fun s hs => Gives.some.2 ⟨hf.set? hstore.1 hs, hstore.2⟩
  case h_5 | h_6 | h_7 =>
    exact .bindEq fun v hv => .bindEq fun s hs => Gives.some.2 ⟨hf.set? (hf.top? hv) hs, hh⟩
  case h_8 =>
    refine .bindEq fun v hv => ?_
    split
    · exact Gives.some.2 ⟨hf, hh⟩
    · exact .bindEq fun s hs => Gives.some.2
        ⟨hf.set? (v := .cell _) trivial hs, hh.newCell (hf.get? hv)⟩
  case h_9 =>
    refine .bindEq fun old hold => .bindEq fun v hv => .bindEq fun s hs => Gives.some.2 ?_
    refine ⟨hf.set? (hf.top? hv) hs, ?_⟩
    split
    · exact hh.setCell (hf.top? hv) _
    · exact hh
  case h_10 =>
    refine .bindEq fun old hold => .bindEq fun v hv => .bindEq fun env _ => Gives.some.2 ?_
    have hstore := hh.store (captured?_sound hh hold) (hf.top? hv)
    exact ⟨hf, hstore.2.setCaptured hstore.1 _ _⟩
  case h_11 => exact Gives.none

theorem stepControl_sound (hf : f.stack.AllSound z) (hh : h.AllSound z) (hi : i.Sound z) :
    Gives (Step.Sound z) (stepControl i f h) := by
  unfold stepControl
  split
  case h_1 | h_2 => exact Gives.some.2 ⟨hf, hh⟩
  case h_3 => exact .bindEq fun s hs => Gives.some.2 ⟨hf.drop? hs, hh⟩
  case h_4 | h_13 => exact .bindEq fun s hs => Gives.some.2 ⟨hf.cut? hs, hh⟩
  case h_5 | h_6 =>
    refine .bindEq fun p hp => ?_
    split
    · exact Gives.some.2 ⟨(hf.pop? hp).2, hh⟩
    · exact Gives.some.2 ⟨(hf.pop? hp).2, hh⟩
  case h_7 =>
    refine .bindEq fun p hp => ?_
    split
    · exact Gives.some.2 ⟨hf, hh⟩
    · exact Gives.some.2 ⟨(hf.pop? hp).2, hh⟩
  case h_8 =>
    refine .bindEq fun p hp => ?_
    split
    · exact Gives.some.2 ⟨(hf.pop? hp).2, hh⟩
    · exact Gives.some.2 ⟨hf, hh⟩
  case h_9 =>
    exact .bindEq fun p hp => .bindEq fun _ _ => Gives.some.2 ⟨(hf.pop? hp).2, hh⟩
  case h_10 => exact Gives.some.2 ⟨hf, hh⟩
  case h_11 =>
    refine .bindEq fun p hp => .bindEq fun _ _ => Gives.some.2 ?_
    split
    · exact ⟨(hf.popN? hp).2, hh⟩
    · exact ⟨(hf.popN? hp).2, hh⟩
  case h_12 => exact .bindEq fun p hp => Gives.some.2 ⟨(hf.pop? hp).2, hh⟩
  case h_14 => exact .bindEq fun p hp => Gives.some.2 ⟨(hf.pop? hp).1, hh⟩
  case h_15 =>
    refine .bindEq fun p hp => .bindEq fun q hq => Gives.some.2 ?_
    obtain ⟨hargs, hs⟩ := hf.popN? hp
    exact ⟨⟨(hs.pop? hq).1, hargs⟩, (hs.pop? hq).2, hh⟩
  case h_16 =>
    exact .bindEq fun p hp => Gives.some.2 ⟨⟨hi.1, (hf.popN? hp).1⟩, (hf.popN? hp).2, hh⟩
  case h_17 => exact Gives.none

theorem length_eq_and_mem_of_mapM {α β : Type} {g : α → Option β} : ∀ {as : List α} {bs : List β},
    as.mapM g = some bs → bs.length = as.length ∧ ∀ b ∈ bs, ∃ a, g a = some b
  | [], bs, h => by
    cases h
    exact ⟨rfl, nofun⟩
  | a :: as, bs, h => by
    rw [List.mapM_cons] at h
    obtain ⟨b, hb, h⟩ := Option.bind_eq_some_iff.1 h
    obtain ⟨bs, hbs, h⟩ := Option.bind_eq_some_iff.1 h
    cases h
    obtain ⟨hlength, hmem⟩ := length_eq_and_mem_of_mapM hbs
    refine ⟨congrArg Nat.succ hlength, List.forall_mem_cons.2 ⟨⟨a, hb⟩, hmem⟩⟩

theorem closure_sound (hf : f.stack.AllSound z) (hh : h.AllSound z) {fn : Func} (hfn : fn.Sound z)
    {values : List Value} (hvalues : fn.upvalues.mapM (f.capture? h) = some values)
    (hz : CapturedCounts.Extends (h.newEnvironment values.toArray).2.capturedCount? z) :
    Step.Sound z (.next (f.push (.closure fn (h.newEnvironment values.toArray).1))
      (h.newEnvironment values.toArray).2) := by
  obtain ⟨hlength, hmem⟩ := length_eq_and_mem_of_mapM hvalues
  refine ⟨hf.push ⟨hfn, ?_⟩, hh.newEnvironment fun j v hv => ?_⟩
  · apply hz
    simp [Heap.newEnvironment, Heap.capturedCount?, hlength]
  · rw [List.getElem?_toArray] at hv
    obtain ⟨u, hu⟩ := hmem v (List.mem_of_getElem? hv)
    exact capture?_sound hf hh hu

theorem stepData_sound (hf : f.stack.AllSound z) (hh : h.AllSound z) (hi : i.Sound z) :
    Gives (fun st => CapturedCounts.Extends st.heap.capturedCount? z → st.Sound z)
      (stepData i f h) := by
  have always : ∀ {o : Option Step}, Gives (Step.Sound z) o →
      Gives (fun st => CapturedCounts.Extends st.heap.capturedCount? z → st.Sound z) o :=
    fun ho st hst _ => ho st hst
  unfold stepData
  split
  -- making a closure is the only instruction that adds captured values
  case h_11 =>
    refine .bindEq fun fn hfn => .bindEq fun values hvalues => Gives.some.2 fun hz => ?_
    exact closure_sound hf hh (hi.2 fn hfn) hvalues hz
  all_goals apply always
  case h_1 => exact Gives.some.2 ⟨hf.push trivial, hh⟩
  case h_2 => exact Gives.some.2 ⟨hf.push hi.1, hh⟩
  case h_3 => exact .bindEq fun p hp => Gives.some.2 ⟨(hf.pop? hp).2, hh⟩
  case h_4 => exact .bindEq fun v hv => Gives.some.2 ⟨hf.push (hf.top? hv), hh⟩
  case h_5 =>
    exact .bindEq fun p hp => unpack_sound (hf.pop? hp).2 hh (hf.pop? hp).1 _
  case h_6 =>
    refine .bindEq fun (v, s) hp => ?_
    obtain ⟨hv, hs⟩ := hf.pop? hp
    dsimp only
    split
    · refine Gives.some.2 ⟨hs.pushAll fun m hm => ?_, hh⟩
      obtain ⟨d, -, rfl⟩ := List.mem_map.1 hm
      cases hmem : (v.member? d.name).bind id with
      | none => trivial
      | some m => exact Value.member?_sound hv hmem
    · exact Gives.some.2 ⟨hs, hh⟩
  case h_7 =>
    refine Gives.some.2 ⟨hf.pushAll fun v hv => ?_, hh⟩
    obtain ⟨d, -, rfl⟩ := List.mem_map.1 hv
    trivial
  case h_8 => exact .bindEq fun s hs => Gives.some.2 ⟨hf.drop? hs, hh⟩
  case h_9 =>
    refine .bindEq fun p hp => ?_
    split
    · exact Gives.some.2 ⟨(hf.pop? hp).2.push trivial, hh⟩
    · exact Gives.some.2 ⟨(hf.pop? hp).2.push trivial, hh⟩
  case h_10 =>
    refine .bindEq fun (v, s) hp => ?_
    obtain ⟨hv, hs⟩ := hf.pop? hp
    dsimp only
    split
    · exact Gives.some.2 ⟨hs, hh⟩
    · split
      · split
        · rename_i m hm
          exact Gives.some.2 ⟨hs.push (Value.member?_sound (hh.deref hv) hm), hh⟩
        · exact Gives.some.2 ⟨hs, hh⟩
      · exact Gives.none
  case h_12 | h_13 =>
    refine .bindEq fun p hp => Gives.some.2 ⟨(hf.popN? hp).2.push ?_, hh⟩
    exact Value.allSound_iff.2 (hf.popN? hp).1
  case h_14 =>
    refine .bindEq fun p hp => ?_
    dsimp only
    split
    · rename_i m hm
      refine Gives.some.2 ⟨(hf.popN? hp).2.push ?_, hh⟩
      exact (collect_sound hh _ {} m (hf.popN? hp).1 ⟨by simp, by simp⟩ hm).entries_sound
    · exact Gives.some.2 ⟨(hf.popN? hp).2, hh⟩
  case h_15 => exact Gives.some.2 ⟨hf.push trivial, { hh with }⟩
  case h_16 =>
    refine .bindEq fun p hp => ?_
    dsimp only
    refine .bindEq fun v _ => ?_
    split
    · exact Gives.some.2 ⟨(hf.popN? hp).2, { hh with }⟩
    · exact Gives.none
  case h_17 =>
    refine .bindEq fun v _ => ?_
    split
    · exact Gives.some.2 ⟨hf, { hh with }⟩
    · exact Gives.none
  case h_18 =>
    refine .bindEq fun p hp => ?_
    split
    · exact Gives.some.2 ⟨(hf.pop? hp).2.push trivial, hh⟩
    · exact Gives.none
  case h_19 =>
    split
    · rename_i template heq
      have htemplate := hi.1
      rw [heq] at htemplate
      refine .bindEq fun p hp => Gives.some.2 ?_
      obtain ⟨hargs, hs⟩ := hf.popN? hp
      have h := htemplate.2.instantiate hargs h.nextDecl
      exact ⟨hs.push ⟨h.2.trans htemplate.1, h.1⟩, { hh with }⟩
    · exact Gives.some.2 ⟨hf, hh⟩
  case h_20 =>
    refine .bindEq fun p hp => ?_
    obtain ⟨hv, hs⟩ := hf.pop? hp
    dsimp only
    split
    · exact Gives.some.2 ⟨hs, hh⟩
    · rename_i it hit
      split
      · exact Gives.some.2 ⟨hs, hh⟩
      · refine Gives.some.2 ⟨hs.push trivial, hh.newIteration ?_⟩
        exact Value.iteration?_sound (hh.deref hv) hit
  case h_21 =>
    refine .bindEq fun p hp => ?_
    split
    · refine .bindEq fun it _ => ?_
      split
      · exact Gives.some.2 ⟨(hf.pop? hp).2, hh.advance _⟩
      · exact Gives.some.2 ⟨hf, hh.advance _⟩
    · exact Gives.none
  case h_22 =>
    refine .bindEq fun v hv => ?_
    split
    · exact .bindEq fun it hit => .bindEq fun v hv => Gives.some.2
        ⟨hf.push ((hh.iterations _ it hit).keys _ v hv), hh⟩
    · exact Gives.none
  case h_23 =>
    refine .bindEq fun v hv => ?_
    split
    · exact .bindEq fun it hit => .bindEq fun v hv => Gives.some.2
        ⟨hf.push ((hh.iterations _ it hit).values _ v hv), hh⟩
    · exact Gives.none
  case h_29 => exact Gives.none
  all_goals exact Gives.some.2 ⟨hf, hh⟩

theorem execute_sound (hf : f.stack.AllSound z) (hh : h.AllSound z) (hi : i.Sound z) :
    Gives (fun st => CapturedCounts.Extends st.heap.capturedCount? z → st.Sound z)
      (execute i f h) := by
  unfold execute
  split <;> first
    | exact fun st hst _ => stepSlot_sound hf hh st hst
    | exact fun st hst _ => stepControl_sound hf hh hi st hst
    | exact stepData_sound hf hh hi

/-- An instruction of a sound function keeps the stack and the heap sound. -/
theorem step_sound (hfn : f.fn.Sound z) (hf : f.stack.AllSound z) (hh : h.AllSound z) :
    Gives (fun st => CapturedCounts.Extends st.heap.capturedCount? z → st.Sound z)
      (f.step h) := by
  unfold step
  split
  · split
    · exact Gives.some.2 fun _ => ⟨hf, hh⟩
    · exact Gives.none
  · rename_i code hcode
    split
    · exact Gives.some.2 fun _ => ⟨hf, hh⟩
    · rename_i i hi
      exact execute_sound hf hh (hfn.at? hcode hi)

end Frame

end StagedScript
