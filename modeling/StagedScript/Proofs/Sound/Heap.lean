import StagedScript.Proofs.Machine.Heap
import StagedScript.Proofs.Sound.Value

/-!
# Sound heaps, stacks and calls of the host

What is read from a sound heap or a sound stack is sound, and stays sound when sound values are
written.  Methods and functions of the host give sound values for sound arguments.
-/

namespace StagedScript

variable {z : CapturedCounts}

section

variable {α : Type} {P : α → Prop} {xs : Array α} (h : ∀ (i : Nat) x, xs[i]? = some x → P x)

include h

theorem forall_push {a : α} (ha : P a) : ∀ (i : Nat) x, (xs.push a)[i]? = some x → P x := by
  intro i x hx
  rw [Array.getElem?_push] at hx
  split at hx
  · cases hx
    exact ha
  · exact h i x hx

theorem forall_setIfInBounds {a : α} (ha : P a) (k : Nat) :
    ∀ (i : Nat) x, (xs.setIfInBounds k a)[i]? = some x → P x := by
  intro i x hx
  rw [Array.getElem?_setIfInBounds] at hx
  split at hx
  · split at hx
    · cases hx
      exact ha
    · cases hx
  · exact h i x hx

theorem forall_modify {f : α → α} (hf : ∀ x, P x → P (f x)) (k : Nat) :
    ∀ (i : Nat) x, (xs.modify k f)[i]? = some x → P x := by
  intro i x hx
  rw [Array.getElem?_modify] at hx
  split at hx
  · obtain ⟨y, hy, rfl⟩ := Option.map_eq_some_iff.1 hx
    exact hf y (h i y hy)
  · exact h i x hx

end

structure Iteration.Sound (z : CapturedCounts) (it : Iteration) : Prop where
  keys : ∀ (i : Nat) v, it.keys[i]? = some v → v.Sound z
  values : ∀ (i : Nat) v, it.values[i]? = some v → v.Sound z

namespace Heap

structure AllSound (z : CapturedCounts) (h : Heap) : Prop where
  cells : ∀ (i : Nat) c, h.cells[i]? = some c → c.value.Sound z
  environments : ∀ (i : Nat) vs, h.environments[i]? = some vs →
    ∀ (j : Nat) v, vs[j]? = some v → v.Sound z
  iterations : ∀ (i : Nat) it, h.iterations[i]? = some it → it.Sound z
  forwards : ∀ (i : Nat) v, h.forwards[i]? = some (some v) → v.Sound z

namespace AllSound

variable {h : Heap} {v : Value}

theorem empty : AllSound z {} := by
  constructor <;> simp

section

variable (hh : h.AllSound z)

include hh

theorem mono {z' : CapturedCounts} (hz : z.Extends z') : h.AllSound z' where
  cells i c hc := (hh.cells i c hc).mono hz
  environments i vs hvs j v hv := (hh.environments i vs hvs j v hv).mono hz
  iterations i it hit :=
    ⟨fun j v hv => ((hh.iterations i it hit).keys j v hv).mono hz,
      fun j v hv => ((hh.iterations i it hit).values j v hv).mono hz⟩
  forwards i v hv := (hh.forwards i v hv).mono hz

theorem deref (hv : v.Sound z) : (h.deref v).Sound z := by
  unfold Heap.deref
  split
  · split
    · rename_i hc
      exact hh.cells _ _ hc
    · exact hv
  · rename_i index _
    cases hf : h.forwards[index]? with
    | none => simpa [Array.getD_eq_getD_getElem?, hf] using hv
    | some o =>
      cases o with
      | none => simpa [Array.getD_eq_getD_getElem?, hf] using hv
      | some w => simpa [Array.getD_eq_getD_getElem?, hf] using hh.forwards _ w hf
  · exact hv

theorem captured? {env index : Nat} (hv : h.captured? env index = some v) :
    v.Sound z := by
  obtain ⟨vs, hvs, hv⟩ := Option.bind_eq_some_iff.1 hv
  exact hh.environments env vs hvs index v hv

theorem newCell {c : Cell} (hc : c.value.Sound z) :
    (h.newCell c).2.AllSound z :=
  { hh with cells := forall_push hh.cells hc }

theorem setCell (hv : v.Sound z) (index : Nat) :
    (h.setCell index v).AllSound z :=
  { hh with cells := forall_setIfInBounds (P := fun c : Cell => c.value.Sound z) hh.cells hv index }

theorem store {old : Value} (hold : old.Sound z) (hv : v.Sound z) :
    (h.store old v).1.Sound z ∧ (h.store old v).2.AllSound z := by
  unfold Heap.store
  split
  · split
    · exact ⟨hold, hh.setCell hv _⟩
    · exact ⟨hv, hh⟩
  · exact ⟨hv, hh⟩

theorem newEnvironment {vs : Array Value}
    (hvs : ∀ (j : Nat) v, vs[j]? = some v → v.Sound z) : (h.newEnvironment vs).2.AllSound z :=
  { hh with environments := forall_push hh.environments hvs }

theorem setCaptured (hv : v.Sound z) (env index : Nat) :
    (h.setCaptured env index v).AllSound z :=
  { hh with
    environments := forall_modify hh.environments
      (fun _ hvs => forall_setIfInBounds hvs hv index) env }

theorem newIteration {it : Iteration} (hit : it.Sound z) :
    (h.newIteration it).2.AllSound z :=
  { hh with iterations := forall_push hh.iterations hit }

theorem advance (index : Nat) : (h.advance index).AllSound z := by
  refine { hh with iterations := forall_modify hh.iterations (fun it hit => ?_) index }
  exact ⟨hit.keys, hit.values⟩

theorem newForward (name : Bytes) : (h.newForward name).2.AllSound z := by
  have hall := forall_push (P := fun o => ∀ v, o = some v → v.Sound z)
    (fun i o ho v hv => hh.forwards i v (hv ▸ ho)) (a := none) nofun
  exact { hh with forwards := fun i v hv => hall i (some v) hv v rfl }

theorem setForward (hv : v.Sound z) (index : Nat) :
    (h.setForward index v).AllSound z := by
  have hall := forall_modify (P := fun o => ∀ v, o = some v → v.Sound z)
    (f := fun old => old.or (some v)) (fun i o ho v hv => hh.forwards i v (hv ▸ ho)) ?_ index
  · exact { hh with forwards := fun i v hv => hall i (some v) hv v rfl }
  · rintro (_ | w) hw u ⟨⟩
    · exact hv
    · exact hw w rfl

end

end AllSound

end Heap

/-! ### Stacks -/

namespace Stack

/-- All values on a stack are sound, and so are those left above its top. -/
def AllSound (z : CapturedCounts) (s : Stack) : Prop :=
  ∀ (i : Nat) v, s.slots[i]? = some v → v.Sound z

namespace AllSound

variable {s s' : Stack} {v : Value}

theorem push (hs : s.AllSound z) (hv : v.Sound z) : (s.push v).AllSound z := by
  obtain ⟨slots, depth, room⟩ := s
  unfold Stack.push
  dsimp only
  split
  · exact forall_setIfInBounds hs hv depth
  · exact forall_push hs hv

variable {vs : List Value}

section

variable (hs : s.AllSound z)

include hs

theorem pushAll (hvs : ∀ v ∈ vs, v.Sound z) : (s.pushAll vs).AllSound z := by
  induction vs generalizing s with
  | nil => exact hs
  | cons v vs ih =>
    obtain ⟨hv, hvs⟩ := List.forall_mem_cons.1 hvs
    exact ih (hs.push hv) hvs

theorem append (hvs : ∀ v ∈ vs, v.Sound z) : (s.append vs).AllSound z :=
  pushAll (s := ⟨s.slots, s.depth, Stack.grownRoom s.room (s.depth + vs.length)⟩) hs hvs

theorem top? (hv : s.top? = some v) : v.Sound z := by
  unfold Stack.top? at hv
  split at hv
  · cases hv
  · exact hs _ v hv

theorem pop? (h : s.pop? = some (v, s')) : v.Sound z ∧ s'.AllSound z := by
  obtain ⟨w, hw, heq⟩ := Option.map_eq_some_iff.1 h
  cases heq
  exact ⟨hs.top? hw, hs⟩

theorem popN? {n : Int} (h : s.popN? n = some (vs, s')) :
    (∀ v ∈ vs, v.Sound z) ∧ s'.AllSound z := by
  unfold Stack.popN? at h
  split at h
  · cases h
  · cases h
    refine ⟨fun v hv => ?_, hs⟩
    obtain ⟨i, hi⟩ := List.mem_iff_getElem?.1 hv
    rw [Array.getElem?_toList, Array.getElem?_extract] at hi
    split at hi
    · exact hs _ v hi
    · cases hi

theorem get? {slot : Int} (hv : s.get? slot = some v) : v.Sound z := by
  unfold Stack.get? at hv
  split at hv
  · cases hv
  · exact hs _ v hv

theorem set? (hv : v.Sound z) {slot : Int} (h : s.set? slot v = some s') :
    s'.AllSound z := by
  unfold Stack.set? at h
  split at h
  · cases h
  · cases h
    exact forall_setIfInBounds hs hv _

theorem cut? {height : Int} (h : s.cut? height = some s') :
    s'.AllSound z := by
  unfold Stack.cut? at h
  split at h
  · cases h
  · cases h
    intro i w hw
    rw [Array.getElem?_append] at hw
    split at hw
    · exact hs i w hw
    · rw [Array.getElem?_replicate] at hw
      split at hw
      · cases hw
        trivial
      · cases hw

theorem drop? {n : Int} (h : s.drop? n = some s') : s'.AllSound z := by
  obtain ⟨⟨v, s₁⟩, hpop, h⟩ := Option.bind_eq_some_iff.1 h
  obtain ⟨s₂, hcut, h⟩ := Option.bind_eq_some_iff.1 h
  cases h
  obtain ⟨hv, hs₁⟩ := hs.pop? hpop
  exact (hs₁.cut? hcut).push hv

theorem mono {z' : CapturedCounts} (hz : z.Extends z') : s.AllSound z' :=
  fun i v hv => (hs i v hv).mono hz

end

end AllSound

end Stack

/-! ### Methods and functions of the host -/

theorem Mapping.get?_sound {entries : List Entry} {key v : Value}
    (h : Entry.AllSound z entries) (hv : Mapping.get? entries key = some v) : v.Sound z := by
  obtain ⟨e, he, rfl⟩ := Option.map_eq_some_iff.1 hv
  exact (Entry.allSound_iff.1 h e (List.mem_of_find?_eq_some he)).2

/-- All keys and values of a map under construction are sound. -/
def OrderedMap.AllSound (z : CapturedCounts) (m : OrderedMap) : Prop :=
  (∀ v ∈ m.keys, v.Sound z) ∧ ∀ v ∈ m.values, v.Sound z

theorem OrderedMap.AllSound.insert_sound {m m' : OrderedMap} {sh : Shown} {key v : Value}
    (h : m.AllSound z)
    (hkey : key.Sound z) (hv : v.Sound z) (hm : m.insert sh key v = .ok m') : m'.AllSound z := by
  unfold OrderedMap.insert at hm
  split at hm
  · split at hm
    · cases hm
      refine ⟨h.1, fun w hw => ?_⟩
      obtain hw | rfl := Array.mem_or_eq_of_mem_setIfInBounds hw
      · exact h.2 w hw
      · exact hv
    · cases hm
      exact ⟨Array.forall_mem_push.2 ⟨hkey, h.1⟩, Array.forall_mem_push.2 ⟨hv, h.2⟩⟩
  · cases hm

theorem OrderedMap.AllSound.entries_sound {m : OrderedMap} (h : m.AllSound z) :
    Entry.AllSound z m.entries := by
  refine Entry.allSound_iff.2 fun e he => ?_
  obtain ⟨i, hi, rfl⟩ := List.getElem_of_mem he
  simp only [OrderedMap.entries, List.getElem_zipWith]
  exact ⟨h.1 _ (by simp), h.2 _ (by simp)⟩

theorem Value.member?_sound {v m : Value} {name : Bytes} (h : v.Sound z)
    (hm : (v.member? name).bind id = some m) : m.Sound z := by
  unfold Value.member? at hm
  split at hm
  · exact Mapping.get?_sound h hm
  · obtain ⟨member, hmember, rfl⟩ := Option.map_eq_some_iff.1 hm
    exact Member.allSound_iff.1 h member (List.mem_of_find?_eq_some hmember)
  · cases hm

theorem Iteration.numbered_sound {vs : List Value} (h : ∀ v ∈ vs, v.Sound z) :
    (Iteration.numbered vs).Sound z where
  keys i v hv := by
    have hv := Array.mem_of_getElem? hv
    simp only [Iteration.numbered, List.mem_toArray, List.mem_map] at hv
    obtain ⟨n, -, rfl⟩ := hv
    trivial
  values i v hv := h v (by simpa [Iteration.numbered] using Array.mem_of_getElem? hv)

theorem Value.iteration?_sound {v : Value} {it : Iteration} (h : v.Sound z)
    (hit : v.iteration? = some it) : it.Sound z := by
  unfold Value.iteration? at hit
  split at hit
  case h_1 | h_2 =>
    cases hit
    exact Iteration.numbered_sound (Value.allSound_iff.1 h)
  case h_3 =>
    cases hit
    refine Iteration.numbered_sound fun v hv => ?_
    obtain ⟨p, -, rfl⟩ := List.mem_map.1 hv
    trivial
  case h_4 =>
    cases hit
    have h := Entry.allSound_iff.1 h
    constructor <;>
    · intro i v hv
      obtain ⟨e, he, rfl⟩ := List.mem_map.1 (List.mem_toArray.1 (Array.mem_of_getElem? hv))
      first | exact (h e he).1 | exact (h e he).2
  case h_5 =>
    cases hit
    constructor <;> simp
  case h_6 => cases hit

theorem Host.Sound.apply {action : Host} {sh : Shown} {args : List Value} {v : Value}
    (h : action.Sound z) (hargs : ∀ v ∈ args, v.Sound z) (hv : action.apply sh args = .ok v) :
    v.Sound z := by
  unfold Host.apply at hv
  split at hv
  case h_1 | h_2 =>
    cases hv
    exact Value.allSound_iff.2 hargs
  case h_3 =>
    cases hv
    trivial
  case h_4 => split at hv <;> cases hv
  case h_5 =>
    split at hv <;> cases hv
    trivial
  case h_6 =>
    split at hv
    · rename_i fn
      cases hv
      exact hargs fn (by simp)
    · rename_i fn arity
      cases hv
      exact hargs fn (by simp)
    · cases hv
    · cases hv
  case h_7 =>
    cases hv
    exact h
  case h_8 =>
    cases hv
    cases args with
    | nil => trivial
    | cons v vs => exact hargs v (by simp)
  case h_9 => cases hv

namespace Method

variable {name : Bytes} {v : Value}

theorem whenHolds_sound {b : Bool} (h : v.Sound z) : (whenHolds b v).Sound z := by
  unfold whenHolds
  split
  · exact h
  · trivial

theorem elementAt_sound {vs : List Value} (h : ∀ v ∈ vs, v.Sound z) (n : Int64) :
    (elementAt vs n).Sound z := by
  have get : ∀ i, (vs.getD i .nil).Sound z := by
    intro i
    rw [List.getD_eq_getElem?_getD]
    cases hv : vs[i]? with
    | none => trivial
    | some v => exact h v (List.mem_of_getElem? hv)
  unfold elementAt
  dsimp only
  generalize (if n.toInt < 0 then n.toInt + vs.length + 1 else n.toInt) = k
  split
  · trivial
  · exact get _

theorem index?_sound {a b : Value} (ha : a.Sound z) (hv : index? a b = some v) : v.Sound z := by
  unfold index? at hv
  split at hv
  · rename_i entries
    cases hv
    cases hget : Mapping.get? entries b with
    | none => trivial
    | some w => exact Mapping.get?_sound ha hget
  · cases hv
    exact elementAt_sound (Value.allSound_iff.1 ha) _
  · cases hv
    exact elementAt_sound (Value.allSound_iff.1 ha) _
  · cases hv

theorem binaryOther?_sound {a b : Value} (ha : a.Sound z) (hb : b.Sound z)
    (hv : binaryOther? name a b = some v) : v.Sound z := by
  unfold binaryOther? at hv
  repeat' split at hv
  · obtain ⟨eq, -, rfl⟩ := Option.map_eq_some_iff.1 hv
    exact whenHolds_sound hb
  · obtain ⟨eq, -, rfl⟩ := Option.map_eq_some_iff.1 hv
    exact whenHolds_sound hb
  · exact index?_sound ha hv
  · obtain ⟨elems, -, rfl⟩ := Option.map_eq_some_iff.1 hv
    exact whenHolds_sound ha
  · cases hv
    exact hb
  · obtain ⟨holds, -, hv⟩ := Option.bind_eq_some_iff.1 hv
    obtain ⟨c, -, rfl⟩ := Option.map_eq_some_iff.1 hv
    exact whenHolds_sound hb

theorem onIntegers_sound {a b : Int64} (hv : onIntegers name a b = some (.ok v)) : v.Sound z := by
  unfold onIntegers at hv
  repeat' split at hv
  all_goals
    cases hv
    try trivial

theorem unary?_sound {a : Value} (hv : unary? name a = some v) : v.Sound z := by
  unfold unary? at hv
  repeat' split at hv
  · cases hv
    trivial
  · cases hv
    trivial
  · cases hv
  · obtain ⟨n, -, rfl⟩ := Option.map_eq_some_iff.1 hv
    trivial
  · cases hv

theorem binary?_sound {a b : Value} (ha : a.Sound z) (hb : b.Sound z)
    (hv : binary? name a b = some (.ok v)) : v.Sound z := by
  have other : (binaryOther? name a b).map .ok = some (Except.ok (ε := Raised) v) → v.Sound z := by
    intro hv
    obtain ⟨w, hw, heq⟩ := Option.map_eq_some_iff.1 hv
    cases heq
    exact binaryOther?_sound ha hb hw
  unfold binary? at hv
  split at hv
  · split at hv
    · rename_i hr
      cases hv
      exact onIntegers_sound hr
    · exact other hv
  · split at hv
    · cases hv
      trivial
    · exact other hv
  · split at hv
    · split at hv
      · cases hv
        trivial
      · exact other hv
    · exact other hv

theorem call_sound {args : List Value} (hargs : ∀ v ∈ args, v.Sound z)
    (hv : call name args = .ok v) : v.Sound z := by
  unfold call at hv
  split at hv
  · rename_i a
    cases hu : unary? name a with
    | none => simp [hu] at hv
    | some w =>
      rw [hu] at hv
      cases hv
      exact unary?_sound hu
  · rename_i a b
    cases hu : binary? name a b with
    | none => simp [hu] at hv
    | some r =>
      rw [hu] at hv
      obtain rfl : r = .ok v := hv
      exact binary?_sound (hargs a (by simp)) (hargs b (by simp)) hu
  · cases hv

end Method

end StagedScript
