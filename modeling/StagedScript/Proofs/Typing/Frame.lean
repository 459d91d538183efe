import StagedScript.Proofs.Machine.Heap
import StagedScript.Proofs.Machine.Stack
import StagedScript.Proofs.Typing.Flow
import Mathlib.Data.List.Forall2

/-!
# Calls of typed functions

The operand stack of a call *fits* a layout if every slot holds what the layout says.  A call of a
typed function *runs* at an address that has a point, has *raised* an error, or *waits* for the
result of another call.  Every iterator is in exactly one slot of one call, and `Moves` tells how an
instruction may change them: it moves only its own, and makes at most one.
-/

namespace StagedScript

def SlotKind.Holds (h : Heap) : SlotKind → Value → Prop
  | .value, _ => True
  | .buffer, v => ∃ n, v = .buffer n
  | .iterator, v => ∃ n, v = .iterator n ∧ n < h.iterations.size

namespace Layout

/-- Whether the values on a stack are of the kinds of a layout. -/
def Fits (h : Heap) (l : Layout) (vs : List Value) : Prop := List.Forall₂ (·.Holds h) l vs

def iterators : Layout → List Value → List Nat
  | .iterator :: l, .iterator n :: vs => n :: iterators l vs
  | _ :: l, _ :: vs => iterators l vs
  | _, _ => []

variable {h h' : Heap} {k : SlotKind} {l l' : Layout} {v : Value} {vs ws us : List Value}

theorem fits_cons : Fits h (k :: l) vs ↔ ∃ v us, k.Holds h v ∧ l.Fits h us ∧ vs = v :: us :=
  List.forall₂_cons_left_iff

theorem fits_append : Fits h (l ++ l') vs ↔ ∃ ws us, l.Fits h ws ∧ l'.Fits h us ∧ vs = ws ++ us := by
  constructor
  · intro hfit
    refine ⟨vs.take l.length, vs.drop l.length, ?_, ?_, (List.take_append_drop _ _).symm⟩
    · exact List.forall₂_take_append vs l l' hfit.flip |>.flip
    · exact List.forall₂_drop_append vs l l' hfit.flip |>.flip
  · rintro ⟨ws, us, hws, hus, rfl⟩
    exact List.rel_append hws hus

theorem Fits.length (hfit : l.Fits h vs) : vs.length = l.length := (List.Forall₂.length_eq hfit).symm

theorem fits_values (n : Nat) : (values n).Fits h vs ↔ vs.length = n := by
  constructor
  · intro hfit
    simpa using hfit.length
  · rintro rfl
    induction vs with
    | nil => exact .nil
    | cons v vs ih => exact .cons trivial ih

theorem Fits.mono (hg : h.Grows h') (hfit : l.Fits h vs) : l.Fits h' vs := by
  refine List.Forall₂.imp ?_ hfit
  intro k v hk
  cases k with
  | value => trivial
  | buffer => exact hk
  | iterator =>
    obtain ⟨n, rfl, hn⟩ := hk
    exact ⟨n, rfl, Nat.lt_of_lt_of_le hn hg.iterations⟩

@[simp] theorem iterators_value (l : Layout) (v : Value) (vs : List Value) :
    iterators (.value :: l) (v :: vs) = iterators l vs := by
  simp [iterators]

@[simp] theorem iterators_buffer (l : Layout) (v : Value) (vs : List Value) :
    iterators (.buffer :: l) (v :: vs) = iterators l vs := by
  simp [iterators]

@[simp] theorem iterators_iterator (l : Layout) (n : Nat) (vs : List Value) :
    iterators (.iterator :: l) (.iterator n :: vs) = n :: iterators l vs := by
  simp [iterators]

theorem iterators_append (hlen : ws.length = l.length) :
    iterators (l ++ l') (ws ++ us) = iterators l ws ++ iterators l' us := by
  induction l generalizing ws with
  | nil =>
    cases List.length_eq_zero_iff.1 hlen
    simp [iterators]
  | cons k l ih =>
    cases ws with
    | nil => simp at hlen
    | cons w ws =>
      have hlen' : ws.length = l.length := by simpa using hlen
      cases k with
      | value => simp [ih hlen']
      | buffer => simp [ih hlen']
      | iterator => cases w <;> simp [iterators, ih hlen']

@[simp] theorem iterators_values (hlen : ws.length = n) : iterators (values n) ws = [] := by
  subst hlen
  induction ws with
  | nil => simp [iterators, values]
  | cons w ws ih => simpa [values_succ] using ih

/-- A slot splits a layout into what is above and what is below. -/
theorem exists_of_kindAt? {slot : Int} (hk : l.kindAt? slot = some k) :
    ∃ above below, l = above ++ k :: below ∧ slot = (below : Layout).length := by
  obtain ⟨h₀, h₁⟩ := lt_of_kindAt? hk
  unfold kindAt? at hk
  rw [if_neg (by omega), List.getElem?_reverse (by omega)] at hk
  obtain ⟨hlt, hget⟩ := List.getElem?_eq_some_iff.1 hk
  refine ⟨l.take (l.length - 1 - slot.toNat), l.drop (l.length - 1 - slot.toNat + 1), ?_, ?_⟩
  · rw [← hget, List.getElem_cons_drop, List.take_append_drop]
  · rw [List.length_drop]
    omega

/-- Storing any value into a slot for values keeps the layout. -/
theorem Fits.slot {slot : Int} (hfit : l.Fits h vs) (hk : l.kindAt? slot = some k) :
    ∃ ws v us, vs = ws ++ v :: us ∧ slot = us.length ∧ k.Holds h v ∧
      ∀ w, k.Holds h w → l.Fits h (ws ++ w :: us) ∧
        (k = .value → iterators l (ws ++ w :: us) = iterators l vs) := by
  obtain ⟨above, below, rfl, hslot⟩ := exists_of_kindAt? hk
  obtain ⟨ws, vs', hws, hvs', rfl⟩ := fits_append.1 hfit
  obtain ⟨v, us, hv, hus, rfl⟩ := fits_cons.1 hvs'
  refine ⟨ws, v, us, rfl, by rw [hslot, hus.length], hv, fun w hw => ⟨?_, ?_⟩⟩
  · exact fits_append.2 ⟨ws, w :: us, hws, fits_cons.2 ⟨w, us, hw, hus, rfl⟩, rfl⟩
  · rintro rfl
    rw [iterators_append hws.length, iterators_append hws.length]
    simp

/-- A slot for iterators holds one of the iterators of the call. -/
theorem Fits.iterator {slot : Int} (hfit : l.Fits h vs) (hk : l.kindAt? slot = some .iterator) :
    ∃ ws n us, vs = ws ++ .iterator n :: us ∧ slot = us.length ∧ n < h.iterations.size ∧
      n ∈ iterators l vs := by
  obtain ⟨above, below, rfl, hslot⟩ := exists_of_kindAt? hk
  obtain ⟨ws, vs', hws, hvs', rfl⟩ := fits_append.1 hfit
  obtain ⟨_, us, ⟨n, rfl, hn⟩, hus, rfl⟩ := fits_cons.1 hvs'
  refine ⟨ws, n, us, rfl, by rw [hslot, hus.length], hn, ?_⟩
  rw [iterators_append hws.length]
  simp

end Layout

/-! ### Iterators -/

/-- An iterator has a current key and a current value. -/
def Heap.Live (h : Heap) (n : Nat) : Prop :=
  ∃ it, h.iterations[n]? = some it ∧ it.keys.size = it.values.size ∧ it.position < it.values.size

/-- How an instruction of a call with the first iterators may change them to the second ones. -/
structure Moves (h h' : Heap) (its its' : List Nat) : Prop where
  others : ∀ n, n ∉ its → n < h.iterations.size → h'.iterations[n]? = h.iterations[n]?
  origin : ∀ n ∈ its', n ∈ its ∨ n = h.iterations.size
  nodup : its.Nodup → (∀ n ∈ its, n < h.iterations.size) → its'.Nodup
  live : its.Nodup → (∀ n ∈ its, h.Live n) → ∀ n ∈ its', h'.Live n

/-- Most instructions leave the iterators alone, but may drop some. -/
theorem Moves.of_sublist {h h' : Heap} {its its' : List Nat} (hi : h'.iterations = h.iterations)
    (hsub : its'.Sublist its) : Moves h h' its its' where
  others n _ _ := by rw [hi]
  origin n hn := .inl (hsub.subset hn)
  nodup hnd _ := hnd.sublist hsub
  live _ hlive n hn := by
    have := hlive n (hsub.subset hn)
    unfold Heap.Live at this ⊢
    rwa [hi]

/-! ### Calls -/

section

variable (points : Int → Option (Point Int))

/-- Whether the handler of a call is the one that is known to be active. -/
def Watch.Governs (w : Watch Int) (f : Frame) : Prop :=
  match w with
  | .unknown => True
  | .off => f.handler = noTarget
  | .at a => f.handler = a ∧
    ∃ base : Layout, base.HandledAt points a ∧ f.handlerDepth = base.length

/-- The operand stack of a call fits a layout, and its handler is the active one. -/
structure Frame.Stands (h : Heap) (l : Layout) (w : Watch Int) (vs : List Value) (f : Frame) :
    Prop where
  stack : f.stack.Holds vs
  fits : l.Fits h vs
  handler : w.Governs points f

/-- What follows an instruction: one of its ways out is taken. The iterators are those of the call
after it. -/
inductive Step.Takes (i : Inst) (w : Watch Int) (flow : Flow) (f : Frame) :
    Step → List Nat → Prop where
  | falls {l : Layout} {vs : List Value} {f' : Frame} {h' : Heap} (way : flow.fall = some l)
      (same : f'.fn = f.fn ∧ f'.env = f.env) (ip : f'.ip = f.ip)
      (stands : f'.Stands points h' l (i.watchAfter i.targets w) vs) :
      Takes i w flow f (.next f' h') (l.iterators vs)
  | jumps {l : Layout} {vs : List Value} {f' : Frame} {h' : Heap} (way : flow.jump = some l)
      (same : f'.fn = f.fn ∧ f'.env = f.env) (ip : f'.ip ∈ i.targets)
      (stands : f'.Stands points h' l w vs) : Takes i w flow f (.next f' h') (l.iterators vs)
  | raises {l : Layout} {vs : List Value} {f' : Frame} {h' : Heap} {e : Raised}
      (way : flow.raised = some l) (same : f'.fn = f.fn ∧ f'.env = f.env)
      (stands : f'.Stands points h' l w vs) : Takes i w flow f (.raise e f' h') (l.iterators vs)
  | calls {l : Layout} {vs : List Value} {f' : Frame} {h' : Heap} {fn : Value}
      {args : List Value} (fall : flow.fall = some (.value :: l)) (raised : flow.raised = some l)
      (same : f'.fn = f.fn ∧ f'.env = f.env) (ip : f'.ip = f.ip)
      (stands : f'.Stands points h' l w vs) : Takes i w flow f (.call fn args f' h') (l.iterators vs)
  | returns {v : Value} {h' : Heap} : Takes i w flow f (.return v h') []

end

section

variable {points : Int → Option (Point Int)} {h h' : Heap} {l l' : Layout} {w : Watch Int}
  {vs vs' : List Value} {f f' : Frame}

/-- What a stack fits decides where a call stands, unless the handler changes. -/
theorem Frame.Stands.withStack (hst : f.Stands points h l w vs) {s : Stack} (hs : s.Holds vs')
    (hfit : l'.Fits h' vs') : (f.withStack s).Stands points h' l' w vs' :=
  ⟨hs, hfit, hst.handler⟩

theorem Frame.Stands.push (hst : f.Stands points h l w vs) (hfit : l.Fits h' vs) (v : Value) :
    (f.push v).Stands points h' (.value :: l) w (v :: vs) :=
  ⟨hst.stack.push v, Layout.fits_cons.2 ⟨v, vs, trivial, hfit, rfl⟩, hst.handler⟩

theorem Frame.Stands.pop {k : SlotKind} (hst : f.Stands points h (k :: l) w vs) :
    ∃ v us s, vs = v :: us ∧ k.Holds h v ∧ f.stack.pop? = some (v, s) ∧ s.Holds us ∧
      l.Fits h us := by
  obtain ⟨v, us, hv, hfit, rfl⟩ := Layout.fits_cons.1 hst.fits
  obtain ⟨s, hs, hholds, -⟩ := hst.stack.pop?
  exact ⟨v, us, s, rfl, hv, hs, hholds, hfit⟩

theorem Frame.Stands.popValues {n : Nat} (hst : f.Stands points h (Layout.values n ++ l) w vs) :
    ∃ ws us s, vs = ws ++ us ∧ f.stack.popN? n = some (ws.reverse, s) ∧ s.Holds us ∧
      l.Fits h us ∧ Layout.iterators (Layout.values n ++ l) vs = l.iterators us := by
  obtain ⟨ws, us, hws, hus, rfl⟩ := Layout.fits_append.1 hst.fits
  have hlen := (Layout.fits_values n).1 hws
  obtain ⟨s, hs, hholds, -⟩ := hst.stack.popN?
  rw [hlen] at hs
  refine ⟨ws, us, s, rfl, hs, hholds, hus, ?_⟩
  rw [Layout.iterators_append hws.length, Layout.iterators_values hlen, List.nil_append]

end

end StagedScript
