import StagedScript.Machine.Frame
import Mathlib.Data.List.Infix

/-!
# Layouts of the operand stack

A *layout* tells what every slot of the operand stack holds: an ordinary value, a text under
construction, or an iterator.  A *point* is a layout together with the handler that is active.  A
function is *typed* when every address that control can reach has a point, and every way out of an
instruction leads to a point that fits.  Code under construction jumps to labels and finished code
to addresses, and both are typed by the same rules.
-/

namespace StagedScript

theorem wrapInt_of_small {n : Int} (h₁ : -0x8000000000000000 ≤ n) (h₂ : n < 0x8000000000000000) :
    wrapInt n = n := by
  unfold wrapInt
  apply Int.bmod_eq_of_le <;> omega

/-- A bound for the addresses and heights of typed code, far from the greatest machine integer. -/
def Func.addressLimit : Int := 0x1000000000000000

/-- What a slot of the operand stack holds. -/
inductive SlotKind where
  | value
  | buffer
  | iterator
  deriving DecidableEq

/-- The kinds of the slots of an operand stack, the top first. -/
abbrev Layout := List SlotKind

namespace Layout

/-- The kind of a slot, which is numbered from the bottom. -/
def kindAt? (l : Layout) (slot : Int) : Option SlotKind :=
  if slot < 0 then none else l.reverse[slot.toNat]?

def values (n : Nat) : Layout := List.replicate n .value

/-- Whether a closure that is made with this layout can capture from a source. -/
def CanCapture (l : Layout) (captures : Nat) (source : Int) : Prop :=
  (0 ≤ source → l.kindAt? source = some .value) ∧ (source < 0 → -1 - source < (captures : Int))

@[simp] theorem length_values (n : Nat) : (values n).length = n := by simp [values]

theorem values_succ (n : Nat) : values (n + 1) = .value :: values n := rfl

theorem lt_of_kindAt? {l : Layout} {s : Int} {k : SlotKind} (h : l.kindAt? s = some k) :
    0 ≤ s ∧ s < l.length := by
  unfold kindAt? at h
  split at h
  next => exact absurd h (by simp)
  next hs =>
    obtain ⟨hlt, -⟩ := List.getElem?_eq_some_iff.1 h
    rw [List.length_reverse] at hlt
    omega

theorem kindAt?_of_suffix {l base : Layout} {s : Int} {k : SlotKind} (hb : base <:+ l)
    (h : base.kindAt? s = some k) : l.kindAt? s = some k := by
  obtain ⟨top, rfl⟩ := hb
  have hs := lt_of_kindAt? h
  unfold kindAt? at h ⊢
  rw [if_neg (by omega)] at h ⊢
  rw [List.reverse_append, List.getElem?_append_left (by rw [List.length_reverse]; omega)]
  exact h

@[simp] theorem kindAt?_cons_length (l : Layout) (k : SlotKind) :
    kindAt? (k :: l) l.length = some k := by
  simp [kindAt?]

theorem values_append_cons (n : Nat) (l : Layout) :
    values n ++ .value :: l = .value :: (values n ++ l) := by
  induction n with
  | zero => rfl
  | succ n ih => rw [values_succ, List.cons_append, ih, List.cons_append]

theorem values_append_values (n m : Nat) (l : Layout) :
    values n ++ (values m ++ l) = values (n + m) ++ l := by
  rw [← List.append_assoc]
  exact congrArg (· ++ l) (List.replicate_append_replicate ..)

theorem kindAt?_values_append {n : Int} {m : Nat} {l : Layout} (hl : (l.length : Int) ≤ n)
    (hn : n < l.length + m) : (values m ++ l).kindAt? n = some .value := by
  obtain ⟨i, rfl⟩ := Int.eq_ofNat_of_zero_le (Int.le_trans (Int.natCast_nonneg _) hl)
  have hi : i - l.length < m := by omega
  rw [kindAt?, if_neg (by omega), List.reverse_append,
    List.getElem?_append_right (by simpa using hl)]
  simp [values, hi]

theorem kindAt?_values {n m : Nat} (h : n < m) : (values m).kindAt? n = some .value := by
  simpa using kindAt?_values_append (n := n) (m := m) (l := []) (by simp) (by simpa using h)

theorem CanCapture.mono {l l' : Layout} {c c' : Nat} (hl : l <:+ l') (hc : c ≤ c') {u : Int}
    (h : l.CanCapture c u) : l'.CanCapture c' u :=
  ⟨fun hu => kindAt?_of_suffix hl (h.1 hu), fun hu => by have := h.2 hu; omega⟩

end Layout

/-- The layouts on the ways out of an instruction. -/
structure Flow where
  fall : Option Layout := none
  jump : Option Layout := none
  /-- When an error is raised, before a handler cuts the stack. -/
  raised : Option Layout := none

/-- Whether an operation can raise an error, itself or in a call that it makes. -/
def Opcode.raises : Opcode → Bool
  | .raise | .resume | .suspend | .assign | .method | .call | .constCall | .map | .resolve
  | .unpack | .symbols | .iterate => true
  | _ => false

namespace Inst

/-- The layouts after an instruction of a function that has a number of captured values. -/
inductive Flows (captures : Nat) (i : Inst) : Layout → Flow → Prop where
  | push (l : Layout) (op : i.op = .nil ∨ i.op = .const) : Flows captures i l
      { fall := some (.value :: l) }
  | stringNew (l : Layout) (op : i.op = .stringNew) : Flows captures i l
      { fall := some (.buffer :: l) }
  | enter (l : Layout) (op : i.op = .enter) : Flows captures i l
      { fall := some (Layout.values i.decls.length ++ l) }
  | install (l : Layout) (op : i.op = .install) : Flows captures i l
      { fall := some l }
  | load (l : Layout) (op : i.op = .local ∨ i.op = .localIndirect)
      (slot : l.kindAt? i.count = some .value) : Flows captures i l
      { fall := some (.value :: l) }
  | box (l : Layout) (op : i.op = .box) (slot : l.kindAt? i.count = some .value) :
      Flows captures i l { fall := some l }
  | element (l : Layout) (op : i.op = .key ∨ i.op = .element)
      (slot : l.kindAt? i.count = some .iterator) : Flows captures i l
      { fall := some (.value :: l) }
  | store (l : Layout)
      (op : i.op = .assignLocal ∨ i.op = .initVar ∨ i.op = .initLet ∨ i.op = .letBackfill ∨
        i.op = .initRef)
      (slot : l.kindAt? i.count = some .value) : Flows captures i (.value :: l)
      { fall := some (.value :: l) }
  | upvalue (l : Layout) (op : i.op = .upvalue) (lower : 0 ≤ i.count)
      (upper : i.count < captures) : Flows captures i l
      { fall := some (.value :: l) }
  | assignUpvalue (l : Layout) (op : i.op = .assignUpvalue) (lower : 0 ≤ i.count)
      (upper : i.count < captures) : Flows captures i (.value :: l)
      { fall := some (.value :: l) }
  | closure (l : Layout) (op : i.op = .closure) (fn : Func) (func : i.func = some fn)
      (sources : ∀ u ∈ fn.upvalues, l.CanCapture captures u) : Flows captures i l
      { fall := some (.value :: l) }
  | jump (l : Layout) (op : i.op = .link ∨ i.op = .jump) : Flows captures i l
      { jump := some l }
  | goto (top l : Layout) (op : i.op = .goto) (count : i.count = top.length) :
      Flows captures i (top ++ l) { jump := some l }
  | retry (top l : Layout) (op : i.op = .retry) (count : i.count = l.length) :
      Flows captures i (top ++ l) { jump := some l }
  | exit (top l : Layout) (op : i.op = .exit) (count : i.count = top.length) :
      Flows captures i (.value :: (top ++ l)) { jump := some (.value :: l) }
  | leave (n : Nat) (l : Layout) (op : i.op = .leave) (count : i.count = n) :
      Flows captures i (.value :: (Layout.values n ++ l)) { fall := some (.value :: l) }
  | pop (l : Layout) (op : i.op = .pop) : Flows captures i (.value :: l)
      { fall := some l }
  | dup (l : Layout) (op : i.op = .dup) : Flows captures i (.value :: l)
      { fall := some (.value :: .value :: l) }
  | not (l : Layout) (op : i.op = .not) : Flows captures i (.value :: l)
      { fall := some (.value :: l) }
  | test (l : Layout) (op : i.op = .ifNil ∨ i.op = .ifNotNil) : Flows captures i (.value :: l)
      { fall := some l, jump := some l }
  | connective (l : Layout) (op : i.op = .and ∨ i.op = .or) : Flows captures i (.value :: l)
      { fall := some l, jump := some (.value :: l) }
  | switch (l : Layout) (op : i.op = .switch) (table : i.table ≠ []) :
      Flows captures i (.value :: l) { jump := some l }
  | ret (l : Layout) (op : i.op = .ret) : Flows captures i (.value :: l) {}
  | raise (l : Layout) (op : i.op = .raise) : Flows captures i (.value :: l)
      { raised := some l }
  | resume (l : Layout) (op : i.op = .resume) : Flows captures i l
      { fall := some (.value :: l), raised := some l }
  | suspend (n : Nat) (l : Layout) (op : i.op = .suspend) (count : i.count = n) :
      Flows captures i (Layout.values n ++ l)
      { fall := some l, raised := some (Layout.values n ++ l) }
  | through (n : Nat) (l : Layout) (op : i.op = .assign ∨ i.op = .method) (count : i.count = n) :
      Flows captures i (Layout.values (n + 2) ++ l)
      { fall := some (.value :: l), raised := some (Layout.values (n + 2) ++ l) }
  | collect (n : Nat) (l : Layout) (op : i.op = .tuple ∨ i.op = .list) (count : i.count = n) :
      Flows captures i (Layout.values n ++ l) { fall := some (.value :: l) }
  | quote (n : Nat) (l : Layout) (op : i.op = .quote) (count : i.count = n) (e : Expr)
      (value : i.value = .expr e) :
      Flows captures i (Layout.values n ++ l) { fall := some (.value :: l) }
  | call (n : Nat) (l : Layout) (op : i.op = .call) (count : i.count = n) :
      Flows captures i (Layout.values (n + 1) ++ l)
      { fall := some (.value :: l), raised := some l }
  | constCall (n : Nat) (l : Layout) (op : i.op = .constCall) (count : i.count = n) :
      Flows captures i (Layout.values n ++ l)
      { fall := some (.value :: l), raised := some l }
  | map (n : Nat) (l : Layout) (op : i.op = .map) (count : i.count = n) :
      Flows captures i (Layout.values (2 * n) ++ l)
      { fall := some (.value :: l), raised := some l }
  | resolve (l : Layout) (op : i.op = .resolve) (name : Bytes) (value : i.value = .str name) :
      Flows captures i (.value :: l)
      { fall := some (.value :: l), raised := some l }
  | unpack (n : Nat) (l : Layout) (op : i.op = .unpack) (count : i.count = n) :
      Flows captures i (.value :: l)
      { fall := some (Layout.values n ++ l), raised := some l }
  | symbols (l : Layout) (op : i.op = .symbols) : Flows captures i (.value :: l)
      { fall := some (Layout.values i.decls.length ++ l), raised := some l }
  | stringAdd (n : Nat) (l : Layout) (op : i.op = .stringAdd) (count : i.count = n) :
      Flows captures i (Layout.values n ++ .buffer :: l) { fall := some (.buffer :: l) }
  | stringChars (l : Layout) (op : i.op = .stringChars) : Flows captures i (.buffer :: l)
      { fall := some (.buffer :: l) }
  | stringEnd (l : Layout) (op : i.op = .stringEnd) : Flows captures i (.buffer :: l)
      { fall := some (.value :: l) }
  | iterate (l : Layout) (op : i.op = .iterate) : Flows captures i (.value :: l)
      { fall := some (.iterator :: l), jump := some l, raised := some l }
  | advance (l : Layout) (op : i.op = .advance) : Flows captures i (.iterator :: l)
      { fall := some (.iterator :: l), jump := some l }
  | catchOn (n : Nat) (l : Layout) (op : i.op = .catchOn) (count : i.count = n) :
      Flows captures i (Layout.values n ++ .value :: l)
      { fall := some (.value :: l), jump := some (.value :: l) }

section

variable {i : Inst} {c c' : Nat} {l l' : Layout} {f : Flow}

theorem Flows.mono (hc : c ≤ c') (h : i.Flows c l f) : i.Flows c' l f := by
  cases h with
  | upvalue l op lower upper => exact .upvalue l op lower (by omega)
  | assignUpvalue l op lower upper => exact .assignUpvalue l op lower (by omega)
  | closure l op fn func sources =>
    exact .closure l op fn func fun u hu => (sources u hu).mono (List.suffix_refl _) hc
  | _ => grind [Flows]

theorem Flows.raised_isSome (h : i.Flows c l f) : f.raised.isSome = i.op.raises := by
  cases h with
  | push l op | load l op | element l op | jump l op | test l op | connective l op
  | through n l op | collect n l op =>
    rcases op with op | op <;> simp [op, Opcode.raises]
  | store l op => rcases op with op | op | op | op | op <;> simp [op, Opcode.raises]
  | _ => simp [*, Opcode.raises]

theorem Flows.ofCode_op (h : i.Flows c l f) : Opcode.ofCode i.op.code = i.op := by
  cases h with
  | push l op | load l op | element l op | jump l op | test l op | connective l op
  | through n l op | collect n l op =>
    rcases op with op | op <;> rw [op] <;> rfl
  | store l op => rcases op with op | op | op | op | op <;> rw [op] <;> rfl
  | _ =>
    simp only [*]
    rfl

/-- An instruction that falls through finds the values it pops, and its effect is the change of the
height. -/
theorem Flows.length_fall (h : i.Flows c l f) (hl : (l.length : Int) < Func.addressLimit)
    (hf : f.fall = some l') :
    i.effect.1 ≤ l.length ∧ (l'.length : Int) = l.length - i.effect.1 + i.effect.2 := by
  unfold Func.addressLimit at hl
  cases h with
  | push l op | load l op | element l op | test l op | connective l op =>
    cases hf
    rcases op with op | op <;> simp only [effect, op, List.length_cons] <;> omega
  | store l op =>
    cases hf
    rcases op with op | op | op | op | op <;> simp only [effect, op, List.length_cons] <;> omega
  | collect n l op count =>
    cases hf
    rcases op with op | op <;> simp only [effect, op, count, List.length_cons, List.length_append,
      Layout.length_values] <;> omega
  | leave n l op count | call n l op count | map n l op count =>
    cases hf
    simp only [List.length_cons, List.length_append, Layout.length_values, Int.natCast_add,
      Int.natCast_mul] at hl
    simp only [effect, op, count, List.length_cons, List.length_append, Layout.length_values]
    rw [wrapInt_of_small (by omega) (by omega)]
    omega
  | through n l op count =>
    cases hf
    simp only [List.length_append, Layout.length_values, Int.natCast_add] at hl
    have hw : wrapInt ((n : Int) + 2) = n + 2 := wrapInt_of_small (by omega) (by omega)
    rcases op with op | op <;> simp only [effect, op, count, hw, List.length_cons,
      List.length_append, Layout.length_values] <;> omega
  | _ => cases hf <;> simp [effect, *] <;> omega

end

/-- Where an instruction of finished code can jump, or where the handler it installs begins. -/
def targets (i : Inst) : List Int :=
  match i.op with
  | .switch => i.table
  | .install => if i.target = noTarget then [] else [i.target]
  | op => if op.hasTarget then [i.target] else []

end Inst

/-- What is known about the active handler. -/
inductive Watch (α : Type) where
  | unknown
  | off
  | at (place : α)
  deriving DecidableEq

/-- What is known when control reaches a place. -/
structure Point (α : Type) where
  layout : Layout
  watch : Watch α

namespace Point

variable {α : Type}

/-- Whether control can go from one point to the other. -/
def Enters (p q : Point α) : Prop :=
  q.layout = p.layout ∧ (q.watch = .unknown ∨ q.watch = p.watch)

end Point

section

variable {α : Type} (points : α → Option (Point α))

/-- A handler begins at a place, and finds the error above its part of the stack. -/
def Layout.HandledAt (base : Layout) (place : α) : Prop :=
  ∃ q, points place = some q ∧ Point.Enters ⟨.value :: base, .off⟩ q

/-- Whether an error that is raised with a layout finds the handler with its part of the stack. -/
def Watch.Catches (w : Watch α) (l : Layout) : Prop :=
  match w with
  | .unknown => False
  | .off => True
  | .at place => ∃ base : Layout, base.HandledAt points place ∧ base <:+ l

/-- The active handler after an instruction with the given targets. -/
def Inst.watchAfter (i : Inst) (targets : List α) (w : Watch α) : Watch α :=
  if i.op = .install then
    match targets with
    | [] => .off
    | t :: _ => .at t
  else w

/-- The ways out of an instruction lead to points that fit. -/
structure Inst.Leads (i : Inst) (targets : List α) (p : Point α) (next : Option (Point α))
    (f : Flow) : Prop where
  falls : ∀ l, f.fall = some l → ∃ q, next = some q ∧
    Point.Enters ⟨l, i.watchAfter targets p.watch⟩ q
  jumps : ∀ l, f.jump = some l → ∀ t ∈ targets, ∃ q, points t = some q ∧
    Point.Enters ⟨l, p.watch⟩ q
  raises : ∀ l, f.raised = some l → p.watch.Catches points l
  installs : i.op = .install → ∀ t ∈ targets, ∃ base : Layout,
    base.HandledAt points t ∧ (base.length : Int) = i.count ∧ base <:+ p.layout

/-- An instruction agrees with the points around it: with its own, with that of the next
instruction, and with those of its targets. -/
def Inst.Typed (captures : Nat) (i : Inst) (targets : List α) (p : Point α)
    (next : Option (Point α)) : Prop :=
  ∃ f, i.Flows captures p.layout f ∧ i.Leads points targets p next f

end

namespace Func

/-- Points for the addresses that a function can reach. -/
structure Typing (fn : Func) (code : Code) (points : Int → Option (Point Int)) : Prop where
  params : fn.numParams = fn.params.length
  room : fn.frameSize < Frame.roomLimit
  entry : ∃ q, points fn.entry = some q ∧
    Point.Enters ⟨List.replicate fn.params.length .value, .off⟩ q
  addresses : ∀ a p, points a = some p → 0 ≤ a ∧ a < addressLimit
  heights : ∀ a p, points a = some p → (p.layout.length : Int) ≤ fn.frameSize
  typed : ∀ a p, points a = some p →
    ∃ i, code.at? a = some i ∧
      i.Typed points fn.upvalues.length i.targets p (points (a + 1))
  slots : ∀ e ∈ code.walk, e.2.op.isSlotAccess = true → e.2.count < fn.frameSize

/-- A function has code, and points for all addresses it can reach. -/
def IsTyped (fn : Func) : Prop := ∃ code points, fn.code = some code ∧ fn.Typing code points

end Func

end StagedScript
