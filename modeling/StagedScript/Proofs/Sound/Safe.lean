import StagedScript.Proofs.Sound.Run
import StagedScript.Proofs.Typing.Verify

/-!
# Safety of runs

What an instruction needs to find is said here without layouts.  In a run of sound calls every
instruction finds all of it, and every handler that takes an error finds a stack that is at least as
high as its own part.
-/

namespace StagedScript

namespace Opcode

/-- Whether the operation takes, or leaves, as many values as its count says. -/
def isCounted : Opcode → Bool
  | .goto | .retry | .exit | .leave | .call | .constCall | .tuple | .list | .map | .quote
  | .stringAdd | .catchOn => true
  | _ => false

end Opcode

/-- The least height at which an instruction finds all values that it pops, or reads relative to the
top, or keeps when it cuts the stack. -/
def Inst.reach (i : Inst) : Int :=
  match i.op with
  | .pop | .dup | .not | .ifNil | .ifNotNil | .and | .or | .switch | .ret | .raise | .resolve
  | .unpack | .symbols | .iterate | .advance | .assignLocal | .initVar | .initLet | .letBackfill
  | .initRef | .assignUpvalue | .stringChars | .stringEnd => 1
  | .exit | .leave | .call | .stringAdd | .catchOn => i.count + 1
  | .goto | .retry | .constCall | .tuple | .list | .quote => i.count
  | .map => 2 * i.count
  | _ => 0

namespace Frame

/-- An instruction is known and finds everything that it uses in a call. -/
structure Finds (f : Frame) (h : Heap) (i : Inst) : Prop where
  known : ∀ code, i.op ≠ .unknown code
  count : i.op.isCounted = true → 0 ≤ i.count
  reach : i.reach ≤ f.stack.depth
  slot : i.op.isSlotAccess = true → 0 ≤ i.count ∧ i.count < f.stack.depth
  upvalue : i.op = .upvalue ∨ i.op = .assignUpvalue → ∃ v, f.captured? h i.count = some v
  captures : i.op = .closure → ∃ fn, i.func = some fn ∧
    ∀ u ∈ fn.upvalues, ∃ v, f.capture? h u = some v
  buffer : i.op = .stringChars ∨ i.op = .stringEnd → ∃ n, f.stack.top? = some (.buffer n)
  bufferBelow : i.op = .stringAdd → ∃ vs s n, f.stack.popN? i.count = some (vs, s) ∧
    s.top? = some (.buffer n)
  iterator : i.op = .advance → ∃ n, f.stack.top? = some (.iterator n)
  iteratorAt : i.op = .key ∨ i.op = .element → ∃ n, f.stack.get? i.count = some (.iterator n)
  table : i.op = .switch → i.table ≠ []

/-- The stack of a call is at least as high as the part of the active handler. -/
def HandlerFits (f : Frame) : Prop :=
  f.handler ≠ noTarget → 0 ≤ f.handlerDepth ∧ f.handlerDepth ≤ f.stack.depth

end Frame

/-- The handler that takes an error of this step, or of the call it makes, finds its part of the
stack. -/
def Step.HandlerFits : Step → Prop
  | .raise _ f _ | .call _ _ f _ => f.HandlerFits
  | .next .. | .return .. => True

/-- The next instruction of the innermost call finds what it uses, and all handlers that an error
may come to find their parts of the stack. -/
def Machine.Safe (frames : List Frame) (h : Heap) : Prop :=
  ∃ f rest code i st, frames = f :: rest ∧ f.fn.code = some code ∧ code.at? f.ip = some i ∧
    f.Finds h i ∧ f.step h = some st ∧ st.HandlerFits ∧ ∀ g ∈ rest, g.HandlerFits

section

variable {points : Int → Option (Point Int)} {f : Frame} {h : Heap} {i : Inst} {l : Layout}
  {w : Watch Int} {vs : List Value} {captures : Nat} {flow : Flow}

theorem Frame.Stands.depth (hst : f.Stands points h l w vs) : f.stack.depth = l.length :=
  hst.stack.depth.trans hst.fits.length

section

variable (hflow : i.Flows captures l flow)

include hflow

theorem Inst.Flows.count_nonneg (hop : i.op.isCounted = true) :
    0 ≤ i.count := by
  cases hflow with
  | push l op | load l op | element l op | jump l op | test l op | connective l op
  | through n l op =>
    rcases op with op | op <;> simp [op, Opcode.isCounted] at hop
  | store l op => rcases op with op | op | op | op | op <;> simp [op, Opcode.isCounted] at hop
  | _ => first | omega | simp [*, Opcode.isCounted] at hop

theorem Inst.Flows.reach_le : i.reach ≤ l.length := by
  cases hflow with
  | push l op | load l op | element l op | jump l op | test l op | connective l op
  | through n l op | collect n l op =>
    rcases op with op | op <;> simp only [Inst.reach, *, List.length_cons, List.length_append,
      Layout.length_values] <;> omega
  | store l op =>
    rcases op with op | op | op | op | op <;> simp only [Inst.reach, op, List.length_cons] <;> omega
  | _ =>
    simp only [Inst.reach, *, List.length_cons, List.length_append, Layout.length_values]
    omega

theorem Inst.Flows.upvalue_lt
    (hop : i.op = .upvalue ∨ i.op = .assignUpvalue) : 0 ≤ i.count ∧ i.count < captures := by
  rcases hop with hop | hop <;> cases hflow <;> simp_all

theorem Inst.Flows.canCapture (hop : i.op = .closure) :
    ∃ fn, i.func = some fn ∧ ∀ u ∈ fn.upvalues, l.CanCapture captures u := by
  cases hflow <;> simp_all

theorem Inst.Flows.buffer_on_top
    (hop : i.op = .stringChars ∨ i.op = .stringEnd) : ∃ l', l = .buffer :: l' := by
  rcases hop with hop | hop <;> cases hflow <;> simp_all

theorem Inst.Flows.buffer_below (hop : i.op = .stringAdd) :
    ∃ (n : Nat) (l' : Layout), i.count = n ∧ l = Layout.values n ++ .buffer :: l' := by
  cases hflow with
  | stringAdd n l op count => exact ⟨n, l, count, rfl⟩
  | _ => simp_all

theorem Inst.Flows.iterator_on_top (hop : i.op = .advance) :
    ∃ l', l = .iterator :: l' := by
  cases hflow <;> simp_all

theorem Inst.Flows.iterator_at
    (hop : i.op = .key ∨ i.op = .element) : l.kindAt? i.count = some .iterator := by
  rcases hop with hop | hop <;> cases hflow <;> simp_all

theorem Inst.Flows.table_ne (hop : i.op = .switch) :
    i.table ≠ [] := by
  cases hflow <;> simp_all

/-- A typed instruction finds what it uses in a call that fits its layout. -/
theorem Inst.Flows.finds (hst : f.Stands points h l w vs)
    (hcaptured : f.HasCaptured h captures) : f.Finds h i where
  known := hflow.known
  count := hflow.count_nonneg
  reach := by
    rw [hst.depth]
    exact hflow.reach_le
  slot hop := by
    have := hflow.slot hop
    rw [hst.depth]
    split at this <;> omega
  upvalue hop := by
    obtain ⟨hlower, hupper⟩ := hflow.upvalue_lt hop
    exact hcaptured.captured? hlower hupper
  captures hop := by
    obtain ⟨fn, hfn, hsources⟩ := hflow.canCapture hop
    exact ⟨fn, hfn, fun u hu => capture?_isSome hst hcaptured (hsources u hu)⟩
  buffer hop := by
    obtain ⟨l', rfl⟩ := hflow.buffer_on_top hop
    obtain ⟨_, us, ⟨n, rfl⟩, -, rfl⟩ := Layout.fits_cons.1 hst.fits
    exact ⟨n, hst.stack.top?⟩
  bufferBelow hop := by
    obtain ⟨n, l', hcount, rfl⟩ := hflow.buffer_below hop
    obtain ⟨ws, us, s, rfl, hpop, hholds, hfit, -⟩ := hst.popValues
    obtain ⟨_, us, ⟨m, rfl⟩, -, rfl⟩ := Layout.fits_cons.1 hfit
    exact ⟨ws.reverse, s, m, by rw [hcount, hpop], hholds.top?⟩
  iterator hop := by
    obtain ⟨l', rfl⟩ := hflow.iterator_on_top hop
    obtain ⟨_, us, ⟨n, rfl, -⟩, -, rfl⟩ := Layout.fits_cons.1 hst.fits
    exact ⟨n, hst.stack.top?⟩
  iteratorAt hop := by
    obtain ⟨ws, n, us, rfl, hslot, -, -⟩ := hst.fits.iterator (hflow.iterator_at hop)
    exact ⟨n, by rw [hslot, hst.stack.get?]⟩
  table := hflow.table_ne

end

end

namespace Frame

variable {f : Frame} {h : Heap} {its : List Nat}

/-- The next instruction of a typed call with its captured values is inside the code and finds what
it uses. -/
theorem Running.finds (hrun : f.Running h its) (hcaptured : f.HasCaptured h f.fn.upvalues.length) :
    ∃ code i, f.fn.code = some code ∧ code.at? f.ip = some i ∧ f.Finds h i := by
  obtain ⟨code, points, hcode, ht, p, vs, hp, hst, -⟩ := hrun
  obtain ⟨i, hi, flow, hflow, -⟩ := ht.typed _ p hp
  exact ⟨code, i, hcode, hi, hflow.finds hst hcaptured⟩

theorem Raising.handlerFits (hr : f.Raising h its) : f.HandlerFits := by
  intro hactive
  obtain ⟨code, points, w, -, -, l, vs, hcatch, hst, -⟩ := hr
  cases w with
  | unknown => exact absurd hcatch id
  | off => exact absurd hst.handler hactive
  | «at» a =>
    obtain ⟨base, ⟨q, hq, henter⟩, hsuf⟩ := hcatch
    obtain ⟨-, base', ⟨q', hq', henter'⟩, hdepth⟩ := hst.handler
    -- the handler has one point, so both parts are the same
    cases Option.some.inj (hq.symm.trans hq')
    obtain rfl : base = base' := (List.cons.inj (henter.1.symm.trans henter'.1)).2
    have hle := hsuf.length_le
    have hheight := hst.depth
    omega

end Frame

theorem Step.Sustains.handlerFits {st : Step} {its : List Nat} (hst : st.Sustains its) :
    st.HandlerFits := by
  cases st with
  | next => trivial
  | «return» => trivial
  | raise e f h => exact Frame.Raising.handlerFits hst
  | call fn args f h => exact (Frame.Waiting.raising hst).handlerFits

namespace Machine

variable {f : Frame} {frames rest : List Frame} {h : Heap} {its : List Nat}

theorem WaitingCalls.handlerFits (hw : WaitingCalls rest h its) : ∀ g ∈ rest, g.HandlerFits := by
  induction rest generalizing its with
  | nil => simp
  | cons f rest ih =>
    obtain ⟨-, own, others, -, hown, hothers⟩ := hw
    exact List.forall_mem_cons.2 ⟨hown.raising.handlerFits, ih hothers⟩

theorem SoundCalls.safe (hcalls : SoundCalls frames h) : Safe frames h := by
  obtain ⟨f, rest, own, others, rfl, hh, hf, hrun, hw, ho⟩ := hcalls
  obtain ⟨code, i, hcode, hi, hfinds⟩ := hrun.finds hf.captured
  obtain ⟨_, _, -, -, -, ⟨-, hwhy⟩ | ⟨st, own', hst, hsustains, -⟩⟩ := hrun.step
  · rcases hwhy with ⟨-, n, hn, -, hdead⟩ | hlacks
    · exact absurd (ho.2 n (List.mem_append_left _ hn)) hdead
    · exact absurd hf.captured hlacks
  · exact ⟨f, rest, code, i, st, rfl, hcode, hi, hfinds, hst, hsustains.handlerFits,
      hw.handlerFits⟩

end Machine

end StagedScript
