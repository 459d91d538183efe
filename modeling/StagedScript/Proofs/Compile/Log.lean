import StagedScript.Proofs.Code.Record
import StagedScript.Proofs.Compile.Origin
import StagedScript.Proofs.Sound.Value
import StagedScript.Proofs.Typing.Emit

/-!
# What is known at the start of a round

A *log* has what was emitted before a round of the compilation, and what the round is for.  The
instructions that a round emits may raise errors only while the handler is active that belongs to
the expression of the round, and its frames keep only parts of this expression.
-/

variable {z : CapturedCounts}

namespace StagedScript

/-- An instruction that has been emitted. -/
structure Mark where
  inst : Inst
  targets : List Label
  point : Point Label
  origin : Origin

/-- What the compiler records about the constructs around an expression. -/
structure Records where
  scope : List BindingId
  loops : List LoopScope
  guards : List Protected
  handling : Option Protected
  olds : List OldValue

structure Pin extends Records where
  /-- The declarations that the expression may bring into scope. -/
  own : List BindingId

/-- The watch for a handler that may be the active one. -/
def Protected.watchOf : Option Protected → Watch Label
  | none => .off
  | some p => .at p.handler

/-- A function under construction at the start of a round. -/
structure Draft where
  body : Expr
  past : List Mark
  /-- Labels that have been fixed, with the numbers of the instructions at their places. -/
  bound : List (Label × Nat)
  origin : Origin
  /-- The frame at the end of the function. -/
  last : Waiting
  /-- The records at the start of the expression of the round, and of those around it. -/
  pins : List Pin

/-- A function that waits for the code of one inside of it. -/
structure Outer extends Draft where
  frame : Waiting
  records : Records

/-- What is known at the start of a round. -/
structure Log extends Draft where
  outer : List Outer
  finished : List Func
  began : Nat

/-- Code consists of the marked instructions, at their points, and of links.  Labels that have been
fixed are at their places. -/
structure Func.LaidOut (fn : Func) (marks : List Mark) (bound : List (Label × Nat)) (code : Code)
    (points : Int → Option (Point Int)) (target : Label → Int) : Prop where
  code_eq : fn.code = some code
  typing : fn.Typing code points
  raising : ∀ a p i, points a = some p → code.at? a = some i → i.op.raises = true →
    ∃ (k : Nat) (m : Mark), a = Builder.addressOf code.blockSize.toNat k ∧
      marks[k]? = some m ∧ m.inst.op.raises = true ∧ p = m.point.map target
  inst : ∀ (k : Nat) m, marks[k]? = some m →
    ∃ i, code.at? (Builder.addressOf code.blockSize.toNat k) = some i ∧ i.op = m.inst.op ∧
      i.count = m.inst.count ∧ i.targets = m.targets.map target ∧
      (∀ p, points (Builder.addressOf code.blockSize.toNat k) = some p → p = m.point.map target) ∧
      (m.inst.op = .install → ∀ l ∈ m.targets, ∃ base : Layout,
        base.HandledAt points (target l) ∧ (base.length : Int) = m.inst.count)
  place : ∀ e ∈ bound, target e.1 = Builder.placeOf code.blockSize.toNat e.2

/-- The code of a finished function consists of the marked instructions.  Functions in it have been
finished before, and its record says everything about it. -/
structure Func.Marked (fn : Func) (marks : List Mark) (bound : List (Label × Nat))
    (finished : List Func) : Prop where
  laidOut : ∃ code points target, fn.LaidOut marks bound code points target
  nested : ∀ code, fn.code = some code → ∀ block ∈ code.blocks, ∀ i ∈ block,
    ∀ g, i.func = some g → g ∈ finished
  regular : ∀ code, fn.code = some code → code.IsRegular

/-- The instructions for a block begin with one that installs its handler. -/
def InstallsAt (marks : List Mark) (block : Expr) (start : Nat) (p : Protected) : Prop :=
  ∃ m, marks[start]? = some m ∧ m.inst.op = .install ∧ m.inst.count = p.depth ∧
    m.targets = [p.handler] ∧ (m.point.layout.length : Int) = p.depth ∧ m.origin.expr = block

/-- The parts that a frame keeps for later, except for statements. -/
def Waiting.pending : Waiting → List Expr
  | .operands _ _ _ rest | .textParts _ _ rest => rest
  | .handlerTypes h rest => rest ++ h.clause.body :: Handler.parts h.later
  | .handlerBody h _ _ => Handler.parts h.later
  | .assignTarget _ value => [value]
  | .logicLeft _ _ right _ => [right]
  | .condTest c arm later _ _ => arm.body :: c.otherwise :: CondCase.parts later
  | .condBody c _ later _ _ => c.otherwise :: CondCase.parts later
  | .exitCond _ _ value _ => [value]
  | .forSequence _ _ _ _ body otherwise => [body, otherwise]
  | .forBody f => [f.otherwise]
  | .switchSubject _ arms otherwise => otherwise :: arms
  | .switchCase s _ arms _ => s.otherwise :: arms
  | .selectSubject s clauses => s.otherwise :: SelectClause.parts clauses
  | .selectValue c rest => rest ++ c.clause.body :: c.select.otherwise :: SelectClause.parts c.later
  | .selectBody c => c.select.otherwise :: SelectClause.parts c.later
  | .scopedValue _ _ _ _ _ values body => body :: values
  | _ => []

def ConstantUse.ids : ConstantUse → List BindingId
  | .inline => []
  | .define _ ids => ids

namespace Draft

def own (d : Draft) : List BindingId := d.pins.head?.elim [] (·.own)

/-- The handler that is active for the expression of the round. -/
def here (d : Draft) : Watch Label := Protected.watchOf (d.pins.head?.bind (·.guards.head?))

/-- A frame has been given a value in the round. -/
def giving (d : Draft) (w : Waiting) : Draft := { d with origin := { d.origin with given := some w } }

/-- The frames of the constructs around the expression of the round. -/
def frames (d : Draft) : List Waiting := d.origin.around.map (·.frame) ++ [d.last]

/-- The round is the last one of the function. -/
def IsLast (d : Draft) : Prop := d.origin.around = [] ∧ d.origin.given = none ∧ d.pins = []

/-- An expression is a part of that of the round, or stands for one that was left out. -/
def Has (d : Draft) (e : Expr) : Prop := e ∈ d.origin.expr.parts ∨ ∃ span, e = .nil span

structure IsBlock (d : Draft) (b : BlockScope) : Prop where
  expr : ∃ span vars lets defs body, d.origin.expr = .block span vars lets defs body b.handlers
  guarded : b.guarded.isSome = !b.handlers.isEmpty
  installs : ∀ p, b.guarded = some p → InstallsAt d.past d.origin.expr d.origin.start p

/-- A frame keeps only parts of the expression of the round, and declarations that it may bring into
scope. -/
def Keeps (d : Draft) : Waiting → Prop
  | .statements b rest => d.IsBlock b ∧ ∀ e ∈ rest, e ∈ d.origin.expr.statements
  | .expansion _ | .expanded _ => d.origin.expr.isCall = true
  | .binding _ _ _ ids => ∀ id ∈ ids, id ∈ d.own
  | .constantCode _ use | .constantValue _ use => ∀ id ∈ use.ids, id ∈ d.own
  | w => ∀ e ∈ w.pending, d.Has e

/-- A part of the expression of the round is compiled with a frame that waits for its value. -/
structure Opens (d : Draft) (w : Waiting) (e : Expr) : Prop where
  keeps : d.Keeps w
  part : Construct.HasPart ⟨d.origin.expr, d.origin.start, w⟩ e

theorem IsBlock.has_handlers {d : Draft} {b : BlockScope} (h : d.IsBlock b) :
    ∀ e ∈ Handler.parts b.handlers, d.Has e := by
  obtain ⟨span, vars, lets, defs, body, hexpr⟩ := h.expr
  exact fun e he => .inl (by rw [hexpr]; exact he)

theorem Has.orNil {d : Draft} {e : Expr} (h : d.Has e) (span : Span) : d.Has (e.orNil span) := by
  unfold Expr.orNil
  split
  · exact .inr ⟨span, rfl⟩
  · exact h

end Draft

namespace Log

/-- The code of the current function agrees with the log: it begins with the marks, and labels are
at their places. -/
structure Holds (L : Log) (b : Builder) (pts : List (Point Label)) : Prop where
  past : ∀ (k : Nat) m, L.past[k]? = some m → b.insts[k]? = some m.inst ∧
    b.targetsOf k = m.targets ∧ pts[k]? = some m.point
  new : ∀ (k : Nat) i p, L.past.length ≤ k → b.insts[k]? = some i → pts[k]? = some p →
    i.op.raises = true → p.watch = L.here
  bound : ∀ e ∈ L.bound, b.aims[e.1]? = some (some (.place e.2))

def Emits (L : Log) (new : List Mark) : Prop :=
  ∀ m ∈ new, m.origin = L.origin ∧ (m.inst.op.raises = true → m.point.watch = L.here)

/-- The operands of an instruction are sound, and its function has been finished. -/
structure Allows (L : Log) (z : CapturedCounts) (i : Inst) : Prop where
  value : i.value.Sound z
  func : ∀ fn, i.func = some fn → fn.Sound z ∧ fn ∈ L.finished
  constant : i.hasConstant = false → i.value = .nil

theorem Allows.sound {L : Log} {i : Inst} (h : L.Allows z i) : i.Sound z :=
  ⟨h.value, fun fn hfn => (h.func fn hfn).1⟩

theorem Allows.mono {L L' : Log} {i : Inst} (h : L.Allows z i)
    (hfinished : L.finished ⊆ L'.finished) : L'.Allows z i :=
  { h with func := fun fn hfn => (h.func fn hfn).imp_right (@hfinished fn) }

theorem Allows.plain {L : Log} {i : Inst} (hvalue : i.value = .nil)
    (hfunc : i.func = none) : L.Allows z i where
  value := by
    rw [hvalue]
    trivial
  func fn hfn := by
    rw [hfunc] at hfn
    cases hfn
  constant _ := hvalue

/-- A function around the current one, seen from it. -/
def outside (o : Outer) (finished : List Func) : Log :=
  ⟨o.toDraft, [], finished, o.past.length⟩

def withMarks (L : Log) (new : List Mark) : Log := { L with past := L.past ++ new }

/-- The log of a function that is begun while a frame waits for its code. -/
def inner (L : Log) (w : Waiting) (records : Records) (body : Expr) (span : Span) (pin : Pin) : Log where
  body := body
  past := []
  bound := []
  origin := ⟨body, 0, none, []⟩
  last := .finish span false
  pins := [pin]
  outer := ⟨L.giving w, w, records⟩ :: L.outer
  finished := L.finished
  began := 0

/-- The log of the function around one that is finished. -/
def afterInner (o : Outer) (outer : List Outer) (finished : List Func) : Log :=
  ⟨o.toDraft, outer, finished, o.past.length⟩

variable {L : Log} {b b' : Builder} {pts : List (Point Label)}

theorem Holds.congr (h : L.Holds b pts) (hinsts : b'.insts = b.insts) (hsites : b'.sites = b.sites)
    (haims : ∀ (l : Label) a, b.aims[l]? = some (some a) → b'.aims[l]? = some (some a)) :
    L.Holds b' pts := by
  have htargets : ∀ k, b'.targetsOf k = b.targetsOf k := fun k => by
    rw [Builder.targetsOf, Builder.sitesOf, hsites]
    rfl
  constructor
  · intro k m hm
    rw [hinsts, htargets]
    exact h.past k m hm
  · intro k i p hk hi
    rw [hinsts] at hi
    exact h.new k i p hk hi
  · exact fun e he => haims _ _ (h.bound e he)

theorem Holds.length_le (h : L.Holds b pts) : L.past.length ≤ b.insts.size := by
  by_contra hlt
  obtain ⟨m, hm⟩ : ∃ m, L.past[b.insts.size]? = some m :=
    ⟨_, List.getElem?_eq_getElem (by omega)⟩
  have := (h.past _ m hm).1
  simp at this

theorem Holds.exists_marks (h : L.Holds b pts) (hcount : pts.length = b.insts.size) :
    ∃ new, L.Emits new ∧ (L.past ++ new).length = b.insts.size ∧
      ∀ {L' : Log}, L'.past = L.past ++ new →
        (∀ e ∈ L'.bound, b.aims[e.1]? = some (some (.place e.2))) → L'.Holds b pts := by
  have hlen := h.length_le
  -- what has been emitted in this round belongs to its origin
  let mark (j : Fin (b.insts.size - L.past.length)) : Mark :=
    ⟨b.insts[L.past.length + j.1], b.targetsOf (L.past.length + j.1), pts[L.past.length + j.1],
      L.origin⟩
  have hmark : ∀ (k : Nat) m, (List.ofFn mark)[k]? = some m →
      b.insts[L.past.length + k]? = some m.inst ∧ b.targetsOf (L.past.length + k) = m.targets ∧
        pts[L.past.length + k]? = some m.point ∧ m.origin = L.origin := by
    intro k m hm
    rw [List.getElem?_ofFn] at hm
    split at hm
    · cases hm
      exact ⟨Array.getElem?_eq_getElem _, rfl, List.getElem?_eq_getElem _, rfl⟩
    · cases hm
  refine ⟨List.ofFn mark, ?_, by simp; omega, ?_⟩
  · intro m hm
    obtain ⟨k, hk⟩ := List.mem_iff_getElem?.1 hm
    obtain ⟨hi, -, hp, horigin⟩ := hmark k m hk
    exact ⟨horigin, h.new _ _ _ (by omega) hi hp⟩
  · intro L' hpast hbound
    refine ⟨?_, ?_, hbound⟩
    · intro k m hm
      rw [hpast] at hm
      by_cases hk : k < L.past.length
      · rw [List.getElem?_append_left hk] at hm
        exact h.past k m hm
      · rw [List.getElem?_append_right (by omega)] at hm
        obtain ⟨hi, htargets, hp, -⟩ := hmark _ m hm
        rw [show L.past.length + (k - L.past.length) = k by omega] at hi htargets hp
        exact ⟨hi, htargets, hp⟩
    · intro k i p hk hi
      have hlt : k < b.insts.size := (Array.getElem?_eq_some_iff.1 hi).1
      rw [hpast, List.length_append, List.length_ofFn] at hk
      omega

/-- Another instruction is emitted, with which the code agrees with another log. -/
structure Appends (L L' : Log) (b : Builder) (i : Inst) (p : Point Label) (sites : List Site) :
    Prop where
  finished : L'.finished = L.finished
  holds : ∀ pts, L.Holds b pts → pts.length = b.insts.size →
    (∀ s ∈ sites, s.inst = b.insts.size) → (∀ s ∈ b.sites, s.inst < b.insts.size) →
    L'.Holds (b.withInst i sites) (pts ++ [p])

section

variable {i : Inst} {p : Point Label} {sites : List Site} {k : Nat} {m : Mark}

theorem Holds.past_append (h : L.Holds b pts) (hcount : pts.length = b.insts.size)
    (hplaces : ∀ s ∈ sites, s.inst = b.insts.size) (hm : L.past[k]? = some m) :
    (b.withInst i sites).insts[k]? = some m.inst ∧ (b.withInst i sites).targetsOf k = m.targets ∧
      (pts ++ [p])[k]? = some m.point := by
  have hlen := h.length_le
  have hk : k < L.past.length := (List.getElem?_eq_some_iff.1 hm).1
  obtain ⟨hi, htargets, hp⟩ := h.past k m hm
  refine ⟨?_, ?_, ?_⟩
  · unfold Builder.withInst
    rw [Array.getElem?_push_lt (by omega)]
    simpa [Array.getElem?_eq_getElem (show k < b.insts.size by omega)] using hi
  · rw [← htargets, Builder.targetsOf, Builder.targetsOf,
      Builder.sitesOf_withInst_of_ne hplaces (by omega)]
  · rw [List.getElem?_append_left (by omega)]
    exact hp

/-- An instruction of the round raises errors only while the right handler is active. -/
theorem Appends.new (hwatch : i.op.raises = true → p.watch = L.here) :
    L.Appends L b i p sites where
  finished := rfl
  holds pts h hcount hplaces hold := by
    refine ⟨fun k m hm => h.past_append hcount hplaces hm, fun k j q hk hj hq hraises => ?_,
      h.bound⟩
    rw [Builder.withInst, Array.getElem?_push] at hj
    split at hj
    next heq =>
      cases hj
      subst heq
      rw [← hcount, List.getElem?_concat_length] at hq
      cases hq
      exact hwatch hraises
    next hne =>
      have hlt : k < b.insts.size := (Array.getElem?_eq_some_iff.1 hj).1
      rw [List.getElem?_append_left (by omega)] at hq
      exact h.new k j q hk hj hq hraises

theorem Appends.raising {captures : Nat} {f : Flow} (hflow : i.Flows captures p.layout f)
    (hraise : ∀ l, f.raised = some l → p.watch = L.here) : L.Appends L b i p sites := by
  refine .new fun hraises => ?_
  obtain ⟨l, hl⟩ := Option.isSome_iff_exists.1 (hflow.raised_isSome.trans hraises)
  exact hraise l hl

theorem Appends.quiet (hquiet : i.op.raises = false) : L.Appends L b i p sites :=
  .new fun hraises => absurd (hraises.symm.trans hquiet) nofun

theorem Appends.mark (hsize : b.insts.size = L.past.length)
    (hm : m = ⟨i, sites.map (·.label), p, L.origin⟩) :
    L.Appends (L.withMarks [m]) b i p sites where
  finished := rfl
  holds pts h hcount hplaces hold := by
    subst hm
    refine ⟨?_, ?_, h.bound⟩
    · intro k m hm
      change (L.past ++ _)[k]? = some m at hm
      by_cases hk : k < L.past.length
      · rw [List.getElem?_append_left hk] at hm
        exact h.past_append hcount hplaces hm
      · rw [List.getElem?_append_right (by omega), List.getElem?_singleton] at hm
        split at hm
        next heq =>
          obtain rfl : k = b.insts.size := by omega
          cases hm
          refine ⟨by simp [Builder.withInst], ?_, by simp [← hcount]⟩
          rw [Builder.targetsOf, Builder.sitesOf_withInst_self hplaces hold]
        next => cases hm
    · intro k j q hk hj
      have hlt := (Array.getElem?_eq_some_iff.1 hj).1
      simp only [Builder.withInst, withMarks, Array.size_push, List.length_append,
        List.length_singleton] at hlt hk
      omega

end

end Log

end StagedScript
