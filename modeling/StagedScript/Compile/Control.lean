import StagedScript.Compile.Function

/-!
# Compiling conditionals, loops and choices

Every construct leaves exactly one value on the stack, on each of its paths.  Code after a jump out
of a construct is not reached; its height counts as if the value were there.
-/

namespace StagedScript

namespace Compiling

/-! ### Connectives -/

def resumeLogicLeft (span : Span) (o : Connective) (right : Expr) (done : Label) :
    Compiling Next := do
  let test := match o with
    | .conj => Opcode.and
    | .disj => Opcode.or
  jump span.first test done 0
  andThen right (.logicRight span done)

def resumeLogicRight (done : Label) : Compiling Next := do
  bindLabel done (← height)
  return .give .nil

/-! ### Conditionals -/

def endCond (c : CondScope) : Compiling Next := do
  bindLabel c.done (c.depth + 1)
  return .give .nil

def condArms (c : CondScope) (arms : List CondCase) : Compiling Next := do
  match arms with
  | [] =>
    if c.otherwise.isAbsent then
      op c.span.last .nil
      endCond c
    else andThen c.otherwise (.condElse c)
  | arm :: later =>
    let next ← newLabel
    let declared (n : Bytes) (isVariable : Bool) : Compiling (Option BindingId) := do
      let b : Binding := { name := n, line := arm.line, slot := ← height, isVariable }
      enter arm.line [b.info]
      return some (← newBinding b)
    let bound ← match arm.guard with
      | .plain => pure none
      | .variable n => declared n true
      | .letName n => declared n false
    andThen arm.cond (.condTest c arm later next bound)

def cond (span : Span) (arms : List CondCase) (otherwise : Expr) : Compiling Next := do
  let done ← newLabel
  condArms ⟨span, otherwise, ← height, done⟩ arms

def resumeCondTest (c : CondScope) (arm : CondCase) (later : List CondCase) (next : Label)
    (bound : Option BindingId) : Compiling Next := do
  let scope ← match bound with
    | none => pure none
    | some id =>
      let b ← binding id
      opCount arm.line (if b.isVariable then .initVar else .initLet) b.slot
      markBound id
      let scope := (← current).scope
      declare id
      pure (some scope)
  jump arm.line .ifNil next 0
  andThen arm.body (.condBody c arm later next scope)

def resumeCondBody (c : CondScope) (arm : CondCase) (later : List CondCase) (next : Label)
    (scope : Option (List BindingId)) : Compiling Next := do
  let line := (← spanOf arm.body).last
  match scope with
  | some scope =>
    opCount line .leave 1
    modifyCurrent ({ · with scope })
    jump line .jump c.done 0
    bindLabel next (c.depth + 1)
    op line .pop
  | none =>
    jump line .jump c.done 0
    bindLabel next c.depth
  condArms c later

/-! ### Loops -/

def loop (span : Span) (body : Expr) : Compiling Next := do
  let exit ← newLabel
  let next ← newLabel
  let fn ← current
  let l : LoopScope := ⟨exit, next, fn.top, fn.top, fn.guards.head?⟩
  bindLabel next fn.top
  modifyCurrent fun fn => { fn with loops := l :: fn.loops }
  andThen body (.loopBody span l)

def resumeLoopBody (span : Span) (l : LoopScope) : Compiling Next := do
  op span.last .pop
  jump span.last .jump l.next 0
  modifyCurrent fun fn => { fn with loops := fn.loops.drop 1 }
  bindLabel l.exit (l.exitDepth + 1)
  return .give .nil

def nextRound (span : Span) : Compiling Next := do
  match (← current).loops with
  | [] => failAt span .compiler "next not in loop"
  | l :: _ =>
    if !(← isActive l.active) then activate span.first l.active
    let d ← height
    jump span.first .goto l.next (d - l.nextDepth)
    setHeight (d + 1)
    return .give .nil

def exitTest (span : Span) (test : ExitTest) (condition value : Expr) : Compiling Next := do
  match (← current).loops with
  | [] =>
    let word : Bytes := match test with
      | .whileHolds => "while"
      | .untilHolds => "until"
    failAt span .compiler (word ++ " not in loop")
  | l :: _ => andThen condition (.exitCond span test value l)

def endExitTest (span : Span) (l : LoopScope) (stay : Label) : Compiling Next := do
  exitLoop span.first l
  bindLabel stay ((← height) - 1)
  op span.first .nil
  return .give .nil

def resumeExitCond (span : Span) (test : ExitTest) (value : Expr) (l : LoopScope) :
    Compiling Next := do
  let stay ← newLabel
  let o := match test with
    | .whileHolds => Opcode.ifNotNil
    | .untilHolds => Opcode.ifNil
  jump span.first o stay 0
  if value.isAbsent then
    op span.first .nil
    endExitTest span l stay
  else andThen value (.exitValue span l stay)

/-! ### Loops over sequences -/

def declareLoopNames : (slot : Int) → List Decl → Compiling Unit
  | _, [] => return ()
  | slot, d :: rest => do
    declare (← newBinding
      { name := d.name, line := d.line, slot, isVariable := true, state := .bound })
    declareLoopNames (slot + 1) rest

def endFor (f : ForScope) : Compiling Next := do
  bindLabel f.loop.exit (f.depth + 1)
  return .give .nil

def resumeForSequence (span : Span) (key : Option Decl) (names : List Decl) (unpack : Bool)
    (body otherwise : Expr) : Compiling Next := do
  let line := span.first
  let depth := (← height) - 1
  let ended ← newLabel
  jump line .iterate ended 0
  let exit ← newLabel
  let next ← newLabel
  let fn ← current
  let l : LoopScope := ⟨exit, next, depth, depth + 1, fn.guards.head?⟩
  let start ← newLabel
  bindLabel start (depth + 1)
  let keySlot ← height
  if key.isSome then opCount line .key depth
  opCount line .element depth
  if unpack then opCount line .unpack names.length
  let first := (← height) - names.length
  if let some d := key then declareLoopNames keySlot [d]
  declareLoopNames first names
  modifyCurrent fun fn => { fn with loops := l :: fn.loops }
  let slots := names.length + (if key.isSome then 1 else 0)
  andThen body (.forBody ⟨span, body, otherwise, depth, l, start, ended, fn.scope, slots⟩)

def resumeForBody (f : ForScope) : Compiling Next := do
  let line := (f.body.span?.getD f.span).last
  op line .pop
  modifyCurrent fun fn => { fn with loops := fn.loops.drop 1, scope := f.scope }
  if 0 < f.slots then jump line .goto f.loop.next f.slots
  bindLabel f.loop.next (f.depth + 1)
  jump line .advance f.ended 0
  jump line .jump f.start 0
  bindLabel f.ended f.depth
  if f.otherwise.isAbsent then
    op f.span.last .nil
    endFor f
  else andThen f.otherwise (.forElse f)

/-! ### Choices by number -/

def endSwitch (s : SwitchScope) : Compiling Next := do
  bindLabel s.done (s.depth + 1)
  return .give .nil

/-- Compiles the cases of a choice. There is one more label than cases. -/
def switchCases (s : SwitchScope) (arms : List Expr) (labels : List Label) : Compiling Next := do
  match arms, labels with
  | c :: later, l :: labels =>
    bindLabel l s.depth
    let line := (← spanOf c).last
    andThen c (.switchCase s line later labels)
  | _, l :: _ =>
    bindLabel l s.depth
    if s.otherwise.isAbsent then
      op s.span.last .nil
      endSwitch s
    else andThen s.otherwise (.switchElse s)
  | _, [] => throw .stuck

def resumeSwitchSubject (span : Span) (arms : List Expr) (otherwise : Expr) : Compiling Next := do
  let labels ← newLabels (arms.length + 1)
  write fun fn =>
    track { fn with builder := fn.builder.emitSwitch span.first labels } (.plain span.first .switch)
  let depth ← height
  let done ← newLabel
  switchCases ⟨span, otherwise, depth, done⟩ arms labels

def resumeSwitchCase (s : SwitchScope) (line : Nat) (arms : List Expr) (labels : List Label) :
    Compiling Next := do
  jump line .jump s.done 0
  switchCases s arms labels

/-! ### Choices by tests -/

def endSelect (s : SelectScope) : Compiling Next := do
  opCount s.span.last .leave 1
  bindLabel s.done (s.slot + 1)
  return .give .nil

def selectValues (c : ClauseScope) (values : List Expr) : Compiling Next := do
  match values with
  | v :: rest =>
    opCount c.clause.line .local c.select.slot
    andThen v (.selectValue c rest)
  | [] =>
    jump c.clause.line .jump c.next 0
    bindLabel c.body (c.select.slot + 1)
    andThen c.clause.body (.selectBody c)

def selectClauses (s : SelectScope) (clauses : List SelectClause) : Compiling Next := do
  match clauses with
  | [] =>
    if s.otherwise.isAbsent then
      op s.span.last .nil
      endSelect s
    else andThen s.otherwise (.selectElse s)
  | clause :: later =>
    let body ← newLabel
    let next ← newLabel
    selectValues ⟨s, clause, later, body, next⟩ clause.values

/-- Compiles a choice by tests. The subject is kept in a slot without a name. -/
def select (span : Span) (subject : Expr) (clauses : List SelectClause) (otherwise : Expr) :
    Compiling Next := do
  let slot ← height
  let done ← newLabel
  enter span.first [⟨[], span.first, slot⟩]
  andThen subject (.selectSubject ⟨span, otherwise, slot, done⟩ clauses)

def resumeSelectSubject (s : SelectScope) (clauses : List SelectClause) : Compiling Next := do
  opCount s.span.first .initVar s.slot
  op s.span.first .pop
  selectClauses s clauses

def resumeSelectValue (c : ClauseScope) (rest : List Expr) : Compiling Next := do
  let line := c.clause.line
  emit { Inst.plain line .constCall with value := .method c.clause.method, count := 2 }
  jump line .ifNotNil c.body 0
  selectValues c rest

def resumeSelectBody (c : ClauseScope) : Compiling Next := do
  let line := (c.clause.body.span?.getD c.select.span).last
  opCount line .leave 1
  jump line .jump c.select.done 0
  bindLabel c.next (c.select.slot + 1)
  selectClauses c.select c.later

end Compiling

end StagedScript
