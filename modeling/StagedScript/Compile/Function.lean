import StagedScript.Compile.Name

/-!
# Compiling operands, functions and calls

Operands are compiled from left to right, and then the instruction that consumes them is emitted.  A
function is compiled on its own and becomes an instruction that makes a closure.  A call of an
expander hands over the argument expressions and goes on with the expression it gives.
-/

namespace StagedScript

namespace Compiling

/-- The first of the parameters that has the name of an earlier one, with the line of that one. -/
def repeated? : (seen : List (Bytes × Nat)) → List Param → Option (Param × Nat)
  | _, [] => none
  | seen, p :: rest =>
    match seen.lookup p.name with
    | some line => some (p, line)
    | none => repeated? ((p.name, p.line) :: seen) rest

def redefined (name : Bytes) (first second : Nat) : Bytes :=
  "identifier " ++ name ++ " redefined (lines " ++ Bytes.ofNat first ++ " and " ++
    Bytes.ofNat second ++ ")"

def declareParams : (slot : Nat) → List Param → Compiling Unit
  | _, [] => return ()
  | slot, p :: rest => do
    declare (← newBinding
      { name := p.name, line := p.line, slot := slot, isVariable := true, state := .bound })
    declareParams (slot + 1) rest

def beginFunction (span : Span) (params : List Param) (extra named : Bool) (body : Expr)
    (isConstant : Bool) : Compiling Next := do
  if let some (p, line) := repeated? [] params then
    throw (.error (.plain .name ⟨span.source, p.line⟩ (redefined p.name line p.line)))
  let fn : FunctionState :=
    { builder := .empty (← read).blockSize
      top := params.length
      size := params.length
      params := params.map (·.name)
      flags := (if extra then 1 else 0) ||| (if named then 2 else 0)
      isConstant }
  modify fun s => { s with functions := fn :: s.functions }
  declareParams 0 params
  andThen (body.orNil span) (.finish span false)

/-- Prepares a captured value: a `let` that is not finished gets its placeholder, and a variable is
moved to the heap. -/
def prepareCapture (line : Nat) (source : Int) (id : BindingId) : Compiling Unit := do
  let b ← binding id
  if source < 0 || b.isConstant then return ()
  if b.state ≠ .bound then
    opCount line .localIndirect source
    op line .pop
  else if b.isVariable && !b.isReference then opCount line .box source

def prepareCaptures (line : Nat) : List Int → List BindingId → Compiling Unit
  | source :: sources, id :: ids => do
    prepareCapture line source id
    prepareCaptures line sources ids
  | _, _ => return ()

def finishFunction (span : Span) (isRoot : Bool) : Compiling Next := do
  op span.last .ret
  let fn ← current
  match fn.builder.finish with
  | .error u => failInternal u.message
  | .ok code =>
    let result : Func :=
      { source := span.source
        startLine := span.first
        endLine := span.last
        entry := 0
        frameSize := max fn.size fn.params.length
        numParams := fn.params.length
        flags := fn.flags
        params := fn.params
        decls := fn.decls
        upvalues := fn.upvalues
        code := some code }
    if isRoot then return .done result
    modify fun s => { s with functions := s.functions.drop 1 }
    prepareCaptures span.first fn.upvalues fn.captured
    return .give (.func result)

def resumeClosure (span : Span) (types : Option Nat) (v : Value) : Compiling Next := do
  match v with
  | .func fn =>
    emit { Inst.plain span.first .closure with func := some fn }
    if let some n := types then opCount span.first .method n
    return .give .nil
  | _ => failInternal "function compiled to something else"

def exitLoop (line : Nat) (loop : LoopScope) : Compiling Unit := do
  if !(← isActive loop.active) then activate line loop.active
  let d ← height
  jump line .exit loop.exit (d - 1 - loop.exitDepth)
  setHeight d

def eachElement (line : Nat) : Compiling Unit := do
  let depth := (← height) - 1
  let ended ← newLabel
  jump line .iterate ended 0
  let start ← newLabel
  bindLabel start (depth + 1)
  opCount line .key depth
  opCount line .element depth
  opCount line .suspend 2
  op line .resume
  op line .pop
  jump line .advance ended 0
  jump line .jump start 0
  bindLabel ended depth
  op line .nil

def consume (span : Span) (use : Consumer) (n : Nat) : Compiling Next := do
  let line := span.first
  match use with
  | .call => opCount line .call (n - 1 : Int)
  | .constCall fn => emit { Inst.plain line .constCall with value := fn, count := n }
  | .resolve name => emit { Inst.plain line .resolve with value := .str name }
  | .not => op line .not
  | .sequence .tuple => opCount line .tuple n
  | .sequence .list => opCount line .list n
  | .map => opCount line .map (n / 2 : Nat)
  | .suspend =>
    opCount line .suspend n
    op line .resume
  | .quote body => emit { Inst.plain line .quote with value := .expr body, count := n }
  | .ret =>
    let d ← height
    op line .ret
    setHeight d
  | .exit =>
    match (← current).loops with
    | loop :: _ => exitLoop line loop
    | [] => throw .stuck
  | .each => eachElement line
  | .method params extra body =>
    push (.closure span (some n))
    return ← beginFunction span params extra false body false
  return .give .nil

def operands (span : Span) (use : Consumer) (items : List Expr) : Compiling Next :=
  match items with
  | [] => consume span use 0
  | e :: rest => andThen e (.operands span use items.length rest)

def resumeOperands (span : Span) (use : Consumer) (count : Nat) (rest : List Expr) :
    Compiling Next :=
  match rest with
  | [] => consume span use count
  | e :: rest => andThen e (.operands span use count rest)

def expand (span : Span) (name : Bytes) (fn : Value) (arity : Int64) (args : List Expr) :
    Compiling Next := do
  if 0 ≤ arity && arity.toInt ≠ args.length then
    failAt span .expansion ("macro " ++ name ++ " expects " ++ Bytes.ofInt arity.toInt ++
      " arguments, got " ++ Bytes.ofNat args.length)
  push (.expansion span)
  return .wait ⟨span, .expansion, fn, args.map .expr⟩

def resumeExpansion (span : Span) (v : Value) : Compiling Next := do
  let rejected : Compiling Next := do
    failAt span .expansion ("macro returned non-expression " ++ v.display (← get).heap.shown)
  match v with
  | .expr e => if e.isAbsent then rejected else andThen e (.expanded span)
  | _ => rejected

def call (span : Span) (fn : Expr) (args : List Expr) : Compiling Next := do
  match ← constantOf? fn with
  | some (.expander name inner arity) => expand span name inner arity args
  | _ => operands span .call (fn :: args)

def textParts (span : Span) : List Expr → Compiling Next
  | [] => do
    op span.last .stringEnd
    return .give .nil
  | .value s (.str chars) :: rest => do
    emit { Inst.plain s.first .stringChars with chars, count := chars.length }
    textParts span rest
  | e :: rest => do
    let s ← spanOf e
    andThen e (.textParts span s.first rest)

def name (span : Span) (n : Bytes) : Compiling Next := do
  match ← resolve span n with
  | .constant v _ =>
    constant span.first v
    return .give v
  | r =>
    opCount span.first r.load.1 r.load.2
    return .give .nil

def comprehensionBody (span : Span) (value : Expr) : List GenClause → Expr
  | [] => .suspend span .absent value
  | c :: rest =>
    let body := comprehensionBody span value rest
    let here : Span := ⟨span.source, c.line, span.last⟩
    if c.filter.isAbsent then .forIn here c.key c.names c.unpack c.seq body .absent
    else .cond here [⟨c.line, .plain, c.filter, body⟩] .absent

end Compiling

end StagedScript
