import StagedScript.Compile.Function

/-!
# Compiling blocks, declarations and assignments

A block reserves the slots of its names on entry, and each name comes into scope with its
declaration.  The initializer of a constant is compiled as a function of its own and called while
compiling.
-/

namespace StagedScript

namespace Compiling

/-! ### Blocks and handlers -/

/-- Adds declarations of one kind to a block: reserves slots from one on, unless they are constants.
`seen` has the names so far with their lines. -/
def reserve (source : Bytes) (make : Decl → Int → Binding) :
    (seen : List (Bytes × Nat)) → (slot : Int) → List Decl →
    Compiling (List (Bytes × Nat) × List DeclInfo)
  | seen, _, [] => return (seen, [])
  | seen, slot, d :: rest => do
    if let some line := seen.lookup d.name then
      let first := min line d.line
      let second := max line d.line
      throw (.error (.plain .name ⟨source, second⟩ (redefined d.name first second)))
    let b := make d slot
    let id ← newBinding b
    modifyCurrent fun fn => { fn with reserved := (d.id, id) :: fn.reserved }
    let (seen, infos) ← reserve source make ((d.name, d.line) :: seen) (slot + 1) rest
    return (seen, b.info :: infos)

/-- Compiles the body of a handler. The error is in the slot at the height of the block. -/
def handlerBody (h : HandlerScope) : Compiling Next := do
  let fn ← current
  if !h.clause.name.isEmpty then
    declare (← newBinding
      { name := h.clause.name, line := h.clause.line, slot := h.guarded.depth, isVariable := true,
        state := .bound })
  modifyCurrent ({ · with handling := some h.guarded })
  andThen h.clause.body (.handlerBody h fn.scope fn.handling)

def handlerClauses (span : Span) (guarded : Protected) (done : Label) (clauses : List Handler) :
    Compiling Next := do
  match clauses with
  | [] =>
    op span.last .raise
    bindLabel done (guarded.depth + 1)
    return .give .nil
  | clause :: later =>
    let skip ← newLabel
    let h : HandlerScope := ⟨span, guarded, clause, later, done, skip⟩
    match clause.types with
    | [] => handlerBody h
    | e :: rest => andThen e (.handlerTypes h rest)

def resumeHandlerTypes (h : HandlerScope) (rest : List Expr) : Compiling Next := do
  match rest with
  | e :: rest => andThen e (.handlerTypes h rest)
  | [] =>
    jump h.clause.line .catchOn h.skip h.clause.types.length
    handlerBody h

def resumeHandlerBody (h : HandlerScope) (scope : List BindingId) (outer : Option Protected) :
    Compiling Next := do
  let line := (h.clause.body.span?.getD h.span).last
  opCount line .leave 1
  modifyCurrent ({ · with scope, handling := outer })
  jump line .jump h.done 0
  bindLabel h.skip (h.guarded.depth + 1)
  handlerClauses h.span h.guarded h.done h.later

/-- Leaves the scope of a block whose names are off the stack. -/
def closeBlock (b : BlockScope) : Compiling Next := do
  let line := b.span.last
  let ids := b.decls.map (·.id)
  modifyCurrent fun fn =>
    { fn with scope := b.scope, reserved := fn.reserved.filter fun r => !ids.contains r.1 }
  match b.guarded with
  | none => return .give .nil
  | some guarded =>
    modifyCurrent fun fn => { fn with guards := fn.guards.drop 1 }
    let around := (← current).guards.head?
    let done ← newLabel
    activate line around
    jump line .jump done 0
    bindLabel guarded.handler (guarded.depth + 1)
    activate ((b.handlers.head?.map (·.line)).getD 0) around
    handlerClauses b.span guarded done b.handlers

def endBlock (b : BlockScope) : Compiling Next := do
  if 0 < b.slots then opCount b.span.last .leave b.slots
  closeBlock b

def block (span : Span) (vars lets defs : List Decl) (body : List Expr) (handlers : List Handler) :
    Compiling Next := do
  let line := span.first
  let scope := (← current).scope
  let guarded ←
    if handlers.isEmpty then pure none
    else do
      let handler ← newLabel
      let retry ← newLabel
      let p : Protected := ⟨handler, retry, ← height⟩
      bindLabel retry p.depth
      jump line .install handler p.depth
      modifyCurrent fun fn => { fn with guards := p :: fn.guards }
      pure (some p)
  let base ← height
  let (seen, varInfos) ← reserve span.source
    (fun d slot => { name := d.name, line := d.line, slot, isVariable := true }) [] base vars
  let (seen, letInfos) ← reserve span.source
    (fun d slot => { name := d.name, line := d.line, slot }) seen (base + vars.length) lets
  let _ ← reserve span.source
    (fun d _ => { name := d.name, line := d.line, slot := -1, isConstant := true }) seen 0 defs
  let infos := varInfos ++ letInfos
  if !infos.isEmpty then enter line infos
  let b : BlockScope := ⟨span, vars ++ lets ++ defs, handlers, scope, infos.length, guarded⟩
  match body with
  | [] =>
    op line .nil
    endBlock b
  | e :: rest => andThen e (.statements b rest)

def resumeStatements (b : BlockScope) (rest : List Expr) : Compiling Next := do
  match rest with
  | [] => endBlock b
  | e :: rest =>
    op (← spanOf e).first .pop
    andThen e (.statements b rest)

/-! ### Declarations -/

def reservedIds (decls : List Decl) : Compiling (List BindingId) := do
  let fn ← current
  decls.mapM fun d =>
    match fn.reserved.lookup d.id with
    | some id => pure id
    | none => failInternal (d.name ++ " declaration outside a block")

def modifyEach (f : Binding → Binding) : List BindingId → Compiling Unit
  | [] => return ()
  | id :: rest => do
    modifyBinding id f
    modifyEach f rest

def declareOwn (pattern : Pattern) (ids : List BindingId) : Compiling Unit := do
  if pattern = .single then
    if let id :: _ := ids then declare id

/-- Compiles a declaration. A single `let` or constant is in scope in its own initializer. -/
def bind (span : Span) (binder : Binder) (pattern : Pattern) (decls : List Decl) (value : Expr) :
    Compiling Next := do
  let ids ← reservedIds decls
  if binder = .reference then modifyEach ({ · with isReference := true }) ids
  match binder with
  | .constant =>
    declareOwn pattern ids
    push (.constantCode span (.define pattern ids))
    beginFunction span [] false false (value.orNil span) true
  | .letName =>
    declareOwn pattern ids
    andThen (value.orNil span) (.binding span binder pattern ids)
  | .variable | .reference => andThen (value.orNil span) (.binding span binder pattern ids)

def storeOp : Binder → Opcode
  | .variable => .initVar
  | .reference => .initRef
  | .letName | .constant => .initLet

def storeEach (line : Nat) (o : Opcode) : List BindingId → Compiling Unit
  | [] => return ()
  | id :: rest => do
    opCount line o (← binding id).slot
    op line .pop
    storeEach line o rest

def declareEach : List BindingId → Compiling Unit
  | [] => return ()
  | id :: rest => do
    markBound id
    declare id
    declareEach rest

def resumeBinding (span : Span) (binder : Binder) (pattern : Pattern) (ids : List BindingId) :
    Compiling Next := do
  let line := span.first
  match pattern, ids with
  | .single, id :: _ =>
    let b ← binding id
    if binder = .letName then
      opCount line (if b.state = .forward then .letBackfill else .initLet) b.slot
      bindValue id .nil
    else
      opCount line (storeOp binder) b.slot
      markBound id
      declare id
  | .single, [] => throw .stuck
  | _, _ =>
    op line .dup
    if pattern = .elements then opCount line .unpack ids.length
    else
      let infos ← ids.mapM fun id => Binding.info <$> binding id
      emit { Inst.plain line .symbols with decls := infos }
    storeEach line (storeOp binder) ids.reverse
    declareEach ids
  return .give .nil

/-! ### Constants -/

def resumeConstantCode (span : Span) (use : ConstantUse) (v : Value) : Compiling Next := do
  match v with
  | .func _ =>
    push (.constantValue span use)
    return .wait ⟨span, .compiler, v, []⟩
  | _ => failInternal "constant initializer compiled to something else"

/-- Binds constants to values, and brings them into scope. Missing values are nil. -/
def defineEach : List BindingId → List Value → Compiling Unit
  | [], _ => return ()
  | id :: ids, values => do
    bindValue id (values.headD .nil)
    declare id
    defineEach ids values.tail

def defineMembers (span : Span) (v : Value) : List BindingId → Compiling Unit
  | [] => return ()
  | id :: ids => do
    let name := (← binding id).name
    match (v.member? name).bind fun m => m with
    | none =>
      failAt span .name (name ++ " not found in " ++ v.display (← get).heap.shown)
    | some m =>
      bindValue id m
      declare id
      defineMembers span v ids

def resumeConstantValue (span : Span) (use : ConstantUse) (v : Value) : Compiling Next := do
  match use with
  | .inline => pure ()
  | .define .single ids =>
    match ids with
    | id :: _ => bindValue id v
    | [] => throw .stuck
  | .define .elements ids =>
    match v with
    | .tuple elems | .list elems => defineEach ids elems
    | _ => failAt span .compiler ("cannot unpack " ++ v.display (← get).heap.shown)
  | .define .members ids =>
    if v.hasMembers then defineMembers span v ids
    else
      failAt span .compiler
        ("cannot destructure " ++ v.display (← get).heap.shown ++ " by name")
  constant span.first v
  return .give v

/-! ### Scoped names -/

def scopedBindings : (slot : Int) → List Decl → Compiling (List BindingId × List DeclInfo)
  | _, [] => return ([], [])
  | slot, d :: rest => do
    let b : Binding := { name := d.name, line := d.line, slot }
    let id ← newBinding b
    let (ids, infos) ← scopedBindings (slot + 1) rest
    return (id :: ids, b.info :: infos)

def scopedNext (span : Span) (scope : List BindingId) (count : Nat) (ids : List BindingId)
    (values : List Expr) (body : Expr) : Compiling Next :=
  match ids with
  | [] => andThen body (.scopedBody span scope count)
  | id :: ids =>
    andThen ((values.headD .absent).orNil span)
      (.scopedValue span scope count id ids values.tail body)

def scopedNames (span : Span) (decls : List Decl) (values : List Expr) (body : Expr) :
    Compiling Next := do
  let fn ← current
  let (ids, infos) ← scopedBindings fn.top decls
  if !infos.isEmpty then enter span.first infos
  scopedNext span fn.scope ids.length ids values body

def resumeScopedValue (span : Span) (scope : List BindingId) (count : Nat) (id : BindingId)
    (ids : List BindingId) (values : List Expr) (body : Expr) : Compiling Next := do
  let b ← binding id
  opCount b.line .initLet b.slot
  op b.line .pop
  markBound id
  declare id
  scopedNext span scope count ids values body

def resumeScopedBody (span : Span) (scope : List BindingId) (count : Nat) : Compiling Next := do
  if 0 < count then opCount span.last .leave count
  modifyCurrent ({ · with scope })
  return .give .nil

/-! ### Assignments -/

/-- Compiles the value that is assigned, while `old` reads the value it replaces. -/
def assignValue (span : Span) (value : Expr) (old : OldValue) (store : Opcode) (operand : Int) :
    Compiling Next := do
  modifyCurrent fun fn => { fn with olds := old :: fn.olds }
  andThen value (.assignValue span store operand)

def assignThrough (span : Span) (value : Expr) : Compiling Next := do
  op span.first .dup
  assignValue span value ⟨.local, (← height) - 1⟩ .assign 1

def assignName (span target : Span) (n : Bytes) (value : Expr) : Compiling Next := do
  let r ← resolve target n
  let isReference ← match r.decl? with
    | some id => pure (← binding id).isReference
    | none => pure false
  if isReference then
    opCount span.first r.load.1 r.load.2
    assignThrough span value
  else match r with
    | .slot index _ | .slotIndirect index _ =>
      assignValue span value ⟨r.load.1, index⟩ .assignLocal index
    | .captured index id =>
      modifyBinding id ({ · with isVariable := true })
      assignValue span value ⟨.upvalue, index⟩ .assignUpvalue index
    | .constant _ (some _) => failAt span .compiler ("cannot assign to def " ++ n)
    | .constant v none =>
      constant span.first v
      assignThrough span value

def assign (span : Span) (target value : Expr) : Compiling Next :=
  match target with
  | .blank _ => return .compile value
  | .ident s n => assignName span s n value
  | _ => andThen target (.assignTarget span value)

def resumeAssignValue (span : Span) (store : Opcode) (operand : Int) : Compiling Next := do
  modifyCurrent fun fn => { fn with olds := fn.olds.drop 1 }
  opCount span.first store operand
  return .give .nil

end Compiling

end StagedScript
