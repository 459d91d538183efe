import StagedScript.Code.Builder
import StagedScript.Error
import StagedScript.Machine.Frame
import StagedScript.Machine.Host

/-!
# The state of a compilation

Compiling a function tracks the declarations in scope, the height of the operand stack, the loops
and handlers around the current expression, and the values captured from enclosing functions.  What
still has to be done with the value of the expression being compiled is recorded in frames on the
function: a compilation never recurses, so it can stop at any expression and go on later.
-/

namespace StagedScript

inductive BindState where
  | unbound
  /-- Its initializer is being compiled, and the name has been referred to. -/
  | forward
  | bound
  deriving DecidableEq

def BindState.name : BindState → Bytes
  | .unbound => "unbound"
  | .forward => "forward"
  | .bound => "bound"

/-- The state with a number. All numbers from 2 on mean that the initializer is finished. -/
def BindState.ofCode (code : UInt8) : BindState :=
  if code = 0 then .unbound else if code = 1 then .forward else .bound

structure Binding where
  name : Bytes
  line : Nat
  slot : Int
  isConstant : Bool := false
  isVariable : Bool := false
  isReference : Bool := false
  state : BindState := .unbound
  value : Value := .nil
  /-- The placeholder handed out for a constant before it was bound. -/
  placeholder : Option Value := none
  deriving Inhabited

def Binding.info (b : Binding) : DeclInfo := ⟨b.name, b.line, b.slot⟩

abbrev BindingId := Nat

structure Protected where
  handler : Label
  retry : Label
  depth : Int

structure LoopScope where
  exit : Label
  next : Label
  exitDepth : Int
  nextDepth : Int
  active : Option Protected

structure OldValue where
  op : Opcode
  index : Int

inductive Consumer where
  | call
  | constCall (fn : Value)
  | resolve (name : Bytes)
  | not
  | sequence (kind : SequenceKind)
  | map
  | suspend
  | quote (body : Expr)
  | ret
  | exit
  | each
  | method (params : List Param) (extra : Bool) (body : Expr)

structure BlockScope where
  span : Span
  decls : List Decl
  handlers : List Handler
  scope : List BindingId
  slots : Nat
  guarded : Option Protected

structure HandlerScope where
  span : Span
  guarded : Protected
  clause : Handler
  later : List Handler
  done : Label
  skip : Label

inductive ConstantUse where
  | inline
  | define (pattern : Pattern) (ids : List BindingId)

structure CondScope where
  span : Span
  otherwise : Expr
  depth : Int
  done : Label

structure ForScope where
  span : Span
  body : Expr
  otherwise : Expr
  depth : Int
  loop : LoopScope
  start : Label
  ended : Label
  scope : List BindingId
  slots : Nat

structure SwitchScope where
  span : Span
  otherwise : Expr
  depth : Int
  done : Label

structure SelectScope where
  span : Span
  otherwise : Expr
  slot : Int
  done : Label

structure ClauseScope where
  select : SelectScope
  clause : SelectClause
  later : List SelectClause
  body : Label
  next : Label

/-- What waits for the value of an expression. -/
inductive Waiting where
  | operands (span : Span) (use : Consumer) (count : Nat) (rest : List Expr)
  | textParts (span : Span) (line : Nat) (rest : List Expr)
  | statements (block : BlockScope) (rest : List Expr)
  | handlerTypes (h : HandlerScope) (rest : List Expr)
  | handlerBody (h : HandlerScope) (scope : List BindingId) (outer : Option Protected)
  | binding (span : Span) (binder : Binder) (pattern : Pattern) (ids : List BindingId)
  | constantCode (span : Span) (use : ConstantUse)
  | constantValue (span : Span) (use : ConstantUse)
  | assignTarget (span : Span) (value : Expr)
  | assignValue (span : Span) (store : Opcode) (operand : Int)
  | logicLeft (span : Span) (op : Connective) (right : Expr) (done : Label)
  | logicRight (span : Span) (done : Label)
  | condTest (c : CondScope) (arm : CondCase) (later : List CondCase) (next : Label)
      (bound : Option BindingId)
  | condBody (c : CondScope) (arm : CondCase) (later : List CondCase) (next : Label)
      (scope : Option (List BindingId))
  | condElse (c : CondScope)
  | loopBody (span : Span) (loop : LoopScope)
  | exitCond (span : Span) (test : ExitTest) (value : Expr) (loop : LoopScope)
  | exitValue (span : Span) (loop : LoopScope) (stay : Label)
  | forSequence (span : Span) (key : Option Decl) (names : List Decl) (unpack : Bool)
      (body otherwise : Expr)
  | forBody (f : ForScope)
  | forElse (f : ForScope)
  | switchSubject (span : Span) (cases : List Expr) (otherwise : Expr)
  | switchCase (s : SwitchScope) (line : Nat) (cases : List Expr) (labels : List Label)
  | switchElse (s : SwitchScope)
  | selectSubject (s : SelectScope) (clauses : List SelectClause)
  | selectValue (c : ClauseScope) (rest : List Expr)
  | selectBody (c : ClauseScope)
  | selectElse (s : SelectScope)
  | scopedValue (span : Span) (scope : List BindingId) (count : Nat) (id : BindingId)
      (ids : List BindingId) (values : List Expr) (body : Expr)
  | scopedBody (span : Span) (scope : List BindingId) (count : Nat)
  | closure (span : Span) (types : Option Nat)
  | expansion (span : Span)
  | expanded (span : Span)
  | finish (span : Span) (isRoot : Bool)

def Waiting.span : Waiting → Span
  | .operands s .. | .textParts s .. | .binding s .. | .constantCode s .. | .constantValue s ..
  | .assignTarget s .. | .assignValue s .. | .logicLeft s .. | .logicRight s .. | .loopBody s ..
  | .exitCond s .. | .exitValue s .. | .forSequence s .. | .switchSubject s .. | .scopedValue s ..
  | .scopedBody s .. | .closure s .. | .expansion s | .expanded s | .finish s .. => s
  | .statements b _ => b.span
  | .handlerTypes h _ | .handlerBody h .. => h.span
  | .condTest c .. | .condBody c .. | .condElse c => c.span
  | .forBody f | .forElse f => f.span
  | .switchCase s .. | .switchElse s => s.span
  | .selectSubject s _ | .selectElse s => s.span
  | .selectValue c _ | .selectBody c => c.select.span

def Span.position (s : Span) : Position := ⟨s.source, s.first⟩

structure FunctionState where
  builder : Builder
  scope : List BindingId := []
  /-- The declarations of entered blocks, by the identity under which they were written. -/
  reserved : List (Nat × BindingId) := []
  loops : List LoopScope := []
  guards : List Protected := []
  handling : Option Protected := none
  olds : List OldValue := []
  upvalues : List Int := []
  captured : List BindingId := []
  top : Int := 0
  size : Int := 0
  waiting : List Waiting := []
  decls : List DeclInfo := []
  params : List Bytes := []
  flags : UInt8 := 0
  isConstant : Bool := false

/-- Whether a function has more instructions, or a higher stack, than memory has room for. -/
def FunctionState.isTooLarge (fn : FunctionState) : Bool :=
  Frame.roomLimit ≤ fn.size || Frame.roomLimit ≤ fn.builder.insts.size

structure Settings where
  globals : Globals
  blockSize : Int
  root : Span

structure CompileState where
  functions : List FunctionState
  bindings : Array Binding
  heap : Heap

inductive Trouble where
  | error (e : SourceError)
  /-- At a part of the tree that is missing, or at code that no memory can hold. -/
  | stuck

structure EvalCall where
  span : Span
  category : Category
  fn : Value
  args : List Value

inductive Next where
  | compile (e : Expr)
  | give (v : Value)
  | wait (call : EvalCall)
  | done (fn : Func)

abbrev Compiling (α : Type) := ReaderT Settings (EStateM Trouble CompileState) α

namespace Compiling

def failAt {α : Type} (span : Span) (category : Category) (message : Bytes) : Compiling α :=
  throw (.error (.plain category span.position message))

def failInternal {α : Type} (message : Bytes) : Compiling α :=
  throw (.error (.plain .internal ⟨[], 0⟩ message))

def current : Compiling FunctionState := do
  match (← get).functions with
  | fn :: _ => return fn
  | [] => throw .stuck

def modifyCurrent (f : FunctionState → FunctionState) : Compiling Unit :=
  modify fun s => match s.functions with
    | fn :: rest => { s with functions := f fn :: rest }
    | [] => s

def height : Compiling Int := return (← current).top

def setHeight (n : Int) : Compiling Unit := modifyCurrent ({ · with top := n })

def push (w : Waiting) : Compiling Unit :=
  modifyCurrent fun fn => { fn with waiting := w :: fn.waiting }

def andThen (e : Expr) (w : Waiting) : Compiling Next := do
  push w
  return .compile e

/-! ### Declarations -/

def binding (id : BindingId) : Compiling Binding := return ((← get).bindings.getD id default)

def modifyBinding (id : BindingId) (f : Binding → Binding) : Compiling Unit :=
  modify fun s => { s with bindings := s.bindings.modify id f }

def newBinding (b : Binding) : Compiling BindingId :=
  modifyGet fun s => (s.bindings.size, { s with bindings := s.bindings.push b })

def declare (id : BindingId) : Compiling Unit := do
  let b ← binding id
  modifyCurrent fun fn =>
    { fn with
      scope := id :: fn.scope
      decls := if 0 ≤ b.slot then fn.decls ++ [b.info] else fn.decls }

def markBound (id : BindingId) : Compiling Unit := modifyBinding id ({ · with state := .bound })

/-- Binds a declaration to a value, also for those that referred to it before. -/
def bindValue (id : BindingId) (v : Value) : Compiling Unit := do
  let b ← binding id
  if b.state = .bound then
    throw (.error (.plain .internal ⟨(← read).root.source, b.line⟩ (b.name ++ " bound twice")))
  if let some (.forward index _) := b.placeholder then
    modify fun s => { s with heap := s.heap.setForward index v }
  modifyBinding id ({ · with state := .bound, value := v })

/-- Records a reference to a declaration whose initializer is not finished. A constant gets a
placeholder. -/
def markForward (id : BindingId) : Compiling Unit := do
  let b ← binding id
  match b.state with
  | .unbound =>
    if b.isConstant then
      let s ← get
      let (v, heap) := s.heap.newForward b.name
      set { s with heap }
      modifyBinding id ({ · with state := .forward, placeholder := some v })
    else modifyBinding id ({ · with state := .forward })
  | .forward => return ()
  | .bound =>
    throw (.error (.plain .internal ⟨(← read).root.source, b.line⟩
      ("forward reference to bound " ++ b.name)))

/-! ### Emission -/

def track (fn : FunctionState) (i : Inst) : FunctionState :=
  let top := fn.top + (i.effect.2 - i.effect.1)
  { fn with top, size := max fn.size top }

/-- Changes the code of the function being compiled, up to the size that memory can hold. -/
def write (f : FunctionState → FunctionState) : Compiling Unit := do
  modifyCurrent f
  if (← current).isTooLarge then throw .stuck

def emit (i : Inst) : Compiling Unit :=
  write fun fn => track { fn with builder := fn.builder.emit i } i

def op (line : Nat) (o : Opcode) : Compiling Unit := emit (.plain line o)

def opCount (line : Nat) (o : Opcode) (count : Int) : Compiling Unit :=
  emit { Inst.plain line o with count }

def constant (line : Nat) (v : Value) : Compiling Unit :=
  match v with
  | .nil => op line .nil
  | v => emit { Inst.plain line .const with value := v }

def enter (line : Nat) (decls : List DeclInfo) : Compiling Unit :=
  emit { Inst.plain line .enter with decls }

def newLabel : Compiling Label := do
  let fn ← current
  let (l, builder) := fn.builder.newLabel
  modifyCurrent ({ · with builder })
  return l

def newLabels : Nat → Compiling (List Label)
  | 0 => return []
  | n + 1 => return (← newLabel) :: (← newLabels n)

def jump (line : Nat) (o : Opcode) (l : Label) (count : Int) : Compiling Unit :=
  let i := { Inst.plain line o with count }
  write fun fn => track { fn with builder := fn.builder.emitJump i l } i

/-- Fixes a label here. Code that is reached only through it starts at the given height. -/
def bindLabel (l : Label) (depth : Int) : Compiling Unit := do
  let fn ← current
  match fn.builder.bind l with
  | none => throw .stuck
  | some builder => modifyCurrent ({ · with builder, top := depth, size := max fn.size depth })

def activate (line : Nat) (p : Option Protected) : Compiling Unit :=
  match p with
  | none => emit { Inst.plain line .install with target := noTarget }
  | some p =>
    let i := { Inst.plain line .install with count := p.depth }
    write fun fn => { fn with builder := fn.builder.emitJump i p.handler }

/-- Whether a handler is the active one. Handlers are told apart by their labels. -/
def isActive (p : Option Protected) : Compiling Bool := do
  return ((← current).guards.head?.map (·.handler)) = p.map (·.handler)

end Compiling

def Compiling.spanOf (e : Expr) : Compiling Span :=
  match e.span? with
  | some s => return s
  | none => throw .stuck

def Expr.orNil (e : Expr) (span : Span) : Expr := if e.isAbsent then .nil span else e

end StagedScript
