import StagedScript.Compile.State

/-!
# What names refer to

A name is looked up in the scopes of the function being compiled, then in those of the enclosing
functions, and last among the globals.  A variable of an enclosing function is captured by all
functions between it and the reference.
-/

namespace StagedScript

inductive Reference where
  | constant (v : Value) (decl : Option BindingId)
  | slot (index : Int) (id : BindingId)
  | slotIndirect (index : Int) (id : BindingId)
  | captured (index : Int) (id : BindingId)

namespace Compiling

def lookupIn (bindings : Array Binding) (name : Bytes) (scope : List BindingId) :
    Option BindingId :=
  scope.find? fun id => (bindings.getD id default).name = name

/-- The innermost declaration of a name, with the number of functions between it and the current
one, and whether one of these can refer to constants only. -/
def lookupOuter (bindings : Array Binding) (name : Bytes) :
    (level : Nat) → (constantOnly : Bool) → List FunctionState → Option (BindingId × Nat × Bool)
  | _, _, [] => none
  | level, constantOnly, fn :: rest =>
    match lookupIn bindings name fn.scope with
    | some id => some (id, level, constantOnly)
    | none => lookupOuter bindings name (level + 1) (constantOnly || fn.isConstant) rest

/-- Captures a declaration in the innermost `level` functions, which read it from `source` in the
function around them. -/
def captureIn (id : BindingId) (source : Int) :
    (level : Nat) → List FunctionState → Int × List FunctionState
  | 0, fns => (source, fns)
  | _, [] => (source, [])
  | level + 1, fn :: rest =>
    let (source, rest) := captureIn id source level rest
    match fn.captured.idxOf? id with
    | some i => (-1 - (i : Int), fn :: rest)
    | none =>
      (-1 - (fn.upvalues.length : Int),
        { fn with upvalues := fn.upvalues ++ [source], captured := fn.captured ++ [id] } :: rest)

def capture (id : BindingId) (level : Nat) : Compiling Int := do
  let s ← get
  let (source, functions) := captureIn id (← binding id).slot level s.functions
  set { s with functions }
  return -1 - source

/-- How the current function reads a name. References to unfinished declarations are recorded, and
variables of enclosing functions are captured. -/
def resolve (span : Span) (name : Bytes) : Compiling Reference := do
  let s ← get
  match lookupOuter s.bindings name 0 false s.functions with
  | some (id, level, constantOnly) =>
    let b ← binding id
    if b.isConstant then
      if b.state = .bound then return .constant b.value (some id)
      markForward id
      return .constant ((← binding id).placeholder.getD .nil) (some id)
    if level = 0 then
      if b.state = .bound then return .slot b.slot id
      markForward id
      return .slotIndirect b.slot id
    if constantOnly then
      failAt span .name ("identifier " ++ name ++ " is not a constant")
    if b.state ≠ .bound then markForward id
    return .captured (← capture id level) id
  | none =>
    match (← read).globals.lookup name with
    | .error message =>
      throw (.error ((SourceError.plain .name span.position
        ("resolving " ++ name ++ ": " ++ message)).because (.other message)))
    | .ok none => failAt span .name ("identifier " ++ name ++ " not declared")
    | .ok (some v) => return .constant v none

def peek? (name : Bytes) : Compiling (Option Value) := do
  let s ← get
  match lookupOuter s.bindings name 0 false s.functions with
  | some (id, _, _) =>
    let b ← binding id
    return if b.isConstant && b.state = .bound then some b.value else none
  | none =>
    match (← read).globals.lookup name with
    | .ok v => return v
    | .error _ => return none

def constantOf? : Expr → Compiling (Option Value)
  | .value _ v => return some v
  | .ident _ name => peek? name
  | .resolve _ parent name => do
    let v ← constantOf? parent
    return v.bind fun v => (v.member? name).bind id
  | _ => return none

end Compiling

namespace Reference

def load : Reference → Opcode × Int
  | .constant .. => (.const, 0)
  | .slot index _ => (.local, index)
  | .slotIndirect index _ => (.localIndirect, index)
  | .captured index _ => (.upvalue, index)

def decl? : Reference → Option BindingId
  | .constant _ decl => decl
  | .slot _ id | .slotIndirect _ id | .captured _ id => some id

end Reference

end StagedScript
