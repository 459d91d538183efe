import StagedScript.Machine.Mapping

/-!
# Methods

Operators, indexing, membership and the other methods dispatch on the number and the types of their
arguments.  Arithmetic on two integers wraps around; an integer and a real give a real.
Comparisons give their right operand if they hold, and nil otherwise.
-/

namespace StagedScript

namespace Method

def typeName : Value → Bytes
  | .nil => "nil"
  | .bool _ => "bool"
  | .int _ => "integer"
  | .real _ => "real"
  | .complex .. => "complex128"
  | .str _ => "string"
  | .bytes _ => "[]uint8"
  | .sym _ => "runtime.Symbol"
  | .method _ => "*runtime.Method"
  | .tuple _ => "tuple"
  | .list _ => "list"
  | .map _ => "map"
  | .error .. => "error"
  | .closure .. => "function"
  | .func _ => "*bytecode.Func"
  | .builtin .. => "function"
  | .expander .. => "*runtime.Macro"
  | .forward .. => "*runtime.Forward"
  | .space _ => "*runtime.Globals"
  | .expr _ => "*compiler.ExprValue"
  | .cell _ => "*vm.cell"
  | .iterator _ => "*vm.iterator"
  | .buffer _ => "*strings.Builder"

def toReal? : Value → Option Real64
  | .int n => some (Real64.ofInt n.toInt)
  | .real x => some x
  | _ => none

def divisionByZero : Raised := ⟨"ValueError", "division by zero"⟩

/-- Arithmetic on integers. `none` if the name is not that of an arithmetic method. -/
def onIntegers (name : Bytes) (a b : Int64) : Option (Except Raised Value) :=
  if name = "+" then some (.ok (.int (a + b)))
  else if name = "-" then some (.ok (.int (a - b)))
  else if name = "*" then some (.ok (.int (a * b)))
  else if name = "/" then
    some <|
      if b = 0 then .error divisionByZero
      else if a % b = 0 then .ok (.int (a / b))
      else .ok (.real ((Real64.ofInt a.toInt).div (Real64.ofInt b.toInt)))
  else if name = "%" then some (if b = 0 then .error divisionByZero else .ok (.int (a % b)))
  else if name = "//" then some (if b = 0 then .error divisionByZero else .ok (.int (a / b)))
  else none

def onReals (name : Bytes) (a b : Real64) : Option Real64 :=
  if name = "+" then some (a.add b)
  else if name = "-" then some (a.sub b)
  else if name = "*" then some (a.mul b)
  else if name = "/" then some (a.div b)
  else if name = "%" then some (a.mod b)
  else if name = "//" then some (a.div b).floor
  else none

/-- How two texts or two numbers compare. Two that cannot be ordered count as equal. -/
def compare? (a b : Value) : Option Ordering :=
  match a, b with
  | .str s, .str t => some (Bytes.order s t)
  | _, _ =>
    match toReal? a, toReal? b with
    | some x, some y => some (if x.lt y then .lt else if y.lt x then .gt else .eq)
    | _, _ => none

def equal? (a b : Value) : Option Bool :=
  match compare? a b with
  | some c => some (c == .eq)
  | none => if a.isKey && b.isKey then some (a.sameKey b) else none

def holds? (name : Bytes) : Option (Ordering → Bool) :=
  if name = "<" then some (· == .lt)
  else if name = "<=" then some (· != .gt)
  else if name = ">" then some (· == .gt)
  else if name = ">=" then some (· != .lt)
  else none

def whenHolds (b : Bool) (v : Value) : Value := if b then v else .nil

def elementAt (elems : List Value) (position : Int64) : Value :=
  let n := position.toInt
  let n := if n < 0 then n + elems.length + 1 else n
  if n < 1 then .nil else elems.getD (n.toNat - 1) .nil

def index? : Value → Value → Option Value
  | .map entries, key => some ((Mapping.get? entries key).getD .nil)
  | .tuple elems, .int n | .list elems, .int n => some (elementAt elems n)
  | _, _ => none

/-- The elements among which membership is tested: the keys of a map, and the values of other
sequences. -/
def memberElements? : Value → Option (List Value)
  | .map entries => some (entries.map (·.key))
  | v => v.iteration?.map fun it => it.values.toList

def membership? (v sequence : Value) : Option Value :=
  (memberElements? sequence).map fun elems =>
    whenHolds (elems.any fun e => equal? v e == some true) v

def count? : Value → Option Nat
  | .str s => some s.length
  | .tuple elems | .list elems => some elems.length
  | .map entries => some entries.length
  | _ => none

def unary? (name : Bytes) (v : Value) : Option Value :=
  if name = "-" then
    match v with
    | .int n => some (.int (-n))
    | .real x => some (.real x.neg)
    | _ => none
  else if name = "count" then (count? v).map fun n => .int (Int64.ofNat n)
  else none

def binaryOther? (name : Bytes) (a b : Value) : Option Value :=
  if name = "=" then (equal? a b).map fun eq => whenHolds eq b
  else if name = "!=" then (equal? a b).map fun eq => whenHolds (!eq) b
  else if name = "[]" then index? a b
  else if name = "in" then membership? a b
  else if name = "export" then some b
  else (holds? name).bind fun holds => (compare? a b).map fun c => whenHolds (holds c) b

def binary? (name : Bytes) (a b : Value) : Option (Except Raised Value) :=
  match a, b with
  | .int m, .int n =>
    match onIntegers name m n with
    | some r => some r
    | none => (binaryOther? name a b).map .ok
  | .str s, .str t =>
    if name = "+" then some (.ok (.str (s ++ t))) else (binaryOther? name a b).map .ok
  | _, _ =>
    match toReal? a, toReal? b with
    | some x, some y =>
      match onReals name x y with
      | some z => some (.ok (.real z))
      | none => (binaryOther? name a b).map .ok
    | _, _ => (binaryOther? name a b).map .ok

def undefined (name : Bytes) (args : List Value) : Raised :=
  ⟨"MethodError",
    "no method " ++ name ++ " for (" ++ Bytes.join ", " (args.map typeName) ++ ")"⟩

def call (name : Bytes) (args : List Value) : Except Raised Value :=
  let result : Option (Except Raised Value) := match args with
    | [v] => (unary? name v).map .ok
    | [a, b] => binary? name a b
    | _ => none
  result.getD (.error (undefined name args))

end Method

end StagedScript
