import StagedScript.Code.Basic
import StagedScript.Machine.Heap

/-!
# Calls in progress

A call has an operand stack, the address of its next instruction, and at most one active handler of
errors.  Values that are popped stay in place until they are overwritten: raising the height again,
up to the room of the frame, uncovers them.
-/

namespace StagedScript

structure Stack where
  /-- The values, including those above the top that have not been overwritten. -/
  slots : Array Value
  depth : Nat
  /-- The greatest height the stack can be raised to without pushing. -/
  room : Nat
  deriving Inhabited

namespace Stack

/-- The room after the height has risen to `height`. Room that does not suffice is doubled. -/
def grownRoom (room height : Nat) : Nat := if height ≤ room then room else max height (2 * room)

def push (s : Stack) (v : Value) : Stack :=
  let ⟨slots, depth, room⟩ := s
  if depth < slots.size then
    ⟨slots.setIfInBounds depth v, depth + 1, grownRoom room (depth + 1)⟩
  else ⟨slots.push v, depth + 1, grownRoom room (depth + 1)⟩

def pushAll (s : Stack) : List Value → Stack
  | [] => s
  | v :: vs => (s.push v).pushAll vs

/-- Pushes values at once, so that the room grows at most once. -/
def append (s : Stack) (vs : List Value) : Stack :=
  pushAll { s with room := grownRoom s.room (s.depth + vs.length) } vs

def top? (s : Stack) : Option Value := if s.depth = 0 then none else s.slots[s.depth - 1]?

def pop? (s : Stack) : Option (Value × Stack) :=
  s.top?.map fun v => (v, { s with depth := s.depth - 1 })

/-- Pops a number of values, given in the order in which they were pushed. -/
def popN? (s : Stack) (n : Int) : Option (List Value × Stack) :=
  if n < 0 || s.depth < n then none
  else
    let height := s.depth - n.toNat
    some ((s.slots.extract height s.depth).toList, { s with depth := height })

def get? (s : Stack) (slot : Int) : Option Value :=
  if slot < 0 || s.depth ≤ slot then none else s.slots[slot.toNat]?

def set? (s : Stack) (slot : Int) (v : Value) : Option Stack :=
  if slot < 0 || s.depth ≤ slot then none
  else some { s with slots := s.slots.setIfInBounds slot.toNat v }

def cut? (s : Stack) (height : Int) : Option Stack :=
  if height < 0 || s.room < height then none
  else
    let h := height.toNat
    some { s with slots := s.slots ++ Array.replicate (h - s.slots.size) .nil, depth := h }

def drop? (s : Stack) (n : Int) : Option Stack := do
  let (v, s) ← s.pop?
  let s ← s.cut? (s.depth - n)
  return s.push v

end Stack

structure Frame where
  fn : Func
  env : Option Nat
  stack : Stack
  ip : Int
  handler : Int
  handlerDepth : Int
  deriving Inhabited

namespace Frame

/-- More room than any frame can have. -/
def roomLimit : Int := 0x100000000000

/-- The parameters of a call. If surplus arguments are collected, the last parameter is the list of
them; parameters without an argument are nil. -/
def bindParameters (fn : Func) (count : Nat) (args : List Value) : List Value :=
  if (fn.collectsExtra || fn.collectsNamed) && 0 < count then
    let n := count - 1
    (args.take n ++ List.replicate (n - args.length) .nil) ++ [.list (args.drop n)]
  else args.take count ++ List.replicate (count - args.length) .nil

def start? (fn : Func) (env : Option Nat) (args : List Value) : Option Frame :=
  let room := wrapInt (fn.frameSize + 1)
  if fn.numParams < 0 || room < fn.numParams || roomLimit < room then none
  else
    let values := bindParameters fn fn.numParams.toNat args
    some ⟨fn, env, ⟨values.toArray, values.length, room.toNat⟩, fn.entry, noTarget, 0⟩

end Frame

end StagedScript
