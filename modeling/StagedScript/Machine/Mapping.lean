import StagedScript.Machine.Heap

/-!
# Maps and members

A map keeps its entries in the order in which their keys were first inserted.  Keys are equal if
they are of the same type and equal as values of it, so `1` and `1.0` are different keys, a real
that is not a number equals no key, and the two zeros are one key.
-/

namespace StagedScript

namespace Value

def isKey : Value → Bool
  | .nil | .bool _ | .int _ | .real _ | .complex .. | .str _ | .sym _ | .method _ => true
  | _ => false

/-- Whether two keys are equal. Values that cannot be keys equal nothing. -/
def sameKey : Value → Value → Bool
  | .nil, .nil => true
  | .bool a, .bool b => a == b
  | .int a, .int b => a == b
  | .real a, .real b => a.beq b
  | .complex a b, .complex c d => a.beq c && b.beq d
  | .str a, .str b => a == b
  | .sym a, .sym b => a == b
  | .method a, .method b => a == b
  | _, _ => false

end Value

namespace Mapping

def get? (entries : List Entry) (key : Value) : Option Value :=
  (entries.find? fun e => e.key.sameKey key).map (·.value)

def notKey (sh : Shown) (key : Value) : Raised :=
  ⟨"TypeError", key.display sh ++ " cannot be a map key"⟩

end Mapping

/-- A map under construction: its keys and values in order, and the positions of the keys. A position
that is assigned hides those assigned before to equal keys. -/
structure OrderedMap where
  keys : Array Value := #[]
  values : Array Value := #[]
  index : List (Value × Nat) := []

namespace OrderedMap

def position? (m : OrderedMap) (key : Value) : Option Nat :=
  (m.index.find? fun e => e.1.sameKey key).map (·.2)

/-- Stores a value under a key, which must be a value that can be a key. A known key keeps its
position. -/
def insert (sh : Shown) (key value : Value) (m : OrderedMap) : Except Raised OrderedMap :=
  if key.isKey then
    match m.position? key with
    | some i => .ok { m with values := m.values.setIfInBounds i value }
    | none => .ok ⟨m.keys.push key, m.values.push value, (key, m.keys.size) :: m.index⟩
  else .error (Mapping.notKey sh key)

def get? (m : OrderedMap) (key : Value) : Option Value :=
  if key.isKey then (m.position? key).bind fun i => m.values[i]? else none

def entries (m : OrderedMap) : List Entry := List.zipWith Entry.mk m.keys.toList m.values.toList

end OrderedMap

namespace Value

/-- The member of a namespace with a name: `none` if the value has no members. -/
def member? (v : Value) (name : Bytes) : Option (Option Value) :=
  match v with
  | .map entries => some (Mapping.get? entries (.str name))
  | .space members => some ((members.find? fun m => m.name = name).map (·.value))
  | _ => none

def hasMembers : Value → Bool
  | .map _ | .space _ => true
  | _ => false

end Value

def Iteration.numbered (values : List Value) : Iteration :=
  ⟨((List.range values.length).map fun i => Value.int (Int64.ofNat (i + 1))).toArray,
    values.toArray, 0⟩

def Value.iteration? : Value → Option Iteration
  | .tuple elems | .list elems => some (.numbered elems)
  | .str s => some (.numbered ((Utf8.pieces s).map fun p => .str (Utf8.encode p.code)))
  | .map entries => some ⟨(entries.map (·.key)).toArray, (entries.map (·.value)).toArray, 0⟩
  | .nil => some ⟨#[], #[], 0⟩
  | _ => none

end StagedScript
