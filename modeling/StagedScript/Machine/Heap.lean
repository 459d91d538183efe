import StagedScript.Tree.Printer

/-!
# The heap

What programs can change lives in the heap: variables shared between a function and its closures,
the captured values of closures, iterators, texts under construction, and placeholders for constants
that are still being computed.  Values refer to it by index.
-/

namespace StagedScript

/-- A shared variable, or the placeholder of a `let` that is still being computed. -/
structure Cell where
  value : Value
  isSet : Bool
  deriving Inhabited

structure Iteration where
  keys : Array Value
  values : Array Value
  position : Nat
  deriving Inhabited

def Iteration.isDone (it : Iteration) : Bool := it.values.size ≤ it.position

structure Heap where
  cells : Array Cell := #[]
  environments : Array (Array Value) := #[]
  iterations : Array Iteration := #[]
  buffers : Array Bytes := #[]
  /-- Placeholders of constants, with their values once they are known. -/
  forwards : Array (Option Value) := #[]
  nextDecl : Nat := 0
  deriving Inhabited

namespace Heap

def bufferText (h : Heap) (index : Nat) : Bytes := h.buffers.getD index []

/-- The text of a cell, through at most `fuel` cells. -/
def cellText (h : Heap) : (fuel index : Nat) → Bytes
  | 0, _ => Shown.unset
  | fuel + 1, index =>
    match h.cells[index]? with
    | some ⟨v, true⟩ => v.display ⟨h.cellText fuel, h.bufferText⟩
    | _ => Shown.unset

def shown (h : Heap) : Shown := ⟨h.cellText (h.cells.size + 1), h.bufferText⟩

/-- The value behind a placeholder that has been set; other values stand for themselves. -/
def deref (h : Heap) (v : Value) : Value :=
  match v with
  | .cell index =>
    match h.cells[index]? with
    | some ⟨w, true⟩ => w
    | _ => v
  | .forward index _ => ((h.forwards.getD index none).getD v)
  | _ => v

def newCell (h : Heap) (c : Cell) : Value × Heap :=
  (.cell h.cells.size, { h with cells := h.cells.push c })

def setCell (h : Heap) (index : Nat) (v : Value) : Heap :=
  { h with cells := h.cells.setIfInBounds index ⟨v, true⟩ }

/-- What a slot that holds `old` holds after it is assigned `v`. A shared variable is written
through. -/
def store (h : Heap) (old v : Value) : Value × Heap :=
  match old with
  | .cell index =>
    match h.cells[index]? with
    | some ⟨_, true⟩ => (old, h.setCell index v)
    | _ => (v, h)
  | _ => (v, h)

def newEnvironment (h : Heap) (values : Array Value) : Nat × Heap :=
  (h.environments.size, { h with environments := h.environments.push values })

def captured? (h : Heap) (env index : Nat) : Option Value :=
  (h.environments[env]?).bind fun values => values[index]?

def setCaptured (h : Heap) (env index : Nat) (v : Value) : Heap :=
  { h with environments := h.environments.modify env fun values => values.setIfInBounds index v }

def newIteration (h : Heap) (it : Iteration) : Value × Heap :=
  (.iterator h.iterations.size, { h with iterations := h.iterations.push it })

def advance (h : Heap) (index : Nat) : Heap :=
  { h with
    iterations := h.iterations.modify index fun it => { it with position := it.position + 1 } }

def newBuffer (h : Heap) : Value × Heap :=
  (.buffer h.buffers.size, { h with buffers := h.buffers.push [] })

def write (h : Heap) (index : Nat) (s : Bytes) : Heap :=
  { h with buffers := h.buffers.modify index (· ++ s) }

def newForward (h : Heap) (name : Bytes) : Value × Heap :=
  (.forward h.forwards.size name, { h with forwards := h.forwards.push none })

/-- Sets the placeholder of a constant. Only the first value counts. -/
def setForward (h : Heap) (index : Nat) (v : Value) : Heap :=
  { h with forwards := h.forwards.modify index fun old => old.or (some v) }

end Heap

structure Raised where
  type : Bytes
  message : Bytes
  deriving DecidableEq

def Raised.display (e : Raised) : Bytes := e.type ++ ": " ++ e.message

end StagedScript
