import StagedScript.Code.Builder

/-!
# Building code block by block

An assembler does at once what a `Builder` leaves to the end.  It appends instructions to the last
block of the code, and closes a full block with a link when another instruction follows.  A target
that is taken from a label is written with the instruction.  It is pending as long as the label is
not fixed, and the label keeps the sites that have to be written again when it is.
-/

namespace StagedScript

/-- A pending target: the address of its instruction, and an entry of the table. -/
structure Hole where
  address : Nat
  entry : Option Nat

structure LabelState where
  address : Int := 0
  isFixed : Bool := false
  sites : List Hole := []

structure Assembler where
  blockSize : Nat
  blocks : List (List Inst)
  labels : Array LabelState
  last : Int

namespace Assembler

open Builder (link Unresolved)

def empty (blockSize : Int) : Assembler :=
  ⟨if blockSize < Builder.minBlockSize then Builder.defaultBlockSize else blockSize.toNat, [[]], #[],
    -1⟩

/-- The address behind the last instruction of some blocks. -/
def place (blockSize : Nat) (blocks : List (List Inst)) : Nat :=
  (blocks.length - 1) * blockSize + (blocks.getLastD []).length

/-- The address where the next instruction will be reached: that of the link if the block is full. -/
def here (a : Assembler) : Nat := place a.blockSize a.blocks

def append (blockSize : Nat) (i : Inst) : (block : Nat) → List (List Inst) → List (List Inst)
  | _, [] => [[i]]
  | block, [is] =>
    if is.length = blockSize - 1 then [is ++ [link blockSize i.line (block + 1)], [i]]
    else [is ++ [i]]
  | block, is :: next :: rest => is :: append blockSize i (block + 1) (next :: rest)

def emit (a : Assembler) (i : Inst) : Assembler :=
  let blocks := append a.blockSize i 0 a.blocks
  { a with blocks, last := place a.blockSize blocks - 1 }

def newLabel (a : Assembler) : Label × Assembler :=
  (a.labels.size, { a with labels := a.labels.push {} })

def write (a : Assembler) (address : Nat) (entry : Option Nat) (target : Int) : Assembler :=
  { a with blocks := a.blocks.modify (address / a.blockSize) fun is =>
      is.modify (address % a.blockSize) fun i => Builder.setTarget i entry target }

/-- Takes a target from a label, which has to exist. -/
def setTarget (a : Assembler) (address : Nat) (entry : Option Nat) (l : Label) : Option Assembler :=
  match a.labels[l]? with
  | none => none
  | some label =>
    if label.isFixed then some (a.write address entry label.address)
    else
      let labels := a.labels.setIfInBounds l { label with sites := label.sites ++ [⟨address, entry⟩] }
      some ({ a with labels }.write address entry pendingTarget)

def emitJump (a : Assembler) (i : Inst) (l : Label) : Option Assembler :=
  let a := a.emit i
  a.setTarget a.last.toNat none l

def setTable (address : Nat) : (entry : Nat) → List Label → Assembler → Option Assembler
  | _, [], a => some a
  | entry, l :: ls, a => (a.setTarget address (some entry) l).bind (setTable address (entry + 1) ls)

def emitSwitch (a : Assembler) (line : Int) (labels : List Label) : Option Assembler :=
  let a := a.emit { Inst.plain line .switch with table := labels.map fun _ => 0 }
  setTable a.last.toNat 0 labels a

def isFixed (a : Assembler) (l : Label) : Bool := (a.labels.getD l {}).isFixed

/-- Fixes a label and writes its pending targets, the latest first. A label can be fixed once. -/
def fix (a : Assembler) (l : Label) (address : Int) : Option Assembler :=
  match a.labels[l]? with
  | none => none
  | some label =>
    if label.isFixed then none
    else
      let labels := a.labels.setIfInBounds l ⟨address, true, []⟩
      some (label.sites.foldr (fun s a => a.write s.address s.entry address) { a with labels })

def bind (a : Assembler) (l : Label) : Option Assembler := a.fix l a.here

def unresolved? (a : Assembler) (l : Label) : Option Unresolved :=
  match (a.labels.getD l {}).sites with
  | [] => none
  | s :: rest => some ⟨l, rest.length + 1, s.address⟩

/-- The finished code, or the first label that has pending targets. -/
def finish (a : Assembler) : Except Unresolved Code :=
  match (List.range a.labels.size).findSome? a.unresolved? with
  | some u => .error u
  | none => .ok ⟨a.blockSize, a.blocks⟩

end Assembler

end StagedScript
