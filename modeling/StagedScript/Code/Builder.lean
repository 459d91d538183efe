import StagedScript.Code.Basic

/-!
# Building code

A builder collects instructions in the order they are emitted.  Jumps refer to labels, which can be
fixed before or after the jump.  `Builder.finish` lays the instructions out in blocks: every block
but the last ends with a link to the next one.  The place after a full block is that of the link
that will end it.
-/

namespace StagedScript

abbrev Label := Nat

inductive Aim where
  | place (index : Nat)
  | address (address : Int)
  deriving DecidableEq

/-- A target that is taken from a label: the target of an instruction, or an entry of its table. -/
structure Site where
  inst : Nat
  entry : Option Nat
  label : Label

structure Builder where
  blockSize : Nat
  insts : Array Inst
  aims : Array (Option Aim)
  sites : Array Site

namespace Builder

def defaultBlockSize : Nat := 64

def minBlockSize : Nat := 4

/-- A builder without instructions. A capacity that is too small is replaced by the default. -/
def empty (blockSize : Int) : Builder :=
  ⟨if blockSize < minBlockSize then defaultBlockSize else blockSize.toNat, #[], #[], #[]⟩

def addressOf (blockSize index : Nat) : Nat :=
  index / (blockSize - 1) * blockSize + index % (blockSize - 1)

/-- The address where the instruction with a number will be reached: after a full block this is the
address of the link. -/
def placeOf (blockSize index : Nat) : Nat :=
  if index % (blockSize - 1) = 0 && index ≠ 0 then addressOf blockSize (index - 1) + 1
  else addressOf blockSize index

def here (b : Builder) : Int := placeOf b.blockSize b.insts.size

def last (b : Builder) : Int :=
  if b.insts.size = 0 then -1 else addressOf b.blockSize (b.insts.size - 1)

def emit (b : Builder) (i : Inst) : Builder := { b with insts := b.insts.push i }

def newLabel (b : Builder) : Label × Builder :=
  (b.aims.size, { b with aims := b.aims.push none })

def emitJump (b : Builder) (i : Inst) (l : Label) : Builder :=
  { b.emit i with sites := b.sites.push ⟨b.insts.size, none, l⟩ }

def tableSites (inst : Nat) : (entry : Nat) → List Label → List Site
  | _, [] => []
  | entry, l :: ls => ⟨inst, some entry, l⟩ :: tableSites inst (entry + 1) ls

def emitSwitch (b : Builder) (line : Int) (labels : List Label) : Builder :=
  let i := { Inst.plain line .switch with table := labels.map fun _ => 0 }
  { b.emit i with sites := b.sites ++ (tableSites b.insts.size 0 labels).toArray }

def isFixed (b : Builder) (l : Label) : Bool := (b.aims.getD l none).isSome

def aim (b : Builder) (l : Label) (a : Aim) : Option Builder :=
  if b.isFixed l then none else some { b with aims := b.aims.setIfInBounds l (some a) }

def bind (b : Builder) (l : Label) : Option Builder := b.aim l (.place b.insts.size)

def fixedTwiceMessage (l : Label) : Bytes :=
  "bytecode: label " ++ Bytes.ofNat l ++ " fixed twice"

def resolveAim (b : Builder) : Aim → Int
  | .place index => placeOf b.blockSize index
  | .address address => address

def target (b : Builder) (l : Label) : Int :=
  match b.aims.getD l none with
  | some a => b.resolveAim a
  | none => pendingTarget

def setTarget (i : Inst) (entry : Option Nat) (address : Int) : Inst :=
  match entry with
  | none => { i with target := address }
  | some k => { i with table := i.table.set k address }

def resolved (b : Builder) : Array Inst :=
  b.sites.foldl (fun insts s => insts.modify s.inst fun i => setTarget i s.entry (b.target s.label))
    b.insts

def link (blockSize : Nat) (line : Int) (block : Nat) : Inst :=
  { Inst.plain line .link with target := block * blockSize }

def consFirst (i : Inst) : List (List Inst) → List (List Inst)
  | [] => [[i]]
  | block :: rest => (i :: block) :: rest

/-- The blocks of instructions, when the block with number `block` already holds `used` of them. A
full block gets a link when another instruction follows. -/
def layout (blockSize : Nat) : (block used : Nat) → List Inst → List (List Inst)
  | _, _, [] => [[]]
  | block, used, i :: rest =>
    if used = blockSize - 1 then
      [link blockSize i.line (block + 1)] :: consFirst i (layout blockSize (block + 1) 1 rest)
    else consFirst i (layout blockSize block (used + 1) rest)

def codeOf (blockSize : Nat) (insts : List Inst) : Code :=
  ⟨blockSize, layout blockSize 0 0 insts⟩

/-- Jumps to a label that was never fixed: the label, their number, and the address of the first. -/
structure Unresolved where
  label : Label
  jumps : Nat
  first : Nat

def Unresolved.message (u : Unresolved) : Bytes :=
  "bytecode: label " ++ Bytes.ofNat u.label ++ " has " ++ Bytes.ofNat u.jumps ++
    " unresolved jumps (first at " ++ Bytes.ofNat u.first ++ ")"

def unresolved? (b : Builder) (l : Label) : Option Unresolved :=
  if b.isFixed l then none
  else match b.sites.toList.filter fun s => s.label = l with
    | [] => none
    | s :: rest => some ⟨l, rest.length + 1, addressOf b.blockSize s.inst⟩

/-- The finished code, or the first label that some jump refers to and that was never fixed. -/
def finish (b : Builder) : Except Unresolved Code :=
  match (List.range b.aims.size).findSome? b.unresolved? with
  | some u => .error u
  | none => .ok (codeOf b.blockSize b.resolved.toList)

end Builder

end StagedScript
