import StagedScript.Data

/-!
# Addresses, stack effects and control flow

Code is a list of blocks of one capacity, and an address counts instructions across blocks as if all
blocks were full.  Operands are machine integers of 64 bits, and so are sums of them.
-/

namespace StagedScript

/-- An integer as a machine integer of 64 bits: the one that differs from it by a multiple of
`2 ^ 64`. -/
def wrapInt (n : Int) : Int := n.bmod 0x10000000000000000

def noTarget : Int := -1

/-- The target of a jump whose label has not been fixed. -/
def pendingTarget : Int := -2

namespace Inst

def plain (line : Int) (op : Opcode) : Inst := ⟨op, line, 0, 0, .nil, [], [], [], none⟩

/-- How many values an instruction pops and pushes when control falls through. -/
def effect (i : Inst) : Int × Int :=
  match i.op with
  | .link | .jump | .stringChars | .install | .box => (0, 0)
  | .nil | .const | .resume | .stringNew | .closure => (0, 1)
  | .pop | .ifNil | .ifNotNil | .and | .or | .switch | .ret | .raise => (1, 0)
  | .dup => (1, 2)
  | .local | .localIndirect | .upvalue | .key | .element => (0, 1)
  | .assignLocal | .assignUpvalue | .initVar | .initLet | .letBackfill | .initRef | .not | .resolve
  | .stringEnd | .iterate | .advance => (1, 1)
  | .assign => (wrapInt (i.count + 2), 1)
  | .unpack => (1, i.count)
  | .symbols => (1, i.decls.length)
  | .enter => (0, i.decls.length)
  | .leave | .exit => (wrapInt (i.count + 1), 1)
  | .goto | .retry | .suspend | .stringAdd | .catchOn => (i.count, 0)
  | .call => (wrapInt (i.count + 1), 1)
  | .constCall | .tuple | .list | .quote => (i.count, 1)
  | .map => (wrapInt (2 * i.count), 1)
  | .method => (wrapInt (i.count + 2), 1)
  | .unknown _ => (0, 0)

/-- A transfer of control to an address with the operand stack at a height. -/
structure Edge where
  address : Int
  depth : Int
  deriving DecidableEq

def successors (i : Inst) (depth : Int) : List Edge :=
  match i.op with
  | .link | .jump | .and | .or => [⟨i.target, depth⟩]
  | .exit | .goto | .catchOn => [⟨i.target, wrapInt (depth - i.count)⟩]
  | .ifNil | .ifNotNil | .iterate | .advance => [⟨i.target, wrapInt (depth - 1)⟩]
  | .install => if i.target = noTarget then [] else [⟨i.target, wrapInt (i.count + 1)⟩]
  | .retry => [⟨i.target, i.count⟩]
  | .switch => i.table.map fun address => ⟨address, wrapInt (depth - 1)⟩
  | _ => []

end Inst

namespace Code

def at? (c : Code) (address : Int) : Option Inst :=
  if address < 0 || c.blockSize ≤ 0 then none
  else
    let size := c.blockSize.toNat
    (c.blocks[address.toNat / size]?).bind fun block => block[address.toNat % size]?

def length (c : Code) : Int :=
  match c.blocks.getLast? with
  | none => 0
  | some block => wrapInt ((c.blocks.length - 1) * c.blockSize + block.length)

def addressed (first : Int) : List Inst → List (Int × Inst)
  | [] => []
  | i :: rest => (first, i) :: addressed (wrapInt (first + 1)) rest

def walkBlocks (size : Int) (first : Int) : List (List Inst) → List (Int × Inst)
  | [] => []
  | block :: rest => addressed first block ++ walkBlocks size (wrapInt (first + size)) rest

def walk (c : Code) : List (Int × Inst) := walkBlocks c.blockSize 0 c.blocks

end Code

mutual

/-- A function and all functions nested in it, each before those nested in it. -/
def Func.nested : Func → List Func
  | ⟨source, startLine, endLine, entry, frameSize, numParams, flags, params, decls, upvalues,
      code⟩ =>
    ⟨source, startLine, endLine, entry, frameSize, numParams, flags, params, decls, upvalues,
      code⟩ :: nestedInCode code

def nestedInCode : Option Code → List Func
  | none => []
  | some ⟨_, blocks⟩ => nestedInBlocks blocks

def nestedInBlocks : List (List Inst) → List Func
  | [] => []
  | block :: rest => nestedInBlock block ++ nestedInBlocks rest

def nestedInBlock : List Inst → List Func
  | [] => []
  | i :: rest => nestedInInst i ++ nestedInBlock rest

def nestedInInst : Inst → List Func
  | ⟨.closure, _, _, _, _, _, _, _, some fn⟩ => fn.nested
  | _ => []

end

namespace Func

def collectsExtra (fn : Func) : Bool := fn.flags &&& 1 != 0

def collectsNamed (fn : Func) : Bool := fn.flags &&& 2 != 0

end Func

end StagedScript
