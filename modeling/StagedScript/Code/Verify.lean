import StagedScript.Code.Basic

/-!
# Verification of code

`Func.maxDepth` follows every path through a function and gives the greatest height of the operand
stack.  `Func.verify` checks a function and those nested in it, and that no height exceeds the size
of the frame.
-/

namespace StagedScript

inductive Defect where
  | noCode
  | disagreement (depth previous : Int)
  | pastEnd
  | unresolved (op : Opcode)
  | slotAbove (op : Opcode) (slot depth : Int)
  | underflow (op : Opcode)
  | tooFew (op : Opcode) (pops depth : Int)
  | frameExceeded (depth frame : Int)
  | slotOutside (op : Opcode) (slot frame : Int)
  deriving DecidableEq

def Defect.message : Defect → Bytes
  | .noCode => "no code"
  | .disagreement depth previous =>
    "stack depth " ++ Bytes.ofInt depth ++ ", previously reached with " ++ Bytes.ofInt previous
  | .pastEnd => "control reaches past the end of code"
  | .unresolved op => op.name ++ " has an unresolved target"
  | .slotAbove op slot depth =>
    op.name ++ " slot " ++ Bytes.ofInt slot ++ " not below stack depth " ++ Bytes.ofInt depth
  | .underflow op => op.name ++ " underflows the stack"
  | .tooFew op pops depth =>
    op.name ++ " pops " ++ Bytes.ofInt pops ++ " with depth " ++ Bytes.ofInt depth
  | .frameExceeded depth frame =>
    "stack reaches " ++ Bytes.ofInt depth ++ ", frame size is " ++ Bytes.ofInt frame
  | .slotOutside op slot frame =>
    op.name ++ " slot " ++ Bytes.ofInt slot ++ " outside frame of " ++ Bytes.ofInt frame

structure VerifyError where
  source : Bytes
  line : Int
  address : Int
  defect : Defect
  deriving DecidableEq

def VerifyError.message (e : VerifyError) : Bytes :=
  "bytecode: " ++ e.source ++ ":" ++ Bytes.ofInt e.line ++ ": at " ++ Bytes.ofInt e.address ++
    ": " ++ e.defect.message

namespace Inst

/-- The defects of an instruction that is executed at a height: first of its own operands, then of
its jumps, and last of the values it pops. -/
def defect? (i : Inst) (depth : Int) : Option Defect :=
  let limit := if i.op.isSlotLoad then depth else wrapInt (depth - 1)
  if i.op.hasTarget && i.target = pendingTarget then some (.unresolved i.op)
  else if i.op.isSlotAccess && (i.count < 0 || limit ≤ i.count) then
    some (.slotAbove i.op i.count depth)
  else match (i.successors depth).findSome? fun e =>
      if e.address = pendingTarget then some (.unresolved i.op)
      else if e.depth < 0 then some (.underflow i.op)
      else none with
    | some d => some d
    | none =>
      if !i.op.isTerminal && depth < i.effect.1 then some (.tooFew i.op i.effect.1 depth) else none

/-- Where control can go from an instruction: to the next one first, and then along the jumps, the
last one first. -/
def outgoing (i : Inst) (address depth : Int) : List Edge :=
  let jumps := (i.successors depth).reverse
  if i.op.isTerminal then jumps
  else ⟨wrapInt (address + 1), wrapInt (depth - i.effect.1 + i.effect.2)⟩ :: jumps

end Inst

namespace Code

/-- What exploring code has found: the height at each address seen, and the greatest height. -/
structure Explored where
  heights : List (Int × Int)
  greatest : Int

/-- Explores code from the given edges, within `fuel` of them. -/
def explore (c : Code) : (fuel : Nat) → List Inst.Edge → Explored → Except (Int × Defect) Explored
  | 0, _, found => .ok found
  | _, [], found => .ok found
  | fuel + 1, e :: rest, found =>
    match found.heights.lookup e.address with
    | some depth =>
      if depth = e.depth then c.explore fuel rest found
      else .error (e.address, .disagreement e.depth depth)
    | none =>
      match c.at? e.address with
      | none => .error (e.address, .pastEnd)
      | some i =>
        match i.defect? e.depth with
        | some d => .error (e.address, d)
        | none =>
          let next := i.outgoing e.address e.depth
          let greatest := next.foldl (fun m e => max m e.depth) found.greatest
          c.explore fuel (next ++ rest) ⟨(e.address, e.depth) :: found.heights, greatest⟩

/-- More edges than exploring can meet: each instruction is left once. -/
def edgeBound (c : Code) : Nat :=
  c.blocks.flatten.foldl (fun n i => n + i.table.length + 2) 2

end Code

namespace Func

def errorAt (fn : Func) (address : Int) (d : Defect) : VerifyError :=
  ⟨fn.source, fn.startLine, address, d⟩

/-- The greatest height of the operand stack on any path through a function. -/
def maxDepth (fn : Func) : Except VerifyError Int :=
  match fn.code with
  | none => .error (fn.errorAt 0 .noCode)
  | some code =>
    let depth : Int := fn.params.length
    match code.explore code.edgeBound [⟨fn.entry, depth⟩] ⟨[], depth⟩ with
    | .ok found => .ok found.greatest
    | .error (address, d) => .error (fn.errorAt address d)

def verifyAlone (fn : Func) : Except VerifyError Unit := do
  let depth ← fn.maxDepth
  if fn.frameSize < depth then throw (fn.errorAt fn.entry (.frameExceeded depth fn.frameSize))
  let outside := ((fn.code.map Code.walk).getD []).find? fun (_, i) =>
    i.op.isSlotAccess && fn.frameSize ≤ i.count
  match outside with
  | some (address, i) => throw (fn.errorAt address (.slotOutside i.op i.count fn.frameSize))
  | none => return ()

def verifyEach : List Func → Except VerifyError Unit
  | [] => .ok ()
  | fn :: rest => do
    fn.verifyAlone
    verifyEach rest

def verify (fn : Func) : Except VerifyError Unit := verifyEach fn.nested

end Func

end StagedScript
