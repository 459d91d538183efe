import StagedScript.Code.Builder
import StagedScript.Machine.Method

/-!
# Records of compiled functions

Outside the program a function is kept as records that hold only numbers, texts and other records.
A constant can be recorded if it is made of numbers, texts, symbols, methods and tuples of these.
The instructions of a function are recorded in one list; the capacity of a block tells where blocks
begin.
-/

namespace StagedScript

/-- The record of a constant. The kind decides which of the other fields are used. -/
structure ValueRecord where
  kind : UInt8 := 0
  flag : Bool := false
  int : Int := 0
  reals : List Real64 := []
  text : Bytes := []
  bytes : Bytes := []
  elems : List ValueRecord := []

mutual

structure InstRecord where
  op : UInt8 := 0
  line : Int := 0
  target : Int := 0
  count : Int := 0
  value : Option ValueRecord := none
  chars : Bytes := []
  decls : List DeclInfo := []
  table : List Int := []
  func : Option FuncRecord := none

structure FuncRecord where
  version : Int := 0
  source : Bytes := []
  startLine : Int := 0
  endLine : Int := 0
  entry : Int := 0
  frameSize : Int := 0
  numParams : Int := 0
  flags : UInt8 := 0
  params : List Bytes := []
  decls : List DeclInfo := []
  upvalues : List Int := []
  blockSize : Int := 0
  code : List InstRecord := []

end

namespace FuncRecord

def currentVersion : Int := 2

end FuncRecord

structure Unrecordable where
  type : Bytes
  source : Bytes
  line : Int
  address : Int

def Unrecordable.message (u : Unrecordable) : Bytes :=
  "bytecode: " ++ u.source ++ ":" ++ Bytes.ofInt u.line ++ " at " ++ Bytes.ofInt u.address ++
    ": bytecode: constant has no wire representation: " ++ u.type

namespace ValueRecord

def hostType : Value → Bytes
  | .list _ => "[]interface \x7b\x7d"
  | .map _ => "*vm.Map"
  | .error .. => "*vm.Error"
  | .closure .. => "*vm.Closure"
  | .builtin .. => "*runtime.Builtin"
  | v => Method.typeName v

mutual

def ofValue : Value → Except Bytes ValueRecord
  | .nil => .ok {}
  | .bool b => .ok { kind := 1, flag := b }
  | .int n => .ok { kind := 2, int := n.toInt }
  | .real x => .ok { kind := 3, reals := [x] }
  | .complex re im => .ok { kind := 4, reals := [re, im] }
  | .str s => .ok { kind := 5, text := s }
  | .bytes s => .ok { kind := 6, bytes := s }
  | .tuple elems => do return { kind := 7, elems := ← ofValues elems }
  | .method name => .ok { kind := 8, text := name }
  | .sym name => .ok { kind := 9, text := name }
  | v => .error (hostType v)

def ofValues : List Value → Except Bytes (List ValueRecord)
  | [] => .ok []
  | v :: rest => do
    let r ← ofValue v
    return r :: (← ofValues rest)

end

end ValueRecord

namespace Inst

def hasConstant (i : Inst) : Bool :=
  match i.op with
  | .const | .constCall | .resolve | .quote => true
  | _ => false

end Inst

mutual

def Func.record : Func → Except Unrecordable FuncRecord
  | ⟨source, startLine, endLine, entry, frameSize, numParams, flags, params, decls, upvalues,
      code⟩ => do
    let (blockSize, code) ← recordCode source code
    return {
      version := FuncRecord.currentVersion, source, startLine, endLine, entry, frameSize, numParams,
      flags, params, decls, upvalues, blockSize, code }

def recordCode (source : Bytes) : Option Code → Except Unrecordable (Int × List InstRecord)
  | none => .ok (0, [])
  | some ⟨size, blocks⟩ => do return (size, ← recordBlocks source size 0 blocks)

def recordBlocks (source : Bytes) (size first : Int) :
    List (List Inst) → Except Unrecordable (List InstRecord)
  | [] => .ok []
  | block :: rest => do
    let records ← recordBlock source first block
    return records ++ (← recordBlocks source size (wrapInt (first + size)) rest)

def recordBlock (source : Bytes) (address : Int) :
    List Inst → Except Unrecordable (List InstRecord)
  | [] => .ok []
  | i :: rest => do
    let r ← recordInst source address i
    return r :: (← recordBlock source (wrapInt (address + 1)) rest)

def recordInst (source : Bytes) (address : Int) : Inst → Except Unrecordable InstRecord
  | ⟨op, line, target, count, value, chars, decls, table, func⟩ => do
    let value ←
      if (Inst.plain line op).hasConstant then
        match ValueRecord.ofValue value with
        | .ok r => pure (some r)
        | .error type => throw ⟨type, source, line, address⟩
      else pure none
    let func ← recordFunc func
    return { op := op.code, line, target, count, value, chars, decls, table, func }

def recordFunc : Option Func → Except Unrecordable (Option FuncRecord)
  | none => .ok none
  | some fn => do return some (← fn.record)

end

inductive RecordError where
  | version (n : Int)
  | malformedReal
  | malformedComplex
  | unknownKind (kind : UInt8)

def RecordError.message : RecordError → Bytes
  | .version n =>
    "bytecode: wire version " ++ Bytes.ofInt n ++ ", want " ++ Bytes.ofInt FuncRecord.currentVersion
  | .malformedReal => "bytecode: malformed real constant"
  | .malformedComplex => "bytecode: malformed complex constant"
  | .unknownKind kind => "bytecode: unknown constant kind " ++ Bytes.ofNat kind.toNat

mutual

def ValueRecord.value : ValueRecord → Except RecordError Value
  | ⟨kind, flag, int, reals, text, bytes, elems⟩ => do
    match kind.toNat with
    | 0 => return .nil
    | 1 => return .bool flag
    | 2 => return .int (Int64.ofInt int)
    | 3 => match reals with
      | [x] => return .real x
      | _ => throw .malformedReal
    | 4 => match reals with
      | [re, im] => return .complex re im
      | _ => throw .malformedComplex
    | 5 => return .str text
    | 6 => return .bytes bytes
    | 7 => return .tuple (← valuesOfRecords elems)
    | 8 => return .method text
    | 9 => return .sym text
    | _ => throw (.unknownKind kind)

def valuesOfRecords : List ValueRecord → Except RecordError (List Value)
  | [] => .ok []
  | r :: rest => do
    let v ← r.value
    return v :: (← valuesOfRecords rest)

end

/-- Cuts instructions into blocks of a capacity, where `used` instructions of the first block come
before them. -/
def blocksFrom (size : Nat) : (used : Nat) → List Inst → List (List Inst)
  | _, [] => []
  | used, i :: rest =>
    if used + 1 = size then [i] :: blocksFrom size 0 rest
    else Builder.consFirst i (blocksFrom size (used + 1) rest)

mutual

def FuncRecord.func : FuncRecord → Except RecordError Func
  | ⟨version, source, startLine, endLine, entry, frameSize, numParams, flags, params, decls,
      upvalues, blockSize, code⟩ => do
    if version ≠ FuncRecord.currentVersion then throw (.version version)
    let code ←
      if blockSize ≤ 0 then pure none
      else do
        let insts ← instsOfRecords code
        pure (some ⟨blockSize, blocksFrom blockSize.toNat 0 insts⟩)
    return {
      source, startLine, endLine, entry, frameSize, numParams, flags, params, decls, upvalues,
      code }

def instsOfRecords : List InstRecord → Except RecordError (List Inst)
  | [] => .ok []
  | r :: rest => do
    let i ← r.inst
    return i :: (← instsOfRecords rest)

def InstRecord.inst : InstRecord → Except RecordError Inst
  | ⟨op, line, target, count, value, chars, decls, table, func⟩ => do
    let value ← match value with
      | none => pure .nil
      | some r => r.value
    let func ← optionalFunc func
    return { op := .ofCode op, line, target, count, value, chars, decls, table, func }

def optionalFunc : Option FuncRecord → Except RecordError (Option Func)
  | none => .ok none
  | some r => do return some (← r.func)

end

end StagedScript
