import StagedScript.Cbor.Decode
import StagedScript.Code.Record

/-!
# Functions as bytes

The record of a function is written as a binary object.  A record is a map from the numbers of its
fields, and fields with their default value are left out unless they are always written.  Reading
takes the first entry for each field and ignores entries that belong to no field.
-/

namespace StagedScript

/-! ### Writing -/

namespace Wire

def entry (n : Nat) (c : Cbor) : List Cbor := [.unsigned n, c]

def entryUnless (isDefault : Bool) (n : Nat) (c : Cbor) : List Cbor :=
  if isDefault then [] else entry n c

def ofDecl (d : DeclInfo) : Cbor :=
  .map [.str "Line", .int d.line, .str "Name", .str d.name, .str "Slot", .int d.slot]

end Wire

open Wire in
mutual

def ValueRecord.toCbor : ValueRecord → Cbor
  | ⟨kind, flag, int, reals, text, bytes, elems⟩ =>
    .map (entry 1 (.unsigned kind.toNat) ++ entryUnless (!flag) 2 (.bool flag) ++
      entryUnless (int = 0) 3 (.int int) ++
      entryUnless reals.isEmpty 4 (.array (reals.map .real)) ++
      entryUnless text.isEmpty 5 (.str text) ++ entryUnless bytes.isEmpty 6 (.bytes bytes) ++
      entryUnless elems.isEmpty 7 (.array (valuesToCbor elems)))

def valuesToCbor : List ValueRecord → List Cbor
  | [] => []
  | r :: rest => r.toCbor :: valuesToCbor rest

end

open Wire in
mutual

def InstRecord.toCbor : InstRecord → Cbor
  | ⟨op, line, target, count, value, chars, decls, table, func⟩ =>
    .map (entry 1 (.unsigned op.toNat) ++ entry 2 (.int line) ++
      entryUnless (target = 0) 3 (.int target) ++ entryUnless (count = 0) 4 (.int count) ++
      (value.elim [] fun v => entry 5 v.toCbor) ++ entryUnless chars.isEmpty 6 (.str chars) ++
      entryUnless decls.isEmpty 7 (.array (decls.map ofDecl)) ++
      entryUnless table.isEmpty 8 (.array (table.map .int)) ++ funcToCbor func)

def funcToCbor : Option FuncRecord → List Cbor
  | none => []
  | some r => entry 9 r.toCbor

def FuncRecord.toCbor : FuncRecord → Cbor
  | ⟨version, source, startLine, endLine, entryAddress, frameSize, numParams, flags, params, decls,
      upvalues, blockSize, code⟩ =>
    .map (entry 1 (.int version) ++ entry 2 (.str source) ++ entry 3 (.int startLine) ++
      entry 4 (.int endLine) ++ entry 5 (.int entryAddress) ++ entry 6 (.int frameSize) ++
      entry 7 (.int numParams) ++ entry 8 (.unsigned flags.toNat) ++
      entryUnless params.isEmpty 9 (.array (params.map .str)) ++
      entryUnless decls.isEmpty 10 (.array (decls.map ofDecl)) ++
      entryUnless upvalues.isEmpty 11 (.array (upvalues.map .int)) ++ entry 12 (.int blockSize) ++
      entry 13 (if code.isEmpty then .null else .array (instsToCbor code)))

def instsToCbor : List InstRecord → List Cbor
  | [] => []
  | r :: rest => r.toCbor :: instsToCbor rest

end

/-! ### Reading -/

inductive Mismatch where
  | type (found expected : Bytes) (field note : Option Bytes)
  | text
  | tag (tags content found : Bytes)
  | depth

namespace Mismatch

def message : Mismatch → Bytes
  | .type found expected field note =>
    let place : Bytes := match field with
      | none => "value of type "
      | some f => "struct field " ++ f ++ " of type "
    let remark : Bytes := match note with
      | none => []
      | some n => " (" ++ n ++ ")"
    "cbor: cannot unmarshal " ++ found ++ " into Go " ++ place ++ expected ++ remark
  | .text => "cbor: invalid UTF-8 string"
  | .tag tags content found =>
    "cbor: tag number " ++ tags ++ " must be followed by " ++ content ++ ", got " ++ found
  | .depth => CborError.tooDeep.message

def inField (field : Bytes) : Mismatch → Mismatch
  | .type found expected _ note => .type found expected (some field) note
  | e => e

end Mismatch

namespace Cbor

def major : Cbor → Major
  | .unsigned _ => .unsigned
  | .negative _ => .negative
  | .bytes _ => .bytes
  | .text _ => .text
  | .array _ => .array
  | .map _ => .map
  | .tag .. => .tag
  | .simple _ | .real _ => .simple

inductive Datum where
  | integer (found : Major) (n : Int)
  | bignum (b : Bytes) (n : Int)
  | bytes (b : Bytes)
  | text (s : Bytes)
  | bool (b : Bool)
  | nothing
  | real (x : Real64)
  | array (items : List Cbor)
  | map (items : List Cbor)

def Datum.found : Datum → Major
  | .integer m _ => m
  | .bignum .. => .tag
  | .bytes _ => .bytes
  | .text _ => .text
  | .bool _ | .nothing | .real _ => .simple
  | .array _ => .array
  | .map _ => .map

def Datum.mismatch (d : Datum) (expected : Bytes) : Mismatch :=
  .type d.found.name expected none none

def selfDescribed : Nat := 55799

def checkTag (n : Nat) (content : Cbor) : Except Mismatch Unit :=
  let found := content.major.name
  match n with
  | 0 => if content.major = .text then .ok () else .error (.tag "0" "text string" found)
  | 1 => match content with
    | .unsigned _ | .negative _ | .real _ => .ok ()
    | _ => .error (.tag "1" "integer or floating-point number" found)
  | 2 | 3 => if content.major = .bytes then .ok () else .error (.tag "2 or 3" "byte string" found)
  | _ => .ok ()

def natural (b : Bytes) : Nat := b.foldl (fun n (c : UInt8) => n * 256 + c.toNat) 0

def overflows (n : Int) (type : Bytes) : Bytes := Bytes.ofInt n ++ " overflows " ++ type

def datum (expected : Bytes) : Cbor → Except Mismatch Datum
  | .unsigned n => .ok (.integer .unsigned n)
  | .negative n =>
    if n < 0x8000000000000000 then .ok (.integer .negative (-1 - n))
    else .error (.type Major.negative.name expected none (some (overflows (-1 - n) "Go's int64")))
  | .bytes b => .ok (.bytes b)
  | .text chunks => if chunks.all Utf8.isValid then .ok (.text chunks.flatten) else .error .text
  | .array items => .ok (.array items)
  | .map items => .ok (.map items)
  | .simple code => .ok (match code with
    | 20 => .bool false
    | 21 => .bool true
    | 22 | 23 => .nothing
    | _ => .integer .simple code)
  | .real x => .ok (.real x)
  | .tag n content =>
    if n = selfDescribed then datum expected content
    else do
      checkTag n content
      match n, content with
      | 2, .bytes b => return .bignum b (natural b)
      | 3, .bytes b => return .bignum b (-1 - natural b)
      | _, _ => datum expected content

/-- The integer of a datum, if it is one that fits into 64 bits with or without a sign. -/
def Datum.integer? (d : Datum) (expected : Bytes) : Except Mismatch (Option Int) :=
  match d with
  | .integer _ n => .ok (some n)
  | .bignum _ n =>
    if -0x8000000000000000 ≤ n && n < 0x10000000000000000 then .ok (some n)
    else .error (.type Major.tag.name expected none (some (overflows n expected)))
  | _ => .ok none

def readInt (expected : Bytes) (c : Cbor) : Except Mismatch Int := do
  let d ← datum expected c
  match d, ← d.integer? expected with
  | .nothing, _ => return 0
  | _, some n =>
    if n < 0x8000000000000000 then return n
    throw (.type d.found.name expected none (some (overflows n expected)))
  | _, none => throw (d.mismatch expected)

def readByte (expected : Bytes) (c : Cbor) : Except Mismatch UInt8 := do
  let d ← datum expected c
  match d, ← d.integer? expected with
  | .nothing, _ => return 0
  | _, some n =>
    if n < 0 then throw (d.mismatch expected)
    if n < 256 then return n.toNat.toUInt8
    throw (.type d.found.name expected none (some (overflows n expected)))
  | _, none => throw (d.mismatch expected)

/-- Reads a real. An integer stands for the nearest real. -/
def readReal (c : Cbor) : Except Mismatch Real64 := do
  let d ← datum "float64" c
  match d, ← d.integer? "float64" with
  | .nothing, _ => return Real64.zero false
  | .real x, _ => return x
  | _, some n => return Real64.ofInt n
  | _, none => throw (d.mismatch "float64")

def readBool (c : Cbor) : Except Mismatch Bool := do
  match ← datum "bool" c with
  | .nothing => return false
  | .bool b => return b
  | d => throw (d.mismatch "bool")

def readText (c : Cbor) : Except Mismatch Bytes := do
  match ← datum "string" c with
  | .nothing => return []
  | .text s => return s
  | d => throw (d.mismatch "string")

/-- Reads a byte string, which may also be given as a list of bytes. -/
def readBytes (c : Cbor) : Except Mismatch Bytes := do
  match ← datum "[]uint8" c with
  | .nothing => return []
  | .bytes b | .bignum b _ => return b
  | .array items => items.mapM (readByte "uint8")
  | d => throw (d.mismatch "[]uint8")

def readList {α : Type} (element : Bytes) (read : Cbor → Except Mismatch α) (c : Cbor) :
    Except Mismatch (List α) := do
  let expected := "[]" ++ element
  match ← datum expected c with
  | .nothing => return []
  | .array items => items.mapM read
  | d => throw (d.mismatch expected)

structure FieldReader (α : Type) where
  accepts : Cbor → Bool
  name : Bytes
  read : Cbor → α → Except Mismatch α

/-- A field with a number. Its numeral is a key of the field, too. -/
def numbered {α β : Type} (n : Nat) (read : Cbor → Except Mismatch β) (put : β → α → α) :
    FieldReader α where
  accepts
    | .unsigned k => k = n
    | .negative k => wrapInt (-1 - k) = n
    | .text chunks => chunks.flatten = Bytes.ofNat n
    | _ => false
  name := Bytes.ofNat n
  read c r := return put (← read c) r

def lower (c : UInt8) : UInt8 := if 0x41 ≤ c && c ≤ 0x5a then c + 32 else c

def named {α β : Type} (name : Bytes) (read : Cbor → Except Mismatch β) (put : β → α → α) :
    FieldReader α where
  accepts
    | .text chunks => chunks.flatten.map lower = name.map lower
    | _ => false
  name := name
  read c r := return put (← read c) r

def checkKey (c : Cbor) : Except Mismatch Unit :=
  match c with
  | .unsigned _ | .negative _ => .ok ()
  | .text chunks => if chunks.all Utf8.isValid then .ok () else .error .text
  | _ =>
    let found := c.major.name
    .error (.type found "string" none
      (some ("map key is of type " ++ found ++
        " and cannot be used to match struct field name")))

/-- Reads the entries of a record. The first entry of a field counts. -/
def readEntries {α : Type} (type : Bytes) (fields : List (FieldReader α)) :
    (seen : List Bytes) → α → List Cbor → Except Mismatch α
  | seen, r, key :: value :: rest => do
    checkKey key
    match fields.find? fun f => f.accepts key with
    | none => readEntries type fields seen r rest
    | some f =>
      if seen.contains f.name then readEntries type fields seen r rest
      else match f.read value r with
        | .error e => throw (e.inField (type ++ "." ++ f.name))
        | .ok r => readEntries type fields (f.name :: seen) r rest
  | _, r, _ => .ok r

def readRecord {α : Type} (type : Bytes) (fields : List (FieldReader α)) (initial : α) (c : Cbor) :
    Except Mismatch α := do
  let d ← datum type c
  match d with
  | .nothing => return initial
  | .map items => readEntries type fields [] initial items
  | .array _ =>
    throw (.type d.found.name type none
      (some "cannot decode CBOR array to struct without toarray option"))
  | _ =>
    let _ ← d.integer? type
    throw (d.mismatch type)

def readOptional {α : Type} (read : Cbor → Except Mismatch α) (c : Cbor) :
    Except Mismatch (Option α) :=
  match c with
  | .simple 22 | .simple 23 => .ok none
  | c => do return some (← read c)

def readDecl : Cbor → Except Mismatch DeclInfo :=
  readRecord "bytecode.DeclInfo"
    [named "Name" readText fun x d => { d with name := x },
      named "Line" (readInt "int") fun x d => { d with line := x },
      named "Slot" (readInt "int") fun x d => { d with slot := x }] ⟨[], 0, 0⟩

def readDecls : Cbor → Except Mismatch (List DeclInfo) := readList "bytecode.DeclInfo" readDecl

def readValue : (depth : Nat) → Cbor → Except Mismatch ValueRecord
  | 0, _ => .error .depth
  | depth + 1, c =>
    readRecord "bytecode.wireValue"
      [numbered 1 (readByte "bytecode.valueKind") fun x r => { r with kind := x },
        numbered 2 readBool fun x r => { r with flag := x },
        numbered 3 (readInt "int64") fun x r => { r with int := x },
        numbered 4 (readList "float64" readReal) fun x r => { r with reals := x },
        numbered 5 readText fun x r => { r with text := x },
        numbered 6 readBytes fun x r => { r with bytes := x },
        numbered 7 (readList "bytecode.wireValue" (readValue depth))
          fun x r => { r with elems := x }] {} c

def readInst (func : Cbor → Except Mismatch FuncRecord) : Cbor → Except Mismatch InstRecord :=
  readRecord "bytecode.wireInst"
    [numbered 1 (readByte "bytecode.Opcode") fun x r => { r with op := x },
      numbered 2 (readInt "int") fun x r => { r with line := x },
      numbered 3 (readInt "int") fun x r => { r with target := x },
      numbered 4 (readInt "int") fun x r => { r with count := x },
      numbered 5 (readOptional (readValue maxNesting)) fun x r => { r with value := x },
      numbered 6 readText fun x r => { r with chars := x },
      numbered 7 readDecls fun x r => { r with decls := x },
      numbered 8 (readList "int" (readInt "int")) fun x r => { r with table := x },
      numbered 9 (readOptional func) fun x r => { r with func := x }] {}

def readFunc : (depth : Nat) → Cbor → Except Mismatch FuncRecord
  | 0, _ => .error .depth
  | depth + 1, c =>
    readRecord "bytecode.wireFunc"
      [numbered 1 (readInt "int") fun x r => { r with version := x },
        numbered 2 readText fun x r => { r with source := x },
        numbered 3 (readInt "int") fun x r => { r with startLine := x },
        numbered 4 (readInt "int") fun x r => { r with endLine := x },
        numbered 5 (readInt "int") fun x r => { r with entry := x },
        numbered 6 (readInt "int") fun x r => { r with frameSize := x },
        numbered 7 (readInt "int") fun x r => { r with numParams := x },
        numbered 8 (readByte "bytecode.FuncFlags") fun x r => { r with flags := x },
        numbered 9 (readList "string" readText) fun x r => { r with params := x },
        numbered 10 readDecls fun x r => { r with decls := x },
        numbered 11 (readList "int" (readInt "int")) fun x r => { r with upvalues := x },
        numbered 12 (readInt "int") fun x r => { r with blockSize := x },
        numbered 13 (readList "bytecode.wireInst" (readInst (readFunc depth)))
          fun x r => { r with code := x }] {} c

end Cbor

/-- The record of an item. Items nest at most `Cbor.maxNesting` levels deep. -/
def FuncRecord.ofCbor (c : Cbor) : Except Mismatch FuncRecord := Cbor.readFunc Cbor.maxNesting c

/-! ### Bytes -/

inductive WireError where
  | malformed (e : CborError)
  | mismatch (e : Mismatch)
  | record (e : RecordError)

def WireError.message : WireError → Bytes
  | .malformed e => "bytecode: unmarshal func: " ++ e.message
  | .mismatch e => "bytecode: unmarshal func: " ++ e.message
  | .record e => e.message

namespace Func

def encode (fn : Func) : Except Unrecordable Bytes := do
  return (← fn.record).toCbor.encode

def decode (s : Bytes) : Except WireError Func :=
  match Cbor.decode s with
  | .error e => .error (.malformed e)
  | .ok c => match FuncRecord.ofCbor c with
    | .error e => .error (.mismatch e)
    | .ok r => match r.func with
      | .error e => .error (.record e)
      | .ok fn => .ok fn

end Func

end StagedScript
