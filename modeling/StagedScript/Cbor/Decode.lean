import StagedScript.Cbor.Basic

/-!
# Reading binary objects

The bytes of an object hold exactly one item.  Strings, lists and maps may have an indefinite length
and end with a break.  Lists, maps and tags in tags nest at most 32 levels deep.
-/

namespace StagedScript

namespace Cbor

inductive Major where
  | unsigned | negative | bytes | text | array | map | tag | simple
  deriving DecidableEq

namespace Major

def ofByte (b : UInt8) : Major :=
  match b.toNat / 32 with
  | 0 => .unsigned
  | 1 => .negative
  | 2 => .bytes
  | 3 => .text
  | 4 => .array
  | 5 => .map
  | 6 => .tag
  | _ => .simple

def name : Major → Bytes
  | .unsigned => "positive integer"
  | .negative => "negative integer"
  | .bytes => "byte string"
  | .text => "UTF-8 text string"
  | .array => "array"
  | .map => "map"
  | .tag => "tag"
  | .simple => "primitives"

end Major

def maxNesting : Nat := 32

def maxElements : Nat := 131072

def maxPairs : Nat := 131072

end Cbor

inductive CborError where
  | empty
  | truncated
  | trailing (count index : Nat)
  | unknownInfo (info : Nat) (major : Cbor.Major)
  | strayBreak
  | longSimple (code : Nat)
  | tooLong (major : Cbor.Major) (length : Nat)
  | tooDeep
  | tooManyElements
  | tooManyPairs
  | wrongChunk (chunk major : Cbor.Major)
  | endlessChunk (major : Cbor.Major)

def CborError.message : CborError → Bytes
  | .empty => "EOF"
  | .truncated => "unexpected EOF"
  | .trailing count index =>
    "cbor: " ++ Bytes.ofNat count ++ " bytes of extraneous data starting at index " ++
      Bytes.ofNat index
  | .unknownInfo info major =>
    "cbor: invalid additional information " ++ Bytes.ofNat info ++ " for type " ++ major.name
  | .strayBreak => "cbor: unexpected \"break\" code"
  | .longSimple code =>
    "cbor: invalid simple value " ++ Bytes.ofNat code ++ " for type " ++ Cbor.Major.simple.name
  | .tooLong major length =>
    "cbor: " ++ major.name ++ " length " ++ Bytes.ofNat length ++
      " is too large, causing integer overflow"
  | .tooDeep => "cbor: exceeded max nested level " ++ Bytes.ofNat Cbor.maxNesting
  | .tooManyElements =>
    "cbor: exceeded max number of elements " ++ Bytes.ofNat Cbor.maxElements ++ " for CBOR array"
  | .tooManyPairs =>
    "cbor: exceeded max number of key-value pairs " ++ Bytes.ofNat Cbor.maxPairs ++ " for CBOR map"
  | .wrongChunk chunk major =>
    "cbor: wrong element type " ++ chunk.name ++ " for indefinite-length " ++ major.name
  | .endlessChunk major =>
    "cbor: indefinite-length " ++ major.name ++ " chunk is not definite-length"

namespace Cbor

abbrev Reader (α : Type) := Bytes → Except CborError (α × Bytes)

structure Head where
  major : Major
  /-- The second part of the initial byte; 31 stands for an indefinite length. -/
  info : Nat
  number : Nat

def take (n : Nat) : Reader Bytes := fun s =>
  if s.length < n then .error .truncated else .ok (s.take n, s.drop n)

def number (width : Nat) : Reader Nat := fun s => do
  let (b, rest) ← take width s
  return (b.foldl (fun n (c : UInt8) => n * 256 + c.toNat) 0, rest)

def readHead : Reader Head
  | [] => .error .truncated
  | b :: s => do
    let major := Major.ofByte b
    let info := b.toNat % 32
    if info < 24 then return (⟨major, info, info⟩, s)
    let sized (width : Nat) : Except CborError (Head × Bytes) := do
      let (n, rest) ← number width s
      return (⟨major, info, n⟩, rest)
    match info with
    | 24 =>
      let (h, rest) ← sized 1
      if major = .simple && h.number < 32 then throw (.longSimple h.number)
      return (h, rest)
    | 25 => sized 2
    | 26 => sized 4
    | 27 => sized 8
    | 31 =>
      match major with
      | .unsigned | .negative | .tag => throw (.unknownInfo info major)
      | .simple => throw .strayBreak
      | _ => return (⟨major, info, info⟩, s)
    | _ => throw (.unknownInfo info major)

def readString (h : Head) : Reader Bytes := fun s =>
  if 0x8000000000000000 ≤ h.number then .error (.tooLong h.major h.number) else take h.number s

/-- The chunks of a string up to the break, within `fuel` chunks. -/
def readChunks (major : Major) : (fuel : Nat) → Reader (List Bytes)
  | 0, _ => .error .truncated
  | _ + 1, [] => .error .truncated
  | fuel + 1, b :: s => do
    if b = 0xff then return ([], s)
    if Major.ofByte b ≠ major then throw (.wrongChunk (.ofByte b) major)
    if b.toNat % 32 = 31 then throw (.endlessChunk major)
    let (h, s) ← readHead (b :: s)
    let (chunk, s) ← readString h s
    let (chunks, s) ← readChunks major fuel s
    return (chunk :: chunks, s)

def readMany (item : Reader Cbor) : (count : Nat) → Reader (List Cbor)
  | 0, s => .ok ([], s)
  | count + 1, s => do
    let (i, s) ← item s
    let (rest, s) ← readMany item count s
    return (i :: rest, s)

/-- The items up to the break, within `fuel` items. `exceeds` tells which numbers of items are too
large. -/
def readUntilBreak (item : Reader Cbor) (exceeds : Nat → Option CborError) :
    (fuel : Nat) → (seen : Nat) → Reader (List Cbor)
  | 0, _, _ => .error .truncated
  | _ + 1, _, [] => .error .truncated
  | fuel + 1, seen, b :: s => do
    if b = 0xff then return ([], s)
    let (i, s) ← item (b :: s)
    if let some e := exceeds (seen + 1) then throw e
    let (rest, s) ← readUntilBreak item exceeds fuel (seen + 1) s
    return (i :: rest, s)

/-- The tags in front of an item, within `fuel` tags. All but the first count as nesting. -/
def readTags : (fuel : Nat) → (depth : Nat) → Reader (List Nat × Nat)
  | 0, depth, s => .ok (([], depth), s)
  | _ + 1, _, [] => .error .truncated
  | fuel + 1, depth, b :: s => do
    if Major.ofByte b ≠ .tag then return (([], depth), b :: s)
    let (h, s) ← readHead (b :: s)
    if maxNesting < depth + 1 then throw .tooDeep
    let ((tags, depth), s) ← readTags fuel (depth + 1) s
    return ((h.number :: tags, depth), s)

def readPlain (h : Head) : Reader Cbor := fun s =>
  match h.major with
  | .unsigned => .ok (.unsigned h.number, s)
  | .negative => .ok (.negative h.number, s)
  | .bytes => do
    if h.info = 31 then
      let (chunks, s) ← readChunks .bytes s.length s
      return (.bytes chunks.flatten, s)
    let (b, s) ← readString h s
    return (.bytes b, s)
  | .text => do
    if h.info = 31 then
      let (chunks, s) ← readChunks .text s.length s
      return (.text chunks, s)
    let (b, s) ← readString h s
    return (.text [b], s)
  | _ =>
    .ok (match h.info with
      | 25 => .real (Narrow.half.toReal h.number)
      | 26 => .real (Narrow.single.toReal h.number)
      | 27 => .real ⟨h.number.toUInt64⟩
      | _ => .simple h.number, s)

/-- An item that starts with a head and stands inside `depth` others. `item` reads the items in
it. -/
def readContent (item : Nat → Reader Cbor) (depth : Nat) (h : Head) : Reader Cbor := fun s => do
  match h.major with
  | .array =>
    if maxNesting < depth + 1 then throw .tooDeep
    if h.info = 31 then
      let exceeds (n : Nat) : Option CborError :=
        if maxElements < n then some .tooManyElements else none
      let (items, s) ← readUntilBreak (item (depth + 1)) exceeds (s.length + 1) 0 s
      return (.array items, s)
    if 0x8000000000000000 ≤ h.number then throw (.tooLong h.major h.number)
    if maxElements < h.number then throw .tooManyElements
    let (items, s) ← readMany (item (depth + 1)) h.number s
    return (.array items, s)
  | .map =>
    if maxNesting < depth + 1 then throw .tooDeep
    if h.info = 31 then
      let exceeds (n : Nat) : Option CborError :=
        if n % 2 = 0 && maxPairs < n / 2 then some .tooManyPairs else none
      let (items, s) ← readUntilBreak (item (depth + 1)) exceeds (s.length + 1) 0 s
      if items.length % 2 = 1 then throw .strayBreak
      return (.map items, s)
    if 0x8000000000000000 ≤ h.number then throw (.tooLong h.major h.number)
    if maxPairs < h.number then throw .tooManyPairs
    let (items, s) ← readMany (item (depth + 1)) (2 * h.number) s
    return (.map items, s)
  | _ => readPlain h s

/-- An item inside `depth` others. Each level of nesting takes one unit of `fuel`. -/
def readItem : (fuel depth : Nat) → Reader Cbor
  | 0, _, _ => .error .tooDeep
  | fuel + 1, depth, s => do
    let (h, rest) ← readHead s
    if h.major = .tag then
      let ((tags, depth), rest) ← readTags (rest.length + 1) depth rest
      let (inner, rest) ← readHead rest
      let (content, rest) ← readContent (readItem fuel) depth inner rest
      return ((h.number :: tags).foldr .tag content, rest)
    else readContent (readItem fuel) depth h rest

def decode (s : Bytes) : Except CborError Cbor := do
  if s.isEmpty then throw .empty
  let (item, rest) ← readItem (maxNesting + 1) 0 s
  if !rest.isEmpty then throw (.trailing rest.length (s.length - rest.length))
  return item

end Cbor

end StagedScript
