import StagedScript.Number.Narrow
import StagedScript.Text.Bytes

/-!
# Concise binary objects

A binary object is an item: a number, a text, a list, a map, and a few more.  Every item starts with
a head of a major type and a number.  The encoding is canonical: heads are as short as possible, and
reals take the fewest bits that hold them.
-/

namespace StagedScript

inductive Cbor where
  | unsigned (n : Nat)
  | negative (n : Nat)
  | bytes (b : Bytes)
  | text (chunks : List Bytes)
  | array (items : List Cbor)
  | map (items : List Cbor)
  | tag (n : Nat) (content : Cbor)
  | simple (code : Nat)
  | real (x : Real64)
  deriving Inhabited

namespace Cbor

def int (n : Int) : Cbor := if n < 0 then .negative (-1 - n).toNat else .unsigned n.toNat

def str (s : Bytes) : Cbor := .text [s]

def bool (b : Bool) : Cbor := .simple (if b then 21 else 20)

def null : Cbor := .simple 22

def bigEndian : (width : Nat) → (n : Nat) → Bytes
  | 0, _ => []
  | width + 1, n => (n / Nat.pow 256 width % 256).toUInt8 :: bigEndian width n

def head (major : Nat) (n : Nat) : Bytes :=
  let first (info : Nat) : UInt8 := (major * 32 + info).toUInt8
  if n < 24 then [first n]
  else if n < 0x100 then first 24 :: bigEndian 1 n
  else if n < 0x10000 then first 25 :: bigEndian 2 n
  else if n < 0x100000000 then first 26 :: bigEndian 4 n
  else first 27 :: bigEndian 8 n

def encodeReal (x : Real64) : Bytes :=
  if x.isNaN then 0xf9 :: bigEndian 2 0x7e00
  else match Narrow.half.ofReal? x with
    | some bits => 0xf9 :: bigEndian 2 bits
    | none => match Narrow.single.ofReal? x with
      | some bits => 0xfa :: bigEndian 4 bits
      | none => 0xfb :: bigEndian 8 x.bits.toNat

mutual

def encode : Cbor → Bytes
  | .unsigned n => head 0 n
  | .negative n => head 1 n
  | .bytes b => head 2 b.length ++ b
  | .text chunks => head 3 chunks.flatten.length ++ chunks.flatten
  | .array items => head 4 items.length ++ encodeAll items
  | .map items => head 5 (items.length / 2) ++ encodeAll items
  | .tag n content => head 6 n ++ encode content
  | .simple code => head 7 code
  | .real x => encodeReal x

def encodeAll : List Cbor → Bytes
  | [] => []
  | i :: rest => encode i ++ encodeAll rest

end

end Cbor

end StagedScript
