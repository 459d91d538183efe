import StagedScript.Text.Bytes

/-!
# The BLAKE2b hash function with 256 bits

A message is cut into blocks of 128 bytes, the last one filled with zeros.  Each block is mixed into
a state of eight words by twelve rounds; a round mixes the columns and then the diagonals of a
square of sixteen words.
-/

namespace StagedScript

namespace Blake2b

def initial : Array UInt64 :=
  #[0x6a09e667f3bcc908, 0xbb67ae8584caa73b, 0x3c6ef372fe94f82b, 0xa54ff53a5f1d36f1,
    0x510e527fade682d1, 0x9b05688c2b3e6c1f, 0x1f83d9abfb41bd6b, 0x5be0cd19137e2179]

/-- The order in which each of the ten kinds of rounds takes the words of a block. -/
def schedule : List (List Nat) :=
  [[0, 1, 2, 3, 4, 5, 6, 7, 8, 9, 10, 11, 12, 13, 14, 15],
   [14, 10, 4, 8, 9, 15, 13, 6, 1, 12, 0, 2, 11, 7, 5, 3],
   [11, 8, 12, 0, 5, 2, 15, 13, 10, 14, 3, 6, 7, 1, 9, 4],
   [7, 9, 3, 1, 13, 12, 11, 14, 2, 6, 5, 10, 4, 0, 15, 8],
   [9, 0, 5, 7, 2, 4, 10, 15, 14, 1, 11, 12, 6, 8, 3, 13],
   [2, 12, 6, 10, 0, 11, 8, 3, 4, 13, 7, 5, 15, 14, 1, 9],
   [12, 5, 1, 15, 14, 13, 4, 10, 0, 7, 6, 3, 9, 2, 8, 11],
   [13, 11, 7, 14, 12, 1, 3, 9, 5, 0, 15, 4, 8, 6, 2, 10],
   [6, 15, 14, 9, 11, 3, 0, 8, 12, 2, 13, 7, 1, 4, 10, 5],
   [10, 2, 8, 4, 7, 6, 1, 5, 15, 11, 9, 14, 3, 12, 13, 0]]

/-- The four positions that each step of a round mixes: the columns, then the diagonals. -/
def quadruples : List (Nat × Nat × Nat × Nat) :=
  [(0, 4, 8, 12), (1, 5, 9, 13), (2, 6, 10, 14), (3, 7, 11, 15),
   (0, 5, 10, 15), (1, 6, 11, 12), (2, 7, 8, 13), (3, 4, 9, 14)]

def rotate (x : UInt64) (n : UInt64) : UInt64 := (x >>> n) ||| (x <<< (64 - n))

def word (v : Array UInt64) (i : Nat) : UInt64 := v.getD i 0

def mix (v : Array UInt64) (at4 : Nat × Nat × Nat × Nat) (x y : UInt64) : Array UInt64 :=
  let (ia, ib, ic, id) := at4
  let a := word v ia + word v ib + x
  let d := rotate (word v id ^^^ a) 32
  let c := word v ic + d
  let b := rotate (word v ib ^^^ c) 24
  let a := a + b + y
  let d := rotate (d ^^^ a) 16
  let c := c + d
  let b := rotate (b ^^^ c) 63
  (((v.setIfInBounds ia a).setIfInBounds ib b).setIfInBounds ic c).setIfInBounds id d

def steps (m : Array UInt64) :
    List (Nat × Nat × Nat × Nat) → List Nat → Array UInt64 → Array UInt64
  | q :: qs, i :: j :: order, v => steps m qs order (mix v q (word m i) (word m j))
  | _, _, v => v

def rounds (m v : Array UInt64) : Array UInt64 :=
  (schedule ++ schedule.take 2).foldl (fun v order => steps m quadruples order v) v

def wordOfBytes (b : Bytes) : UInt64 :=
  b.foldr (fun x acc => acc * 256 + x.toUInt64) 0

def bytesOfWord (w : UInt64) : Bytes :=
  (List.range 8).map fun i => (w >>> (8 * i.toUInt64)).toUInt8

/-- Cuts bytes into pieces of a length, within `fuel` pieces. -/
def pieces (length : Nat) : (fuel : Nat) → Bytes → List Bytes
  | 0, _ => []
  | fuel + 1, b => if b.isEmpty then [] else b.take length :: pieces length fuel (b.drop length)

def blockWords (block : Bytes) : Array UInt64 :=
  ((pieces 8 16 (Bytes.padRight 128 0 block)).map wordOfBytes).toArray

/-- Mixes a block into the state. `count` is the number of bytes up to its end. -/
def compress (h : Array UInt64) (block : Bytes) (count : Nat) (isLast : Bool) : Array UInt64 :=
  let v := h ++ initial
  let v := v.setIfInBounds 12 (word v 12 ^^^ count.toUInt64)
  let v := if isLast then v.setIfInBounds 14 (word v 14 ^^^ 0xffffffffffffffff) else v
  let v := rounds (blockWords block) v
  ((List.range 8).map fun i => word h i ^^^ word v i ^^^ word v (i + 8)).toArray

def absorb (h : Array UInt64) (count : Nat) : List Bytes → Array UInt64
  | [] => compress h [] count true
  | [block] => compress h block (count + block.length) true
  | block :: blocks => absorb (compress h block (count + 128) false) (count + 128) blocks

def hash (message : Bytes) : Bytes :=
  let start := initial.setIfInBounds 0 (word initial 0 ^^^ 0x01010020)
  let h := absorb start 0 (pieces 128 (message.length / 128 + 1) message)
  (h.toList.take 4).flatMap bytesOfWord

end Blake2b

end StagedScript
