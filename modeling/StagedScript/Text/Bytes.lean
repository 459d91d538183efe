/-!
# Byte strings

Every text of the language is a sequence of bytes.  Nothing requires the bytes to be valid UTF-8, so
texts are lists of bytes and string literals of this library stand for their UTF-8 encoding.
-/

namespace StagedScript

abbrev Bytes := List UInt8

namespace Bytes

def ofString (s : String) : Bytes := s.toUTF8.data.toList

instance : Coe String Bytes := ⟨ofString⟩

def ofChar (c : Char) : UInt8 := c.toUInt8

def newline : UInt8 := 0x0a

def ofInt (n : Int) : Bytes := ofString (toString n)

def ofNat (n : Nat) : Bytes := ofString (toString n)

def hexDigit (n : Nat) : UInt8 :=
  if n < 10 then (48 + n).toUInt8 else (87 + n).toUInt8

def hexFixed : (width : Nat) → (n : Nat) → Bytes
  | 0, _ => []
  | w + 1, n => hexFixed w (n / 16) ++ [hexDigit (n % 16)]

def toHex (b : Bytes) : Bytes :=
  b.flatMap fun x => [hexDigit (x.toNat / 16), hexDigit (x.toNat % 16)]

def hexValue? (c : UInt8) : Option Nat :=
  if 48 ≤ c ∧ c ≤ 57 then some (c.toNat - 48)
  else if 97 ≤ c ∧ c ≤ 102 then some (c.toNat - 87)
  else if 65 ≤ c ∧ c ≤ 70 then some (c.toNat - 55)
  else none

def hexNumber? (s : Bytes) : Option Nat :=
  s.foldl (fun acc c => acc.bind fun v => (hexValue? c).map fun d => v * 16 + d) (some 0)

def ofHex? : Bytes → Option Bytes
  | [] => some []
  | [_] => none
  | a :: b :: rest => do
    let hi ← hexValue? a
    let lo ← hexValue? b
    let tail ← ofHex? rest
    return (hi * 16 + lo).toUInt8 :: tail

def padLeft (width : Nat) (fill : UInt8) (s : Bytes) : Bytes :=
  List.replicate (width - s.length) fill ++ s

def padRight (width : Nat) (fill : UInt8) (s : Bytes) : Bytes :=
  s ++ List.replicate (width - s.length) fill

def join (sep : Bytes) : List Bytes → Bytes
  | [] => []
  | [x] => x
  | x :: xs => x ++ sep ++ join sep xs

/-- The bytewise order. A proper beginning comes before its extensions. -/
def order : Bytes → Bytes → Ordering
  | [], [] => .eq
  | [], _ :: _ => .lt
  | _ :: _, [] => .gt
  | a :: as, b :: bs => if a < b then .lt else if b < a then .gt else order as bs

def le (a b : Bytes) : Bool := order a b != .gt

def sort (xs : List Bytes) : List Bytes := xs.mergeSort le

def hasPart (part : Bytes) : Bytes → Bool
  | [] => part.isEmpty
  | c :: rest => part.isPrefixOf (c :: rest) || hasPart part rest

def dropStart? : (start text : Bytes) → Option Bytes
  | [], text => some text
  | _ :: _, [] => none
  | a :: as, b :: bs => if a = b then dropStart? as bs else none

def splitAtByte (sep : UInt8) : Bytes → List Bytes
  | [] => [[]]
  | c :: rest =>
    if c = sep then [] :: splitAtByte sep rest
    else match splitAtByte sep rest with
      | [] => [[c]]
      | first :: others => (c :: first) :: others

def dropEndWhile (p : UInt8 → Bool) (s : Bytes) : Bytes :=
  (s.reverse.dropWhile p).reverse

end Bytes

end StagedScript
