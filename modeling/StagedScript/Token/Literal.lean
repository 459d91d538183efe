import StagedScript.Data
import StagedScript.Number.Decimal
import StagedScript.Text.Escape
import StagedScript.Token.CharClass

/-!
# Literals with a prefix, and numbers

A word directly before a double quote tells how the text between the quotes is read: raw, as a byte
string, or as a text with escapes.  Configurations can add prefixes.
-/

namespace StagedScript

inductive PrefixKind where
  | raw
  | bytes
  | text
  deriving DecidableEq

namespace PrefixKind

def read (kind : PrefixKind) (raw : Bytes) : Except EscapeError Value :=
  match kind with
  | .raw => .ok (.str raw)
  | .bytes => (Escape.replace raw).map .bytes
  | .text => (Escape.replace raw).map .str

def ofName? (name : Bytes) : Option PrefixKind :=
  if name = "raw" then some .raw
  else if name = "bytes" then some .bytes
  else if name = "string" then some .text
  else none

end PrefixKind

abbrev PrefixTable := List (Bytes × PrefixKind)

namespace PrefixTable

def standard : PrefixTable := [("r", .raw), ("b", .bytes)]

def insert (t : PrefixTable) (name : Bytes) (kind : PrefixKind) : PrefixTable :=
  (name, kind) :: t.filter (·.1 ≠ name)

def lookup (t : PrefixTable) (name : Bytes) : Option PrefixKind :=
  (t.find? (·.1 = name)).map (·.2)

end PrefixTable

inductive NumberError where
  | invalidInteger (numeral : Bytes)
  | invalidComplex (numeral : Bytes)
  | invalidReal (numeral : Bytes)
  | integerRange (numeral : Bytes)
  deriving DecidableEq

def NumberError.message : NumberError → Bytes
  | .invalidInteger numeral => "invalid integer literal " ++ numeral
  | .invalidComplex numeral => "invalid complex literal " ++ numeral ++ "i"
  | .invalidReal numeral => "invalid real literal " ++ numeral
  | .integerRange numeral => "integer literal " ++ numeral ++ " out of range"

namespace Numeral

def integerLimit : Nat := 0x8000000000000000

def toInteger? (n : Nat) : Option Int64 :=
  if n < integerLimit then some (Int64.ofNat n) else none

def base? (c : UInt8) : Option Nat :=
  if c = 0x78 || c = 0x58 then some 16
  else if c = 0x6f || c = 0x4f then some 8
  else if c = 0x62 || c = 0x42 then some 2
  else none

/-- The number written by digits of a base. An underscore may stand before each digit. -/
def digits? (base : Nat) : (acc : Nat) → Bytes → Option Nat
  | acc, [] => some acc
  | acc, c :: rest =>
    if c = 0x5f then
      match rest with
      | d :: rest' => do
        let v ← Bytes.hexValue? d
        if v < base then digits? base (acc * base + v) rest' else none
      | [] => none
    else do
      let v ← Bytes.hexValue? c
      if v < base then digits? base (acc * base + v) rest else none

def based? (base : Nat) (digits : Bytes) : Option Int64 :=
  if digits.isEmpty then none else (digits? base 0 digits).bind toInteger?

def isDigitOrMark (c : UInt8) : Bool := Decimal.isDigit c || c = 0x5f

def startsWithDigit : Bytes → Bool
  | c :: _ => Decimal.isDigit c
  | [] => false

def fraction (rest : Bytes) : Bytes × Bytes :=
  match rest with
  | 0x2e :: after =>
    if startsWithDigit after then
      let (digits, rest) := after.span isDigitOrMark
      (0x2e :: digits, rest)
    else ([], rest)
  | _ => ([], rest)

def exponent (rest : Bytes) : Bytes × Bytes :=
  match rest with
  | e :: after =>
    if e = 0x65 || e = 0x45 then
      let (sign, after) : Bytes × Bytes := match after with
        | s :: more => if s = 0x2b || s = 0x2d then ([s], more) else ([], after)
        | [] => ([], [])
      if startsWithDigit after then
        let (digits, rest) := after.span isDigitOrMark
        (e :: sign ++ digits, rest)
      else ([], rest)
    else ([], rest)
  | [] => ([], [])

def startsWithUnit : Bytes → Bool
  | 0x69 :: c :: _ => !CharClass.isWord c
  | [0x69] => true
  | _ => false

def imaginaryUnit (rest : Bytes) : Bool × Bytes :=
  if startsWithUnit rest then (true, rest.drop 1) else (false, rest)

/-- The base of a numeral with a base letter, the letter, and what follows it. -/
def basedParts? : Bytes → Option (Nat × UInt8 × Bytes)
  | 0x30 :: c :: rest => (base? c).map fun base => (base, c, rest)
  | _ => none

def basedValue (base : Nat) (letter : UInt8) (digits : Bytes) : Except NumberError Value :=
  match based? base digits with
  | some n => .ok (.int n)
  | none => .error (.invalidInteger (0x30 :: letter :: digits))

def decimalValue (whole frac expo : Bytes) (imaginary : Bool) : Except NumberError Value :=
  let numeral := (whole ++ frac ++ expo).filter (· ≠ 0x5f)
  if imaginary then
    match Decimal.read? numeral with
    | some x => .ok (.complex (Real64.zero false) x)
    | none => .error (.invalidComplex numeral)
  else if frac.isEmpty && expo.isEmpty then
    match toInteger? (Decimal.number numeral) with
    | some n => .ok (.int n)
    | none => .error (.integerRange numeral)
  else match Decimal.read? numeral with
    | some x => .ok (.real x)
    | none => .error (.invalidReal numeral)

def readDecimal (s : Bytes) : Except NumberError Value × Bytes :=
  let (whole, rest) := s.span isDigitOrMark
  let (frac, rest) := fraction rest
  let (expo, rest) := exponent rest
  let (imaginary, rest) := imaginaryUnit rest
  (decimalValue whole frac expo imaginary, rest)

/-- Reads the number that a text beginning with a digit starts with. -/
def read (s : Bytes) : Except NumberError Value × Bytes :=
  match basedParts? s with
  | some (base, letter, rest) =>
    let (digits, rest) := rest.span CharClass.isWord
    (basedValue base letter digits, rest)
  | none => readDecimal s

end Numeral

end StagedScript
