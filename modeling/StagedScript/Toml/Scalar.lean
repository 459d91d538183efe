import StagedScript.Number.Decimal
import StagedScript.Toml.Basic

/-!
# Numbers, dates and escapes of configuration documents

The reader of documents finds where a literal ends; the functions of this module tell whether it is
well formed and what it means.
-/

namespace StagedScript

namespace Toml

def isHexByte (c : UInt8) : Bool := (Bytes.hexValue? c).isSome

/-- Whether each underscore stands between digits. `accepts` tells whether one may come next. -/
def underscoresFrom : (accepts : Bool) → Bytes → Bool
  | accepts, [] => accepts
  | accepts, c :: rest => (c ≠ 0x5f || accepts) && underscoresFrom (isHexByte c) rest

def underscoresFit (s : Bytes) : Bool :=
  let special : List Bytes := ["nan", "+nan", "-nan", "inf", "+inf", "-inf"]
  special.contains s || underscoresFrom false s

def hasLeadingZero : Bytes → Bool
  | 0x30 :: c :: _ => !(c = 0x62 || c = 0x6f || c = 0x78)
  | sign :: 0x30 :: _ :: _ => sign = 0x2b || sign = 0x2d
  | _ => false

def digitsIn (base : Nat) (s : Bytes) : Nat :=
  s.foldl (fun n c => n * base + (Bytes.hexValue? c).getD 0) 0

def readInteger (s : Bytes) : Except Bytes Int :=
  let wrong (what : Bytes) : Except Bytes Int :=
    .error ("Invalid integer " ++ Quoted.text s ++ ": " ++ what)
  if !underscoresFit s then wrong "underscores must be surrounded by digits"
  else if hasLeadingZero s then wrong "cannot have leading zeroes"
  else
    let digits := s.filter (· ≠ 0x5f)
    let n : Int := match digits with
      | 0x2d :: rest => -(digitsIn 10 rest : Int)
      | 0x2b :: rest => digitsIn 10 rest
      | 0x30 :: 0x62 :: rest => digitsIn 2 rest
      | 0x30 :: 0x6f :: rest => digitsIn 8 rest
      | 0x30 :: 0x78 :: rest => digitsIn 16 rest
      | rest => digitsIn 10 rest
    if -0x8000000000000000 ≤ n && n < 0x8000000000000000 then .ok n
    else .error (s ++ " is out of range for int64")

def fieldsBy (cut : UInt8 → Bool) : Bytes → List Bytes
  | [] => []
  | c :: rest =>
    if cut c then [] :: fieldsBy cut rest
    else match fieldsBy cut rest with
      | [] => [[c]]
      | first :: later => (c :: first) :: later

def pointsFit : Bytes → Bool
  | [] => true
  | [c] => c ≠ 0x2e
  | c :: d :: rest => (c ≠ 0x2e || Decimal.isDigit d) && pointsFit (d :: rest)

def isSignedDigits (s : Bytes) : Bool :=
  let digits := match s with
    | 0x2b :: rest | 0x2d :: rest => rest
    | rest => rest
  !digits.isEmpty && digits.all Decimal.isDigit

def isNumeral (s : Bytes) : Bool :=
  let (whole, rest) := s.span Decimal.isDigit
  let (fraction, rest) := match rest with
    | 0x2e :: rest => rest.span Decimal.isDigit
    | rest => ([], rest)
  !(whole.isEmpty && fraction.isEmpty) && match rest with
    | [] => true
    | c :: rest => (c = 0x65 || c = 0x45) && isSignedDigits rest

def checkReal (s : Bytes) : Except Bytes Unit :=
  let wrong (what : Bytes) : Except Bytes Unit :=
    .error ("Invalid float " ++ Quoted.text s ++ ": " ++ what)
  let parts := (fieldsBy (fun c => c = 0x2e || c = 0x65 || c = 0x45) s).filter (!·.isEmpty)
  if !parts.all underscoresFit then wrong "underscores must be surrounded by digits"
  else if (parts.head?.map hasLeadingZero).getD false then wrong "cannot have leading zeroes"
  else if !pointsFit s then wrong "'.' must be followed by one or more digits"
  else
    let unsigned : Bytes := match s.filter (· ≠ 0x5f) with
      | 0x2b :: rest | 0x2d :: rest => rest
      | rest => rest
    let special : List Bytes := ["nan", "inf"]
    if special.contains unsigned then .ok ()
    else if !isNumeral unsigned then .error ("Invalid float value: " ++ Quoted.text s)
    else if (Decimal.read? unsigned).isNone then .error (s ++ " is out of range for float64")
    else .ok ()

/-! ### Dates and times -/

def fixedDigits (count : Nat) (s : Bytes) : Option (Nat × Bytes) :=
  let digits := s.take count
  if digits.length = count && digits.all Decimal.isDigit then
    some (Decimal.number digits, s.drop count)
  else none

def dropByte (c : UInt8) : Bytes → Option Bytes
  | d :: rest => if d = c then some rest else none
  | [] => none

def daysIn (year month : Nat) : Nat :=
  if month = 2 then
    if (year % 4 = 0 && year % 100 ≠ 0) || year % 400 = 0 then 29 else 28
  else if month = 4 || month = 6 || month = 9 || month = 11 then 30
  else 31

def dropDate (s : Bytes) : Option Bytes := do
  let (year, s) ← fixedDigits 4 s
  let (month, s) ← fixedDigits 2 (← dropByte 0x2d s)
  let (day, s) ← fixedDigits 2 (← dropByte 0x2d s)
  if 1 ≤ month && month ≤ 12 && 1 ≤ day && day ≤ daysIn year month then some s else none

/-- The rest after a time. Seconds may be left out, and may have a fraction. -/
def dropTime (s : Bytes) : Option Bytes := do
  let (hour, s) ← fixedDigits 2 s
  let (minute, s) ← fixedDigits 2 (← dropByte 0x3a s)
  if 23 < hour || 59 < minute then none
  match dropByte 0x3a s with
  | none => some s
  | some s =>
    let (second, s) ← fixedDigits 2 s
    if 59 < second then none
    match s with
    | 0x2e :: rest =>
      let (fraction, rest) := rest.span Decimal.isDigit
      if fraction.isEmpty then none else some rest
    | s => some s

def isOffset (s : Bytes) : Bool :=
  match s with
  | [] => true
  | [c] => c = 0x5a
  | sign :: rest => (sign = 0x2b || sign = 0x2d) && Option.isSome do
    let (hour, s) ← fixedDigits 2 rest
    let (minute, s) ← fixedDigits 2 (← dropByte 0x3a s)
    if s.isEmpty && hour ≤ 24 && minute ≤ 60 then some () else none

/-- Whether a literal is a date, a time or both. A blank may stand between date and time. -/
def isMoment (s : Bytes) : Bool :=
  let s := s.map fun c => if c = 0x7a then 0x5a else if c = 0x74 || c = 0x20 then 0x54 else c
  match dropDate s with
  | some [] => true
  | some (0x54 :: rest) => (dropTime rest).any isOffset
  | some _ => false
  | none => (dropTime s).any (·.isEmpty)

/-! ### Escapes -/

def isBlank (c : UInt8) : Bool := c = 0x20 || c = 0x09 || c = 0x0d || c = 0x0a

/-- A text without the breaks of lines that end with a backslash. The first `skip` bytes are blanks
after such a break. -/
def joinLines : (skip : Nat) → Bytes → Bytes
  | _, [] => []
  | skip + 1, _ :: rest => joinLines skip rest
  | 0, 0x5c :: 0x5c :: rest => 0x5c :: 0x5c :: joinLines 0 rest
  | 0, c :: rest =>
    let blank := rest.takeWhile isBlank
    if c = 0x5c && blank.contains 0x0a then joinLines blank.length rest else c :: joinLines 0 rest

/-- A character given by hexadecimal digits, and the rest. -/
def escapedCode (digits : Nat) (s : Bytes) : Except Bytes (Bytes × Bytes) :=
  let hex := s.take digits
  let code := digitsIn 16 hex
  if (0xd800 ≤ code && code ≤ 0xdfff) || 0x10ffff < code then
    .error ("Escaped character '\\u" ++ hex ++ "' is not valid UTF-8.")
  else .ok (Utf8.encode code, s.drop digits)

def replaceEscapes : (fuel : Nat) → Bytes → Except Bytes Bytes
  | fuel + 1, 0x5c :: c :: rest => do
    let plain (b : UInt8) : Except Bytes (Bytes × Bytes) := .ok ([b], rest)
    let (b, rest) ← match c.toNat with
      | 0x62 => plain 0x08
      | 0x74 => plain 0x09
      | 0x6e => plain 0x0a
      | 0x66 => plain 0x0c
      | 0x72 => plain 0x0d
      | 0x65 => plain 0x1b
      | 0x22 => plain 0x22
      | 0x5c => plain 0x5c
      | 0x78 => escapedCode 2 rest
      | 0x75 => escapedCode 4 rest
      | 0x55 => escapedCode 8 rest
      | _ => .error ("invalid escape: '\\" ++ [c] ++ "'")
    return b ++ (← replaceEscapes fuel rest)
  | fuel + 1, c :: rest => do return c :: (← replaceEscapes fuel rest)
  | _, _ => .ok []

def dropFirstBreak : Bytes → Bytes
  | 0x0a :: rest => rest
  | 0x0d :: 0x0a :: rest => rest
  | s => s

end Toml

end StagedScript
