import StagedScript.Text.Quoted

/-!
# Flags on a command line

Arguments that start with a hyphen set flags.  A flag that is on or off needs no value, and any
other takes its value from behind an equals sign or from the next argument.  The first argument that
is no flag ends the flags, and so do two hyphens.
-/

namespace StagedScript

inductive FlagKind where
  | toggle
  | int
  | text
  deriving DecidableEq

structure Flag where
  name : Bytes
  kind : FlagKind
  usage : Bytes
  /-- What it holds when it is not set. Nothing is said about an empty text. -/
  initial : Bytes := []

inductive FlagError where
  | malformed (arg : Bytes)
  | unknown (name : Bytes)
  | missing (name : Bytes)
  | unreadable (kind : FlagKind) (name value reason : Bytes)
  | help

namespace FlagError

def message : FlagError → Bytes
  | .malformed arg => "bad flag syntax: " ++ arg
  | .unknown name => "flag provided but not defined: -" ++ name
  | .missing name => "flag needs an argument: -" ++ name
  | .unreadable .toggle name value reason =>
    "invalid boolean value " ++ Quoted.text value ++ " for -" ++ name ++ ": " ++ reason
  | .unreadable _ name value reason =>
    "invalid value " ++ Quoted.text value ++ " for flag -" ++ name ++ ": " ++ reason
  | .help => "flag: help requested"

def notice (usage : Bytes) : FlagError → Bytes
  | .help => usage
  | e => e.message ++ [Bytes.newline] ++ usage

end FlagError

namespace Flag

/-! ### Values -/

def onWords : List Bytes := ["1", "t", "T", "TRUE", "true", "True"]

def offWords : List Bytes := ["0", "f", "F", "FALSE", "false", "False"]

def lower (c : UInt8) : UInt8 := if 0x41 ≤ c && c ≤ 0x5a then c + 32 else c

def digit? (c : UInt8) : Option Nat :=
  let c := lower c
  if 0x30 ≤ c && c ≤ 0x39 then some (c.toNat - 0x30)
  else if 0x61 ≤ c && c ≤ 0x7a then some (c.toNat - 0x61 + 10)
  else none

/-- The base of a number and its digits. A leading zero alone stands for eight. -/
def baseOf (s : Bytes) : Nat × Bytes :=
  match s with
  | 0x30 :: letter :: first :: rest =>
    let letter' := lower letter
    if letter' = 0x62 then (2, first :: rest)
    else if letter' = 0x6f then (8, first :: rest)
    else if letter' = 0x78 then (16, first :: rest)
    else (8, letter :: first :: rest)
  | 0x30 :: rest => (8, rest)
  | s => (10, s)

def notReadable : Bytes := "parse error"

def outOfRange : Bytes := "value out of range"

def digitsFrom (base : Nat) : (sofar : Nat) → Bytes → Except Bytes Nat
  | n, [] => .ok n
  | n, c :: rest =>
    if c = 0x5f then digitsFrom base n rest
    else match digit? c with
      | none => .error notReadable
      | some d =>
        if base ≤ d then .error notReadable
        else if 0x10000000000000000 ≤ n * base + d then .error outOfRange
        else digitsFrom base (n * base + d) rest

/-- Whether each underscore stands between digits. A named base counts as a digit. -/
def underscoresFit : (afterDigit : Bool) → Bytes → Bool
  | afterDigit, [] => afterDigit
  | afterDigit, c :: rest =>
    if c = 0x5f then afterDigit && (match rest with
      | [] => false
      | d :: _ => d ≠ 0x5f) && underscoresFit false rest
    else underscoresFit true rest

def readNat (s : Bytes) : Except Bytes Nat := do
  if s.isEmpty then throw notReadable
  let (base, digits) := baseOf s
  let n ← digitsFrom base 0 digits
  if digits.contains 0x5f && !underscoresFit (base ≠ 10) digits then throw notReadable
  return n

def readInt (s : Bytes) : Except Bytes Int := do
  let (isNegative, digits) := match s with
    | 0x2d :: rest => (true, rest)
    | 0x2b :: rest => (false, rest)
    | s => (false, s)
  let n ← readNat digits
  if isNegative then
    if 0x8000000000000000 < n then throw outOfRange
    return -n
  else
    if 0x8000000000000000 ≤ n then throw outOfRange
    return n

def check (kind : FlagKind) (value : Bytes) : Except Bytes Unit :=
  match kind with
  | .toggle =>
    if onWords.contains value || offWords.contains value then .ok () else .error notReadable
  | .int => (readInt value).map fun _ => ()
  | .text => .ok ()

/-! ### Arguments -/

/-- The values that were given to flags, the last one first. -/
abbrev Settings := List (Bytes × Bytes)

/-- The name of a flag in an argument, and its value if there is an equals sign. -/
def splitName (s : Bytes) : Bytes × Option Bytes :=
  match s with
  | [] => ([], none)
  | c :: rest =>
    match rest.dropWhile (· ≠ 0x3d) with
    | [] => (s, none)
    | _ :: value => (c :: rest.takeWhile (· ≠ 0x3d), some value)

inductive Argument where
  | plain
  | last
  | malformed
  | flag (name : Bytes) (value : Option Bytes)

def classify (arg : Bytes) : Argument :=
  let named (name : Bytes) : Argument :=
    match name with
    | [] => .malformed
    | c :: _ =>
      if c = 0x2d || c = 0x3d then .malformed
      else let (name, value) := splitName name; .flag name value
  match arg with
  | [0x2d, 0x2d] => .last
  | 0x2d :: 0x2d :: name => named name
  | 0x2d :: c :: name => named (c :: name)
  | _ => .plain

def helpWords : List Bytes := ["help", "h"]

def set (f : Flag) (value : Bytes) (settings : Settings) : Except FlagError Settings :=
  match check f.kind value with
  | .ok _ => .ok ((f.name, value) :: settings)
  | .error reason => .error (.unreadable f.kind f.name value reason)

def parse (flags : List Flag) : List Bytes → Settings → Except FlagError (Settings × List Bytes)
  | [], settings => .ok (settings, [])
  | arg :: rest, settings =>
    match classify arg with
    | .plain => .ok (settings, arg :: rest)
    | .last => .ok (settings, rest)
    | .malformed => .error (.malformed arg)
    | .flag name value =>
      match flags.find? fun f => f.name = name with
      | none => .error (if helpWords.contains name then .help else .unknown name)
      | some f =>
        match value.or (if f.kind = .toggle then some "true" else none) with
        | some value => do parse flags rest (← f.set value settings)
        | none => match rest with
          | [] => .error (.missing name)
          | value :: rest => do parse flags rest (← f.set value settings)

def value? (settings : Settings) (name : Bytes) : Option Bytes := settings.lookup name

def isOn (settings : Settings) (name : Bytes) : Bool :=
  match value? settings name with
  | some value => onWords.contains value
  | none => false

/-! ### Help -/

def describeOne (f : Flag) : Bytes :=
  let kind : Bytes := match f.kind with
    | .toggle => []
    | .int => " int"
    | .text => " string"
  let start : Bytes := "  -" ++ f.name ++ kind
  let gap : Bytes := if start.length ≤ 4 then "\t" else "\n    \t"
  let initial : Bytes :=
    if f.initial.isEmpty then []
    else match f.kind with
      | .text => " (default " ++ Quoted.text f.initial ++ ")"
      | _ => " (default " ++ f.initial ++ ")"
  start ++ gap ++ f.usage ++ initial ++ [Bytes.newline]

def describe (flags : List Flag) : Bytes := flags.flatMap describeOne

def usageOf (command : Bytes) (flags : List Flag) : Bytes :=
  "Usage of " ++ command ++ ":\n" ++ describe flags

end Flag

end StagedScript
