import StagedScript.Text.Utf8

/-!
# Escapes in literals

A backslash in a literal begins an escape: a letter for a control, two hexadecimal digits for a
byte, four for a code point, or a quote, brace or backslash that stands for itself.
-/

namespace StagedScript

inductive EscapeError where
  | trailing
  | shortByte
  | shortCode
  | invalidByte
  | invalidCode
  | unknown (c : UInt8)
  deriving DecidableEq

def EscapeError.message : EscapeError → Bytes
  | .trailing => "trailing backslash"
  | .shortByte => "short \\x escape"
  | .shortCode => "short \\u escape"
  | .invalidByte => "invalid \\x escape"
  | .invalidCode => "invalid \\u escape"
  | .unknown c => "unknown escape \\" ++ Utf8.encode c.toNat

namespace Escape

def simple? (c : UInt8) : Option UInt8 :=
  if c = 0x6e then some 0x0a
  else if c = 0x74 then some 0x09
  else if c = 0x72 then some 0x0d
  else if c = 0x30 then some 0
  else if c = 0x5c || c = 0x22 || c = 0x27 || c = 0x7b || c = 0x7d then some c
  else none

/-- Reads the escape that follows a backslash. The result is its meaning and the number of bytes
read. -/
def decode : Bytes → Except EscapeError (Bytes × Nat)
  | [] => .error .trailing
  | c :: rest =>
    match simple? c with
    | some b => .ok ([b], 1)
    | none =>
      if c = 0x78 then
        match rest with
        | a :: b :: _ => match Bytes.hexNumber? [a, b] with
          | some n => .ok ([n.toUInt8], 3)
          | none => .error .invalidByte
        | _ => .error .shortByte
      else if c = 0x75 then
        match rest with
        | a :: b :: d :: e :: _ => match Bytes.hexNumber? [a, b, d, e] with
          | some n => .ok (Utf8.encode n, 5)
          | none => .error .invalidCode
        | _ => .error .shortCode
      else .error (.unknown c)

/-- Replaces the escapes of a text after `skip` bytes that were already read. -/
def replaceFrom : (skip : Nat) → Bytes → Except EscapeError Bytes
  | _, [] => .ok []
  | k + 1, _ :: rest => replaceFrom k rest
  | 0, c :: rest =>
    if c = 0x5c then
      match decode rest with
      | .ok (meaning, n) => (replaceFrom n rest).map (meaning ++ ·)
      | .error e => .error e
    else (replaceFrom 0 rest).map (c :: ·)

def replace (s : Bytes) : Except EscapeError Bytes := replaceFrom 0 s

/-- The length of the escape with a backslash before the given text, as the first letter says. -/
def extent : Bytes → Nat
  | [] => 2
  | c :: _ => if c = 0x78 then 4 else if c = 0x75 then 6 else 2

/-- The meaning of the escape with a backslash before the given text, and the number of bytes after
the backslash. There is no cause if the text is too short. -/
def take (s : Bytes) : Except (Option EscapeError) (Bytes × Nat) :=
  if s.length + 1 < extent s then .error none
  else match replace ((0x5c :: s).take (extent s)) with
    | .ok meaning => .ok (meaning, extent s - 1)
    | .error cause => .error (some cause)

end Escape

end StagedScript
