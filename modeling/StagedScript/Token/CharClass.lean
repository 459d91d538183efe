import StagedScript.Text.Bytes

/-!
# Character classes

The first byte of a token decides how it is read.  Bytes from 128 up belong to names, so names can
be written in any encoding that extends ASCII.
-/

namespace StagedScript

inductive CharClass where
  | other
  | space
  | newline
  | alpha
  | digit
  | operator
  | delimiter
  | colon
  | singleQuote
  | doubleQuote
  deriving DecidableEq

namespace CharClass

/-- The bytes that separate tokens on a line: space, tab, carriage return, form feed and vertical
tab. -/
def spaces : Bytes := [0x20, 0x09, 0x0d, 0x0c, 0x0b]

def operators : Bytes := "!#$%&*+-./<=>?@\\^|~`"

def delimiters : Bytes := "()[]\x7b\x7d,;"

def ofByte (c : UInt8) : CharClass :=
  if (97 ≤ c && c ≤ 122) || (65 ≤ c && c ≤ 90) || c = 0x5f || 0x80 ≤ c then .alpha
  else if 48 ≤ c && c ≤ 57 then .digit
  else if c = 0x0a then .newline
  else if c = 0x3a then .colon
  else if c = 0x27 then .singleQuote
  else if c = 0x22 then .doubleQuote
  else if List.contains spaces c then .space
  else if List.contains operators c then .operator
  else if List.contains delimiters c then .delimiter
  else .other

def isWord (c : UInt8) : Bool := ofByte c = .alpha || ofByte c = .digit

def isOperator (c : UInt8) : Bool := ofByte c = .operator

end CharClass

def isOperatorName (name : Bytes) : Bool := !name.isEmpty && name.all CharClass.isOperator

/-- How tightly a binary operator binds, by its first byte. -/
def precedence (op : Bytes) : Nat :=
  match op with
  | [] => 0
  | c :: _ =>
    if List.contains (Bytes.ofString "*/%\\") c then 4
    else if List.contains (Bytes.ofString "+-") c then 3
    else if List.contains (Bytes.ofString "=!<>~") c then 2
    else if List.contains (Bytes.ofString "&|^") c then 1
    else 0

end StagedScript
