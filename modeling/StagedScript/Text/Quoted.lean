import StagedScript.Text.Printable
import StagedScript.Text.Utf8

/-!
# Quoted text

Values and messages show a text between double quotes.  Printable characters stand for themselves,
the quote and the backslash are preceded by a backslash, and everything else is an escape.
-/

namespace StagedScript
namespace Quoted

def backslash : UInt8 := 0x5c

def controlLetter? (code : Nat) : Option Char :=
  match code with
  | 7 => some 'a'
  | 8 => some 'b'
  | 9 => some 't'
  | 10 => some 'n'
  | 11 => some 'v'
  | 12 => some 'f'
  | 13 => some 'r'
  | _ => none

def char (quote : UInt8) (code : Nat) : Bytes :=
  if code = quote.toNat || code = backslash.toNat then [backslash, code.toUInt8]
  else if isPrintable code then Utf8.encode code
  else match controlLetter? code with
    | some letter => [backslash, Bytes.ofChar letter]
    | none =>
      if code < 0x20 || code = 0x7f then "\\x" ++ Bytes.hexFixed 2 code
      else if code < 0x10000 then "\\u" ++ Bytes.hexFixed 4 code
      else "\\U" ++ Bytes.hexFixed 8 code

def piece (quote : UInt8) : Utf8.Piece → Bytes
  | .char code _ => char quote code
  | .stray byte => "\\x" ++ Bytes.hexFixed 2 byte.toNat

def text (s : Bytes) : Bytes :=
  [0x22] ++ (Utf8.pieces s).flatMap (piece 0x22) ++ [0x22]

def character (code : Nat) : Bytes :=
  [0x27] ++ char 0x27 code ++ [0x27]

end Quoted
end StagedScript
