import StagedScript.Text.Bytes

/-!
# Reading and writing UTF-8

Texts are byte strings, and a few operations look at the characters in them: iterating over a
string, quoting it for display, and escapes that name a code point.  Decoding never fails.  A byte
that does not begin a well-formed character is taken alone, as a character of its own kind.
-/

namespace StagedScript
namespace Utf8

/-- The code point that stands for a byte outside every well-formed character. -/
def replacement : Nat := 0xfffd

def isTail (b : UInt8) : Bool := 0x80 ≤ b && b ≤ 0xbf

def tailBits (b : UInt8) : Nat := b.toNat % 64

/-- A decoded piece of text: a character with its code point, or a byte that belongs to none. -/
inductive Piece where
  | char (code : Nat) (bytes : Bytes)
  | stray (byte : UInt8)
  deriving DecidableEq

def Piece.bytes : Piece → Bytes
  | .char _ bytes => bytes
  | .stray byte => [byte]

/-- The code point of a piece. A stray byte counts as the replacement character. -/
def Piece.code : Piece → Nat
  | .char code _ => code
  | .stray _ => replacement

def first (a : UInt8) (rest : Bytes) : Piece :=
  if a < 0x80 then .char a.toNat [a]
  else match rest with
    | b :: rest =>
      if 0xc2 ≤ a && a ≤ 0xdf then
        if isTail b then .char (a.toNat % 32 * 64 + tailBits b) [a, b] else .stray a
      else match rest with
        | c :: rest =>
          if 0xe0 ≤ a && a ≤ 0xef then
            let low : UInt8 := if a = 0xe0 then 0xa0 else 0x80
            let high : UInt8 := if a = 0xed then 0x9f else 0xbf
            if low ≤ b && b ≤ high && isTail c then
              .char ((a.toNat % 16 * 64 + tailBits b) * 64 + tailBits c) [a, b, c]
            else .stray a
          else match rest with
            | d :: _ =>
              if 0xf0 ≤ a && a ≤ 0xf4 then
                let low : UInt8 := if a = 0xf0 then 0x90 else 0x80
                let high : UInt8 := if a = 0xf4 then 0x8f else 0xbf
                if low ≤ b && b ≤ high && isTail c && isTail d then
                  .char (((a.toNat % 8 * 64 + tailBits b) * 64 + tailBits c) * 64 + tailBits d)
                    [a, b, c, d]
                else .stray a
              else .stray a
            | [] => .stray a
        | [] => .stray a
    | [] => .stray a

/-- The pieces of a text. `skip` bytes at the front belong to a piece already read. -/
def piecesFrom : (skip : Nat) → Bytes → List Piece
  | _, [] => []
  | k + 1, _ :: rest => piecesFrom k rest
  | 0, a :: rest =>
    let piece := first a rest
    piece :: piecesFrom (piece.bytes.length - 1) rest

def pieces (s : Bytes) : List Piece := piecesFrom 0 s

def isValid (s : Bytes) : Bool :=
  (pieces s).all fun
    | .char .. => true
    | .stray _ => false

/-- The bytes of a code point. What is none is written as the replacement character. -/
def encode (code : Nat) : Bytes :=
  if code < 0x80 then [code.toUInt8]
  else if code < 0x800 then [(0xc0 + code / 64).toUInt8, (0x80 + code % 64).toUInt8]
  else if (0xd800 ≤ code && code ≤ 0xdfff) || 0x10ffff < code then [0xef, 0xbf, 0xbd]
  else if code < 0x10000 then
    [(0xe0 + code / 4096).toUInt8, (0x80 + code / 64 % 64).toUInt8, (0x80 + code % 64).toUInt8]
  else
    [(0xf0 + code / 262144).toUInt8, (0x80 + code / 4096 % 64).toUInt8,
      (0x80 + code / 64 % 64).toUInt8, (0x80 + code % 64).toUInt8]

end Utf8
end StagedScript
