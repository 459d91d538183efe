import StagedScript.Text.Utf8

/-!
# Blank characters

The characters that are only space, of any width and direction, and texts without such characters
around them.
-/

namespace StagedScript

def Utf8.isBlank (code : Nat) : Bool :=
  (0x09 ≤ code && code ≤ 0x0d) || code = 0x20 || code = 0x85 || code = 0xa0 || code = 0x1680 ||
    (0x2000 ≤ code && code ≤ 0x200a) || code = 0x2028 || code = 0x2029 || code = 0x202f ||
    code = 0x205f || code = 0x3000

def Bytes.trim (s : Bytes) : Bytes :=
  let kept := (Utf8.pieces s).dropWhile fun p => Utf8.isBlank p.code
  (kept.reverse.dropWhile fun p => Utf8.isBlank p.code).reverse.flatMap (·.bytes)

end StagedScript
