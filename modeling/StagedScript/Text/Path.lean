import StagedScript.Text.Bytes

/-!
# File paths

Paths are texts with slashes between their parts.  `Path.clean` gives the shortest path with the
same meaning, as far as this can be told from the text alone.
-/

namespace StagedScript

namespace Path

def slash : UInt8 := 0x2f

def parts (path : Bytes) : List Bytes := (Bytes.splitAtByte slash path).filter (!·.isEmpty)

def isAbsolute (path : Bytes) : Bool := path.head? = some slash

/-- The parts that stay when dots are dropped and double dots go one part up, the last part first.
-/
def resolveParts (absolute : Bool) : (kept : List Bytes) → List Bytes → List Bytes
  | kept, [] => kept
  | kept, p :: rest =>
    if p = [0x2e] then resolveParts absolute kept rest
    else if p = [0x2e, 0x2e] then
      match kept with
      | [] => resolveParts absolute (if absolute then [] else [p]) rest
      | k :: up => if k = p then resolveParts absolute (p :: kept) rest
        else resolveParts absolute up rest
    else resolveParts absolute (p :: kept) rest

def clean (path : Bytes) : Bytes :=
  let absolute := isAbsolute path
  let joined := Bytes.join [slash] (resolveParts absolute [] (parts path)).reverse
  if absolute then slash :: joined else if joined.isEmpty then "." else joined

/-- A path below a directory. Empty paths are left out. -/
def join (dir path : Bytes) : Bytes :=
  match [dir, path].filter (!·.isEmpty) with
  | [] => []
  | ps => clean (Bytes.join [slash] ps)

def afterSlash (path : Bytes) : Bytes := (path.reverse.takeWhile (· ≠ slash)).reverse

def base (path : Bytes) : Bytes :=
  if path.isEmpty then "."
  else
    let stripped := Bytes.dropEndWhile (· = slash) path
    if stripped.isEmpty then [slash] else afterSlash stripped

def directory (path : Bytes) : Bytes :=
  clean (path.take (path.length - (afterSlash path).length))

def extension (path : Bytes) : Bytes :=
  let last := afterSlash path
  if last.contains 0x2e then 0x2e :: (last.reverse.takeWhile (· ≠ 0x2e)).reverse else []

end Path

end StagedScript
