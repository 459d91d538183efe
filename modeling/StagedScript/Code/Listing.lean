import StagedScript.Code.Basic
import StagedScript.Tree.Printer

/-!
# Listings of code

A listing shows a function and those nested in it, each after a header with its lines, parameters,
frame and captured values, an instruction a line.  Functions are numbered in the order in which
they are shown.
-/

namespace StagedScript

namespace Listing

/-- A decimal numeral filled with zeros after the sign up to four bytes. -/
def fourDigits (n : Int) : Bytes :=
  if n < 0 then 0x2d :: Bytes.padLeft 3 0x30 (Bytes.ofNat n.natAbs)
  else Bytes.padLeft 4 0x30 (Bytes.ofNat n.natAbs)

def target (n : Int) : Bytes :=
  if n = noTarget then "none"
  else if n = pendingTarget then "?"
  else "->" ++ fourDigits n

def declNames (ds : List DeclInfo) : Bytes := "[" ++ Bytes.join ", " (ds.map (·.name)) ++ "]"

def integers (ns : List Int) : Bytes := "[" ++ Bytes.join " " (ns.map Bytes.ofInt) ++ "]"

def operands (sh : Shown) (number : Nat) (i : Inst) : Bytes :=
  match i.op.shape with
  | .none => []
  | .jump => target i.target
  | .jumpCount => target i.target ++ " " ++ Bytes.ofInt i.count
  | .jumpCountDecls => target i.target ++ " " ++ Bytes.ofInt i.count ++ " " ++ declNames i.decls
  | .count => Bytes.ofInt i.count
  | .value => i.value.display sh
  | .valueCount => i.value.display sh ++ " " ++ Bytes.ofInt i.count
  | .countChars => Bytes.ofInt i.count ++ " " ++ Quoted.text i.chars
  | .decls => declNames i.decls
  | .table => "[" ++ Bytes.join " " (i.table.map fourDigits) ++ "]"
  | .func => match i.func with
    | none => "<nil>"
    | some fn => "#" ++ Bytes.ofNat number ++ " " ++ integers fn.upvalues

def instructions (sh : Shown) : (number : Nat) → List (Int × Inst) → Bytes
  | _, [] => []
  | number, (address, i) :: rest =>
    fourDigits address ++ " " ++ Bytes.padLeft 4 0x20 (Bytes.ofInt i.line) ++ "  " ++
      Bytes.padRight 15 0x20 i.op.name ++ operands sh number i ++ "\n" ++
      instructions sh (number + (nestedInInst i).length) rest

def upvalueSource (u : Int) : Bytes :=
  if 0 ≤ u then " local[" ++ Bytes.ofInt u ++ "]" else " upvalue[" ++ Bytes.ofInt (-1 - u) ++ "]"

def function (sh : Shown) (number : Nat) (fn : Func) : Bytes :=
  let extra : Bytes := if fn.collectsExtra then " [EXTRA]" else []
  let named : Bytes := if fn.collectsNamed then " [NAMED]" else []
  let params : Bytes :=
    if fn.params.isEmpty then []
    else "; Parameters: " ++ Bytes.join ", " fn.params ++ extra ++ named ++ "\n"
  let upvalues : Bytes :=
    if fn.upvalues.isEmpty then []
    else "; Upvalues:" ++ fn.upvalues.flatMap upvalueSource ++ "\n"
  let code : Bytes := match fn.code with
    | none => []
    | some code => instructions sh (number + 1) code.walk
  "; fun #" ++ Bytes.ofNat number ++ " " ++ fn.source ++ ":" ++ Bytes.ofInt fn.startLine ++ "-" ++
    Bytes.ofInt fn.endLine ++ "\n" ++ params ++ "; Frame: " ++ Bytes.ofInt fn.frameSize ++
    " slots\n" ++ upvalues ++ code

def functions (sh : Shown) : (number : Nat) → List Func → Bytes
  | _, [] => []
  | 0, fn :: rest => function sh 0 fn ++ functions sh 1 rest
  | number + 1, fn :: rest => "\n" ++ function sh (number + 1) fn ++ functions sh (number + 2) rest

end Listing

namespace Func

def listing (fn : Func) (sh : Shown) : Bytes := Listing.functions sh 0 fn.nested

def listingWithTitle (fn : Func) (sh : Shown) (title : Bytes) : Bytes :=
  let head : Bytes := if title.isEmpty then [] else "; === " ++ title ++ " ===\n"
  head ++ fn.listing sh

end Func

end StagedScript
