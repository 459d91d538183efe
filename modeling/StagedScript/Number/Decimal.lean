import StagedScript.Number.Real64
import StagedScript.Text.Bytes

/-!
# Decimal numerals of reals

Reading a decimal numeral gives the nearest real.  Writing a real uses the fewest decimal digits
that read back as the same real, and of the numerals with that many digits the one nearest to it.
-/

namespace StagedScript
namespace Decimal

def isDigit (c : UInt8) : Bool := 48 ≤ c && c ≤ 57

def number (digits : Bytes) : Nat :=
  digits.foldl (fun acc c => acc * 10 + (c.toNat - 48)) 0

def toReal (digits : Nat) (exponent : Int) : Real64 :=
  if 0 ≤ exponent then Real64.ofRatio false (digits * Nat.pow 10 exponent.toNat) 1
  else Real64.ofRatio false digits (Nat.pow 10 (-exponent).toNat)

/-- The largest magnitude of a written exponent that is told apart from larger ones. -/
def exponentLimit : Nat := 10000

/-- The number written by the digits of an exponent. Digits past the limit change nothing. -/
def exponentNumber (digits : Bytes) : Nat :=
  digits.foldl (fun acc c => if acc < exponentLimit then acc * 10 + (c.toNat - 48) else acc) 0

/-- The real written by a numeral, or `none` when the number is beyond the largest real. -/
def read? (numeral : Bytes) : Option Real64 :=
  let (whole, rest) := numeral.span isDigit
  let (fraction, rest) := match rest with
    | 0x2e :: rest => rest.span isDigit
    | rest => ([], rest)
  let exponent : Int := match rest with
    | [] => 0
    | _ :: rest => match rest with
      | 0x2b :: digits => exponentNumber digits
      | 0x2d :: digits => -(exponentNumber digits : Int)
      | digits => exponentNumber digits
  let x := toReal (number (whole ++ fraction)) (exponent - fraction.length)
  match x.view with
  | .infinite _ => none
  | _ => some x

/-! ## Shortest digits -/

structure Ratio where
  num : Nat
  den : Nat

def compareGrid (c : Nat) (k : Int) (r : Ratio) : Ordering :=
  if 0 ≤ k then compare (c * Nat.pow 10 k.toNat * r.den) r.num
  else compare (c * r.den) (r.num * Nat.pow 10 (-k).toNat)

/-- The greatest `c` with `c · 10 ^ k` at most the rational. -/
def floorGrid (k : Int) (r : Ratio) : Nat :=
  if 0 ≤ k then r.num / (r.den * Nat.pow 10 k.toNat) else r.num * Nat.pow 10 (-k).toNat / r.den

/-- The decimal exponent of a rational: the greatest `e` with `10 ^ e` at most it. -/
def exponentOf (r : Ratio) : Int :=
  let guess := ((r.num.log2 : Int) - r.den.log2) * 30103 / 100000
  let fits (e : Int) : Bool := compareGrid 1 e r != .gt
  if fits (guess + 2) then guess + 2
  else if fits (guess + 1) then guess + 1
  else if fits guess then guess
  else if fits (guess - 1) then guess - 1
  else guess - 2

/-- The reals that round to a given one lie between two rationals; `closed` tells whether the
ends belong to them. -/
structure Interval where
  low : Ratio
  mid : Ratio
  high : Ratio
  /-- Whether the ends round to the real too. -/
  closed : Bool

def Interval.accepts (i : Interval) (c : Nat) (k : Int) : Bool :=
  match compareGrid c k i.low, compareGrid c k i.high with
  | .lt, _ | _, .gt => false
  | .eq, _ | _, .eq => i.closed
  | _, _ => true

/-- The rounding interval of `m · 2 ^ e`. Below a power of two the neighbours are closer. -/
def intervalOf (m : Nat) (e : Int) : Interval :=
  let scale (n : Nat) : Ratio :=
    if 2 ≤ e then ⟨n * Nat.pow 2 (e - 2).toNat, 1⟩ else ⟨n, Nat.pow 2 (2 - e).toNat⟩
  let below := if m = Nat.pow 2 Real64.fractionBits && e != Real64.minExponent then 1 else 2
  { low := scale (4 * m - below), mid := scale (4 * m), high := scale (4 * m + 2),
    closed := m % 2 = 0 }

/-- The nearer of two neighbours on the grid `10 ^ k` around the real, the even one at a tie. -/
def nearer (i : Interval) (c : Nat) (k : Int) : Nat :=
  match compareGrid (2 * c + 1) k ⟨2 * i.mid.num, i.mid.den⟩ with
  | .lt => c + 1
  | .gt => c
  | .eq => if c % 2 = 0 then c else c + 1

/-- Tries numerals with more and more digits; `k` is the grid exponent of the next attempt. -/
def search (i : Interval) : (fuel : Nat) → (k : Int) → Nat × Int
  | 0, k => (nearer i (floorGrid k i.mid) k, k)
  | fuel + 1, k =>
    let c := floorGrid k i.mid
    match i.accepts c k, i.accepts (c + 1) k with
    | true, true => (nearer i c k, k)
    | true, false => (c, k)
    | false, true => (c + 1, k)
    | false, false => search i fuel (k - 1)

def stripZeros : (fuel : Nat) → (c : Nat) → (k : Int) → Nat × Int
  | 0, c, k => (c, k)
  | fuel + 1, c, k => if c % 10 = 0 && c != 0 then stripZeros fuel (c / 10) (k + 1) else (c, k)

/-- The shortest decimal `c · 10 ^ k` that rounds to `m · 2 ^ e`, for positive `m`. -/
def shortest (m : Nat) (e : Int) : Nat × Int :=
  let i := intervalOf m e
  let (c, k) := search i 17 (exponentOf i.mid)
  stripZeros 20 c k

/-! ## Layout -/

def exponentText (e : Int) : Bytes :=
  (if e < 0 then "-" else "+") ++ Bytes.padLeft 2 48 (Bytes.ofNat e.natAbs)

/-- Lays out digits whose first one has the weight `10 ^ e`. -/
def layout (digits : Bytes) (e : Int) : Bytes :=
  if e < -4 || 6 ≤ e then
    match digits with
    | [] => []
    | d :: rest =>
      let mantissa : Bytes := if rest.isEmpty then [d] else d :: 0x2e :: rest
      mantissa ++ "e" ++ exponentText e
  else if e < 0 then
    let zeros : Bytes := List.replicate (-e - 1).toNat 48
    "0." ++ zeros ++ digits
  else
    let whole := e.toNat + 1
    let padded := Bytes.padRight whole 48 digits
    padded.take whole ++ (if whole < digits.length then [0x2e] ++ padded.drop whole else [])

def write (x : Real64) : Bytes :=
  match x.view with
  | .nan => "NaN"
  | .infinite negative => if negative then "-Inf" else "+Inf"
  | .finite negative m e =>
    let sign : Bytes := if negative then "-" else []
    if m = 0 then sign ++ "0"
    else
      let (c, k) := shortest m e
      let digits := Bytes.ofNat c
      sign ++ layout digits (digits.length - 1 + k)

/-- The shortest numeral of a real, with a sign in front in every case. -/
def writeSigned (x : Real64) : Bytes :=
  match x.view with
  | .nan => "+NaN"
  | .infinite _ => write x
  | .finite negative .. => if negative then write x else "+" ++ write x

end Decimal
end StagedScript
