/-!
# Double-precision reals

A real is held as its IEEE 754 bit pattern, so that two reals are equal as data exactly when their
bits agree.  Arithmetic is defined by exact rational arithmetic followed by one rounding.
-/

namespace StagedScript

structure Real64 where
  bits : UInt64
  deriving DecidableEq, Inhabited

namespace Real64

inductive View where
  | nan
  | infinite (negative : Bool)
  /-- The number `± significand · 2 ^ exponent`. -/
  | finite (negative : Bool) (significand : Nat) (exponent : Int)
  deriving DecidableEq

def fractionBits : Nat := 52

def minExponent : Int := -1074

def view (x : Real64) : View :=
  let n := x.bits.toNat
  let negative := n / 0x8000000000000000 % 2 == 1
  let biased := n / Nat.pow 2 fractionBits % 2048
  let fraction := n % Nat.pow 2 fractionBits
  if biased = 2047 then
    if fraction = 0 then .infinite negative else .nan
  else if biased = 0 then .finite negative fraction minExponent
  else .finite negative (Nat.pow 2 fractionBits + fraction) (biased - 1075)

def withSign (negative : Bool) (magnitude : Nat) : Real64 :=
  ⟨((if negative then 0x8000000000000000 else 0) + magnitude).toUInt64⟩

def zero (negative : Bool) : Real64 := withSign negative 0

def infinity (negative : Bool) : Real64 := withSign negative (2047 * Nat.pow 2 fractionBits)

/-- The not-a-number that operations without a result give. -/
def nan : Real64 := ⟨0x7ff8000000000001⟩

def isNaN (x : Real64) : Bool :=
  match x.view with
  | .nan => true
  | _ => false

/-- The quotient rounded to the nearest natural number, ties to even. -/
def roundDiv (num den : Nat) : Nat :=
  let q := num / den
  let r := num % den
  if 2 * r > den || (2 * r = den && q % 2 = 1) then q + 1 else q

/-- The quotient `num / den` as a significand for the exponent `e`, rounded to nearest. -/
def significandAt (num den : Nat) (e : Int) : Nat :=
  if 0 ≤ e then roundDiv num (den * Nat.pow 2 e.toNat)
  else roundDiv (num * Nat.pow 2 (-e).toNat) den

/-- The largest exponent whose significand of `num / den` has at least 53 bits before rounding. -/
def exponentFor (num den : Nat) : Int :=
  let guess : Int := (num.log2 : Int) - (den.log2 : Int) - 53
  let large (e : Int) : Bool :=
    if 0 ≤ e then den * Nat.pow 2 e.toNat * Nat.pow 2 fractionBits ≤ num
    else den * Nat.pow 2 fractionBits ≤ num * Nat.pow 2 (-e).toNat
  let e := if large (guess + 1) then guess + 1 else guess
  max e minExponent

/-- Packs a significand of at most 53 bits, or exactly `2 ^ 53`, and its exponent. -/
def pack (negative : Bool) (significand : Nat) (e : Int) : Real64 :=
  let biased := (e - minExponent).toNat
  if significand < Nat.pow 2 fractionBits then withSign negative significand
  else
    let magnitude := biased * Nat.pow 2 fractionBits + significand
    if magnitude < 2047 * Nat.pow 2 fractionBits then withSign negative magnitude
    else infinity negative

/-- The nearest real to `± num / den`, for a positive `den`. -/
def ofRatio (negative : Bool) (num den : Nat) : Real64 :=
  if num = 0 then zero negative
  else
    let e := exponentFor num den
    pack negative (significandAt num den e) e

def ofScaled (negative : Bool) (m : Nat) (e : Int) : Real64 :=
  if 0 ≤ e then ofRatio negative (m * Nat.pow 2 e.toNat) 1
  else ofRatio negative m (Nat.pow 2 (-e).toNat)

def ofInt (n : Int) : Real64 := ofRatio (n < 0) n.natAbs 1

def neg (x : Real64) : Real64 := ⟨x.bits ^^^ 0x8000000000000000⟩

/-- A signed integer multiple of `2 ^ e`; `zeroSign` is the sign of a zero result. -/
def ofSigned (n : Int) (e : Int) (zeroSign : Bool) : Real64 :=
  if n = 0 then zero zeroSign else ofScaled (n < 0) n.natAbs e

def signed (negative : Bool) (m : Nat) : Int := if negative then -(m : Int) else m

/-- The sum. Opposite infinities have none, and a zero sum is negative only if both terms are. -/
def add (x y : Real64) : Real64 :=
  match x.view, y.view with
  | .nan, _ | _, .nan => nan
  | .infinite a, .infinite b => if a = b then infinity a else nan
  | .infinite a, _ => infinity a
  | _, .infinite b => infinity b
  | .finite a m e, .finite b n f =>
    let g := min e f
    let first := signed a (m * Nat.pow 2 (e - g).toNat)
    let second := signed b (n * Nat.pow 2 (f - g).toNat)
    ofSigned (first + second) g (a && b)

def sub (x y : Real64) : Real64 := add x y.neg

/-- The product. Zero times an infinity has none. -/
def mul (x y : Real64) : Real64 :=
  match x.view, y.view with
  | .nan, _ | _, .nan => nan
  | .infinite a, .infinite b => infinity (a != b)
  | .infinite a, .finite b n _ => if n = 0 then nan else infinity (a != b)
  | .finite a m _, .infinite b => if m = 0 then nan else infinity (a != b)
  | .finite a m e, .finite b n f => ofScaled (a != b) (m * n) (e + f)

/-- The quotient. A nonzero real over zero is an infinity. -/
def div (x y : Real64) : Real64 :=
  match x.view, y.view with
  | .nan, _ | _, .nan => nan
  | .infinite _, .infinite _ => nan
  | .infinite a, .finite b _ _ => infinity (a != b)
  | .finite a _ _, .infinite b => zero (a != b)
  | .finite a m e, .finite b n f =>
    if n = 0 then (if m = 0 then nan else infinity (a != b))
    else
      let g := e - f
      if 0 ≤ g then ofRatio (a != b) (m * Nat.pow 2 g.toNat) n
      else ofRatio (a != b) m (n * Nat.pow 2 (-g).toNat)

/-- The remainder of division toward zero. It is exact and takes the sign of the dividend. -/
def mod (x y : Real64) : Real64 :=
  match x.view, y.view with
  | .nan, _ | _, .nan => nan
  | .infinite _, _ => nan
  | .finite _ _ _, .infinite _ => x
  | .finite a m e, .finite _ n f =>
    if n = 0 then nan
    else
      let g := min e f
      ofScaled a (m * Nat.pow 2 (e - g).toNat % (n * Nat.pow 2 (f - g).toNat)) g

/-- The greatest integer not above a real, as a real. -/
def floor (x : Real64) : Real64 :=
  match x.view with
  | .finite a m e =>
    if 0 ≤ e then x
    else
      let d := Nat.pow 2 (-e).toNat
      let q := m / d
      let magnitude := if a && m % d != 0 then q + 1 else q
      ofRatio a magnitude 1
  | _ => x

def lt (x y : Real64) : Bool :=
  match x.view, y.view with
  | .nan, _ | _, .nan => false
  | .infinite a, .infinite b => a && !b
  | .infinite a, .finite .. => a
  | .finite .., .infinite b => !b
  | .finite a m e, .finite b n f =>
    let g := min e f
    signed a (m * Nat.pow 2 (e - g).toNat) < signed b (n * Nat.pow 2 (f - g).toNat)

def beq (x y : Real64) : Bool :=
  match x.view, y.view with
  | .nan, _ | _, .nan => false
  | .finite _ 0 _, .finite _ 0 _ => true
  | _, _ => x.bits == y.bits

def isZero (x : Real64) : Bool :=
  match x.view with
  | .finite _ 0 _ => true
  | _ => false

end Real64

end StagedScript
