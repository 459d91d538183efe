import StagedScript.Number.Real64

/-!
# Reals in fewer bits

Half and single precision hold some reals exactly.  `Narrow.ofReal?` gives the bits of such a real,
and `Narrow.toReal` reads them back.
-/

namespace StagedScript

/-- A binary format with fewer bits than a real of double precision. -/
structure Narrow where
  exponentBits : Nat
  fractionBits : Nat

namespace Narrow

def half : Narrow := ⟨5, 10⟩

def single : Narrow := ⟨8, 23⟩

def bias (f : Narrow) : Nat := Nat.pow 2 (f.exponentBits - 1) - 1

def minExponent (f : Narrow) : Int := 1 - (f.bias : Int) - f.fractionBits

def withSign (f : Narrow) (negative : Bool) (magnitude : Nat) : Nat :=
  (if negative then Nat.pow 2 (f.exponentBits + f.fractionBits) else 0) + magnitude

def infinity (f : Narrow) (negative : Bool) : Nat :=
  f.withSign negative ((Nat.pow 2 f.exponentBits - 1) * Nat.pow 2 f.fractionBits)

def ofScaled? (f : Narrow) (negative : Bool) (m : Nat) (e : Int) : Option Nat :=
  if m = 0 then some (f.withSign negative 0)
  else
    let lead : Int := m.log2 + e
    let unit := max (lead - f.fractionBits) f.minExponent
    if (f.bias : Int) < lead then none
    else
      let shift := e - unit
      let significand? :=
        if 0 ≤ shift then some (m * Nat.pow 2 shift.toNat)
        else if m % Nat.pow 2 (-shift).toNat = 0 then some (m / Nat.pow 2 (-shift).toNat)
        else none
      significand?.map fun significand =>
        if significand < Nat.pow 2 f.fractionBits then f.withSign negative significand
        else
          let biased := (unit - f.minExponent).toNat
          f.withSign negative (biased * Nat.pow 2 f.fractionBits + significand)

def ofReal? (f : Narrow) (x : Real64) : Option Nat :=
  match x.view with
  | .nan => none
  | .infinite negative => some (f.infinity negative)
  | .finite negative m e => f.ofScaled? negative m e

def toReal (f : Narrow) (bits : Nat) : Real64 :=
  let negative := bits / Nat.pow 2 (f.exponentBits + f.fractionBits) % 2 == 1
  let biased := bits / Nat.pow 2 f.fractionBits % Nat.pow 2 f.exponentBits
  let fraction := bits % Nat.pow 2 f.fractionBits
  if biased = Nat.pow 2 f.exponentBits - 1 then
    if fraction = 0 then Real64.infinity negative else Real64.nan
  else if biased = 0 then Real64.ofScaled negative fraction f.minExponent
  else
    Real64.ofScaled negative (Nat.pow 2 f.fractionBits + fraction) (f.minExponent + biased - 1)

end Narrow

end StagedScript
