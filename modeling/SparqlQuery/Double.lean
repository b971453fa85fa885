import SparqlQuery.Numeral

namespace SparqlQuery

/-- A double-precision number, given by its bits: sign, eleven of exponent, fifty-two of
fraction. -/
structure Double where
  bits : BitVec 64
deriving DecidableEq

namespace Double

def isNegative (d : Double) : Bool :=
  d.bits.msb

/-- Exponent and fraction as one number, which grows with the absolute value. -/
def magnitude (d : Double) : Nat :=
  d.bits.toNat % Nat.pow 2 63

/-- The magnitude of infinity: no double below it is infinite, and those above are not numbers. -/
def infiniteMagnitude : Nat :=
  0x7FF * Nat.pow 2 52

def isFinite (d : Double) : Bool :=
  decide (d.magnitude < infiniteMagnitude)

def isInfinite (d : Double) : Bool :=
  d.magnitude == infiniteMagnitude

def isNaN (d : Double) : Bool :=
  decide (infiniteMagnitude < d.magnitude)

/-- Numeric equality: zeros agree whatever their signs, and NaN agrees with nothing. -/
def agrees (a b : Double) : Bool :=
  !a.isNaN && !b.isNaN && (a == b || (a.magnitude == 0 && b.magnitude == 0))

/-- The absolute value of a finite double is `significand * 2 ^ exponent`. -/
def significand (d : Double) : Nat :=
  if d.magnitude < Nat.pow 2 52 then d.magnitude
  else d.magnitude % Nat.pow 2 52 + Nat.pow 2 52

def exponent (d : Double) : Int :=
  if d.magnitude < Nat.pow 2 52 then -1074 else (d.magnitude / Nat.pow 2 52 : Nat) - 1075

def ofMagnitude (negative : Bool) (magnitude : Nat) : Double :=
  ⟨BitVec.ofNat 64 (if negative then magnitude + Nat.pow 2 63 else magnitude)⟩

/-- The magnitude nearest to a fraction, a tie going to the even one; what is too large becomes
infinite. -/
def nearestMagnitude (numerator denominator : Nat) : Nat :=
  if numerator = 0 then 0
  else
    let guess : Int := (numerator.log2 : Int) - denominator.log2
    let unit := max (-1074) (floorExponent 2 guess numerator denominator - 52)
    let units := roundQuotient (numerator * Nat.pow 2 (-unit).toNat)
      (denominator * Nat.pow 2 unit.toNat)
    min (units + (unit + 1074).toNat * Nat.pow 2 52) infiniteMagnitude

def ofScientific (negative : Bool) (digits : Nat) (exponent : Int) : Double :=
  ofMagnitude negative <| nearestMagnitude (digits * Nat.pow 10 exponent.toNat)
    (Nat.pow 10 (-exponent).toNat)

end Double

end SparqlQuery
