import SparqlQuery.Numeral

namespace SparqlQuery

/-- The exact number `digits` times ten to the power of minus `scale`. Trailing zeros count:
1.5 and 1.50 differ in scale. -/
structure Decimal where
  digits : Int
  scale : Int
deriving DecidableEq

namespace Decimal

def agrees (a b : Decimal) : Bool :=
  a.digits * Int.pow 10 (b.scale - a.scale).toNat ==
    b.digits * Int.pow 10 (a.scale - b.scale).toNat

/-- Positional notation, always with a point and at least one place after it. -/
def chars (d : Decimal) : List Char :=
  let sign := if d.digits < 0 then ['-'] else []
  let magnitude := natChars d.digits.natAbs
  if d.scale ≤ 0 then
    sign ++ magnitude ++ List.replicate (-d.scale).toNat '0' ++ ['.', '0']
  else
    let places := d.scale.toNat
    let padded := List.replicate (places + 1 - magnitude.length) '0' ++ magnitude
    sign ++ padded.take (padded.length - places) ++ '.' :: padded.drop (padded.length - places)

/-- The decimal written with these digits before and after the point; a missing side counts as
one zero. -/
def ofDigits (negative : Bool) (whole fraction : List Char) : Decimal :=
  let fraction := if fraction.isEmpty then ['0'] else fraction
  let magnitude : Int := digitsValue (whole ++ fraction)
  ⟨if negative then -magnitude else magnitude, fraction.length⟩

end Decimal

end SparqlQuery
