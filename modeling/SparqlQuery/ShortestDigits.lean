import SparqlQuery.Double

namespace SparqlQuery

namespace Double

/-- The numbers that round to a finite double lie between two bounds, given with the double
itself in quarters of its unit. Below a power of two the doubles are twice as dense. -/
def roundingBounds (d : Double) : Nat × Nat × Nat :=
  let quarters := 4 * d.significand
  (if d.significand = Nat.pow 2 52 then quarters - 1 else quarters - 2, quarters, quarters + 2)

/-- The whole multiple of `10 ^ place` that rounds to the double and is nearest to it; of two
equally near the larger. The bounds themselves round to a double with an even significand. -/
def multipleAt? (d : Double) (place : Int) : Option Nat :=
  let (low, middle, high) := d.roundingBounds
  let unit := d.exponent - 2
  let scale := Nat.pow 2 unit.toNat * Nat.pow 10 (-place).toNat
  let step := Nat.pow 2 (-unit).toNat * Nat.pow 10 place.toNat
  let below := middle * scale / step
  let inside (a b : Nat) : Bool := decide (a < b) || (d.significand % 2 == 0 && a == b)
  let belowRounds := inside (low * scale) (below * step)
  let aboveRounds := inside ((below + 1) * step) (high * scale)
  if belowRounds && aboveRounds then
    if step ≤ 2 * (middle * scale % step) then some (below + 1) else some below
  else if belowRounds then some below
  else if aboveRounds then some (below + 1)
  else none

def leadingPlace (d : Double) : Int :=
  let numerator := d.significand * Nat.pow 2 d.exponent.toNat
  let denominator := Nat.pow 2 (-d.exponent).toNat
  let guess : Int := ((natChars numerator).length : Int) - (natChars denominator).length
  floorExponent 10 guess numerator denominator

/-- Tries one digit, then two, and so on, with seventeen as the last that is needed. -/
def shortestFrom (d : Double) (place : Int) : Nat → Nat × Int
  | 0 => (0, place)
  | more + 1 =>
    match d.multipleAt? place with
    | some multiple => (multiple, place)
    | none => shortestFrom d (place - 1) more

/-- The fewest digits that read back as a finite double, with the place of the last one. -/
def shortest (d : Double) : Nat × Int :=
  if d.magnitude = 0 then (0, 0) else shortestFrom d d.leadingPlace 17

/-- Scientific notation with the fewest digits, an exponent always and a point only between
digits. -/
def scientificChars (d : Double) : List Char :=
  let (multiple, place) := d.shortest
  let sign := if d.isNegative then ['-'] else []
  let all := natChars multiple
  let power := intChars (place + (all.length - 1 : Nat))
  match all with
  | [] => sign ++ 'e' :: power
  | first :: others =>
    match (others.reverse.dropWhile (· == '0')).reverse with
    | [] => sign ++ first :: 'e' :: power
    | digits => sign ++ first :: '.' :: digits ++ 'e' :: power

end Double

end SparqlQuery
