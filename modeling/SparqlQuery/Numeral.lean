namespace SparqlQuery

/-- The number that decimal digits denote, leading zeros allowed. -/
def digitsValue (digits : List Char) : Nat :=
  digits.foldl (fun n c => 10 * n + (c.toNat - '0'.toNat)) 0

def natChars (n : Nat) : List Char :=
  n.repr.toList

def intChars : Int → List Char
  | .ofNat n => natChars n
  | .negSucc n => '-' :: natChars (n + 1)

/-- The largest power of the base that a fraction reaches, given a guess that is right or one
too large. -/
def floorExponent (base : Nat) (guess : Int) (numerator denominator : Nat) : Int :=
  if numerator * Nat.pow base (-guess).toNat < denominator * Nat.pow base guess.toNat then
    guess - 1
  else guess

/-- A quotient to the nearest whole number, a half to the even one. -/
def roundQuotient (numerator denominator : Nat) : Nat :=
  let whole := numerator / denominator
  let twice := 2 * (numerator % denominator)
  if denominator < twice ∨ (twice = denominator ∧ whole % 2 = 1) then whole + 1 else whole

end SparqlQuery
