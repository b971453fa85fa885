import SparqlQuery.NameLexeme
import SparqlQuery.Value

namespace SparqlQuery

def isSign (c : Char) : Bool :=
  c == '+' || c == '-'

def isExponentMark (c : Char) : Bool :=
  c == 'e' || c == 'E'

/-- A sign, which may be missing. -/
def splitSign : List Char → List Char × List Char
  | [] => ([], [])
  | c :: s => if isSign c then ([c], s) else ([], c :: s)

/-- Digits with a point before, between or after them, or with none. -/
def splitMantissa (s : List Char) : Option (List Char × List Char) :=
  let whole := s.takeWhile Char.isDigit
  match s.dropWhile Char.isDigit with
  | '.' :: t =>
    let fraction := t.takeWhile Char.isDigit
    if whole.isEmpty && fraction.isEmpty then none
    else some (whole ++ '.' :: fraction, t.dropWhile Char.isDigit)
  | rest => if whole.isEmpty then none else some (whole, rest)

/-- A mark, a sign and digits; nothing is taken when digits are missing. -/
def splitExponent : List Char → List Char × List Char
  | [] => ([], [])
  | mark :: s =>
    let (sign, t) := splitSign s
    let digits := t.takeWhile Char.isDigit
    if isExponentMark mark && !digits.isEmpty then
      (mark :: sign ++ digits, t.dropWhile Char.isDigit)
    else ([], mark :: s)

/-- A numeric literal: a sign, a mantissa and an exponent, as far as they go. -/
def splitNumber (s : List Char) : Option (List Char × List Char) :=
  let (sign, t) := splitSign s
  match splitMantissa t with
  | none => none
  | some (mantissa, t) =>
    let (exponent, rest) := splitExponent t
    some (sign ++ mantissa ++ exponent, rest)

/-- The size of an exponent. Digits that follow once it has passed 65535 are ignored. -/
def exponentSize (digits : List Char) : Nat :=
  digits.foldl (fun n c => if n < 0x10000 then 10 * n + (c.toNat - '0'.toNat) else n) 0

/-- The double that the parts of a literal denote. -/
def doubleOfParts (negative : Bool) (whole fraction exponent : List Char) : Double :=
  let (sign, digits) := splitSign exponent
  let power : Int := if sign == ['-'] then -(exponentSize digits : Int) else exponentSize digits
  Double.ofScientific negative (digitsValue (whole ++ fraction)) (power - fraction.length)

/-- The value of a numeric literal: a double if it has an exponent, else a decimal if it has a
point, else an integer. A double that would be infinite is no value. -/
def numericValue? (lexeme : List Char) : Option Value :=
  let negative := lexeme.head? == some '-'
  let unsigned := (splitSign lexeme).2
  let mantissa := unsigned.takeWhile (!isExponentMark ·)
  let whole := mantissa.takeWhile Char.isDigit
  let fraction := (mantissa.dropWhile Char.isDigit).drop 1
  match unsigned.dropWhile (!isExponentMark ·) with
  | _ :: exponent =>
    let double := doubleOfParts negative whole fraction exponent
    if double.isFinite then some (.double double) else none
  | [] =>
    if mantissa.contains '.' then some (.decimal (.ofDigits negative whole fraction))
    else
      let magnitude : Int := digitsValue whole
      some (.integer (if negative then -magnitude else magnitude))

end SparqlQuery
