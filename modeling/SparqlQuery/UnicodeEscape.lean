import SparqlQuery.CharacterClass
import SparqlQuery.Units

namespace SparqlQuery

def hexDigits? (n : Nat) (s : List Char) : Option (List Char) :=
  if (s.take n).length = n ∧ (s.take n).all isHexDigit then some (s.take n) else none

/-- The digits of the escape in front of a text: four after a small u, eight after a capital. -/
def escapeDigits? : List Char → Option (List Char)
  | '\\' :: 'u' :: s => hexDigits? 4 s
  | '\\' :: 'U' :: s => hexDigits? 8 s
  | _ => none

/-- An escape is read as one unit, any other character by itself. -/
def escapeUnit (s : List Char) : Nat :=
  match escapeDigits? s with
  | some digits => digits.length + 2
  | none => 1

def hexDigitValue (c : Char) : Nat :=
  if c.isDigit then c.toNat - '0'.toNat
  else if 'a' ≤ c then c.toNat - 'a'.toNat + 10
  else c.toNat - 'A'.toNat + 10

def hexValue (digits : List Char) : Nat :=
  digits.foldl (fun n c => 16 * n + hexDigitValue c) 0

def charOfCode? (code : Nat) : Option Char :=
  if code.isValidChar then some (Char.ofNat code) else none

/-- What a unit stands for; an escape that names no character stands for itself. -/
def decodeUnit (unit : List Char) : List Char :=
  match (escapeDigits? unit).bind fun digits => charOfCode? (hexValue digits) with
  | some c => [c]
  | none => unit

def containsText (pattern : List Char) : List Char → Bool
  | [] => pattern.isEmpty
  | c :: s => pattern.isPrefixOf (c :: s) || containsText pattern s

/-- Whether a backslash stands before a small or a capital u anywhere in a text. -/
def hasEscapeMark (s : List Char) : Bool :=
  containsText ['\\', 'u'] s || containsText ['\\', 'U'] s

/-- Each escape is replaced once, whatever stands next to it. A text without so much as the front
of one is left as it is. -/
def decodeEscapes (s : List Char) : List Char :=
  if hasEscapeMark s then (splitUnits escapeUnit s).1.flatMap decodeUnit else s

/-- Whether a text holds an escape with all its digits, decodable or not. -/
def hasEscape (s : List Char) : Bool :=
  (splitUnits escapeUnit s).1.any fun unit => (escapeDigits? unit).isSome

end SparqlQuery
