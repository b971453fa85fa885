import SparqlQuery.ShortestDigits
import SparqlQuery.Token

namespace SparqlQuery

/-- The letter after the backslash where a quoted string needs one. -/
def escapeLetter? : Char → Option Char
  | '\t' => some 't'
  | '\n' => some 'n'
  | '\r' => some 'r'
  | '\x08' => some 'b'
  | '\x0c' => some 'f'
  | '"' => some '"'
  | '\\' => some '\\'
  | _ => none

def quotedChars (s : List Char) : List Char :=
  '"' :: s.flatMap (fun c =>
    match escapeLetter? c with
    | some letter => ['\\', letter]
    | none => [c]) ++ ['"']

/-- Numbers that no literal can write become quoted words. -/
def Double.chars (d : Double) : List Char :=
  if d.isNaN then "\"NaN\"".toList
  else if d.isInfinite then (if d.isNegative then "\"-INF\"" else "\"INF\"").toList
  else d.scientificChars

def Value.chars : Value → List Char
  | .text s => s.toList
  | .string s => quotedChars s.toList
  | .integer n => intChars n
  | .decimal d => d.chars
  | .double d => d.chars
  | .boolean b => (if b then "true" else "false").toList
  | .iri s => '<' :: s.toList ++ ['>']
  | .blankNode id =>
    if (Value.blankNode id).isAnonymousBlank then ['[', ']'] else '_' :: ':' :: id.toList
  | .prefixedName label localPart =>
    (label.getD "").toList ++ ':' :: (localPart.getD "").toList

/-- A value as a token of a kind is written: after a sigil for variables and language tags. -/
def Kind.chars : Kind → Value → List Char
  | .variableName, .text name => '?' :: name.toList
  | .langTag, .text tag => '@' :: tag.toList
  | _, value => value.chars

def Value.render (value : Value) : String :=
  String.ofList value.chars

def Kind.render (kind : Kind) (value : Value) : String :=
  String.ofList (kind.chars value)

def Token.render (token : Token) : String :=
  token.kind.render token.value

/-- How messages name a token. -/
def Token.describe (token : Token) : String :=
  "'" ++ token.render ++ "' (" ++ token.kind.name ++ ")"

end SparqlQuery
