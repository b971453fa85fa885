import SparqlQuery.Position

namespace SparqlQuery

/-- A place in the decoded text where no token begins. -/
structure LexError where
  /-- in bytes -/
  position : Nat
  line : UInt32
  column : UInt32
  /-- the text from the position on -/
  remainder : String
  detail : String
deriving DecidableEq

def codePointChars (c : Char) : List Char :=
  let digits := (Nat.toDigits 16 c.toNat).map Char.toUpper
  List.replicate (4 - digits.length) '0' ++ digits

def complaint (c : Char) : String :=
  if c = '"' || c = '\'' then "unterminated or invalid string literal"
  else if c = '<' then "invalid or unterminated IRI"
  else if c = '\\' then "invalid escape sequence"
  else if c.isDigit || c = '+' || c = '-' || c = '.' then "numeric literal out of range"
  else
    let quoted := "unexpected character '" ++ String.ofList [c] ++ "'"
    if c.toNat < 128 then quoted
    else quoted ++ " (U+" ++ String.ofList (codePointChars c) ++ ")"

namespace LexError

def message (e : LexError) : String :=
  "Lexer error: " ++ e.detail

/-- The beginning of the unmatched text, twenty-four characters at most. -/
def preview (e : LexError) : String :=
  String.ofList (e.remainder.toList.take 24)

/-- The error at a position, with the line shown and a caret below it. -/
def atPosition (source : List Char) (position : Nat) (remainder : List Char) : LexError :=
  let place := locate source position
  let line := place.line.toNat.repr
  let shown := String.ofList (lineText source place.line)
  let pointer := String.ofList (List.replicate (place.column.toNat - 1) ' ')
  { position
    line := place.line
    column := place.column
    remainder := String.ofList remainder
    detail :=
      complaint (remainder.headD '?') ++ " at line " ++ line ++ ", column " ++
        place.column.toNat.repr ++ "\n  |\n" ++ line ++ " | " ++ shown ++ "\n  | " ++
        pointer ++ "^" }

end LexError

end SparqlQuery
