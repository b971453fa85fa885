import SparqlQuery.NameLexeme

namespace SparqlQuery

/-- The character that a backslash and this letter stand for. -/
def escapedChar? : Char → Option Char
  | 't' => some '\t'
  | 'b' => some '\x08'
  | 'n' => some '\n'
  | 'r' => some '\r'
  | 'f' => some '\x0c'
  | '"' => some '"'
  | '\'' => some '\''
  | '\\' => some '\\'
  | _ => none

/-- A piece of a string on one line: an escape, or a character that is no quote, backslash or
line break. -/
def shortUnit (quote : Char) : List Char → Nat
  | '\\' :: c :: _ => if (escapedChar? c).isSome then 2 else 0
  | c :: _ => if c == quote || c == '\\' || isLineBreak c then 0 else 1
  | [] => 0

/-- A piece of a string between triple quotes: an escape, or a character that neither is a
backslash nor begins three quotes. -/
def longUnit (quote : Char) : List Char → Nat
  | '\\' :: c :: _ => if (escapedChar? c).isSome then 2 else 0
  | c :: s =>
    if c == '\\' || (List.replicate 3 quote).isPrefixOf (c :: s) then 0 else 1
  | [] => 0

def splitFenced (fence : List Char) (size : List Char → Nat) (s : List Char) :
    Option (List Char × List Char) :=
  if fence.isPrefixOf s then
    let (content, rest) := splitRun size (s.drop fence.length)
    if fence.isPrefixOf rest then some (fence ++ content ++ fence, rest.drop fence.length)
    else none
  else none

/-- A string literal in one of the four forms, triple quotes before single ones. -/
def splitString (s : List Char) : Option (List Char × List Char) :=
  splitFenced ['"', '"', '"'] (longUnit '"') s <|>
  splitFenced ['\'', '\'', '\''] (longUnit '\'') s <|>
  splitFenced ['"'] (shortUnit '"') s <|>
  splitFenced ['\''] (shortUnit '\'') s

/-- A backslash goes with the character after it. -/
def escapePair : List Char → Nat
  | '\\' :: _ :: _ => 2
  | _ => 1

def unescapePair : List Char → List Char
  | ['\\', c] => [(escapedChar? c).getD c]
  | unit => unit

def stringBody (lexeme : List Char) : List Char :=
  let front := lexeme.take 3
  let width := if front.length = 3 ∧ front.all (· == front.headD '"') then 3 else 1
  (lexeme.drop width).take (lexeme.length - 2 * width)

def stringContent (lexeme : List Char) : List Char :=
  (splitUnits escapePair (stringBody lexeme)).1.flatMap unescapePair

end SparqlQuery
