import SparqlQuery.Keyword
import SparqlQuery.NameLexeme

namespace SparqlQuery

def splitSymbol (symbols : List (List Char)) (s : List Char) : Option (List Char × List Char) :=
  (symbols.find? (·.isPrefixOf s)).map fun symbol => (symbol, s.drop symbol.length)

/-- Longer symbols come before shorter ones. -/
def delimiters : List (List Char) :=
  [['^', '^'], ['\x7b'], ['\x7d'], ['('], [')'], ['['], [']'], [';'], [','], ['.']]

def operators : List (List Char) :=
  [['|', '|'], ['&', '&'], ['!', '='], ['<', '='], ['>', '='], ['='], ['<'], ['>'], ['+'], ['-'],
    ['*'], ['/'], ['!'], ['^'], ['|'], ['?']]

/-- A lexeme that no name character may follow. -/
def atWordEnd (split : Option (List Char × List Char)) : Option (List Char × List Char) :=
  split.filter fun (_, rest) => endsWord rest.head?

def splitBoolean (s : List Char) : Option (List Char × List Char) :=
  atWordEnd (splitSymbol ["true".toList, "false".toList] s)

def isWordChar (c : Char) : Bool :=
  c.isAlphanum || c == '_'

def splitKeyword (s : List Char) : Option (List Char × List Char) :=
  let word := s.takeWhile isWordChar
  if (lookupKeyword (String.ofList word)).isSome then
    atWordEnd (some (word, s.dropWhile isWordChar))
  else none

/-- Two brackets with nothing but white space between them. -/
def splitEmpty (opening closing : Char) : Splitter
  | [] => none
  | c :: s =>
    match s.dropWhile isBlank with
    | [] => none
    | d :: rest =>
      if c == opening && d == closing then some (c :: s.takeWhile isBlank ++ [d], rest) else none

def splitBlankNode (s : List Char) : Option (List Char × List Char) :=
  splitBlankLabel s <|> splitEmpty '[' ']' s

end SparqlQuery
