import SparqlQuery.NumericLexeme
import SparqlQuery.QuotedLexeme
import SparqlQuery.SymbolLexeme
import SparqlQuery.Token

namespace SparqlQuery

namespace Kind

def split : Kind → Splitter
  | variableName => splitVariable
  | iriRef => splitIri
  | prefixedNameWithLocal => splitPrefixedName
  | prefixedNameNamespace => splitNamespace
  | stringLiteral => splitString
  | langTag => splitLangTag
  | numericLiteral => splitNumber
  | booleanLiteral => splitBoolean
  | blankNode => splitBlankNode
  | nil => splitEmpty '(' ')'
  | keyword => splitKeyword
  | delimiter => splitSymbol delimiters
  | operator => splitSymbol operators

/-- The value of a lexeme of a kind. Only a number out of range has none; `fresh` numbers the
next anonymous node. -/
def value? (fresh : UInt32) : Kind → List Char → Option Value
  | variableName, lexeme => some (.text (String.ofList (lexeme.drop 1)))
  | iriRef, lexeme => some (.iri (String.ofList (lexeme.drop 1).dropLast))
  | prefixedNameWithLocal, lexeme | prefixedNameNamespace, lexeme =>
    let (label, localPart) := nameParts lexeme
    some (.ofParts (String.ofList label) (String.ofList localPart))
  | stringLiteral, lexeme => some (.string (String.ofList (stringContent lexeme)))
  | langTag, lexeme => some (.text (String.ofList (lexeme.drop 1)))
  | numericLiteral, lexeme => numericValue? lexeme
  | booleanLiteral, lexeme => some (.boolean (lexeme == "true".toList))
  | blankNode, lexeme =>
    if lexeme.head? = some '[' then some (.ofAnonymous fresh)
    else some (.blankNode (String.ofList (lexeme.drop 2)))
  | nil, _ => some (.text "()")
  | keyword, lexeme => (lookupKeyword (String.ofList lexeme)).map .text
  | delimiter, lexeme | operator, lexeme => some (.text (String.ofList lexeme))

def priority : List Kind :=
  [variableName, iriRef, prefixedNameWithLocal, prefixedNameNamespace, stringLiteral, langTag,
    numericLiteral, booleanLiteral, blankNode, nil, keyword, delimiter, operator]

/-- A kind tried alone: the value and the lexeme in front of a text, and the rest. -/
def scan (fresh : UInt32) (kind : Kind) (s : List Char) :
    Option (Value × List Char × List Char) :=
  match kind.split s with
  | none => none
  | some (lexeme, rest) => (kind.value? fresh lexeme).map fun value => (value, lexeme, rest)

end Kind

def firstKind? (s : List Char) : Option Kind :=
  Kind.priority.find? fun kind => (kind.split s).isSome

/-- The token in front of a text. A number out of range ends the search: no later kind is
tried in its place. -/
def scanLexeme (fresh : UInt32) (s : List Char) :
    Option (Kind × Value × List Char × List Char) :=
  match firstKind? s with
  | none => none
  | some kind => (kind.scan fresh s).map fun found => (kind, found)

end SparqlQuery
