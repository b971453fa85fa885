import SparqlQuery.Span
import SparqlQuery.Value

namespace SparqlQuery

inductive Kind where
  | variableName
  | iriRef
  | prefixedNameWithLocal
  | prefixedNameNamespace
  | stringLiteral
  | langTag
  | numericLiteral
  | booleanLiteral
  | blankNode
  | nil
  | keyword
  | delimiter
  | operator
deriving DecidableEq

namespace Kind

def name : Kind → String
  | variableName => "Variable"
  | iriRef => "IriRef"
  | prefixedNameWithLocal => "PrefixedNameWithLocal"
  | prefixedNameNamespace => "PrefixedNameNamespace"
  | stringLiteral => "StringLiteral"
  | langTag => "LangTag"
  | numericLiteral => "NumericLiteral"
  | booleanLiteral => "BooleanLiteral"
  | blankNode => "BlankNode"
  | nil => "Nil"
  | keyword => "Keyword"
  | delimiter => "Delimiter"
  | operator => "Operator"

/-- Tokens of most kinds are alike to a grammar; keywords, delimiters and operators are not. -/
def tag? : Kind → Option String
  | keyword | delimiter | operator => none
  | kind => some kind.name

end Kind

/-- A token and the stretch of decoded text that it was read from. -/
structure Token where
  kind : Kind
  value : Value
  span : Span := {}
deriving DecidableEq

namespace Token

/-- The key under which a grammar table knows a token: its kind, or the text of a keyword,
delimiter or operator. -/
def key (token : Token) : String :=
  match token.kind.tag?, token.value with
  | some tag, _ => tag
  | none, .text s => s
  | none, _ => token.kind.name

end Token

end SparqlQuery
