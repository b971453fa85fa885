import SparqlQuery.Decimal
import SparqlQuery.Double

namespace SparqlQuery

inductive Value where
  /-- keywords in lower case, punctuation, variable names, language tags and the empty list -/
  | text (s : String)
  /-- the content of a string literal, escapes decoded -/
  | string (s : String)
  | integer (n : Int)
  | decimal (d : Decimal)
  | double (d : Double)
  | boolean (b : Bool)
  /-- the content of an IRI, without its brackets -/
  | iri (s : String)
  /-- a label, or an identifier made for an anonymous node -/
  | blankNode (id : String)
  /-- no label is the default namespace, no local part the namespace itself -/
  | prefixedName (label localPart : Option String)
deriving DecidableEq

namespace Value

def nonEmpty (s : String) : Option String :=
  if s.isEmpty then none else some s

def ofParts (label localPart : String) : Value :=
  .prefixedName (nonEmpty label) (nonEmpty localPart)

/-- Identifiers of anonymous nodes begin with this, which no label can. -/
def anonymousMark : String := "[]"

def ofAnonymous (number : UInt32) : Value :=
  .blankNode (anonymousMark ++ number.toNat.repr)

def isAnonymousBlank : Value → Bool
  | .blankNode id => anonymousMark.toList.isPrefixOf id.toList
  | _ => false

/-- Equality of values: decimals and doubles agree as numbers, all else when identical. -/
def agrees : Value → Value → Bool
  | .decimal a, .decimal b => a.agrees b
  | .double a, .double b => a.agrees b
  | a, b => a == b

end Value

end SparqlQuery
