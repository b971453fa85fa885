import SparqlQuery.Grammar
import SparqlQuery.JsonRendering

namespace SparqlQuery

def Term.toJson : Term → Json
  | .terminal key => .object [(some "terminal", .text (some key))]
  | .production name => .object [(some "production", .text (some name))]

def Term.ofJson? : Json → Option Term
  | .object [(some "terminal", .text (some key))] => some (.terminal key)
  | .object [(some "production", .text (some name))] => some (.production name)
  | _ => none

/-- The map in an object, the last value of each key counting. -/
def Dictionary.ofJson? {α : Type} (item? : Json → Option α) : Json → Option (Dictionary α)
  | .object fields =>
    let entry? (field : Option String × Json) : Option (String × α) :=
      match field.1, item? field.2 with
      | some key, some item => some (key, item)
      | _, _ => none
    (fields.mapM entry?).map ofList
  | _ => none

def Dictionary.toJson {α : Type} (itemJson : α → Json) (d : Dictionary α) : Json :=
  .object (d.entries.map fun (key, item) => (some key, itemJson item))

def expansionOfJson? : Json → Option (List Term)
  | .array items => items.mapM Term.ofJson?
  | _ => none

def expansionToJson (terms : List Term) : Json :=
  .array (terms.map Term.toJson)

namespace Table

/-- A table as an object of objects of arrays. A production that is given again replaces the
earlier one with all its branches. -/
def ofJson? (json : Json) : Option Table :=
  (Dictionary.ofJson? (Dictionary.ofJson? expansionOfJson?) json).map Table.mk

def ofText? (text : String) : Option Table :=
  (Json.ofText? text).bind ofJson?

/-- A table from a stream of bytes, which have to be UTF-8. -/
def ofBytes? (bytes : ByteArray) : Option Table :=
  (String.fromUTF8? bytes).bind ofText?

def toJson (t : Table) : Json :=
  t.productions.toJson (Dictionary.toJson expansionToJson)

def toText (t : Table) : String :=
  t.toJson.toText

end Table

end SparqlQuery
