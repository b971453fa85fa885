import SparqlQuery.Dictionary

namespace SparqlQuery

/-- An element of an expansion: a token with a given key, or another production. -/
inductive Term where
  | terminal (key : String)
  | production (name : String)
deriving DecidableEq

abbrev Branches := Dictionary (List Term)

/-- A grammar with one token of lookahead. -/
structure Table where
  productions : Dictionary Branches
deriving DecidableEq

/-- The lookahead key once the tokens have run out. -/
def endOfInput : String := "$"

def startProduction : String := "Query"

structure Rule where
  production : String
  key : String
  terms : List Term
deriving DecidableEq

namespace Table

def empty : Table :=
  ⟨.empty⟩

def branches? (t : Table) (production : String) : Option Branches :=
  t.productions.get? production

/-- What a production becomes when a token with this key comes next. -/
def expansion? (t : Table) (production key : String) : Option (List Term) :=
  (t.branches? production).bind (·.get? key)

def alternatives (t : Table) (production : String) : List String :=
  match t.branches? production with
  | some branches => branches.keys
  | none => []

def contains (t : Table) (production : String) : Bool :=
  t.productions.contains production

def names (t : Table) : List String :=
  t.productions.keys

def size (t : Table) : Nat :=
  t.productions.size

def isEmpty (t : Table) : Bool :=
  t.size == 0

def expansions (t : Table) : List (List Term) :=
  t.productions.values.flatMap Dictionary.values

/-- The productions that some expansion names and none defines, in increasing order. -/
def undefined (t : Table) : List String :=
  sortedNames <| t.expansions.flatten.filterMap fun
    | .production name => if t.contains name then none else some name
    | .terminal _ => none

/-- Adds a branch, in place of one for the same production and key. -/
def addRule (t : Table) (rule : Rule) : Table :=
  let branches := (t.branches? rule.production).getD .empty
  ⟨t.productions.insert rule.production (branches.insert rule.key rule.terms)⟩

def ofRules (rules : List Rule) : Table :=
  rules.foldl addRule empty

end Table

end SparqlQuery
