import SparqlQuery.Rendering

namespace SparqlQuery

/-- Why a parse fails, and in which production. -/
inductive ParseError where
  /-- the table does not have the production -/
  | noExpansion (production : String)
  /-- the production has no branch for what comes next; nothing is found when the tokens have
  run out -/
  | unexpectedToken (production : String) (found : Option Token) (expected : List String)
  /-- an expansion asks for a token with another key -/
  | expectedTerm (production expected : String) (found : Option Token)
  /-- tokens are left when the start production is complete -/
  | trailingInput (production : String) (found : Token)
deriving DecidableEq

def describeFound : Option Token → String
  | some token => token.describe
  | none => "end of input"

namespace ParseError

def message : ParseError → String
  | noExpansion production => "no expansion defined for production " ++ production
  | unexpectedToken production found expected =>
    "unexpected " ++ describeFound found ++ " for production " ++ production ++
      ", expected one of: " ++ ", ".intercalate expected
  | expectedTerm production expected found =>
    "expected " ++ expected ++ " in production " ++ production ++ ", found " ++
      describeFound found
  | trailingInput production found =>
    "trailing input after production " ++ production ++ ": " ++ found.describe

def production : ParseError → String
  | noExpansion production | unexpectedToken production _ _ | expectedTerm production _ _
  | trailingInput production _ => production

def found : ParseError → Option Token
  | noExpansion _ => none
  | unexpectedToken _ found _ | expectedTerm _ _ found => found
  | trailingInput _ found => some found

def isEndOfInput : ParseError → Bool
  | unexpectedToken _ none _ | expectedTerm _ _ none => true
  | _ => false

def position (e : ParseError) : Option Nat :=
  e.found.map (·.span.start)

end ParseError

end SparqlQuery
