namespace SparqlQuery

inductive Level where
  | trace
  | debug
deriving DecidableEq

structure LogRecord where
  level : Level
  message : String
  fields : List (String × String)
  /-- what it is filed under, if it has a target of its own -/
  target : Option String := none
deriving DecidableEq

end SparqlQuery
