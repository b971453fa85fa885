import SparqlQuery.Log
import SparqlQuery.Rendering

namespace SparqlQuery

/-- A step of a parse, with the production that it belongs to. -/
inductive Event where
  | enter (production : String)
  | token (production : String) (kind : Kind) (value : Value)
  | exit (production : String)
deriving DecidableEq

def Event.production : Event → String
  | enter production | token production _ _ | exit production => production

def Event.render : Event → String
  | enter production => "enter " ++ production
  | token _ kind value => "token " ++ kind.name ++ " " ++ value.render
  | exit production => "exit " ++ production

class Sink (σ : Type) where
  receive : σ → Event → σ

structure Collector where
  events : Array Event := #[]

instance : Sink Collector where
  receive sink event := ⟨sink.events.push event⟩

structure Discard where

instance : Sink Discard where
  receive sink _ := sink

/-- Passes events on to another sink and logs each, indented by the number of open
productions. -/
structure Traced (σ : Type) where
  inner : σ
  depth : Nat := 0
  log : Array LogRecord := #[]

/-- The target of all that a trace logs. -/
def traceTarget : String := "fluree_sparql_ll::trace"

def indented (depth : Nat) (message : String) : String :=
  String.ofList (List.replicate (2 * depth) ' ') ++ message

/-- The line of a token shows it as it is written in a query. -/
def Event.logLine : Event → String
  | token _ kind value => "token " ++ kind.name ++ " '" ++ kind.render value ++ "'"
  | event => event.render

def Event.record (depth : Nat) (event : Event) : LogRecord :=
  { level := .debug
    message := indented depth event.logLine
    fields := []
    target := some traceTarget }

/-- The depth at which an event is logged, and the depth after it. -/
def Event.depths (depth : Nat) : Event → Nat × Nat
  | enter _ => (depth, depth + 1)
  | token _ _ _ => (depth, depth)
  | exit _ => (depth - 1, depth - 1)

instance {σ : Type} [Sink σ] : Sink (Traced σ) where
  receive sink event :=
    let (shown, depth) := event.depths sink.depth
    { inner := Sink.receive sink.inner event
      depth
      log := sink.log.push (event.record shown) }

end SparqlQuery
