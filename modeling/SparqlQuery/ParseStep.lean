import SparqlQuery.Event
import SparqlQuery.Grammar
import SparqlQuery.ParseError

namespace SparqlQuery

/-- An open production and the rest of its expansion, which is not chosen before it is
entered. -/
structure Frame where
  production : String
  pending : Option (List Term) := none

/-- A parse under way: the open productions, innermost first, and the tokens not yet read. -/
structure ParseState (σ : Type) where
  stack : List Frame
  tokens : List Token
  sink : σ
  /-- how many of the innermost productions were entered after the last token was read -/
  nested : Nat := 0

/-- How a parse ends. It does not end when a production is entered inside itself, with no token
read in between. -/
inductive Outcome where
  | accepted
  | rejected (e : ParseError)
  | endless
deriving DecidableEq

inductive Step (σ : Type) where
  | more (state : ParseState σ)
  | last (outcome : Outcome) (sink : σ)

def lookahead : List Token → String
  | [] => endOfInput
  | token :: _ => token.key

namespace Table

/-- The error of a production that has no branch for what is found. -/
def refusal (t : Table) (production : String) (found : Option Token) : ParseError :=
  if t.contains production then
    .unexpectedToken production found (t.alternatives production)
  else .noExpansion production

variable {σ : Type} [Sink σ]

/-- Enters the innermost production, or does the next of its terms, or leaves it when none is
left. Of more productions than the table has, nested without a token between them, one is
inside itself. -/
def step (t : Table) (start : String) (state : ParseState σ) : Step σ :=
  match state.stack with
  | [] =>
    match state.tokens with
    | [] => .last .accepted state.sink
    | token :: _ => .last (.rejected (.trailingInput start token)) state.sink
  | ⟨production, none⟩ :: below =>
    if t.size < state.nested then .last .endless state.sink
    else
      let sink := Sink.receive state.sink (.enter production)
      match t.expansion? production (lookahead state.tokens) with
      | none => .last (.rejected (t.refusal production state.tokens.head?)) sink
      | some terms =>
        .more
          { stack := ⟨production, some terms⟩ :: below
            tokens := state.tokens
            sink
            nested := state.nested + 1 }
  | ⟨production, some []⟩ :: below =>
    .more
      { stack := below
        tokens := state.tokens
        sink := Sink.receive state.sink (.exit production)
        nested := state.nested - 1 }
  | ⟨production, some (.production name :: terms)⟩ :: below =>
    .more { state with stack := ⟨name, none⟩ :: ⟨production, some terms⟩ :: below }
  | ⟨production, some (.terminal key :: terms)⟩ :: below =>
    match state.tokens with
    | [] => .last (.rejected (.expectedTerm production key none)) state.sink
    | token :: tokens =>
      if token.key = key then
        .more
          { stack := ⟨production, some terms⟩ :: below
            tokens
            sink := Sink.receive state.sink (.token production token.kind token.value) }
      else .last (.rejected (.expectedTerm production key (some token))) state.sink

end Table

end SparqlQuery
