import SparqlQuery.ParseProgress

namespace SparqlQuery

namespace Table

variable {σ : Type} [Sink σ]

def run (t : Table) (start : String) (state : ParseState σ) : Outcome × σ :=
  match _h : t.step start state with
  | .more after => run t start after
  | .last outcome sink => (outcome, sink)
termination_by t.stateCost state
decreasing_by exact step_cost _h

/-- Parses all tokens from a production. No production has a branch for no tokens at all, not
even one for the end of input. -/
def drive (t : Table) (start : String) (tokens : List Token) (sink : σ) : Outcome × σ :=
  if tokens.isEmpty then
    (.rejected (t.refusal start none), Sink.receive sink (.enter start))
  else t.run start { stack := [⟨start, none⟩], tokens, sink }

end Table

end SparqlQuery
