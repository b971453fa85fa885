import SparqlQuery.Parser
import SparqlQuery.Proofs.DerivationTree

namespace SparqlQuery

namespace Table

variable {σ : Type} [Sink σ]

/-- The steps that lead on: a production is entered, put on the stack or left, or a token is
read. -/
inductive Moves (t : Table) : ParseState σ → ParseState σ → Prop
  | enter {name : String} {below : List Frame} {terms : List Term} {tokens : List Token}
      {sink : σ} {nested : Nat} (hsize : nested ≤ t.size)
      (hname : t.expands name (lookahead tokens) terms) :
      Moves t ⟨⟨name, none⟩ :: below, tokens, sink, nested⟩
        ⟨⟨name, some terms⟩ :: below, tokens, Sink.receive sink (.enter name), nested + 1⟩
  | push {production name : String} {terms : List Term} {below : List Frame}
      {tokens : List Token} {sink : σ} {nested : Nat} :
      Moves t ⟨⟨production, some (.production name :: terms)⟩ :: below, tokens, sink, nested⟩
        ⟨⟨name, none⟩ :: ⟨production, some terms⟩ :: below, tokens, sink, nested⟩
  | read {production : String} {terms : List Term} {below : List Frame} {token : Token}
      {tokens : List Token} {sink : σ} {nested : Nat} :
      Moves t ⟨⟨production, some (.terminal token.key :: terms)⟩ :: below, token :: tokens, sink,
          nested⟩
        ⟨⟨production, some terms⟩ :: below, tokens,
          Sink.receive sink (.token production token.kind token.value), 0⟩
  | exit {production : String} {below : List Frame} {tokens : List Token} {sink : σ}
      {nested : Nat} :
      Moves t ⟨⟨production, some []⟩ :: below, tokens, sink, nested⟩
        ⟨below, tokens, Sink.receive sink (.exit production), nested - 1⟩

/-- The steps that end a parse. -/
inductive Stops (t : Table) (start : String) : ParseState σ → Outcome → σ → Prop
  | accepted {sink : σ} {nested : Nat} : Stops t start ⟨[], [], sink, nested⟩ .accepted sink
  | trailing {token : Token} {tokens : List Token} {sink : σ} {nested : Nat} :
      Stops t start ⟨[], token :: tokens, sink, nested⟩ (.rejected (.trailingInput start token))
        sink
  | endless {name : String} {below : List Frame} {tokens : List Token} {sink : σ} {nested : Nat}
      (hsize : t.size < nested) :
      Stops t start ⟨⟨name, none⟩ :: below, tokens, sink, nested⟩ .endless sink
  | refused {name : String} {below : List Frame} {tokens : List Token} {sink : σ} {nested : Nat}
      (hsize : nested ≤ t.size) (hname : t.expansion? name (lookahead tokens) = none) :
      Stops t start ⟨⟨name, none⟩ :: below, tokens, sink, nested⟩
        (.rejected (t.refusal name tokens.head?)) (Sink.receive sink (.enter name))
  | mismatch {production key : String} {terms : List Term} {below : List Frame}
      {tokens : List Token} {sink : σ} {nested : Nat}
      (hkey : ∀ token ∈ tokens.head?, token.key ≠ key) :
      Stops t start ⟨⟨production, some (.terminal key :: terms)⟩ :: below, tokens, sink, nested⟩
        (.rejected (.expectedTerm production key tokens.head?)) sink

variable {t : Table} {start : String} {state after : ParseState σ} {outcome : Outcome} {sink : σ}

theorem step_of_moves (h : t.Moves state after) : t.step start state = .more after := by
  cases h with
  | enter hsize hname =>
    have hname : t.expansion? _ _ = some _ := hname
    simp [step, Nat.not_lt.mpr hsize, hname]
  | push => rfl
  | read => simp [step]
  | exit => rfl

theorem step_of_stops (h : t.Stops start state outcome sink) :
    t.step start state = .last outcome sink := by
  cases h with
  | accepted => rfl
  | trailing => rfl
  | endless hsize => simp [step, hsize]
  | refused hsize hname => simp [step, Nat.not_lt.mpr hsize, hname]
  | @mismatch _ _ _ _ tokens _ _ hkey =>
    cases tokens with
    | nil => rfl
    | cons token tokens => simp [step, hkey token rfl]

theorem moves_or_stops (t : Table) (start : String) (state : ParseState σ) :
    (∃ after, t.Moves state after) ∨ ∃ outcome sink, t.Stops start state outcome sink := by
  obtain ⟨stack, tokens, sink, nested⟩ := state
  match stack, tokens with
  | [], [] => exact .inr ⟨_, _, .accepted⟩
  | [], token :: tokens => exact .inr ⟨_, _, .trailing⟩
  | ⟨name, none⟩ :: below, tokens =>
    by_cases hsize : t.size < nested
    · exact .inr ⟨_, _, .endless hsize⟩
    · cases hname : t.expansion? name (lookahead tokens) with
      | none => exact .inr ⟨_, _, .refused (Nat.not_lt.mp hsize) hname⟩
      | some terms => exact .inl ⟨_, .enter (Nat.not_lt.mp hsize) hname⟩
  | ⟨production, some []⟩ :: below, tokens => exact .inl ⟨_, .exit⟩
  | ⟨production, some (.production name :: terms)⟩ :: below, tokens => exact .inl ⟨_, .push⟩
  | ⟨production, some (.terminal key :: terms)⟩ :: below, [] =>
    exact .inr ⟨_, _, .mismatch (by simp)⟩
  | ⟨production, some (.terminal key :: terms)⟩ :: below, token :: tokens =>
    by_cases hkey : token.key = key
    · subst hkey
      exact .inl ⟨_, .read⟩
    · exact .inr ⟨_, _, .mismatch (by simpa using hkey)⟩

theorem run_of_moves (h : t.Moves state after) : t.run start state = t.run start after := by
  rw [run]
  split
  next _ hs =>
    rw [step_of_moves h] at hs
    cases hs
    rfl
  next _ _ hs =>
    rw [step_of_moves h] at hs
    cases hs

theorem run_of_stops (h : t.Stops start state outcome sink) :
    t.run start state = (outcome, sink) := by
  rw [run]
  split
  next _ hs =>
    rw [step_of_stops h] at hs
    cases hs
  next _ _ hs =>
    rw [step_of_stops h] at hs
    cases hs
    rfl

/-- What holds at the last step and is carried back over every other one holds of a run. -/
theorem run_induction {motive : ParseState σ → Outcome × σ → Prop}
    (stops : ∀ state outcome sink, t.Stops start state outcome sink →
      motive state (outcome, sink))
    (moves : ∀ state after result, t.Moves state after → motive after result →
      motive state result)
    (state : ParseState σ) : motive state (t.run start state) := by
  induction h : t.stateCost state using Nat.strongRecOn generalizing state with
  | ind cost ih =>
    rcases moves_or_stops t start state with ⟨after, hm⟩ | ⟨outcome, sink, hs⟩
    · rw [run_of_moves hm]
      have hlt := step_cost (step_of_moves hm : t.step start state = .more after)
      exact moves state after _ hm (ih _ (h ▸ hlt) after rfl)
    · rw [run_of_stops hs]
      exact stops state outcome sink hs

theorem drive_of_ne_nil (t : Table) (start : String) {tokens : List Token} (hne : tokens ≠ [])
    (sink : σ) : t.drive start tokens sink = t.run start ⟨[⟨start, none⟩], tokens, sink, 0⟩ := by
  simp [drive, hne]

end Table

def Sink.receiveAll {σ : Type} [Sink σ] (sink : σ) (events : List Event) : σ :=
  events.foldl Sink.receive sink

@[simp] theorem Sink.receiveAll_nil {σ : Type} [Sink σ] (sink : σ) :
    Sink.receiveAll sink [] = sink :=
  rfl

@[simp] theorem Sink.receiveAll_cons {σ : Type} [Sink σ] (sink : σ) (event : Event)
    (events : List Event) :
    Sink.receiveAll sink (event :: events) = Sink.receiveAll (Sink.receive sink event) events :=
  rfl

@[simp] theorem Sink.receiveAll_append {σ : Type} [Sink σ] (sink : σ)
    (events more : List Event) :
    Sink.receiveAll sink (events ++ more) = Sink.receiveAll (Sink.receiveAll sink events) more :=
  List.foldl_append

theorem Collector.receiveAll_events (sink : Collector) (events : List Event) :
    (Sink.receiveAll sink events).events = sink.events ++ events.toArray := by
  induction events generalizing sink with
  | nil => simp
  | cons event events ih =>
    rw [Sink.receiveAll_cons, ih]
    simp [Sink.receive]

theorem Collector.mk_eq_receiveAll (events : List Event) :
    (⟨events.toArray⟩ : Collector) = Sink.receiveAll {} events := by
  have hall := Collector.receiveAll_events {} events
  rw [Array.empty_append] at hall
  exact (congrArg Collector.mk hall).symm

end SparqlQuery
