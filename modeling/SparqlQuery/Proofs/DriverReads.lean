import SparqlQuery.Proofs.DriverRun

namespace SparqlQuery

def Token.reading (token : Token) : Kind × Value :=
  (token.kind, token.value)

def Event.reading? : Event → Option (Kind × Value)
  | .token _ kind value => some (kind, value)
  | .enter _ | .exit _ => none

namespace Table

variable {σ : Type} [Sink σ]

/-- A run to its end, with the tokens that it reads. -/
inductive Runs (t : Table) (start : String) :
    ParseState σ → List Token → Outcome → σ → Prop
  | stop {state : ParseState σ} {outcome : Outcome} {sink : σ}
      (hs : t.Stops start state outcome sink) : Runs t start state [] outcome sink
  | keep {state after : ParseState σ} {read : List Token} {outcome : Outcome} {sink : σ}
      (hm : t.Moves state after) (htokens : state.tokens = after.tokens)
      (hafter : Runs t start after read outcome sink) : Runs t start state read outcome sink
  | read {state after : ParseState σ} {token : Token} {read : List Token} {outcome : Outcome}
      {sink : σ} (hm : t.Moves state after) (htokens : state.tokens = token :: after.tokens)
      (hafter : Runs t start after read outcome sink) :
      Runs t start state (token :: read) outcome sink

variable {t : Table} {start : String} {state after : ParseState σ} {read : List Token}
  {outcome : Outcome} {sink : σ} {token : Token}

/-- A token is delivered by the step that reads it and by no other. -/
theorem Moves.reading (h : t.Moves state after) : ∃ events,
    after.sink = Sink.receiveAll state.sink events ∧
      (state.tokens = after.tokens ∧ events.filterMap Event.reading? = [] ∨
        ∃ token, state.tokens = token :: after.tokens ∧
          events.filterMap Event.reading? = [token.reading]) := by
  cases h with
  | @enter name => exact ⟨[.enter name], rfl, .inl ⟨rfl, rfl⟩⟩
  | push => exact ⟨[], rfl, .inl ⟨rfl, rfl⟩⟩
  | @read production _ _ token =>
    exact ⟨[.token production token.kind token.value], rfl, .inr ⟨token, rfl, rfl⟩⟩
  | @exit production => exact ⟨[.exit production], rfl, .inl ⟨rfl, rfl⟩⟩

theorem Stops.reading (h : t.Stops start state outcome sink) : ∃ events,
    sink = Sink.receiveAll state.sink events ∧ events.filterMap Event.reading? = [] := by
  cases h with
  | @refused name => exact ⟨[.enter name], rfl, rfl⟩
  | accepted => exact ⟨[], rfl, rfl⟩
  | trailing => exact ⟨[], rfl, rfl⟩
  | endless => exact ⟨[], rfl, rfl⟩
  | mismatch => exact ⟨[], rfl, rfl⟩

theorem runs_run (t : Table) (start : String) (state : ParseState σ) :
    ∃ read, t.Runs start state read (t.run start state).1 (t.run start state).2 := by
  refine run_induction (motive := fun state result => ∃ read,
    t.Runs start state read result.1 result.2) ?_ ?_ state
  · exact fun state outcome sink hs => ⟨[], .stop hs⟩
  · rintro state after result hm ⟨read, hafter⟩
    obtain ⟨_, _, ⟨htokens, _⟩ | ⟨token, htokens, _⟩⟩ := hm.reading
    · exact ⟨read, .keep hm htokens hafter⟩
    · exact ⟨token :: read, .read hm htokens hafter⟩

theorem Runs.run_eq (h : t.Runs start state read outcome sink) :
    t.run start state = (outcome, sink) := by
  induction h with
  | stop hs => exact run_of_stops hs
  | keep hm _ _ ih => exact (run_of_moves hm).trans ih
  | read hm _ _ ih => exact (run_of_moves hm).trans ih

theorem Runs.read_prefix (h : t.Runs start state read outcome sink) :
    ∃ rest, state.tokens = read ++ rest := by
  induction h with
  | stop => exact ⟨_, rfl⟩
  | keep _ htokens _ ih =>
    obtain ⟨rest, hrest⟩ := ih
    exact ⟨rest, htokens.trans hrest⟩
  | @read _ _ token _ _ _ _ htokens _ ih =>
    obtain ⟨rest, hrest⟩ := ih
    exact ⟨rest, htokens.trans (congrArg (token :: ·) hrest)⟩

theorem Runs.readings (h : t.Runs start state read outcome sink) :
    ∃ events, sink = Sink.receiveAll state.sink events ∧
      events.filterMap Event.reading? = read.map Token.reading := by
  induction h with
  | stop hs => exact hs.reading
  | @keep state after _ _ _ hm htokens _ ih =>
    obtain ⟨events, rfl, hevents⟩ := ih
    obtain ⟨first, hsink, ⟨_, hfirst⟩ | ⟨token, hread, _⟩⟩ := hm.reading
    · exact ⟨first ++ events, by rw [hsink, Sink.receiveAll_append], by simp [hfirst, hevents]⟩
    · exact absurd (hread.symm.trans htokens) (List.cons_ne_self _ _)
  | @read state after token _ _ _ hm htokens _ ih =>
    obtain ⟨events, rfl, hevents⟩ := ih
    obtain ⟨first, hsink, ⟨hkeep, _⟩ | ⟨token', hread, hfirst⟩⟩ := hm.reading
    · exact absurd (htokens.symm.trans hkeep) (List.cons_ne_self _ _)
    · obtain rfl : token = token' := (List.cons.inj (htokens.symm.trans hread)).1
      exact ⟨first ++ events, by rw [hsink, Sink.receiveAll_append], by simp [hfirst, hevents]⟩

theorem Moves.keep_other (h : t.Moves state after) (htokens : state.tokens = after.tokens)
    {tokens : List Token} (hkey : lookahead tokens = lookahead state.tokens) :
    t.Moves { state with tokens } { after with tokens } := by
  cases h with
  | enter hsize hname => exact .enter hsize (hkey ▸ hname)
  | push => exact .push
  | read => exact absurd htokens (List.cons_ne_self _ _)
  | exit => exact .exit

theorem Moves.read_other (h : t.Moves state after) (htokens : state.tokens = token :: after.tokens)
    (tokens : List Token) :
    t.Moves { state with tokens := token :: tokens } { after with tokens } := by
  cases h with
  | read =>
    obtain rfl := (List.cons.inj htokens).1
    exact .read
  | enter => exact absurd htokens.symm (List.cons_ne_self _ _)
  | push => exact absurd htokens.symm (List.cons_ne_self _ _)
  | exit => exact absurd htokens.symm (List.cons_ne_self _ _)

theorem Stops.other (h : t.Stops start state outcome sink) {rest : List Token}
    (htokens : state.tokens = token :: rest) (tokens : List Token) :
    t.Stops start { state with tokens := token :: tokens } outcome sink := by
  cases h with
  | accepted => cases htokens
  | trailing =>
    cases htokens
    exact .trailing
  | endless hsize => exact .endless hsize
  | refused hsize hname =>
    cases htokens
    exact .refused hsize hname
  | mismatch hkey =>
    cases htokens
    exact .mismatch hkey

/-- Whatever comes after the token at which a run stops, it stops there in the same way. -/
theorem Runs.other (h : t.Runs start state read outcome sink) {rest : List Token}
    (htokens : state.tokens = read ++ token :: rest) (tokens : List Token) :
    t.Runs start { state with tokens := read ++ token :: tokens } read outcome sink := by
  induction h with
  | stop hs => exact .stop (hs.other htokens tokens)
  | @keep state after read _ _ hm hkeep _ ih =>
    have hkey : lookahead (read ++ token :: tokens) = lookahead state.tokens := by
      rw [htokens]
      cases read <;> rfl
    exact .keep (hm.keep_other hkeep hkey) rfl (ih (hkeep.symm.trans htokens))
  | @read state after first read _ _ hm hread _ ih =>
    have hafter := (List.cons.inj (hread.symm.trans htokens)).2
    exact .read (hm.read_other hread _) rfl (ih hafter)

theorem Runs.read_all (h : t.Runs start state read .accepted sink) : state.tokens = read := by
  generalize hout : Outcome.accepted = outcome at h
  induction h with
  | stop hs =>
    subst hout
    cases hs
    rfl
  | keep _ htokens _ ih => exact htokens.trans (ih hout)
  | read _ htokens _ ih => rw [htokens, ih hout]

/-- No other tokens after the one at which a run stops make it succeed. -/
theorem Runs.refuses (h : t.Runs start state read outcome sink) {rest : List Token}
    (htokens : state.tokens = read ++ token :: rest) (tokens : List Token) :
    (t.run start { state with tokens := read ++ token :: tokens }).1 ≠ .accepted := by
  rw [(h.other htokens tokens).run_eq]
  rintro rfl
  have hall := htokens.symm.trans h.read_all
  simp at hall

end Table

end SparqlQuery
