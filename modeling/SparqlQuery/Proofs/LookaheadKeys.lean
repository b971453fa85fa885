import SparqlQuery.Proofs.FailureState

namespace SparqlQuery

/-- An event without the kind and the value of its token. -/
inductive Event.Shape where
  | enter (production : String)
  | token (production : String)
  | exit (production : String)

def Event.shape : Event → Event.Shape
  | .enter production => .enter production
  | .token production _ _ => .token production
  | .exit production => .exit production

/-- The events up to the last of so many tokens, or all where there are fewer. -/
def throughToken : Nat → List Event → List Event
  | 0, _ => []
  | _ + 1, [] => []
  | m + 1, event :: events =>
    event :: throughToken (if event.reading?.isSome then m else m + 1) events

/-- The same complaint about another token. -/
def ParseError.about (found : Token) : ParseError → ParseError
  | .noExpansion production => .noExpansion production
  | .unexpectedToken production _ expected => .unexpectedToken production (some found) expected
  | .expectedTerm production expected _ => .expectedTerm production expected (some found)
  | .trailingInput production _ => .trailingInput production found

def Outcome.about (found : Token) : Outcome → Outcome
  | .accepted => .accepted
  | .rejected e => .rejected (e.about found)
  | .endless => .endless

/-- How two parses compare when their tokens have the same keys up to a number: the shapes of
their events are the same up to the last of these tokens. If one ends before it has read them all,
the other ends there too, and each with the same to say about the token that it stopped at. -/
structure Alike (m : Nat) (tokens other : List Token) (outcome outcome' : Outcome)
    (events events' : List Event) : Prop where
  shapes : (throughToken m events).map Event.shape = (throughToken m events').map Event.shape
  ends : tokenCount events < m → events.map Event.shape = events'.map Event.shape ∧
    ∃ found found', tokens[tokenCount events]? = some found ∧
      other[tokenCount events]? = some found' ∧ outcome = outcome.about found ∧
      outcome' = outcome.about found'

/-- Lists that begin with so many tokens, with the same keys in both. -/
inductive SameKeys : Nat → List Token → List Token → Prop
  | zero (tokens other : List Token) : SameKeys 0 tokens other
  | succ {k : Nat} {token token' : Token} {tokens other : List Token}
      (hkey : token'.key = token.key) (h : SameKeys k tokens other) :
      SameKeys (k + 1) (token :: tokens) (token' :: other)

section

variable {m k : Nat} {tokens other : List Token} {outcome outcome' : Outcome}
  {silent events events' : List Event} {token token' : Token}

theorem sameKeys_of_take (hlength : m ≤ tokens.length) (hlength' : m ≤ other.length)
    (hkeys : (tokens.take m).map Token.key = (other.take m).map Token.key) :
    SameKeys m tokens other := by
  induction m generalizing tokens other with
  | zero => exact .zero tokens other
  | succ m ih =>
    obtain ⟨token, tokens, rfl⟩ := List.exists_cons_of_length_pos (Nat.zero_lt_of_lt hlength)
    obtain ⟨token', other, rfl⟩ := List.exists_cons_of_length_pos (Nat.zero_lt_of_lt hlength')
    have hcons := List.cons.inj hkeys
    have hrest := ih (Nat.le_of_succ_le_succ hlength) (Nat.le_of_succ_le_succ hlength') hcons.2
    exact .succ hcons.1.symm hrest

theorem tokenCount_of_silent (h : silent.filterMap Event.reading? = []) (events : List Event) :
    tokenCount (silent ++ events) = tokenCount events := by
  simp [tokenCount, h]

theorem throughToken_of_silent (h : silent.filterMap Event.reading? = []) (m : Nat)
    (events : List Event) :
    throughToken (m + 1) (silent ++ events) = silent ++ throughToken (m + 1) events := by
  induction silent with
  | nil => rfl
  | cons event silent ih =>
    rw [List.filterMap_eq_nil_iff, List.forall_mem_cons, ← List.filterMap_eq_nil_iff] at h
    simp [throughToken, h.1, ih h.2]

namespace Alike

theorem zero (tokens other : List Token) (outcome outcome' : Outcome)
    (events events' : List Event) : Alike 0 tokens other outcome outcome' events events' :=
  ⟨by simp [throughToken], fun h => absurd h (Nat.not_lt_zero _)⟩

theorem silent_append (hsilent : silent.filterMap Event.reading? = [])
    (h : Alike (m + 1) tokens other outcome outcome' events events') :
    Alike (m + 1) tokens other outcome outcome' (silent ++ events) (silent ++ events') := by
  have hshapes := h.shapes
  refine ⟨?_, ?_⟩
  · simp [throughToken_of_silent hsilent, hshapes]
  · intro hlt
    rw [tokenCount_of_silent hsilent] at hlt ⊢
    obtain ⟨hall, hfound⟩ := h.ends hlt
    exact ⟨by simp [hall], hfound⟩

theorem token_cons (production : String) (token token' : Token)
    (h : Alike m tokens other outcome outcome' events events') :
    Alike (m + 1) (token :: tokens) (token' :: other) outcome outcome'
      (.token production token.kind token.value :: events)
      (.token production token'.kind token'.value :: events') := by
  have hshapes := h.shapes
  have hcount : tokenCount (.token production token.kind token.value :: events) =
      tokenCount events + 1 := rfl
  refine ⟨?_, ?_⟩
  · simp [throughToken, Event.reading?, Event.shape, hshapes]
  · intro hlt
    rw [hcount] at hlt ⊢
    obtain ⟨hall, hfound⟩ := h.ends (Nat.lt_of_succ_lt_succ hlt)
    exact ⟨by simp [Event.shape, hall], by simpa using hfound⟩

/-- Where both stop at the next token, nothing has been read. -/
theorem stop (hsilent : silent.filterMap Event.reading? = [])
    (houtcome : outcome = outcome.about token) :
    Alike (m + 1) (token :: tokens) (token' :: other) outcome (outcome.about token') silent
      silent := by
  have hcount : tokenCount silent = 0 := by simp [tokenCount, hsilent]
  refine ⟨rfl, fun _ => ⟨rfl, token, token', ?_⟩⟩
  rw [hcount]
  exact ⟨rfl, rfl, houtcome, rfl⟩

end Alike

end

namespace Table

section

variable {σ τ : Type} [Sink σ] [Sink τ]

/-- Two parses at the same place, with the same keys ahead for so many tokens. -/
structure InStep (k : Nat) (state : ParseState σ) (other : ParseState τ) : Prop where
  stack : other.stack = state.stack
  nested : other.nested = state.nested
  keys : SameKeys k state.tokens other.tokens

variable {t : Table} {start : String} {state after : ParseState σ} {other : ParseState τ}
  {k : Nat} {token token' : Token} {rest rest' read : List Token} {outcome : Outcome} {sink : σ}

/-- A step that reads no token is taken by both parses, with the same events. -/
theorem Moves.keep_inStep (h : t.Moves state after) (htokens : state.tokens = after.tokens)
    (hs : InStep (k + 1) state other) : ∃ (events : List Event) (after' : ParseState τ),
      events.filterMap Event.reading? = [] ∧ after.sink = Sink.receiveAll state.sink events ∧
      after'.sink = Sink.receiveAll other.sink events ∧ after'.tokens = other.tokens ∧
      t.Moves other after' ∧ InStep (k + 1) after after' := by
  obtain ⟨stack, tokens, sink', nested⟩ := other
  obtain ⟨hstack, hnested, hkeys⟩ := hs
  cases h with
  | @enter name below terms tokens' _ nested' hsize hname =>
    obtain rfl : stack = ⟨name, none⟩ :: below := hstack
    obtain rfl : nested = nested' := hnested
    have hlookahead : lookahead tokens = lookahead tokens' := by
      cases hkeys with
      | succ hkey => exact hkey
    rw [← hlookahead] at hname
    exact ⟨[.enter name], ⟨⟨name, some terms⟩ :: below, tokens, _, nested + 1⟩, rfl, rfl, rfl, rfl,
      .enter hsize hname, rfl, rfl, hkeys⟩
  | @push production name terms below _ _ nested' =>
    obtain rfl : stack = ⟨production, some (.production name :: terms)⟩ :: below := hstack
    obtain rfl : nested = nested' := hnested
    exact ⟨[], ⟨⟨name, none⟩ :: ⟨production, some terms⟩ :: below, tokens, _, nested⟩, rfl, rfl, rfl,
      rfl, .push, rfl, rfl, hkeys⟩
  | read => exact absurd htokens (List.cons_ne_self _ _)
  | @exit production below _ _ nested' =>
    obtain rfl : stack = ⟨production, some []⟩ :: below := hstack
    obtain rfl : nested = nested' := hnested
    exact ⟨[.exit production], ⟨below, tokens, _, nested - 1⟩, rfl, rfl, rfl, rfl, .exit, rfl, rfl,
      hkeys⟩

/-- Where one parse reads a token, so does the other, within the same production. -/
theorem Moves.read_inStep (h : t.Moves state after) (htokens : state.tokens = token :: after.tokens)
    (hs : InStep (k + 1) state other) :
    ∃ (production : String) (token' : Token) (after' : ParseState τ),
      other.tokens = token' :: after'.tokens ∧
      after.sink = Sink.receive state.sink (.token production token.kind token.value) ∧
      after'.sink = Sink.receive other.sink (.token production token'.kind token'.value) ∧
      t.Moves other after' ∧ InStep k after after' := by
  obtain ⟨stack, tokens, sink', nested⟩ := other
  obtain ⟨hstack, -, hkeys⟩ := hs
  cases h with
  | @read production terms below token tokens' =>
    obtain rfl := (List.cons.inj htokens).1
    cases hkeys with
    | @succ _ _ token' _ rest' hkey hrest =>
      obtain rfl : stack = ⟨production, some (.terminal token'.key :: terms)⟩ :: below := by
        rw [hkey]
        exact hstack
      exact ⟨production, token', ⟨⟨production, some terms⟩ :: below, rest', _, 0⟩, rfl, rfl, rfl,
        .read, rfl, rfl, hrest⟩
  | enter => exact absurd htokens.symm (List.cons_ne_self _ _)
  | push => exact absurd htokens.symm (List.cons_ne_self _ _)
  | exit => exact absurd htokens.symm (List.cons_ne_self _ _)

theorem refusal_about (t : Table) (name : String) (found found' : Token) :
    t.refusal name (some found') = (t.refusal name (some found)).about found' := by
  unfold refusal
  split <;> rfl

/-- Where one parse stops in front of a token, so does the other, with the same to say. -/
theorem Stops.inStep (h : t.Stops start state outcome sink) (hs : InStep (k + 1) state other)
    (htokens : state.tokens = token :: rest) (hother : other.tokens = token' :: rest') :
    ∃ events : List Event, events.filterMap Event.reading? = [] ∧
      sink = Sink.receiveAll state.sink events ∧ outcome = outcome.about token ∧
      t.Stops start other (outcome.about token') (Sink.receiveAll other.sink events) := by
  obtain ⟨stack, tokens, sink', nested⟩ := other
  obtain ⟨hstack, hnested, hkeys⟩ := hs
  obtain rfl : tokens = token' :: rest' := hother
  have hkey : token'.key = token.key := by
    rw [htokens] at hkeys
    cases hkeys with
    | succ hkey => exact hkey
  cases h with
  | accepted => cases htokens
  | trailing =>
    obtain rfl : stack = [] := hstack
    obtain rfl := (List.cons.inj htokens).1
    exact ⟨[], rfl, rfl, rfl, .trailing⟩
  | @endless name below _ _ nested' hsize =>
    obtain rfl : stack = ⟨name, none⟩ :: below := hstack
    obtain rfl : nested = nested' := hnested
    exact ⟨[], rfl, rfl, rfl, .endless hsize⟩
  | @refused name below tokens _ nested' hsize hname =>
    obtain rfl : stack = ⟨name, none⟩ :: below := hstack
    obtain rfl : nested = nested' := hnested
    obtain rfl : tokens = token :: rest := htokens
    have hname' : t.expansion? name (lookahead (token' :: rest')) = none := by
      rw [lookahead, hkey]
      exact hname
    have hstop : t.Stops start ⟨⟨name, none⟩ :: below, token' :: rest', sink', nested⟩
        (.rejected (t.refusal name (some token'))) (Sink.receive sink' (.enter name)) :=
      .refused hsize hname'
    rw [t.refusal_about name token token'] at hstop
    exact ⟨[.enter name], rfl, rfl, congrArg Outcome.rejected (t.refusal_about name token token),
      hstop⟩
  | @mismatch production key terms below tokens _ _ hne =>
    obtain rfl : stack = ⟨production, some (.terminal key :: terms)⟩ :: below := hstack
    obtain rfl : tokens = token :: rest := htokens
    have hne' : ∀ found ∈ (token' :: rest').head?, found.key ≠ key := by
      intro found hfound
      obtain rfl := Option.some.inj hfound
      rw [hkey]
      exact hne token rfl
    exact ⟨[], rfl, rfl, rfl, .mismatch hne'⟩

/-- Where nothing is said of the keys, two runs compare as they like. -/
theorem Runs.alike_zero (h : t.Runs start state read outcome sink) (other : ParseState τ) :
    ∃ events events', sink = Sink.receiveAll state.sink events ∧
      (t.run start other).2 = Sink.receiveAll other.sink events' ∧
      Alike 0 state.tokens other.tokens outcome (t.run start other).1 events events' := by
  obtain ⟨events, hsink, -⟩ := h.readings
  obtain ⟨events', hother⟩ := run_receives t start other
  exact ⟨events, events', hsink, congrArg Prod.snd (hother other.sink), .zero _ _ _ _ _ _⟩

/-- Two runs in step deliver events of the same shapes as long as the keys are the same. -/
theorem Runs.alike (h : t.Runs start state read outcome sink) (hs : InStep k state other) :
    ∃ events events', sink = Sink.receiveAll state.sink events ∧
      (t.run start other).2 = Sink.receiveAll other.sink events' ∧
      Alike k state.tokens other.tokens outcome (t.run start other).1 events events' := by
  induction h generalizing k other with
  | @stop state outcome sink hstop =>
    cases k with
    | zero => exact (Runs.stop hstop).alike_zero other
    | succ k =>
      have hkeys := hs.keys
      generalize htokens : state.tokens = tokens at hkeys
      generalize hother : other.tokens = tokens' at hkeys
      cases hkeys with
      | succ _ _ =>
        obtain ⟨events, hsilent, hsink, habout, hstop'⟩ := hstop.inStep hs htokens hother
        have hrun := run_of_stops hstop'
        refine ⟨events, events, hsink, congrArg Prod.snd hrun, ?_⟩
        rw [hrun]
        exact .stop hsilent habout
  | @keep state after read outcome sink hmove htokens hafter ih =>
    cases k with
    | zero => exact (Runs.keep hmove htokens hafter).alike_zero other
    | succ k =>
      obtain ⟨silent, after', hsilent, hsink, hsink', htokens', hmove', hs'⟩ :=
        hmove.keep_inStep htokens hs
      obtain ⟨events, events', hevents, hevents', halike⟩ := ih hs'
      rw [hsink, ← Sink.receiveAll_append] at hevents
      rw [hsink', ← Sink.receiveAll_append] at hevents'
      rw [← htokens, htokens'] at halike
      rw [run_of_moves hmove']
      exact ⟨_, _, hevents, hevents', halike.silent_append hsilent⟩
  | @read state after token read outcome sink hmove htokens hafter ih =>
    cases k with
    | zero => exact (Runs.read hmove htokens hafter).alike_zero other
    | succ k =>
      obtain ⟨production, token', after', htokens', hsink, hsink', hmove', hs'⟩ :=
        hmove.read_inStep htokens hs
      obtain ⟨events, events', hevents, hevents', halike⟩ := ih hs'
      rw [hsink, ← Sink.receiveAll_cons] at hevents
      rw [hsink', ← Sink.receiveAll_cons] at hevents'
      rw [run_of_moves hmove', htokens, htokens']
      exact ⟨_, _, hevents, hevents', halike.token_cons production token token'⟩

end

theorem alike_of_keys {t : Table} {start : String} {m : Nat} {tokens other : List Token}
    (hlength : m ≤ tokens.length) (hlength' : m ≤ other.length)
    (hkeys : (tokens.take m).map Token.key = (other.take m).map Token.key)
    {outcome outcome' : Outcome} {events events' : List Event}
    (h : t.drive start tokens ({} : Collector) = (outcome, ⟨events.toArray⟩))
    (h' : t.drive start other ({} : Collector) = (outcome', ⟨events'.toArray⟩)) :
    Alike m tokens other outcome outcome' events events' := by
  cases m with
  | zero => exact .zero _ _ _ _ _ _
  | succ m =>
    have hne : tokens ≠ [] := List.ne_nil_of_length_pos (Nat.zero_lt_of_lt hlength)
    have hne' : other ≠ [] := List.ne_nil_of_length_pos (Nat.zero_lt_of_lt hlength')
    rw [drive_of_ne_nil t start hne, Collector.mk_eq_receiveAll events] at h
    rw [drive_of_ne_nil t start hne', Collector.mk_eq_receiveAll events'] at h'
    obtain ⟨read, hruns⟩ := runs_run t start ⟨[⟨start, none⟩], tokens, ({} : Collector), 0⟩
    rw [h] at hruns
    have hs : InStep (m + 1) (⟨[⟨start, none⟩], tokens, {}, 0⟩ : ParseState Collector)
        (⟨[⟨start, none⟩], other, {}, 0⟩ : ParseState Collector) :=
      ⟨rfl, rfl, sameKeys_of_take hlength hlength' hkeys⟩
    obtain ⟨all, all', hall, hall', halike⟩ := hruns.alike hs
    rw [h'] at hall' halike
    obtain rfl := Collector.receiveAll_inj hall
    obtain rfl := Collector.receiveAll_inj hall'
    exact halike

theorem Explains.found {t : Table} {start : String} {tokens : List Token} {n : Nat}
    {opened : List String} {e : ParseError} (h : t.Explains start tokens n opened e)
    {found : Token} (hfound : e.found = some found) : tokens[n]? = some found := by
  cases e with
  | noExpansion => cases hfound
  | unexpectedToken => exact h.2.1.symm.trans hfound
  | expectedTerm => exact h.2.1.symm.trans hfound
  | trailingInput => exact h.2.2.trans hfound

/-- A parse looks one token ahead and at nothing but its key. Where the first tokens of two lists
have the same keys, the parses deliver the same events up to the last of these tokens, the tokens
themselves apart, and one that ends before it has read them all ends the same way in both. What an
error has found is the token after those that were read. -/
theorem drive_alike {t : Table} {start : String} {m : Nat} {tokens other : List Token}
    (hlength : m ≤ tokens.length) (hlength' : m ≤ other.length)
    (hkeys : (tokens.take m).map Token.key = (other.take m).map Token.key)
    {outcome outcome' : Outcome} {events events' : List Event}
    (h : t.drive start tokens ({} : Collector) = (outcome, ⟨events.toArray⟩))
    (h' : t.drive start other ({} : Collector) = (outcome', ⟨events'.toArray⟩)) :
    Alike m tokens other outcome outcome' events events' ∧
      ∀ e found, outcome = .rejected e → e.found = some found →
        tokens[tokenCount events]? = some found := by
  refine ⟨?_, ?_⟩
  · exact alike_of_keys hlength hlength' hkeys h h'
  · intro e found hrejected hfound
    rw [hrejected, Collector.mk_eq_receiveAll events] at h
    obtain ⟨-, -, opened, -, hexplains⟩ := drive_explains h
    exact hexplains.found hfound

/-- The tokens of `( ?b 2.5 )`. -/
def decimalInList : List Token :=
  [⟨.delimiter, .text "(", {}⟩, ⟨.variableName, .text "b", {}⟩,
    ⟨.numericLiteral, .decimal ⟨25, 1⟩, {}⟩, ⟨.delimiter, .text ")", {}⟩]

/-- A number is refused in a list of variables whatever its value. -/
theorem numberInList_alike :
    let e (value : Value) : ParseError :=
      .unexpectedToken "Items" (some ⟨.numericLiteral, value, {}⟩) [")", "Variable"]
    let events (name : String) : List Event := [.enter "List", .token "List" .delimiter (.text "("),
      .enter "Items", .token "Items" .variableName (.text name), .enter "Items"]
    (numberInList.take 3).map Token.key = (decimalInList.take 3).map Token.key ∧
      variableListTable.drive "List" numberInList ({} : Collector) =
        (.rejected (e (.integer 1)), ⟨(events "a").toArray⟩) ∧
      variableListTable.drive "List" decimalInList ({} : Collector) =
        (.rejected (e (.decimal ⟨25, 1⟩)), ⟨(events "b").toArray⟩) ∧
      Alike 3 numberInList decimalInList (.rejected (e (.integer 1)))
        (.rejected (e (.decimal ⟨25, 1⟩))) (events "a") (events "b") ∧
      ∀ e' found, Outcome.rejected (e (.integer 1)) = .rejected e' → e'.found = some found →
        numberInList[tokenCount (events "a")]? = some found := by
  intro e events
  have hkeys : (numberInList.take 3).map Token.key = (decimalInList.take 3).map Token.key := rfl
  have hresults : ((variableListTable.drive "List" numberInList ({} : Collector)).1 =
        .rejected (e (.integer 1)) ∧
      (variableListTable.drive "List" numberInList ({} : Collector)).2.events =
        (events "a").toArray) ∧
      (variableListTable.drive "List" decimalInList ({} : Collector)).1 =
        .rejected (e (.decimal ⟨25, 1⟩)) ∧
      (variableListTable.drive "List" decimalInList ({} : Collector)).2.events =
        (events "b").toArray := by
    decide +kernel
  have hnumber : variableListTable.drive "List" numberInList ({} : Collector) =
      (.rejected (e (.integer 1)), ⟨(events "a").toArray⟩) :=
    Prod.ext hresults.1.1 (congrArg Collector.mk hresults.1.2)
  have hdecimal : variableListTable.drive "List" decimalInList ({} : Collector) =
      (.rejected (e (.decimal ⟨25, 1⟩)), ⟨(events "b").toArray⟩) :=
    Prod.ext hresults.2.1 (congrArg Collector.mk hresults.2.2)
  exact ⟨hkeys, hnumber, hdecimal, drive_alike (by decide) (by decide) hkeys hnumber hdecimal⟩

end Table

end SparqlQuery
