import SparqlQuery.Proofs.DriverDerivation
import SparqlQuery.Proofs.DriverReads

namespace SparqlQuery

namespace Dictionary

variable {α : Type}

theorem mem_keys_iff {d : Dictionary α} {key : String} :
    key ∈ d.keys ↔ (d.get? key).isSome = true := by
  constructor
  · intro h
    obtain ⟨entry, hentry, rfl⟩ := List.mem_map.mp h
    cases hget : d.get? entry.1 with
    | some item => rfl
    | none =>
      have hnone := List.lookup_eq_none_iff.mp hget entry hentry
      simp at hnone
  · intro h
    obtain ⟨item, hitem⟩ := Option.isSome_iff_exists.mp h
    obtain ⟨before, after, heq, _⟩ := List.lookup_eq_some_iff.mp hitem
    simp [keys, heq]

theorem sorted_keys (d : Dictionary α) : d.keys.Pairwise (· < ·) :=
  List.pairwise_map.mpr d.sorted

end Dictionary

/-- The productions open after an event, innermost first. A token belongs to the innermost one,
and no other can be left. -/
def Event.nest (opened : List String) : Event → Option (List String)
  | .enter production => some (production :: opened)
  | .token production _ _ => if opened.head? = some production then some opened else none
  | .exit production => if opened.head? = some production then some opened.tail else none

def openAfter (opened : List String) (events : List Event) : Option (List String) :=
  events.foldlM Event.nest opened

/-- Every production that is entered is left, the innermost first. -/
def WellNested (events : List Event) : Prop :=
  openAfter [] events = some []

def tokenCount (events : List Event) : Nat :=
  (events.filterMap Event.reading?).length

@[simp] theorem openAfter_nil (opened : List String) : openAfter opened [] = some opened :=
  rfl

@[simp] theorem openAfter_cons (opened : List String) (event : Event) (events : List Event) :
    openAfter opened (event :: events) = (event.nest opened).bind (openAfter · events) :=
  rfl

theorem openAfter_append {opened middle : List String} {events more : List Event}
    (h : openAfter opened events = some middle) :
    openAfter opened (events ++ more) = openAfter middle more := by
  unfold openAfter at h ⊢
  rw [List.foldlM_append, h]
  rfl

/-- What is open can be left, so every sequence that nests is the beginning of a closed one. -/
theorem openAfter_exits (opened : List String) :
    openAfter opened (opened.map Event.exit) = some [] := by
  induction opened with
  | nil => rfl
  | cons production opened ih => simpa [Event.nest] using ih

def Frame.opened? (frame : Frame) : Option String :=
  frame.pending.map fun _ => frame.production

def openedNames (stack : List Frame) : List String :=
  stack.filterMap Frame.opened?

theorem Collector.receiveAll_inj {sink : Collector} {events other : List Event}
    (h : Sink.receiveAll sink events = Sink.receiveAll sink other) : events = other := by
  have hevents := congrArg Collector.events h
  rw [Collector.receiveAll_events, Collector.receiveAll_events] at hevents
  exact List.toArray_inj (Array.append_right_inj _ |>.mp hevents)

namespace Table

theorem sorted_alternatives (t : Table) (production : String) :
    (t.alternatives production).Pairwise (· < ·) := by
  unfold alternatives
  split
  next branches _ => exact branches.sorted_keys
  next => exact .nil

theorem mem_alternatives_iff {t : Table} {production key : String} :
    key ∈ t.alternatives production ↔ (t.expansion? production key).isSome = true := by
  unfold alternatives expansion?
  cases t.branches? production with
  | none => simp
  | some branches => exact Dictionary.mem_keys_iff

section

variable {σ : Type} [Sink σ] {t : Table} {start : String} {state after : ParseState σ}
  {read : List Token} {outcome : Outcome} {sink : σ}

theorem Moves.nests (h : t.Moves state after) : ∃ events,
    after.sink = Sink.receiveAll state.sink events ∧
      openAfter (openedNames state.stack) events = some (openedNames after.stack) := by
  cases h with
  | @enter name => exact ⟨[.enter name], rfl, rfl⟩
  | push => exact ⟨[], rfl, rfl⟩
  | @read production _ _ token =>
    refine ⟨[.token production token.kind token.value], rfl, ?_⟩
    simp [openedNames, Frame.opened?, Event.nest]
  | @exit production =>
    refine ⟨[.exit production], rfl, ?_⟩
    simp [openedNames, Frame.opened?, Event.nest]

/-- A run up to its last state: the events so far leave open what is open there. -/
theorem Runs.last (h : t.Runs start state read outcome sink) : ∃ final events,
    t.Stops start final outcome sink ∧ state.tokens = read ++ final.tokens ∧
      final.sink = Sink.receiveAll state.sink events ∧
      openAfter (openedNames state.stack) events = some (openedNames final.stack) := by
  induction h with
  | @stop state _ _ hs => exact ⟨state, [], hs, rfl, rfl, rfl⟩
  | keep hm htokens _ ih =>
    obtain ⟨final, events, hs, hrest, hsink, hopen⟩ := ih
    obtain ⟨first, hfirst, hnest⟩ := hm.nests
    refine ⟨final, first ++ events, hs, htokens.trans hrest, ?_, ?_⟩
    · rw [hsink, hfirst, Sink.receiveAll_append]
    · rw [openAfter_append hnest, hopen]
  | @read _ _ token _ _ _ hm htokens _ ih =>
    obtain ⟨final, events, hs, hrest, hsink, hopen⟩ := ih
    obtain ⟨first, hfirst, hnest⟩ := hm.nests
    refine ⟨final, first ++ events, hs, htokens.trans (congrArg (token :: ·) hrest), ?_, ?_⟩
    · rw [hsink, hfirst, Sink.receiveAll_append]
    · rw [openAfter_append hnest, hopen]

/-- A run does the same whatever the sink, which only receives its events. -/
theorem run_receives (t : Table) (start : String) (state : ParseState σ) : ∃ events,
    ∀ {τ : Type} [Sink τ] (sink : τ),
      t.run start ⟨state.stack, state.tokens, sink, state.nested⟩ =
        ((t.run start state).1, Sink.receiveAll sink events) := by
  refine run_induction (motive := fun state result => ∃ events, ∀ {τ : Type} [Sink τ] (sink : τ),
    t.run start ⟨state.stack, state.tokens, sink, state.nested⟩ =
      (result.1, Sink.receiveAll sink events)) ?_ ?_ state
  · intro state outcome sink hs
    cases hs with
    | accepted => exact ⟨[], fun _ => run_of_stops .accepted⟩
    | trailing => exact ⟨[], fun _ => run_of_stops .trailing⟩
    | endless hsize => exact ⟨[], fun _ => run_of_stops (.endless hsize)⟩
    | @refused name _ _ _ _ hsize hname =>
      exact ⟨[.enter name], fun _ => run_of_stops (.refused hsize hname)⟩
    | mismatch hkey => exact ⟨[], fun _ => run_of_stops (.mismatch hkey)⟩
  · rintro state after result hm ⟨events, hafter⟩
    cases hm with
    | @enter name _ _ _ _ _ hsize hname =>
      exact ⟨.enter name :: events, fun sink =>
        (run_of_moves (.enter hsize hname)).trans (hafter _)⟩
    | push => exact ⟨events, fun sink => (run_of_moves .push).trans (hafter _)⟩
    | @read production _ _ token =>
      exact ⟨.token production token.kind token.value :: events, fun sink =>
        (run_of_moves .read).trans (hafter _)⟩
    | @exit production =>
      exact ⟨.exit production :: events, fun sink => (run_of_moves .exit).trans (hafter _)⟩

theorem drive_receives (t : Table) (start : String) (tokens : List Token) (sink : σ) :
    ∃ events, ∀ {τ : Type} [Sink τ] (other : τ),
      t.drive start tokens other =
        ((t.drive start tokens sink).1, Sink.receiveAll other events) := by
  by_cases hne : tokens = []
  · subst hne
    exact ⟨[.enter start], fun _ => rfl⟩
  · obtain ⟨events, hrun⟩ := run_receives t start ⟨[⟨start, none⟩], tokens, sink, 0⟩
    refine ⟨events, fun other => ?_⟩
    rw [drive_of_ne_nil t start hne, drive_of_ne_nil t start hne]
    exact hrun other

end

/-- How an error is explained by the tokens, the number of them that were read and the
productions then open, innermost first. -/
def Explains (t : Table) (start : String) (tokens : List Token) (n : Nat) (opened : List String) :
    ParseError → Prop
  | .noExpansion production => opened.head? = some production
  | .unexpectedToken production found expected =>
    opened.head? = some production ∧ found = tokens[n]? ∧ expected.Pairwise (· < ·) ∧
      (∀ key, key ∈ expected ↔ (t.expansion? production key).isSome = true) ∧
      (tokens ≠ [] → lookahead (tokens.drop n) ∉ expected)
  | .expectedTerm production expected found =>
    opened.head? = some production ∧ found = tokens[n]? ∧ ∀ token ∈ found, token.key ≠ expected
  | .trailingInput production found =>
    opened = [] ∧ production = start ∧ tokens[n]? = some found

/-- What a parse that fails with an error has delivered. -/
structure FailsAfter (t : Table) (start : String) (tokens : List Token) (e : ParseError)
    (events : List Event) : Prop where
  received : ∀ {σ : Type} [Sink σ] (sink : σ),
    t.drive start tokens sink = (.rejected e, Sink.receiveAll sink events)
  count_le : tokenCount events ≤ tokens.length
  readings : events.filterMap Event.reading? =
    (tokens.take (tokenCount events)).map Token.reading
  nested : ∃ more, WellNested (events ++ more)
  explained : ∃ opened, openAfter [] events = some opened ∧
    t.Explains start tokens (tokenCount events) opened e

theorem explains_refusal {t : Table} {start name : String} {tokens : List Token} {n : Nat}
    {opened : List String} (hopened : opened.head? = some name)
    (hname : tokens ≠ [] → t.expansion? name (lookahead (tokens.drop n)) = none) :
    t.Explains start tokens n opened (t.refusal name tokens[n]?) := by
  unfold refusal
  split
  next =>
    refine ⟨hopened, rfl, t.sorted_alternatives name, fun _ => mem_alternatives_iff, ?_⟩
    intro hne hmem
    have hsome := mem_alternatives_iff.mp hmem
    rw [hname hne] at hsome
    cases hsome
  next => exact hopened

/-- The last step of a failing run explains the error. -/
theorem Stops.explains {t : Table} {start : String} {tokens : List Token}
    {state : ParseState Collector} {e : ParseError} {sink : Collector}
    (h : t.Stops start state (.rejected e) sink) {n : Nat}
    (htokens : state.tokens = tokens.drop n) :
    ∃ events opened, sink = Sink.receiveAll state.sink events ∧
      openAfter (openedNames state.stack) events = some opened ∧
      t.Explains start tokens n opened e := by
  have hhead : state.tokens.head? = tokens[n]? := by rw [htokens, List.head?_drop]
  cases h with
  | trailing => exact ⟨[], [], rfl, rfl, rfl, rfl, hhead.symm⟩
  | @refused name below rest _ _ _ hname =>
    refine ⟨[.enter name], name :: openedNames below, rfl, rfl, ?_⟩
    obtain rfl : rest = tokens.drop n := htokens
    rw [hhead]
    exact explains_refusal rfl fun _ => hname
  | @mismatch production key terms below rest _ _ hkey =>
    refine ⟨[], production :: openedNames below, rfl, rfl, rfl, hhead, hkey⟩

/-- A failing run of the collector, with what it read and where it stopped. -/
theorem Runs.failsAfter {t : Table} {start : String} {tokens read : List Token} {e : ParseError}
    {events : List Event}
    (h : t.Runs start ⟨[⟨start, none⟩], tokens, ({} : Collector), 0⟩ read (.rejected e)
      (Sink.receiveAll {} events)) :
    events.filterMap Event.reading? = read.map Token.reading ∧ read <+: tokens ∧
      ∃ opened, openAfter [] events = some opened ∧
        t.Explains start tokens read.length opened e := by
  obtain ⟨all, hall, hreadings⟩ := h.readings
  obtain rfl := Collector.receiveAll_inj hall
  obtain ⟨final, before, hs, htokens, hsink, hbefore⟩ := h.last
  have hrest : final.tokens = tokens.drop read.length := by
    have htokens : tokens = read ++ final.tokens := htokens
    rw [htokens, List.drop_left]
  obtain ⟨last, opened, hlast, hopened, hexplains⟩ := hs.explains hrest
  rw [hsink, ← Sink.receiveAll_append] at hlast
  obtain rfl := Collector.receiveAll_inj hlast
  refine ⟨hreadings, ⟨final.tokens, htokens.symm⟩, opened, ?_, hexplains⟩
  exact (openAfter_append hbefore).trans hopened

/-- What the driver read before it failed and how the error is explained by it. -/
theorem drive_explains {t : Table} {start : String} {tokens : List Token} {e : ParseError}
    {events : List Event}
    (h : t.drive start tokens ({} : Collector) = (.rejected e, Sink.receiveAll {} events)) :
    events.filterMap Event.reading? = (tokens.take (tokenCount events)).map Token.reading ∧
      tokenCount events ≤ tokens.length ∧ ∃ opened, openAfter [] events = some opened ∧
        t.Explains start tokens (tokenCount events) opened e := by
  by_cases hne : tokens = []
  · subst hne
    have hempty : t.drive start [] ({} : Collector) =
        (.rejected (t.refusal start none), Sink.receiveAll {} [.enter start]) := rfl
    rw [hempty] at h
    obtain rfl := Collector.receiveAll_inj (congrArg Prod.snd h)
    obtain rfl := Outcome.rejected.inj (congrArg Prod.fst h)
    exact ⟨rfl, Nat.le_refl 0, [start], rfl, explains_refusal rfl fun hne => absurd rfl hne⟩
  · obtain ⟨read, hruns⟩ := runs_run t start ⟨[⟨start, none⟩], tokens, ({} : Collector), 0⟩
    rw [← drive_of_ne_nil t start hne, h] at hruns
    obtain ⟨hreadings, hread, hopened⟩ := hruns.failsAfter
    have hcount : tokenCount events = read.length := by
      rw [tokenCount, hreadings, List.length_map]
    rw [hcount]
    exact ⟨hreadings.trans (congrArg _ (List.prefix_iff_eq_take.mp hread)), hread.length_le,
      hopened⟩

/-- Up to a failure the driver has delivered the tokens that it read, in the productions open at
each, and the error names the innermost production left open and the token that comes next. -/
theorem drive_failsAfter {t : Table} {start : String} {tokens : List Token} {e : ParseError}
    {events : List Event}
    (h : t.drive start tokens ({} : Collector) = (.rejected e, ⟨events.toArray⟩)) :
    t.FailsAfter start tokens e events := by
  have hevents : (⟨events.toArray⟩ : Collector) = Sink.receiveAll {} events := by
    have hall := Collector.receiveAll_events {} events
    rw [Array.empty_append] at hall
    exact (congrArg Collector.mk hall).symm
  rw [hevents] at h
  obtain ⟨all, hall⟩ := drive_receives t start tokens ({} : Collector)
  have hsame := (hall ({} : Collector)).symm.trans h
  obtain rfl := Collector.receiveAll_inj (congrArg Prod.snd hsame)
  have hreceived : ∀ {σ : Type} [Sink σ] (sink : σ),
      t.drive start tokens sink = (.rejected e, Sink.receiveAll sink all) := by
    intro σ _ sink
    rw [hall sink, h]
  obtain ⟨hreadings, hcount, opened, hopened, hexplains⟩ := drive_explains h
  refine ⟨hreceived, hcount, hreadings, ⟨opened.map Event.exit, ?_⟩, opened, hopened, hexplains⟩
  rw [WellNested, openAfter_append hopened, openAfter_exits]

/-- The tokens of `( ?a 1`. -/
def numberInList : List Token :=
  [⟨.delimiter, .text "(", {}⟩, ⟨.variableName, .text "a", {}⟩, ⟨.numericLiteral, .integer 1, {}⟩]

theorem numberInList_fails :
    let e : ParseError := .unexpectedToken "Items" (some ⟨.numericLiteral, .integer 1, {}⟩)
      [")", "Variable"]
    let events : List Event := [.enter "List", .token "List" .delimiter (.text "("),
      .enter "Items", .token "Items" .variableName (.text "a"), .enter "Items"]
    variableListTable.drive "List" numberInList ({} : Collector) =
        (.rejected e, ⟨events.toArray⟩) ∧
      variableListTable.FailsAfter "List" numberInList e events := by
  intro e events
  have hresult : (variableListTable.drive "List" numberInList ({} : Collector)).1 = .rejected e ∧
      (variableListTable.drive "List" numberInList ({} : Collector)).2.events =
        events.toArray := by
    decide +kernel
  have hdrive : variableListTable.drive "List" numberInList ({} : Collector) =
      (.rejected e, ⟨events.toArray⟩) :=
    Prod.ext hresult.1 (congrArg Collector.mk hresult.2)
  exact ⟨hdrive, drive_failsAfter hdrive⟩

end Table

end SparqlQuery
