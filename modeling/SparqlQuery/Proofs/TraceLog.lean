import SparqlQuery.Parsing
import SparqlQuery.Proofs.FailureState

namespace SparqlQuery

/-- What happens between the enter of a production and the exit that matches it: tokens of its own,
and other productions from enter to exit. -/
inductive Inside : String → List Event → Prop
  | nil (production : String) : Inside production []
  | token {production : String} {body : List Event} (h : Inside production body) (kind : Kind)
      (value : Value) : Inside production (body ++ [.token production kind value])
  | nest {production name : String} {body inner : List Event} (h : Inside production body)
      (hinner : Inside name inner) :
      Inside production (body ++ .enter name :: (inner ++ [.exit name]))

/-- A log that shows events line by line, each behind two spaces for every production that is open
at that moment. An exit stands as far to the right as the enter that it matches. -/
structure Mirrors (events : List Event) (log : List LogRecord) : Prop where
  length_eq : log.length = events.length
  enter : ∀ before production after, events = before ++ .enter production :: after →
    ∃ opened, openAfter [] before = some opened ∧
      log[before.length]? = some
        { level := .debug
          message := String.ofList (List.replicate (2 * opened.length) ' ') ++
            ("enter " ++ production)
          fields := []
          target := some "fluree_sparql_ll::trace" }
  token : ∀ before production kind value after,
    events = before ++ .token production kind value :: after →
      ∃ opened, openAfter [] before = some opened ∧
        log[before.length]? = some
          { level := .debug
            message := String.ofList (List.replicate (2 * opened.length) ' ') ++
              ("token " ++ kind.name ++ " '" ++ kind.render value ++ "'")
            fields := []
            target := some "fluree_sparql_ll::trace" }
  exit : ∀ before production after, events = before ++ .exit production :: after →
    ∃ outer body opened, before = outer ++ .enter production :: body ∧ Inside production body ∧
      openAfter [] outer = some opened ∧
      log[before.length]? = some
        { level := .debug
          message := String.ofList (List.replicate (2 * opened.length) ' ') ++
            ("exit " ++ production)
          fields := []
          target := some "fluree_sparql_ll::trace" }

section

variable {opened after outer : List String} {production : String} {before : List Event}

theorem nest_token_iff {kind : Kind} {value : Value} :
    (Event.token production kind value).nest opened = some after ↔
      opened.head? = some production ∧ opened = after := by
  simp [Event.nest]

theorem nest_exit_iff :
    (Event.exit production).nest opened = some after ↔ opened = production :: after := by
  cases opened with
  | nil => simp [Event.nest]
  | cons name opened => simp [Event.nest, eq_comm]

theorem openAfter_append_eq_some_iff {front back : List Event} :
    openAfter opened (front ++ back) = some after ↔
      ∃ middle, openAfter opened front = some middle ∧ openAfter middle back = some after := by
  unfold openAfter
  rw [List.foldlM_append]
  exact Option.bind_eq_some_iff

/-- The innermost production that is open was entered at some point and not left since. -/
theorem exists_enter (h : openAfter [] before = some (production :: outer)) :
    ∃ earlier body, before = earlier ++ .enter production :: body ∧ Inside production body ∧
      openAfter [] earlier = some outer := by
  induction hlength : before.length using Nat.strongRecOn generalizing before production outer with
  | ind n ih =>
    subst hlength
    rcases List.eq_nil_or_concat' before with rfl | ⟨front, event, rfl⟩
    · cases h
    · have hfront : front.length < (front ++ [event]).length := by simp
      obtain ⟨middle, hmiddle, hlast⟩ := openAfter_append_eq_some_iff.mp h
      obtain ⟨_, hnest, ⟨⟩⟩ := Option.bind_eq_some_iff.mp hlast
      cases event with
      | enter name =>
        cases hnest
        exact ⟨front, [], rfl, .nil production, hmiddle⟩
      | token name kind value =>
        obtain ⟨hname, rfl⟩ := nest_token_iff.mp hnest
        obtain rfl := Option.some.inj hname
        obtain ⟨earlier, body, rfl, hbody, hearlier⟩ := ih _ hfront hmiddle rfl
        exact ⟨earlier, body ++ [.token _ kind value], by simp, hbody.token kind value, hearlier⟩
      | exit name =>
        obtain rfl := nest_exit_iff.mp hnest
        obtain ⟨earlier, inner, rfl, hinner, hearlier⟩ := ih _ hfront hmiddle rfl
        have hshorter : earlier.length <
            (earlier ++ Event.enter name :: inner ++ [Event.exit name]).length := by
          simp only [List.length_append, List.length_cons]
          omega
        obtain ⟨earlier, body, rfl, hbody, hopened⟩ := ih _ hshorter hearlier rfl
        exact ⟨earlier, body ++ .enter name :: (inner ++ [.exit name]), by simp,
          hbody.nest hinner, hopened⟩

end

/-- The lines that a trace adds to its log. -/
def logLines (depth : Nat) : List Event → List LogRecord
  | [] => []
  | event :: events =>
    event.record (event.depths depth).1 :: logLines (event.depths depth).2 events

section

variable {opened after : List String} {events : List Event}

/-- The depth that is counted is the number of open productions. -/
theorem Event.depths_of_nest {event : Event} (h : event.nest opened = some after) :
    (event.depths opened.length).2 = after.length := by
  cases event with
  | enter production =>
    cases h
    rfl
  | token production kind value =>
    obtain ⟨-, rfl⟩ := nest_token_iff.mp h
    rfl
  | exit production =>
    obtain rfl := nest_exit_iff.mp h
    rfl

theorem length_logLines (depth : Nat) (events : List Event) :
    (logLines depth events).length = events.length := by
  induction events generalizing depth with
  | nil => rfl
  | cons event events ih => rw [logLines, List.length_cons, List.length_cons, ih]

/-- The line of an event shows the depth that the events before it have led to. -/
theorem getElem?_logLines {before : List Event} (h : openAfter opened before = some after)
    (event : Event) (events : List Event) :
    (logLines opened.length (before ++ event :: events))[before.length]? =
      some (event.record (event.depths after.length).1) := by
  induction before generalizing opened with
  | nil =>
    cases h
    rfl
  | cons first before ih =>
    obtain ⟨middle, hmiddle, hafter⟩ := Option.bind_eq_some_iff.mp h
    rw [List.cons_append, logLines, List.length_cons, List.getElem?_cons_succ,
      first.depths_of_nest hmiddle]
    exact ih hafter

theorem mirrors_logLines (h : openAfter [] events = some opened) :
    Mirrors events (logLines 0 events) := by
  have hline (before : List Event) (event : Event) (after : List Event)
      (hevents : events = before ++ event :: after) : ∃ middle rest,
      openAfter [] before = some middle ∧ event.nest middle = some rest ∧
        (logLines 0 events)[before.length]? =
          some (event.record (event.depths middle.length).1) := by
    subst hevents
    obtain ⟨middle, hmiddle, hafter⟩ := openAfter_append_eq_some_iff.mp h
    obtain ⟨rest, hrest, -⟩ := Option.bind_eq_some_iff.mp hafter
    exact ⟨middle, rest, hmiddle, hrest, getElem?_logLines hmiddle event after⟩
  refine ⟨length_logLines 0 events, ?_, ?_, ?_⟩
  · intro before production after hevents
    obtain ⟨middle, -, hmiddle, -, hlog⟩ := hline before _ after hevents
    exact ⟨middle, hmiddle, hlog⟩
  · intro before production kind value after hevents
    obtain ⟨middle, -, hmiddle, -, hlog⟩ := hline before _ after hevents
    exact ⟨middle, hmiddle, hlog⟩
  · intro before production after hevents
    obtain ⟨middle, rest, hmiddle, hrest, hlog⟩ := hline before _ after hevents
    obtain rfl := nest_exit_iff.mp hrest
    obtain ⟨outer, body, hbefore, hbody, houter⟩ := exists_enter hmiddle
    exact ⟨outer, body, rest, hbefore, hbody, houter, hlog⟩

end

namespace Traced

variable {σ : Type} [Sink σ]

theorem receiveAll_eq (sink : Traced σ) (events : List Event) :
    (Sink.receiveAll sink events).inner = Sink.receiveAll sink.inner events ∧
      (Sink.receiveAll sink events).log.toList = sink.log.toList ++ logLines sink.depth events := by
  induction events generalizing sink with
  | nil => simp [logLines]
  | cons event events ih =>
    obtain ⟨hinner, hlog⟩ := ih (Sink.receive sink event)
    rw [Sink.receiveAll_cons, hinner, hlog]
    refine ⟨rfl, ?_⟩
    simp [Sink.receive, logLines]

theorem receiveAll_depth {sink : Traced σ} {opened after : List String} {events : List Event}
    (hdepth : sink.depth = opened.length) (h : openAfter opened events = some after) :
    (Sink.receiveAll sink events).depth = after.length := by
  induction events generalizing sink opened with
  | nil =>
    cases h
    exact hdepth
  | cons event events ih =>
    obtain ⟨middle, hmiddle, hafter⟩ := Option.bind_eq_some_iff.mp h
    refine ih ?_ hafter
    rw [← event.depths_of_nest hmiddle, ← hdepth]
    rfl

/-- Where an exit arrives, its production is open and has been counted. -/
theorem depth_ne_zero (sink : σ) {events : List Event} {opened : List String}
    (h : openAfter [] events = some opened) (before : List Event) (production : String)
    (after : List Event) (hevents : events = before ++ .exit production :: after) :
    (Sink.receiveAll (⟨sink, 0, #[]⟩ : Traced σ) before).depth ≠ 0 := by
  subst hevents
  obtain ⟨middle, hmiddle, hafter⟩ := openAfter_append_eq_some_iff.mp h
  obtain ⟨rest, hrest, -⟩ := Option.bind_eq_some_iff.mp hafter
  rw [receiveAll_depth rfl hmiddle, nest_exit_iff.mp hrest]
  exact Nat.succ_ne_zero rest.length

end Traced

namespace Table

variable {σ : Type} [Sink σ]

/-- However a run ends, its events are in their productions. -/
theorem run_nests (t : Table) (start : String) (state : ParseState σ) : ∃ events opened,
    (t.run start state).2 = Sink.receiveAll state.sink events ∧
      openAfter (openedNames state.stack) events = some opened := by
  refine run_induction (motive := fun state result => ∃ events opened,
    result.2 = Sink.receiveAll state.sink events ∧
      openAfter (openedNames state.stack) events = some opened) ?_ ?_ state
  · intro state outcome sink hs
    cases hs with
    | @refused name => exact ⟨[.enter name], _, rfl, rfl⟩
    | _ => exact ⟨[], _, rfl, rfl⟩
  · rintro state after result hm ⟨events, opened, hsink, hopened⟩
    obtain ⟨first, hfirst, hnest⟩ := hm.nests
    refine ⟨first ++ events, opened, ?_, ?_⟩
    · rw [hsink, hfirst, Sink.receiveAll_append]
    · rw [openAfter_append hnest, hopened]

theorem drive_nests (t : Table) (start : String) (tokens : List Token) (sink : σ) :
    ∃ events opened, (t.drive start tokens sink).2 = Sink.receiveAll sink events ∧
      openAfter [] events = some opened := by
  by_cases hne : tokens = []
  · subst hne
    exact ⟨[.enter start], [start], rfl, rfl⟩
  · rw [drive_of_ne_nil t start hne]
    exact run_nests t start ⟨[⟨start, none⟩], tokens, sink, 0⟩

theorem drive_eq_receiveAll (t : Table) (start : String) (tokens : List Token) (sink : σ) :
    t.drive start tokens sink = ((t.drive start tokens ({} : Collector)).1,
      Sink.receiveAll sink (t.drive start tokens ({} : Collector)).2.events.toList) := by
  obtain ⟨events, hevents⟩ := drive_receives t start tokens ({} : Collector)
  have hcollected := congrArg Prod.snd (hevents ({} : Collector))
  rw [hevents sink, hcollected, ← Collector.mk_eq_receiveAll, List.toList_toArray]

theorem collected_nests (t : Table) (start : String) (tokens : List Token) : ∃ opened,
    openAfter [] (t.drive start tokens ({} : Collector)).2.events.toList = some opened := by
  obtain ⟨events, opened, hsink, hopened⟩ := drive_nests t start tokens ({} : Collector)
  refine ⟨opened, ?_⟩
  rw [hsink, ← Collector.mk_eq_receiveAll, List.toList_toArray]
  exact hopened

/-- A parse does the same whatever receives its events, and a trace around the receiver shows each
of them in a line of its own, indented by the productions that are open. The depth that it counts
is never zero when a production is left. -/
theorem drive_traced (t : Table) (start : String) (tokens : List Token) (sink : σ) :
    let plain := t.drive start tokens ({} : Collector)
    let events := plain.2.events.toList
    let traced := t.drive start tokens (⟨sink, 0, #[]⟩ : Traced σ)
    t.drive start tokens sink = (plain.1, Sink.receiveAll sink events) ∧
      traced.1 = plain.1 ∧ traced.2.inner = (t.drive start tokens sink).2 ∧
      Mirrors events traced.2.log.toList ∧
      (∀ before production after, events = before ++ .exit production :: after →
        (Sink.receiveAll (⟨sink, 0, #[]⟩ : Traced σ) before).depth ≠ 0) ∧
      (parseTokens ⟨true⟩ t start tokens sink).result =
        (parseTokens ⟨false⟩ t start tokens sink).result ∧
      (parseTokens ⟨true⟩ t start tokens sink).sink =
        (parseTokens ⟨false⟩ t start tokens sink).sink := by
  intro plain events traced
  obtain ⟨opened, hopened⟩ := collected_nests t start tokens
  have hsame : t.drive start tokens sink = (plain.1, Sink.receiveAll sink events) :=
    drive_eq_receiveAll t start tokens sink
  have htraced : traced = (plain.1, Sink.receiveAll ⟨sink, 0, #[]⟩ events) :=
    drive_eq_receiveAll t start tokens (⟨sink, 0, #[]⟩ : Traced σ)
  obtain ⟨hinner, hlog⟩ := Traced.receiveAll_eq (⟨sink, 0, #[]⟩ : Traced σ) events
  have hresult : traced.1 = (t.drive start tokens sink).1 := by rw [htraced, hsame]
  have hdelivered : traced.2.inner = (t.drive start tokens sink).2 := by
    rw [htraced, hsame]
    exact hinner
  have hlines : traced.2.log.toList = logLines 0 events := by
    rw [htraced]
    exact hlog
  refine ⟨hsame, congrArg Prod.fst htraced, hdelivered, ?_, Traced.depth_ne_zero sink hopened,
    congrArg Outcome.result hresult, hdelivered⟩
  rw [hlines]
  exact mirrors_logLines hopened

end Table

end SparqlQuery
