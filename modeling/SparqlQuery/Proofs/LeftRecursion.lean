import SparqlQuery.Proofs.ClosingWords
import SparqlQuery.Proofs.DriverDerivation
import Mathlib.Logic.Relation

namespace SparqlQuery

namespace Table

/-- Productions that are entered and left again at a key without a token being read. -/
inductive Nullable (t : Table) (key : String) : String → Prop
  | intro {name : String} {inner : List String}
      (hname : t.expands name key (inner.map Term.production))
      (hinner : ∀ other ∈ inner, Nullable t key other) : Nullable t key name

/-- What is left of a branch at a key, when the productions before it were nullable. -/
def Leaves (t : Table) (key production : String) (terms : List Term) : Prop :=
  ∃ before : List String, t.expands production key (before.map Term.production ++ terms) ∧
    ∀ name ∈ before, t.Nullable key name

/-- A production that enters another one at a key before any token is read. -/
def Calls (t : Table) (key caller callee : String) : Prop :=
  ∃ after, t.Leaves key caller (.production callee :: after)

/-- Some production reaches itself by calls at one key. -/
def LeftRecursive (t : Table) : Prop :=
  ∃ key name, Relation.TransGen (t.Calls key) name name

section

variable {σ : Type} [Sink σ]

/-- The loop of the driver, with no limit to its nesting, comes to an end: the step is taken as
if no production had been entered since the last token. -/
inductive Halts (t : Table) (start : String) : ParseState σ → Outcome → σ → Prop
  | last {state : ParseState σ} {outcome : Outcome} {sink : σ}
      (hstep : t.step start { state with nested := 0 } = .last outcome sink) :
      Halts t start state outcome sink
  | more {state after : ParseState σ} {outcome : Outcome} {sink : σ}
      (hstep : t.step start { state with nested := 0 } = .more after)
      (hafter : Halts t start after outcome sink) : Halts t start state outcome sink

theorem Halts.of_nested {t : Table} {start : String} {state : ParseState σ} {outcome : Outcome}
    {sink : σ} {nested : Nat} (h : t.Halts start { state with nested } outcome sink) :
    t.Halts start state outcome sink := by
  cases h with
  | last hstep => exact .last hstep
  | more hstep hafter => exact .more hstep hafter

/-- A run that does not meet the limit is a run of the loop without it. -/
theorem halts_of_run_ne_endless {t : Table} {start : String} {state : ParseState σ}
    (h : (t.run start state).1 ≠ .endless) :
    t.Halts start state (t.run start state).1 (t.run start state).2 := by
  revert h
  refine run_induction (motive := fun state result => result.1 ≠ .endless →
    t.Halts start state result.1 result.2) ?_ ?_ state
  · intro state outcome sink hs hne
    refine .last (step_of_stops ?_)
    cases hs with
    | accepted => exact .accepted
    | trailing => exact .trailing
    | endless => exact absurd rfl hne
    | refused _ hname => exact .refused (Nat.zero_le _) hname
    | mismatch hkey => exact .mismatch hkey
  · intro state after result hm ih hne
    have hafter := ih hne
    cases hm with
    | enter _ hname =>
      exact .more (step_of_moves (.enter (Nat.zero_le _) hname)) hafter.of_nested
    | push => exact .more (step_of_moves .push) hafter.of_nested
    | read => exact .more (step_of_moves .read) hafter.of_nested
    | exit => exact .more (step_of_moves .exit) hafter.of_nested

end

/-- The innermost frames, so many of them, are opened and were entered at the key, each by a call
of the one below it. `above` is the term of the first one that is worked on. -/
def Chained (t : Table) (key : String) : Nat → List Term → List Frame → Prop
  | 0, _, _ => True
  | n + 1, above, ⟨production, some terms⟩ :: below =>
    t.Leaves key production (above ++ terms) ∧ Chained t key n [.production production] below
  | _ + 1, _, _ => False

/-- The productions entered since the last token was read call each other. -/
def Entered (t : Table) (key : String) (nested : Nat) : List Frame → Prop
  | ⟨name, none⟩ :: below => t.Chained key nested [.production name] below
  | stack => t.Chained key nested [] stack

section

variable {t : Table} {key : String} {n : Nat}

theorem Chained.entered {stack : List Frame} (h : t.Chained key n [] stack) :
    t.Entered key n stack := by
  match n, stack with
  | 0, [] => trivial
  | 0, ⟨_, none⟩ :: _ => trivial
  | 0, ⟨_, some _⟩ :: _ => trivial
  | _ + 1, ⟨_, some _⟩ :: _ => exact h

/-- When a production is left, the one below it has worked off a nullable production. -/
theorem Chained.exit {production : String} {below : List Frame}
    (hnull : t.Nullable key production) (h : t.Chained key n [.production production] below) :
    t.Chained key n [] below := by
  match n, below with
  | 0, _ => trivial
  | n + 1, ⟨parent, some terms⟩ :: below =>
    obtain ⟨⟨before, hparent, hbefore⟩, hbelow⟩ := h
    refine ⟨⟨before ++ [production], ?_, ?_⟩, hbelow⟩
    · simpa using hparent
    · intro name hname
      rcases List.mem_append.mp hname with hname | hname
      · exact hbefore name hname
      · exact List.mem_singleton.mp hname ▸ hnull

theorem Moves.entered {σ : Type} [Sink σ] {state after : ParseState σ} (h : t.Moves state after)
    (hentered : t.Entered (lookahead state.tokens) state.nested state.stack) :
    t.Entered (lookahead after.tokens) after.nested after.stack := by
  cases h with
  | enter _ hname => exact ⟨⟨[], hname, by simp⟩, hentered⟩
  | @push production name terms below tokens sink nested =>
    match nested with
    | 0 => trivial
    | nested + 1 => exact hentered
  | read => exact Chained.entered trivial
  | @exit production below tokens sink nested =>
    match nested with
    | 0 => exact Chained.entered trivial
    | nested + 1 =>
      obtain ⟨⟨before, hname, hbefore⟩, hbelow⟩ := hentered
      simp only [List.append_nil] at hname
      exact (hbelow.exit (.intro hname hbefore)).entered

/-- The productions of a chain, each reaching by calls all that stand above it. -/
theorem Chained.callers {callee : String} {stack : List Frame}
    (h : t.Chained key n [.production callee] stack) : ∃ callers : List String,
      callers.length = n ∧ callers ⊆ t.names ∧
      (callee :: callers).Pairwise fun inner outer =>
        Relation.TransGen (t.Calls key) outer inner := by
  induction n generalizing callee stack with
  | zero => exact ⟨[], rfl, List.nil_subset _, List.pairwise_singleton _ _⟩
  | succ n ih =>
    match stack with
    | ⟨caller, some terms⟩ :: below =>
      obtain ⟨hcaller, hbelow⟩ := h
      obtain ⟨callers, hlength, hnames, hpairs⟩ := ih hbelow
      have hcalls : t.Calls key caller callee := ⟨terms, hcaller⟩
      have hmem : caller ∈ t.names := by
        obtain ⟨before, hexpands, _⟩ := hcaller
        exact mem_names_of_expands hexpands
      refine ⟨caller :: callers, congrArg (· + 1) hlength, List.cons_subset.mpr ⟨hmem, hnames⟩,
        List.pairwise_cons.mpr ⟨?_, hpairs⟩⟩
      intro outer houter
      rcases List.mem_cons.mp houter with rfl | houter
      · exact .single hcalls
      · exact .tail ((List.pairwise_cons.mp hpairs).1 outer houter) hcalls

/-- Without left recursion no more productions can be chained than the table has. -/
theorem Chained.le_size (hrec : ¬ t.LeftRecursive) {callee : String} {stack : List Frame}
    (h : t.Chained key n [.production callee] stack) : n ≤ t.size := by
  obtain ⟨callers, rfl, hnames, hpairs⟩ := h.callers
  have hnodup : callers.Nodup := by
    refine (List.pairwise_cons.mp hpairs).2.imp ?_
    rintro inner outer hreach rfl
    exact hrec ⟨key, inner, hreach⟩
  have hle := (hnodup.subperm hnames).length_le
  simpa [names, size, Dictionary.keys, Dictionary.size] using hle

end

section

variable {σ : Type} [Sink σ] {t : Table} {start : String}

theorem run_ne_endless (hrec : ¬ t.LeftRecursive) {state : ParseState σ}
    (hentered : t.Entered (lookahead state.tokens) state.nested state.stack) :
    (t.run start state).1 ≠ .endless := by
  revert hentered
  refine run_induction (motive := fun state result =>
    t.Entered (lookahead state.tokens) state.nested state.stack → result.1 ≠ .endless) ?_ ?_ state
  · rintro state outcome sink hs hentered rfl
    cases hs with
    | endless hsize =>
      exact Nat.not_le.mpr hsize (Chained.le_size hrec hentered)
  · intro state after result hm ih hentered
    exact ih (hm.entered hentered)

theorem drive_ne_endless (hrec : ¬ t.LeftRecursive) (start : String) (tokens : List Token)
    (sink : σ) : (t.drive start tokens sink).1 ≠ .endless := by
  by_cases hne : tokens = []
  · subst hne
    simp [drive]
  · rw [drive_of_ne_nil t start hne]
    exact run_ne_endless hrec trivial

end

/-- The driver comes to an end on some tokens, and so does its loop without a limit to the
nesting. Where there is no token at all the first production is refused. -/
structure Ends {σ : Type} [Sink σ] (t : Table) (start : String) (tokens : List Token) (sink : σ) :
    Prop where
  outcome : (t.drive start tokens sink).1 = .accepted ∨
    ∃ e, (t.drive start tokens sink).1 = .rejected e
  halts : tokens ≠ [] → t.Halts start ⟨[⟨start, none⟩], tokens, sink, 0⟩
    (t.drive start tokens sink).1 (t.drive start tokens sink).2

theorem ends_of_not_leftRecursive {σ : Type} [Sink σ] {t : Table} (hrec : ¬ t.LeftRecursive)
    (start : String) (tokens : List Token) (sink : σ) : t.Ends start tokens sink := by
  have hne := drive_ne_endless hrec start tokens sink
  constructor
  · cases h : (t.drive start tokens sink).1 with
    | accepted => exact .inl rfl
    | rejected e => exact .inr ⟨e, rfl⟩
    | endless => exact absurd h hne
  · intro htokens
    rw [drive_of_ne_nil t start htokens] at hne ⊢
    exact halts_of_run_ne_endless hne

/-- A table whose calls all lead deeper is not left recursive. -/
theorem not_leftRecursive_of_depth {t : Table} (depth : String → Nat)
    (h : ∀ key caller callee, t.Calls key caller callee → depth caller < depth callee) :
    ¬ t.LeftRecursive := by
  rintro ⟨key, name, hreach⟩
  have hdeeper : ∀ {other}, Relation.TransGen (t.Calls key) name other →
      depth name < depth other := by
    intro other hother
    induction hother with
    | single hcalls => exact h _ _ _ hcalls
    | tail _ hcalls ih => exact Nat.lt_trans ih (h _ _ _ hcalls)
  exact Nat.lt_irrefl _ (hdeeper hreach)

end Table

namespace RuleGroup

variable (skips : String → Bool)

def skipped : List Term → Bool
  | [] => true
  | .terminal _ :: _ => false
  | .production name :: terms => skips name && skipped terms

/-- The productions in some terms that may be entered before a token is read, when it is known
which of them may be skipped. -/
def callees : List Term → List String
  | [] => []
  | .terminal _ :: _ => []
  | .production name :: terms => name :: if skips name then callees terms else []

theorem skipped_map_production {names : List String} (h : ∀ name ∈ names, skips name = true) :
    skipped skips (names.map Term.production) = true := by
  induction names with
  | nil => rfl
  | cons name names ih =>
    obtain ⟨hname, hnames⟩ := List.forall_mem_cons.mp h
    simp [skipped, hname, ih hnames]

theorem mem_callees {names : List String} (h : ∀ name ∈ names, skips name = true)
    (callee : String) (after : List Term) :
    callee ∈ callees skips (names.map Term.production ++ .production callee :: after) := by
  induction names with
  | nil => exact List.mem_cons_self
  | cons name names ih =>
    obtain ⟨hname, hnames⟩ := List.forall_mem_cons.mp h
    simp [callees, hname, ih hnames]

end RuleGroup

open RuleGroup in
theorem Table.ListedBy.not_leftRecursive {t : Table} {groups : List RuleGroup}
    (hl : t.ListedBy groups) (skips : String → Bool) (depth : String → Nat)
    (hskips : ∀ group ∈ groups, skipped skips group.terms = true →
      skips group.production = true)
    (hdepth : ∀ group ∈ groups, ∀ callee ∈ callees skips group.terms,
      depth group.production < depth callee) : ¬ t.LeftRecursive := by
  have hnull : ∀ {key name}, t.Nullable key name → skips name = true := by
    intro key name h
    induction h with
    | intro hname _ ih =>
      obtain ⟨group, hgroup, rfl, _, hterms⟩ := hl.mp hname
      exact hskips group hgroup (hterms ▸ skipped_map_production skips ih)
  refine Table.not_leftRecursive_of_depth depth ?_
  rintro key caller callee ⟨after, before, hcaller, hbefore⟩
  obtain ⟨group, hgroup, rfl, _, hterms⟩ := hl.mp hcaller
  refine hdepth group hgroup callee ?_
  rw [← hterms]
  exact mem_callees skips (fun name hname => hnull (hbefore name hname)) callee after

/-- The productions that call others before a token is read, each group of them only those
after it and those not listed. -/
def callOrder : List (List String) :=
  [["Expression"], ["ConditionalOrExpression"], ["ConditionalAndExpression"], ["ValueLogical"],
    ["RelationalExpression"], ["NumericExpression"],
    ["AdditiveExpression", "ConstructTriplesOpt", "ObjectList", "TriplesBlockOpt"],
    ["ConstructTriples", "GraphNodeList", "MultiplicativeExpression", "Object",
      "OrderConditionList", "PropertyList", "TriplesBlock"],
    ["GraphClause", "GraphNode", "GroupGraphPatternTail", "OrderCondition",
      "PropertyListNotEmpty", "TriplesSameSubject", "UnaryExpression", "VerbObjectListOpt"],
    ["Constraint", "DefaultGraphClause", "DescribeTargets", "GraphPatternNotTriplesOrFilter",
      "PrimaryExpression", "Query", "VarOrIRIrefList", "VarOrTerm", "Verb"],
    ["FunctionCall", "GraphPatternNotTriples", "GraphTerm", "IRIrefOrFunction", "Prologue",
      "SolutionModifier", "SourceSelector", "VarOrIRIref", "WhereClauseOpt"],
    ["ArgListOpt", "BaseDeclOpt", "BuiltInCall", "DatasetClauseList",
      "GroupOrUnionGraphPattern", "IRIref", "LimitClauseOpt", "LimitOffsetClausesOpt",
      "OffsetClauseOpt", "OrderClauseOpt", "PrefixDeclList", "QueryForm", "SelectProjection",
      "TriplesNode", "VarList", "WhereClause"]]

def callDepth (name : String) : Nat :=
  callOrder.findIdx (·.contains name)

def isSkippable (name : String) : Bool :=
  (closingWord name).isEmpty

theorem queryGroups_skippable : (queryGroups.all fun group =>
    !RuleGroup.skipped isSkippable group.terms || isSkippable group.production) = true := by
  decide +kernel

theorem queryGroups_callDepth : (queryGroups.all fun group =>
    (RuleGroup.callees isSkippable group.terms).all fun callee =>
      decide (callDepth group.production < callDepth callee)) = true := by
  decide

theorem queryTable_not_leftRecursive : ¬ queryTable.LeftRecursive := by
  refine queryTable_listedBy.not_leftRecursive isSkippable callDepth ?_ ?_
  · intro group hgroup hskipped
    have hcheck := List.all_eq_true.mp queryGroups_skippable group hgroup
    simpa [hskipped] using hcheck
  · intro group hgroup callee hcallee
    have hcheck := List.all_eq_true.mp queryGroups_callDepth group hgroup
    exact of_decide_eq_true (List.all_eq_true.mp hcheck callee hcallee)

/-- Without left recursion every parse ends, with success or with an error, and the query table
has none. -/
theorem drive_ends_unless_leftRecursive :
    (∀ t : Table, ¬ t.LeftRecursive → ∀ (start : String) (tokens : List Token) {σ : Type}
      [Sink σ] (sink : σ), t.Ends start tokens sink) ∧
    ¬ queryTable.LeftRecursive ∧
    ∀ (start : String) (tokens : List Token) {σ : Type} [Sink σ] (sink : σ),
      queryTable.Ends start tokens sink :=
  ⟨fun _ hrec start tokens _ _ sink => Table.ends_of_not_leftRecursive hrec start tokens sink,
    queryTable_not_leftRecursive, fun start tokens _ _ sink =>
      Table.ends_of_not_leftRecursive queryTable_not_leftRecursive start tokens sink⟩

/-- A number that is all there is, parsed as an expression through twelve nested calls. -/
theorem expression_number_ends : ¬ queryTable.LeftRecursive ∧
    queryTable.Ends "Expression" [⟨.numericLiteral, .integer 1, {}⟩] ({} : Collector) :=
  ⟨queryTable_not_leftRecursive, drive_ends_unless_leftRecursive.1 queryTable
    queryTable_not_leftRecursive "Expression" _ _⟩

end SparqlQuery
