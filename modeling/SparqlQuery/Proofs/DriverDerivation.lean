import SparqlQuery.Proofs.DriverRun
import Mathlib.Data.List.Perm.Subperm

namespace SparqlQuery

theorem Dictionary.mem_keys_of_get? {α : Type} {d : Dictionary α} {key : String} {item : α}
    (h : d.get? key = some item) : key ∈ d.keys := by
  obtain ⟨before, after, heq, _⟩ := List.lookup_eq_some_iff.mp h
  simp [keys, heq]

namespace Table

variable {t : Table} {start : String}

theorem mem_names_of_expands {production key : String} {terms : List Term}
    (h : t.expands production key terms) : production ∈ t.names := by
  obtain ⟨branches, hbranches, _⟩ := Option.bind_eq_some_iff.mp h
  exact Dictionary.mem_keys_of_get? hbranches

/-- Productions that are open around some trees and were entered at the same token. Each is
derived there, with the trees somewhere inside. -/
structure Around (t : Table) (tokens : List Token) (trees : List ParseTree)
    (open_ : List String) : Prop where
  nodup : open_.Nodup
  derived : ∀ name ∈ open_, ∃ inner children rest, t.expands name (lookahead tokens) inner ∧
    Derives t.expands inner tokens children rest ∧ sizeOf trees ≤ sizeOf children

theorem Around.empty (t : Table) (tokens : List Token) (trees : List ParseTree) :
    t.Around tokens trees [] :=
  ⟨List.nodup_nil, by simp⟩

theorem Around.tail {tokens : List Token} {tree : ParseTree} {trees : List ParseTree}
    {open_ : List String} (h : t.Around tokens (tree :: trees) open_) :
    t.Around tokens trees open_ := by
  refine ⟨h.nodup, ?_⟩
  intro name hmem
  obtain ⟨inner, children, rest, hname, hinside, hsize⟩ := h.derived name hmem
  refine ⟨inner, children, rest, hname, hinside, ?_⟩
  simp only [List.cons.sizeOf_spec] at hsize
  omega

/-- A production is never open around itself: its tree would be a part of itself. -/
theorem Around.enter {tokens rest : List Token} {name : String} {inner : List Term}
    {children trees : List ParseTree} {open_ : List String}
    (h : t.Around tokens (.node name children :: trees) open_)
    (hname : t.expands name (lookahead tokens) inner)
    (hinside : Derives t.expands inner tokens children rest) :
    t.Around tokens children (name :: open_) := by
  have hpart : sizeOf children < sizeOf (ParseTree.node name children :: trees) := by
    simp only [List.cons.sizeOf_spec, ParseTree.node.sizeOf_spec]
    omega
  refine ⟨List.nodup_cons.mpr ⟨?_, h.nodup⟩, ?_⟩
  · intro hmem
    obtain ⟨inner', children', rest', hname', hinside', hsize⟩ := h.derived name hmem
    obtain rfl := expands_unique hname hname'
    obtain ⟨rfl, _⟩ := hinside.expands_unique hinside'
    omega
  · intro other hmem
    rcases List.mem_cons.mp hmem with rfl | hmem
    · exact ⟨inner, children, rest, hname, hinside, Nat.le_refl _⟩
    · obtain ⟨inner', children', rest', hname', hinside', hsize⟩ := h.derived other hmem
      exact ⟨inner', children', rest', hname', hinside', by omega⟩

theorem Around.length_le {tokens : List Token} {trees : List ParseTree} {open_ : List String}
    (h : t.Around tokens trees open_) : open_.length ≤ t.size := by
  have hsub : open_ ⊆ t.names := by
    intro name hmem
    obtain ⟨inner, children, rest, hname, _⟩ := h.derived name hmem
    exact mem_names_of_expands hname
  have hle := (h.nodup.subperm hsub).length_le
  simpa [names, size, Dictionary.keys, Dictionary.size] using hle

section

variable {σ : Type} [Sink σ]

theorem run_frame {name : String} {inner : List Term} {below : List Frame}
    {tokens middle : List Token} {sink inside : σ} {nested deep : Nat} (hsize : nested ≤ t.size)
    (hname : t.expands name (lookahead tokens) inner)
    (hinner : t.run start ⟨⟨name, some inner⟩ :: below, tokens, Sink.receive sink (.enter name),
        nested + 1⟩ = t.run start ⟨⟨name, some []⟩ :: below, middle, inside, deep⟩) :
    t.run start ⟨⟨name, none⟩ :: below, tokens, sink, nested⟩ =
      t.run start ⟨below, middle, Sink.receive inside (.exit name), deep - 1⟩ := by
  rw [run_of_moves (.enter hsize hname), hinner]
  exact run_of_moves .exit

/-- Where terms are derived, the driver works them off with the events of their trees. It keeps
count of the productions around them as long as no token is read. -/
theorem run_derives {terms : List Term} {tokens rest : List Token} {trees : List ParseTree}
    (h : Derives t.expands terms tokens trees rest) (production : String) (more : List Term)
    (below : List Frame) (sink : σ) {nested : Nat} {open_ : List String}
    (ho : t.Around tokens trees open_) (hn : nested ≤ open_.length) :
    ∃ nested', (rest = tokens ∧ nested' = nested ∨ nested' = 0) ∧
      t.run start ⟨⟨production, some (terms ++ more)⟩ :: below, tokens, sink, nested⟩ =
        t.run start ⟨⟨production, some more⟩ :: below, rest,
          Sink.receiveAll sink (forestEvents production trees), nested'⟩ := by
  induction h generalizing production more below sink nested open_ with
  | done tokens => exact ⟨nested, .inl ⟨rfl, rfl⟩, rfl⟩
  | @terminal key token terms tokens rest trees hkey after ih =>
    subst hkey
    obtain ⟨nested', hcount, hrun⟩ := ih production more below
      (Sink.receive sink (.token production token.kind token.value)) (.empty t _ _)
      (Nat.le_refl 0)
    refine ⟨nested', ?_, ?_⟩
    · rcases hcount with ⟨_, hzero⟩ | hzero <;> exact .inr hzero
    · rw [List.cons_append, run_of_moves .read, hrun]
      simp [forestEvents, ParseTree.events]
  | @production name inner terms tokens middle rest children trees hname hinside hafter
      ihInside ihAfter =>
    have hsize : nested ≤ t.size := Nat.le_trans hn ho.length_le
    obtain ⟨deep, hdeep, hinner⟩ := ihInside name [] (⟨production, some (terms ++ more)⟩ :: below)
      (Sink.receive sink (.enter name)) (ho.enter hname hinside) (Nat.succ_le_succ hn)
    rw [List.append_nil] at hinner
    have hcount : middle = tokens ∧ deep - 1 = nested ∨ deep - 1 = 0 := by
      rcases hdeep with ⟨hm, hd⟩ | hd
      · exact .inl ⟨hm, by omega⟩
      · exact .inr (by omega)
    have hopen : ∃ open', t.Around middle trees open' ∧ deep - 1 ≤ open'.length := by
      rcases hcount with ⟨rfl, hd⟩ | hd
      · exact ⟨open_, ho.tail, by omega⟩
      · exact ⟨[], .empty t _ _, by omega⟩
    obtain ⟨open', ho', hn'⟩ := hopen
    obtain ⟨nested', hend, hrun⟩ := ihAfter production more below
      (Sink.receive (Sink.receiveAll (Sink.receive sink (.enter name))
        (forestEvents name children)) (.exit name)) ho' hn'
    refine ⟨nested', ?_, ?_⟩
    · rcases hend with ⟨rfl, he⟩ | he
      · rcases hcount with ⟨rfl, hd⟩ | hd
        · exact .inl ⟨rfl, by omega⟩
        · exact .inr (by omega)
      · exact .inr he
    · rw [List.cons_append, run_of_moves .push, run_frame hsize hname hinner, hrun]
      simp [forestEvents, ParseTree.events]

/-- A stack whose frames are derived one after the other, up to the end of the tokens, with the
events that follow. -/
inductive Completes (t : Table) : List Frame → List Token → List Event → Prop
  | done : Completes t [] [] []
  | unopened {name : String} {below : List Frame} {tokens middle : List Token}
      {tree : ParseTree} {events : List Event}
      (hname : Derives t.expands [.production name] tokens [tree] middle)
      (hbelow : Completes t below middle events) :
      Completes t (⟨name, none⟩ :: below) tokens (tree.events name ++ events)
  | opened {name : String} {terms : List Term} {below : List Frame}
      {tokens middle : List Token} {trees : List ParseTree} {events : List Event}
      (hterms : Derives t.expands terms tokens trees middle)
      (hbelow : Completes t below middle events) :
      Completes t (⟨name, some terms⟩ :: below) tokens
        (forestEvents name trees ++ .exit name :: events)

/-- After a token was read, a stack that can be completed is completed. -/
theorem run_completes {stack : List Frame} {tokens : List Token} {events : List Event}
    (h : t.Completes stack tokens events) (sink : σ) :
    t.run start ⟨stack, tokens, sink, 0⟩ = (.accepted, Sink.receiveAll sink events) := by
  induction h generalizing sink with
  | done => exact run_of_stops .accepted
  | @unopened name below tokens middle tree events hname _ ih =>
    obtain ⟨inner, children, heq, hexp, hinside⟩ := hname.production_tree
    obtain rfl := List.singleton_inj.mp heq
    have ho : t.Around tokens children [name] :=
      (Around.empty t tokens [.node name children]).enter hexp hinside
    obtain ⟨deep, hdeep, hinner⟩ := run_derives hinside name [] below
      (Sink.receive sink (.enter name)) ho (Nat.le_refl 1)
    rw [List.append_nil] at hinner
    have hzero : deep - 1 = 0 := by omega
    rw [run_frame (Nat.zero_le _) hexp hinner, hzero, ih]
    simp [ParseTree.events]
  | @opened name terms below tokens middle trees events hterms _ ih =>
    obtain ⟨nested, hnested, hrun⟩ := run_derives hterms name [] below sink
      (.empty t tokens trees) (Nat.le_refl 0)
    have hzero : nested - 1 = 0 := by omega
    rw [List.append_nil] at hrun
    rw [hrun, run_of_moves .exit, hzero, ih]
    simp

theorem Moves.completes {state after : ParseState σ} (h : t.Moves state after)
    {events : List Event} (hc : t.Completes after.stack after.tokens events) :
    ∃ before, t.Completes state.stack state.tokens (before ++ events) ∧
      after.sink = Sink.receiveAll state.sink before := by
  cases h with
  | @enter name below terms tokens sink nested _ hname =>
    cases hc with
    | opened hterms hbelow =>
      have hnode := Derives.production hname hterms (.done _)
      exact ⟨[.enter name], by simpa [ParseTree.events] using Completes.unopened hnode hbelow, rfl⟩
  | push =>
    cases hc with
    | unopened hname hbelow =>
      cases hbelow with
      | opened hterms hbelow =>
        obtain ⟨inner, children, heq, _, _⟩ := hname.production_tree
        obtain rfl := List.singleton_inj.mp heq
        have hboth := hname.append hterms
        exact ⟨[], by simpa [forestEvents, ParseTree.events] using Completes.opened hboth hbelow,
          rfl⟩
  | @read production terms below token tokens sink nested =>
    cases hc with
    | opened hterms hbelow =>
      have hall := Derives.terminal (rfl : token.key = token.key) hterms
      exact ⟨[.token production token.kind token.value],
        by simpa [forestEvents, ParseTree.events] using Completes.opened hall hbelow, rfl⟩
  | @exit production below tokens sink nested =>
    exact ⟨[.exit production], by simpa [forestEvents] using Completes.opened (.done _) hc, rfl⟩

theorem completes_of_run {state : ParseState σ} {result : σ}
    (h : t.run start state = (.accepted, result)) :
    ∃ events, t.Completes state.stack state.tokens events ∧
      result = Sink.receiveAll state.sink events := by
  revert h
  refine run_induction
    (motive := fun state outcome => outcome = (.accepted, result) →
      ∃ events, t.Completes state.stack state.tokens events ∧
        result = Sink.receiveAll state.sink events) ?_ ?_ state
  · intro state outcome sink hs h
    cases hs <;> simp at h
    subst h
    exact ⟨[], .done, rfl⟩
  · intro state after outcome hm ih h
    obtain ⟨events, hc, rfl⟩ := ih h
    obtain ⟨before, hb, hsink⟩ := hm.completes hc
    exact ⟨before ++ events, hb, by rw [hsink, Sink.receiveAll_append]⟩

/-- A parse succeeds exactly where the start production derives all tokens. -/
theorem drive_eq_accepted_iff {tokens : List Token} (hne : tokens ≠ []) {sink result : σ} :
    t.drive start tokens sink = (.accepted, result) ↔
      ∃ tree, Derives t.expands [.production start] tokens [tree] [] ∧
        result = Sink.receiveAll sink (tree.events start) := by
  rw [drive_of_ne_nil t start hne]
  constructor
  · intro h
    obtain ⟨events, hc, rfl⟩ := completes_of_run h
    cases hc with
    | unopened hname hbelow =>
      cases hbelow
      exact ⟨_, hname, by simp⟩
  · rintro ⟨tree, h, rfl⟩
    simpa using run_completes (.unopened h .done) sink

theorem drive_accepted_iff {tokens : List Token} (hne : tokens ≠ []) (sink : σ) :
    (t.drive start tokens sink).1 = .accepted ↔
      ∃ tree, Derives t.expands [.production start] tokens [tree] [] := by
  constructor
  · intro h
    obtain ⟨tree, htree, _⟩ := (drive_eq_accepted_iff hne).mp
      (Prod.ext h rfl : t.drive start tokens sink = (.accepted, (t.drive start tokens sink).2))
    exact ⟨tree, htree⟩
  · rintro ⟨tree, htree⟩
    rw [(drive_eq_accepted_iff hne).mpr ⟨tree, htree, rfl⟩]

end

/-- The driver collects exactly the walk through a tree that derives the tokens, and there is no
second such tree. -/
theorem collected_events_iff_tree (t : Table) (start : String) {tokens : List Token}
    (hne : tokens ≠ []) (events : List Event) :
    (t.drive start tokens ({} : Collector) = (.accepted, ⟨events.toArray⟩) ↔
      ∃ tree, Derives t.expands [.production start] tokens [tree] [] ∧
        events = tree.events start) ∧
    ∀ tree other, Derives t.expands [.production start] tokens [tree] [] →
      Derives t.expands [.production start] tokens [other] [] → other = tree := by
  have hcollect : ∀ tree : ParseTree,
      (⟨events.toArray⟩ : Collector) = Sink.receiveAll {} (tree.events start) ↔
        events = tree.events start := by
    intro tree
    have hall := Collector.receiveAll_events {} (tree.events start)
    rw [Array.empty_append] at hall
    constructor
    · intro h
      rw [← h] at hall
      exact List.toArray_inj hall
    · rintro rfl
      exact (congrArg Collector.mk hall).symm
  constructor
  · rw [drive_eq_accepted_iff hne]
    exact exists_congr fun tree => and_congr_right fun _ => hcollect tree
  · intro tree other htree hother
    exact List.singleton_inj.mp (hother.expands_unique htree).1

def variableListTable : Table :=
  .ofRules
    [⟨"List", "(", [.terminal "(", .production "Items", .terminal ")"]⟩,
      ⟨"Items", "Variable", [.terminal "Variable", .production "Items"]⟩,
      ⟨"Items", ")", []⟩]

theorem variableListTable_collects :
    variableListTable.drive "List" [⟨.delimiter, .text "(", {}⟩, ⟨.variableName, .text "a", {}⟩,
        ⟨.delimiter, .text ")", {}⟩] ({} : Collector) =
      (.accepted, ⟨#[.enter "List", .token "List" .delimiter (.text "("), .enter "Items",
        .token "Items" .variableName (.text "a"), .enter "Items", .exit "Items", .exit "Items",
        .token "List" .delimiter (.text ")"), .exit "List"]⟩) := by
  have hlist : variableListTable.expands "List" "(" _ := rfl
  have hitems : variableListTable.expands "Items" "Variable" _ := rfl
  have hend : variableListTable.expands "Items" ")" _ := rfl
  have hrest : Derives variableListTable.expands [.production "Items"]
      [⟨.delimiter, .text ")", {}⟩] _ _ := .production hend (.done _) (.done _)
  have hinner : Derives variableListTable.expands [.production "Items", .terminal ")"]
      [⟨.variableName, .text "a", {}⟩, ⟨.delimiter, .text ")", {}⟩] _ [] :=
    .production hitems (.terminal rfl hrest) (.terminal rfl (.done _))
  have htree : Derives variableListTable.expands [.production "List"]
      [⟨.delimiter, .text "(", {}⟩, ⟨.variableName, .text "a", {}⟩, ⟨.delimiter, .text ")", {}⟩]
      _ [] := .production hlist (.terminal rfl hinner) (.done _)
  exact (collected_events_iff_tree variableListTable "List" (by simp) _).1.mpr ⟨_, htree, rfl⟩

end Table

end SparqlQuery
