import SparqlQuery.Proofs.DriverDerivation
import SparqlQuery.Proofs.KeylessGrammar
import SparqlQuery.Proofs.QueryFollow

namespace SparqlQuery

section

variable {σ : Type} [Sink σ] {tokens : List Token}

/-- With the entry added, the driver accepts every word of the grammar. -/
theorem completedTable_accepts (hne : tokens ≠ [])
    (hword : tokens.map Token.key ∈ (queryTable.grammar startProduction).language) (sink : σ) :
    (completedTable.drive startProduction tokens sink).1 = .accepted := by
  obtain ⟨tree, htree⟩ := Table.mem_language_grammar.mp hword
  have hcompleted := (htree.completed (fun _ _ _ hname => hname) startProduction_fits).1
  exact (Table.drive_accepted_iff hne sink).mpr ⟨tree, hcompleted.mono fun _ _ _ h => h.2⟩

/-- A word of the grammar has one tree, and the driver accepts it exactly where no name that may
begin a call stands right before a number in that tree. -/
theorem word_accepted_iff (hne : tokens ≠ [])
    (hword : tokens.map Token.key ∈ (queryTable.grammar startProduction).language) (sink : σ) :
    ∃ tree, Derives queryTable.keyless [.production startProduction] tokens [tree] [] ∧
      (∀ other, Derives queryTable.keyless [.production startProduction] tokens [other] [] →
        other = tree) ∧
      ((queryTable.drive startProduction tokens sink).1 = .accepted ↔
        Derives (fun production key inner => queryTable.produces production inner ∧
          ¬ LacksEntry production key) [.production startProduction] tokens [tree] []) := by
  obtain ⟨tree, htree⟩ := Table.mem_language_grammar.mp hword
  have hunique : ∀ other,
      Derives queryTable.keyless [.production startProduction] tokens [other] [] →
        other = tree := by
    intro other hother
    have hchosen : ∀ {trees : List ParseTree},
        Derives queryTable.keyless [.production startProduction] tokens trees [] →
          Derives completedTable.expands [.production startProduction] tokens trees [] :=
      fun h => (h.completed (fun _ _ _ hname => hname) startProduction_fits).1.mono
        fun _ _ _ hname => hname.2
    exact List.singleton_inj.mp ((hchosen hother).expands_unique (hchosen htree)).1
  refine ⟨tree, htree, hunique, ?_⟩
  rw [Table.drive_accepted_iff hne]
  constructor
  · rintro ⟨other, hother⟩
    obtain rfl := hunique other (hother.mono fun _ key _ h => ⟨key, h⟩)
    exact hother.mono fun _ key _ h => ⟨⟨key, h⟩, not_lacksEntry_of_expands h⟩
  · intro havoids
    have hcompleted := (havoids.completed (fun _ _ _ h => h.1) startProduction_fits).1
    exact ⟨tree, hcompleted.mono fun _ _ _ h => expands_queryTable_of_completed h.2 h.1.2⟩

end

/-- The tokens of `ask { }`. -/
def askNothing : List Token :=
  [⟨.keyword, .text "ask", {}⟩, ⟨.delimiter, .text "\x7b", {}⟩, ⟨.delimiter, .text "\x7d", {}⟩]

theorem askNothing_accepted :
    askNothing ≠ [] ∧ askNothing.map Token.key ∈ (queryTable.grammar startProduction).language ∧
      (queryTable.drive startProduction askNothing ({} : Collector)).1 = .accepted := by
  have hne : askNothing ≠ [] := List.cons_ne_nil _ _
  have hcomplete : (RuleGroup.descend queryGroups 20 [.production startProduction]
      askNothing).isComplete = true := by decide
  obtain ⟨trees, htrees⟩ := queryTable_listedBy.derives_of_isComplete hcomplete
  obtain ⟨_, _, rfl, _⟩ := htrees.production_tree
  have hword : askNothing.map Token.key ∈ (queryTable.grammar startProduction).language :=
    Table.mem_language_grammar.mpr ⟨_, htrees.mono fun _ key _ h => ⟨key, h⟩⟩
  refine ⟨hne, hword, ?_⟩
  obtain ⟨tree, _, hunique, hiff⟩ := word_accepted_iff hne hword ({} : Collector)
  obtain rfl := hunique _ (htrees.mono fun _ key _ h => ⟨key, h⟩)
  exact hiff.mpr (htrees.mono fun _ key _ h => ⟨⟨key, h⟩, not_lacksEntry_of_expands h⟩)

/-- The tokens of `ask { filter ( <a> -1 ) }`. -/
def askNameMinusOne : List Token :=
  [⟨.keyword, .text "ask", {}⟩, ⟨.delimiter, .text "\x7b", {}⟩, ⟨.keyword, .text "filter", {}⟩,
    ⟨.delimiter, .text "(", {}⟩, ⟨.iriRef, .iri "a", {}⟩, ⟨.numericLiteral, .integer (-1), {}⟩,
    ⟨.delimiter, .text ")", {}⟩, ⟨.delimiter, .text "\x7d", {}⟩]

/-- A query that the grammar has and the driver refuses. -/
theorem askNameMinusOne_refused :
    askNameMinusOne ≠ [] ∧
      askNameMinusOne.map Token.key ∈ (queryTable.grammar startProduction).language ∧
      (queryTable.drive startProduction askNameMinusOne ({} : Collector)).1 ≠ .accepted := by
  have hne : askNameMinusOne ≠ [] := List.cons_ne_nil _ _
  have hcomplete : (RuleGroup.descend completedGroups 40 [.production startProduction]
      askNameMinusOne).isComplete = true := by decide
  have hstuck : (RuleGroup.descend queryGroups 40 [.production startProduction]
      askNameMinusOne).isStuck = true := by decide
  obtain ⟨trees, htrees⟩ := completedTable_listedBy.derives_of_isComplete hcomplete
  obtain ⟨_, _, rfl, _⟩ := htrees.production_tree
  refine ⟨hne, ?_, ?_⟩
  · exact Table.mem_language_grammar.mpr
      ⟨_, htrees.mono fun _ key _ h => produces_completedTable_iff.mp ⟨key, h⟩⟩
  · intro haccepted
    obtain ⟨tree, htree⟩ := (Table.drive_accepted_iff hne _).mp haccepted
    exact queryTable_listedBy.not_derives_of_isStuck hstuck _ _ htree

end SparqlQuery
