import SparqlQuery.QueryGrammar
import SparqlQuery.Proofs.RuleTable
import Mathlib.Data.List.Pairwise

namespace SparqlQuery

namespace RuleGroup

/-- Groups that never give a production different expansions at one key. -/
def Compatible (a b : RuleGroup) : Prop :=
  a.production = b.production → ∀ key ∈ a.keys, key ∈ b.keys → a.terms = b.terms

def apart (a b : RuleGroup) : Bool :=
  a.production != b.production || a.keys.all fun key => !b.keys.contains key

theorem compatible_of_apart {a b : RuleGroup} (h : a.apart b = true) : a.Compatible b := by
  intro hp key hka hkb
  rcases Bool.or_eq_true_iff.mp h with hne | hall
  · exact absurd hp (bne_iff_ne.mp hne)
  · have := List.all_eq_true.mp hall key hka
    simp [hkb] at this

instance : Std.Symm Compatible where
  symm _ _ h hp key hka hkb := (h hp.symm key hkb hka).symm

theorem mem_rules_iff {group : RuleGroup} {rule : Rule} :
    rule ∈ group.rules ↔
      rule.production = group.production ∧ rule.key ∈ group.keys ∧ rule.terms = group.terms := by
  obtain ⟨production, key, terms⟩ := rule
  simp only [rules, List.mem_map, Rule.mk.injEq]
  constructor
  · rintro ⟨k, hk, rfl, rfl, rfl⟩
    exact ⟨rfl, hk, rfl⟩
  · rintro ⟨rfl, hk, rfl⟩
    exact ⟨key, hk, rfl, rfl, rfl⟩

end RuleGroup

theorem queryGroups_apart : queryGroups.Pairwise fun a b => a.apart b = true := by
  decide +kernel

/-- The entries of a table, given as groups. -/
def Table.ListedBy (t : Table) (groups : List RuleGroup) : Prop :=
  ∀ {production key : String} {terms : List Term}, t.expands production key terms ↔
    ∃ group ∈ groups, production = group.production ∧ key ∈ group.keys ∧ terms = group.terms

theorem queryTable_listedBy : queryTable.ListedBy queryGroups := by
  intro production key terms
  have hall : ∀ a ∈ queryGroups, ∀ b ∈ queryGroups, a.Compatible b := fun a ha b hb =>
    (queryGroups_apart.imp RuleGroup.compatible_of_apart).forall_of_forall
      (fun _ _ _ _ _ _ => rfl) ha hb
  have hd : ∀ a ∈ queryRules, ∀ b ∈ queryRules, a.production = b.production → a.key = b.key →
      a.terms = b.terms := by
    intro a ha b hb hp hk
    obtain ⟨g, hg, ha⟩ := List.mem_flatMap.mp ha
    obtain ⟨g', hg', hb⟩ := List.mem_flatMap.mp hb
    obtain ⟨hap, hak, hat⟩ := RuleGroup.mem_rules_iff.mp ha
    obtain ⟨hbp, hbk, hbt⟩ := RuleGroup.mem_rules_iff.mp hb
    rw [hat, hbt]
    exact hall g hg g' hg' (by rw [← hap, ← hbp, hp]) a.key hak (hk ▸ hbk)
  rw [queryTable, Table.expands_ofRules_iff hd, queryRules, List.mem_flatMap]
  exact exists_congr fun group => and_congr_right fun _ => RuleGroup.mem_rules_iff

end SparqlQuery
