import SparqlQuery.Proofs.DerivationTree
import Mathlib.Data.List.Induction

namespace SparqlQuery

namespace Dictionary

variable {α : Type}

theorem lookup_cons_eq (key other : String) (item : α) (entries : List (String × α)) :
    ((key, item) :: entries).lookup other =
      if other = key then some item else entries.lookup other := by
  by_cases h : other = key
  · simp [h]
  · simp [List.lookup_cons, h, beq_false_of_ne h]

theorem lookup_insertEntry (key other : String) (item : α) (entries : List (String × α)) :
    (insertEntry key item entries).lookup other =
      if other = key then some item else entries.lookup other := by
  induction entries with
  | nil => exact lookup_cons_eq key other item []
  | cons head rest ih =>
    obtain ⟨k, x⟩ := head
    rw [insertEntry]
    split
    · exact lookup_cons_eq key other item _
    · split
      next _ heq =>
        subst heq
        simp only [lookup_cons_eq]
        split <;> rfl
      next _ hne =>
        simp only [lookup_cons_eq, ih]
        by_cases h : other = key
        · subst h
          simp [hne]
        · simp [h]

theorem get?_insert (d : Dictionary α) (key other : String) (item : α) :
    (d.insert key item).get? other = if other = key then some item else d.get? other :=
  lookup_insertEntry key other item d.entries

@[simp] theorem get?_empty (key : String) : (empty : Dictionary α).get? key = none :=
  rfl

/-- No two entries have the same key, so an entry is what its key leads to. -/
theorem get?_eq_some_iff {d : Dictionary α} {key : String} {item : α} :
    d.get? key = some item ↔ (key, item) ∈ d.entries := by
  constructor
  · intro h
    obtain ⟨before, after, heq, _⟩ := List.lookup_eq_some_iff.mp h
    simp [heq]
  · intro h
    obtain ⟨before, after, heq⟩ := List.append_of_mem h
    have hsorted := heq ▸ d.sorted
    refine List.lookup_eq_some_iff.mpr ⟨before, after, heq, ?_⟩
    intro entry hmem
    have hlt : entry.1 < key :=
      (List.pairwise_append.mp hsorted).2.2 entry hmem (key, item) List.mem_cons_self
    have hne : key ≠ entry.1 := by
      rintro rfl
      exact String.lt_irrefl _ hlt
    simpa using hne

end Dictionary

namespace Table

theorem expansion?_addRule (t : Table) (rule : Rule) (production key : String) :
    (t.addRule rule).expansion? production key =
      if production = rule.production ∧ key = rule.key then some rule.terms
      else t.expansion? production key := by
  unfold addRule expansion? branches?
  simp only [Dictionary.get?_insert]
  by_cases hp : production = rule.production
  · subst hp
    simp only [if_true, true_and, Option.bind_some, Dictionary.get?_insert]
    by_cases hk : key = rule.key
    · simp [hk]
    · simp only [hk, if_false]
      cases t.productions.get? rule.production <;> simp
  · simp [hp]

theorem ofRules_append_singleton (rules : List Rule) (rule : Rule) :
    ofRules (rules ++ [rule]) = (ofRules rules).addRule rule := by
  simp [ofRules]

/-- The last rule for a production and a key counts. -/
theorem expansion?_ofRules (rules : List Rule) (production key : String) :
    (ofRules rules).expansion? production key =
      (rules.reverse.find? fun rule => production = rule.production ∧ key = rule.key).map
        Rule.terms := by
  induction rules using List.reverseRecOn with
  | nil => simp [ofRules, empty, expansion?, branches?]
  | append_singleton rules rule ih =>
    rw [ofRules_append_singleton, expansion?_addRule, ih, List.reverse_append]
    by_cases h : production = rule.production ∧ key = rule.key <;> simp [h]

/-- Where rules for the same production and key are the same, all of them count. -/
theorem expands_ofRules_iff {rules : List Rule}
    (hd : ∀ a ∈ rules, ∀ b ∈ rules, a.production = b.production → a.key = b.key →
      a.terms = b.terms)
    {production key : String} {terms : List Term} :
    (ofRules rules).expands production key terms ↔ ⟨production, key, terms⟩ ∈ rules := by
  unfold expands
  rw [expansion?_ofRules]
  constructor
  · intro h
    obtain ⟨rule, hfind, rfl⟩ := Option.map_eq_some_iff.mp h
    have hmem := List.mem_reverse.mp (List.mem_of_find?_eq_some hfind)
    have hrule := List.find?_some hfind
    simp only [decide_eq_true_eq] at hrule
    obtain ⟨rfl, rfl⟩ := hrule
    exact hmem
  · intro hmem
    have hsome : (rules.reverse.find? fun rule =>
        production = rule.production ∧ key = rule.key).isSome :=
      List.find?_isSome.mpr ⟨_, List.mem_reverse.mpr hmem, by simp⟩
    obtain ⟨rule, hfind⟩ := Option.isSome_iff_exists.mp hsome
    have hrule := List.mem_reverse.mp (List.mem_of_find?_eq_some hfind)
    have hsame := List.find?_some hfind
    simp only [decide_eq_true_eq] at hsame
    have hterms := hd _ hrule _ hmem hsame.1.symm hsame.2.symm
    rw [hfind, Option.map_some, hterms]

end Table

end SparqlQuery
