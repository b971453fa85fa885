import SparqlQuery.Proofs.UndefinedProductions
import SparqlQuery.Proofs.DictionaryEntries

namespace SparqlQuery

def Rule.IsFor (rule : Rule) (production key : String) : Prop :=
  rule.production = production ∧ rule.key = key

instance (rule : Rule) (production key : String) : Decidable (rule.IsFor production key) :=
  inferInstanceAs (Decidable (_ ∧ _))

/-- A rule that no later one replaces. -/
def Survives (rules : List Rule) (rule : Rule) : Prop :=
  ∃ before after, rules = before ++ rule :: after ∧
    ∀ later ∈ after, ¬ later.IsFor rule.production rule.key

/-- The rules for each production and key are the same and in the same order, however rules for
different ones stand to each other. -/
def Reordered (rules rules' : List Rule) : Prop :=
  ∀ production key, rules.filter (·.IsFor production key) = rules'.filter (·.IsFor production key)

theorem Reordered.mem_of_mem {rules rules' : List Rule} (h : Reordered rules rules') {rule : Rule}
    (hrule : rule ∈ rules) : rule ∈ rules' := by
  have hmem : rule ∈ rules.filter (·.IsFor rule.production rule.key) :=
    List.mem_filter.mpr ⟨hrule, decide_eq_true ⟨rfl, rfl⟩⟩
  rw [h] at hmem
  exact List.mem_of_mem_filter hmem

namespace Table

/-- A table holds the rules of a list that survive, and nothing else. -/
structure Holds (t : Table) (rules : List Rule) : Prop where
  expansion : ∀ production key terms,
    t.expansion? production key = some terms ↔ Survives rules ⟨production, key, terms⟩
  none : ∀ production key,
    t.expansion? production key = none ↔ ∀ rule ∈ rules, ¬ rule.IsFor production key
  alternatives : ∀ production, (t.alternatives production).Pairwise (· < ·) ∧
    ∀ key, key ∈ t.alternatives production ↔ ∃ rule ∈ rules, rule.IsFor production key
  names : t.names.Pairwise (· < ·) ∧
    ∀ production, production ∈ t.names ↔ ∃ rule ∈ rules, rule.production = production
  undefined : t.undefined.Pairwise (· < ·) ∧ ∀ name, name ∈ t.undefined ↔
    (∃ rule, Survives rules rule ∧ .production name ∈ rule.terms) ∧
      ∀ rule ∈ rules, rule.production ≠ name

section

variable {rules : List Rule} {production key name : String} {terms : List Term}

theorem expansion?_eq_find? (rules : List Rule) (production key : String) :
    (ofRules rules).expansion? production key =
      (rules.reverse.find? (·.IsFor production key)).map Rule.terms := by
  have hsame (rule : Rule) : (production = rule.production ∧ key = rule.key) =
      rule.IsFor production key := by
    rw [Rule.IsFor, @eq_comm _ production, @eq_comm _ key]
  rw [expansion?_ofRules]
  simp only [hsame]

theorem expansion?_eq_some_iff_survives :
    (ofRules rules).expansion? production key = some terms ↔
      Survives rules ⟨production, key, terms⟩ := by
  rw [expansion?_eq_find?, Option.map_eq_some_iff]
  constructor
  · rintro ⟨⟨_, _, _⟩, hfind, rfl⟩
    obtain ⟨hrule, after, before, happ, hafter⟩ := List.find?_eq_some_iff_append.mp hfind
    obtain ⟨rfl, rfl⟩ := of_decide_eq_true hrule
    refine ⟨before.reverse, after.reverse, by simpa using congrArg List.reverse happ, ?_⟩
    intro later hlater
    simpa using hafter later (List.mem_reverse.mp hlater)
  · rintro ⟨before, after, rfl, hafter⟩
    refine ⟨⟨production, key, terms⟩, List.find?_eq_some_iff_append.mpr ?_, rfl⟩
    refine ⟨decide_eq_true ⟨rfl, rfl⟩, after.reverse, before.reverse, by simp, ?_⟩
    intro later hlater
    simpa using hafter later (List.mem_reverse.mp hlater)

theorem expansion?_eq_none_iff :
    (ofRules rules).expansion? production key = none ↔
      ∀ rule ∈ rules, ¬ rule.IsFor production key := by
  rw [expansion?_eq_find?, Option.map_eq_none_iff, List.find?_eq_none]
  simp only [List.mem_reverse, decide_eq_true_eq]

theorem mem_alternatives_ofRules_iff :
    key ∈ (ofRules rules).alternatives production ↔ ∃ rule ∈ rules, rule.IsFor production key := by
  rw [mem_alternatives_iff, ← Option.ne_none_iff_isSome, Ne, expansion?_eq_none_iff]
  simp only [not_forall, not_not, exists_prop]

theorem mem_names_addRule_iff {t : Table} {rule : Rule} :
    name ∈ (t.addRule rule).names ↔ rule.production = name ∨ name ∈ t.names := by
  unfold addRule names
  rw [Dictionary.mem_keys_insert_iff, eq_comm]

theorem mem_names_ofRules_iff :
    name ∈ (ofRules rules).names ↔ ∃ rule ∈ rules, rule.production = name := by
  induction rules using List.reverseRecOn with
  | nil => simp [ofRules, empty, names, Dictionary.empty, Dictionary.keys]
  | append_singleton rules rule ih =>
    rw [ofRules_append_singleton, mem_names_addRule_iff, ih]
    simp [or_and_right, exists_or, or_comm]

theorem mentions_ofRules_iff :
    (ofRules rules).Mentions name ↔
      ∃ rule, Survives rules rule ∧ .production name ∈ rule.terms := by
  constructor
  · rintro ⟨production, terms, ⟨key, hexpands⟩, hname⟩
    exact ⟨⟨production, key, terms⟩, expansion?_eq_some_iff_survives.mp hexpands, hname⟩
  · rintro ⟨rule, hsurvives, hname⟩
    exact ⟨rule.production, rule.terms, ⟨rule.key, expansion?_eq_some_iff_survives.mpr hsurvives⟩,
      hname⟩

theorem contains_ofRules_eq_false_iff :
    (ofRules rules).contains name = false ↔ ∀ rule ∈ rules, rule.production ≠ name := by
  have hcontains : (ofRules rules).contains name = true ↔ name ∈ (ofRules rules).names :=
    Dictionary.mem_keys_iff.symm
  rw [← Bool.not_eq_true, hcontains, mem_names_ofRules_iff]
  simp only [not_exists, not_and, ne_eq]

theorem holds_ofRules (rules : List Rule) : (ofRules rules).Holds rules where
  expansion _ _ _ := expansion?_eq_some_iff_survives
  none _ _ := expansion?_eq_none_iff
  alternatives production := ⟨sorted_alternatives _ _, fun _ => mem_alternatives_ofRules_iff⟩
  names := ⟨Dictionary.sorted_keys _, fun _ => mem_names_ofRules_iff⟩
  undefined := by
    refine ⟨Dictionary.sorted_keys _, fun name => ?_⟩
    rw [mem_undefined_iff, mentions_ofRules_iff, contains_ofRules_eq_false_iff]

/-- A table is the productions it has and what they become. -/
theorem ext_expansion? {t t' : Table} (hnames : ∀ name, name ∈ t.names ↔ name ∈ t'.names)
    (h : ∀ production key, t.expansion? production key = t'.expansion? production key) :
    t = t' := by
  suffices hproductions : t.productions = t'.productions by
    cases t
    cases t'
    cases hproductions
    rfl
  refine Dictionary.ext_get? fun production => ?_
  have hsome : (t.productions.get? production).isSome = true ↔
      (t'.productions.get? production).isSome = true := by
    rw [← Dictionary.mem_keys_iff, ← Dictionary.mem_keys_iff]
    exact hnames production
  have hexpansion := h production
  simp only [expansion?, branches?] at hexpansion
  cases hget : t.productions.get? production with
  | none =>
    cases hget' : t'.productions.get? production with
    | none => rfl
    | some branches' => simp [hget, hget'] at hsome
  | some branches =>
    cases hget' : t'.productions.get? production with
    | none => simp [hget, hget'] at hsome
    | some branches' =>
      rw [hget, hget'] at hexpansion
      exact congrArg some (Dictionary.ext_get? hexpansion)

theorem ofRules_eq_of_reordered {rules' : List Rule} (h : Reordered rules rules') :
    ofRules rules = ofRules rules' := by
  have hback : Reordered rules' rules := fun production key => (h production key).symm
  refine ext_expansion? (fun name => ?_) (fun production key => ?_)
  · rw [mem_names_ofRules_iff, mem_names_ofRules_iff]
    constructor
    · rintro ⟨rule, hrule, hname⟩
      exact ⟨rule, h.mem_of_mem hrule, hname⟩
    · rintro ⟨rule, hrule, hname⟩
      exact ⟨rule, hback.mem_of_mem hrule, hname⟩
  · rw [expansion?_eq_find?, expansion?_eq_find?, ← List.getLast?_filter, ← List.getLast?_filter,
      h production key]

end

/-- A table built from rules holds for each production and key the last rule for them. The rules for
one production and key have to stay in order, and no others. -/
theorem ofRules_lastRule :
    (∀ rules, (ofRules rules).Holds rules) ∧
    ∀ rules rules', Reordered rules rules' → ofRules rules = ofRules rules' :=
  ⟨holds_ofRules, fun _ _ => ofRules_eq_of_reordered⟩

/-- The last rule replaces the first, and another stands between them. -/
def replacedRules : List Rule :=
  [⟨"A", "x", [.production "C"]⟩, ⟨"B", "x", [.production "D"]⟩, ⟨"A", "x", [.terminal "x"]⟩]

def regroupedRules : List Rule :=
  [⟨"B", "x", [.production "D"]⟩, ⟨"A", "x", [.production "C"]⟩, ⟨"A", "x", [.terminal "x"]⟩]

/-- What only the replaced rule names is not missed, in either order. -/
theorem replacedRules_regrouped :
    Reordered replacedRules regroupedRules ∧ ofRules replacedRules = ofRules regroupedRules ∧
      (ofRules regroupedRules).expansion? "A" "x" = some [.terminal "x"] ∧
      (ofRules regroupedRules).undefined = ["D"] := by
  have hreordered : Reordered replacedRules regroupedRules := by
    intro production key
    by_cases hmoved : (Rule.mk "B" "x" [.production "D"]).IsFor production key
    · obtain ⟨rfl, rfl⟩ := hmoved
      decide
    · simp [replacedRules, regroupedRules, List.filter_cons, hmoved]
  have hsurvives : Survives regroupedRules ⟨"A", "x", [.terminal "x"]⟩ :=
    ⟨[⟨"B", "x", [.production "D"]⟩, ⟨"A", "x", [.production "C"]⟩], [], rfl, by simp⟩
  exact ⟨hreordered, ofRules_lastRule.2 _ _ hreordered,
    ((ofRules_lastRule.1 regroupedRules).expansion "A" "x" _).mpr hsurvives, by decide⟩

end Table

end SparqlQuery
