import SparqlQuery.Proofs.FailureState
import SparqlQuery.Proofs.QueryEntries
import SparqlQuery.Proofs.ViablePrefix

namespace SparqlQuery

namespace Dictionary

variable {α : Type}

theorem mem_keys_insert_iff {d : Dictionary α} {key other : String} {item : α} :
    other ∈ (d.insert key item).keys ↔ other = key ∨ other ∈ d.keys := by
  rw [mem_keys_iff, mem_keys_iff, get?_insert]
  by_cases h : other = key <;> simp [h]

theorem mem_keys_ofList_iff {entries : List (String × α)} {key : String} :
    key ∈ (ofList entries).keys ↔ key ∈ entries.map Prod.fst := by
  induction entries using List.reverseRecOn with
  | nil => simp [ofList, empty, keys]
  | append_singleton entries entry ih =>
    have hlast : ofList (entries ++ [entry]) = (ofList entries).insert entry.1 entry.2 := by
      simp [ofList]
    rw [hlast, mem_keys_insert_iff, ih, List.map_append, List.mem_append, or_comm]
    simp

theorem mem_values_iff {d : Dictionary α} {item : α} :
    item ∈ d.values ↔ ∃ key, d.get? key = some item := by
  simp [values, get?_eq_some_iff]

end Dictionary

theorem mem_sortedNames_iff {names : List String} {name : String} :
    name ∈ sortedNames names ↔ name ∈ names := by
  rw [sortedNames, Dictionary.mem_keys_ofList_iff, List.map_map]
  simp

namespace Table

/-- Some expansion of the table names the production. -/
def Mentions (t : Table) (name : String) : Prop :=
  ∃ production terms, t.produces production terms ∧ Term.production name ∈ terms

section

variable {t : Table} {name : String}

theorem contains_of_expands {key : String} {terms : List Term}
    (h : t.expands name key terms) : t.contains name = true :=
  Dictionary.mem_keys_iff.mp (mem_names_of_expands h)

theorem mem_expansions_iff {terms : List Term} :
    terms ∈ t.expansions ↔ ∃ production, t.produces production terms := by
  simp only [expansions, List.mem_flatMap, Dictionary.mem_values_iff, produces, expansion?,
    branches?, Option.bind_eq_some_iff]
  constructor
  · rintro ⟨branches, ⟨production, hbranches⟩, key, hkey⟩
    exact ⟨production, key, branches, hbranches, hkey⟩
  · rintro ⟨production, key, branches, hbranches, hkey⟩
    exact ⟨branches, ⟨production, hbranches⟩, key, hkey⟩

/-- The undefined productions are the ones named without being defined. -/
theorem mem_undefined_iff : name ∈ t.undefined ↔ t.Mentions name ∧ t.contains name = false := by
  simp only [undefined, mem_sortedNames_iff, List.mem_filterMap, List.mem_flatten,
    mem_expansions_iff]
  constructor
  · rintro ⟨term, ⟨terms, ⟨production, hterms⟩, hmem⟩, hname⟩
    cases term with
    | terminal key => cases hname
    | production other =>
      cases hdefined : t.contains other with
      | true => simp [hdefined] at hname
      | false =>
        obtain rfl : other = name := by simpa [hdefined] using hname
        exact ⟨⟨production, terms, hterms, hmem⟩, hdefined⟩
  · rintro ⟨⟨production, terms, hterms, hmem⟩, hdefined⟩
    exact ⟨.production name, ⟨terms, ⟨production, hterms⟩, hmem⟩, by simp [hdefined]⟩

theorem undefined_eq_nil_iff :
    t.undefined = [] ↔ ∀ name, t.Mentions name → t.contains name = true := by
  simp only [List.eq_nil_iff_forall_not_mem, mem_undefined_iff, not_and, Bool.not_eq_false]

end

section

variable {σ : Type} [Sink σ] {t : Table} {start production : String}
  {state after : ParseState σ}

/-- Every production still to be entered is the start or named by an expansion. -/
def Known (t : Table) (start : String) (stack : List Frame) : Prop :=
  ∀ name, Term.production name ∈ pendingTerms stack → name = start ∨ t.Mentions name

theorem known_start (t : Table) (start : String) : t.Known start [⟨start, none⟩] := by
  intro name hname
  left
  simpa [pendingTerms, Frame.rest] using hname

theorem Moves.known (h : t.Moves state after) (hk : t.Known start state.stack) :
    t.Known start after.stack := by
  intro name hname
  cases h with
  | @enter entered below terms _ _ _ _ hexpands =>
    rcases List.mem_append.mp hname with hterms | hbelow
    · exact .inr ⟨entered, terms, ⟨_, hexpands⟩, hterms⟩
    · exact hk name (List.mem_append_right _ hbelow)
  | push => exact hk name hname
  | read => exact hk name (List.mem_cons_of_mem _ hname)
  | exit => exact hk name hname

theorem refusal_eq_noExpansion {name : String} {found : Option Token}
    (h : t.refusal name found = .noExpansion production) :
    name = production ∧ t.contains production = false := by
  unfold refusal at h
  split at h
  next => cases h
  next hdefined =>
    cases h
    exact ⟨rfl, Bool.eq_false_iff.mpr hdefined⟩

/-- A run that finds no expansion found none for a production its stack knew of. -/
theorem run_noExpansion (hk : t.Known start state.stack)
    (h : (t.run start state).1 = .rejected (.noExpansion production)) :
    (production = start ∨ t.Mentions production) ∧ t.contains production = false := by
  revert hk h
  refine run_induction (motive := fun state result => t.Known start state.stack →
    result.1 = .rejected (.noExpansion production) →
    (production = start ∨ t.Mentions production) ∧ t.contains production = false) ?_ ?_ state
  · intro state outcome sink hs hk h
    obtain rfl : outcome = .rejected (.noExpansion production) := h
    generalize hrefused : Outcome.rejected (.noExpansion production) = outcome at hs
    cases hs with
    | accepted => cases hrefused
    | trailing => cases hrefused
    | endless => cases hrefused
    | mismatch => cases hrefused
    | @refused name below tokens _ _ _ _ =>
      obtain ⟨rfl, hdefined⟩ := refusal_eq_noExpansion (Outcome.rejected.inj hrefused).symm
      exact ⟨hk name List.mem_cons_self, hdefined⟩
  · intro state after result hm ih hk h
    exact ih (hm.known hk) h

theorem drive_noExpansion {tokens : List Token} {sink : σ}
    (h : (t.drive start tokens sink).1 = .rejected (.noExpansion production)) :
    production = start ∧ t.contains start = false ∨ production ∈ t.undefined := by
  by_cases hne : tokens = []
  · subst hne
    obtain ⟨rfl, hdefined⟩ := refusal_eq_noExpansion (Outcome.rejected.inj h)
    exact .inl ⟨rfl, hdefined⟩
  · rw [drive_of_ne_nil t start hne] at h
    obtain ⟨rfl | hmentions, hdefined⟩ := run_noExpansion (known_start t start) h
    · exact .inl ⟨rfl, hdefined⟩
    · exact .inr (mem_undefined_iff.mpr ⟨hmentions, hdefined⟩)

end

theorem queryTable_contains {name : String} (h : name ∈ closingOrder) :
    queryTable.contains name = true := by
  have hend : lookahead [] ≠ numberKey := by decide
  obtain ⟨trees, hderives⟩ := derives_closingWord closingOrder_closes h hend
  obtain ⟨inner, _, _, ⟨⟨key, hexpands⟩, _⟩, _⟩ := hderives.production_tree
  exact contains_of_expands hexpands

theorem queryTable_contains_of_mentions {name : String} (h : queryTable.Mentions name) :
    queryTable.contains name = true := by
  obtain ⟨production, terms, ⟨key, hterms⟩, hname⟩ := h
  obtain ⟨group, hgroup, _, _, rfl⟩ := queryTable_listedBy.mp hterms
  have hclosable := List.all_eq_true.mp queryGroups_closable group hgroup
  have hamong := List.all_eq_true.mp (all_among_of_closable hclosable) _ hname
  exact queryTable_contains (by simpa [Term.among] using hamong)

theorem queryTable_undefined : queryTable.undefined = [] :=
  undefined_eq_nil_iff.mpr fun _ => queryTable_contains_of_mentions

/-- A parse misses an expansion only for a start production that the table lacks, or for an
undefined one. A table with none undefined, as the query table is, has an expansion for whatever
is entered from a production of its own. -/
theorem noExpansion_undefined {σ : Type} [Sink σ] :
    (∀ (t : Table) (start : String) (tokens : List Token) (sink : σ) (production : String),
      (t.drive start tokens sink).1 = .rejected (.noExpansion production) →
        production = start ∧ t.contains start = false ∨ production ∈ t.undefined) ∧
    (∀ t : Table, t.undefined = [] → ∀ start, t.contains start = true →
      ∀ (tokens : List Token) (sink : σ) (production : String),
        (t.drive start tokens sink).1 ≠ .rejected (.noExpansion production)) ∧
    queryTable.undefined = [] := by
  refine ⟨fun _ _ _ _ _ => drive_noExpansion, ?_, queryTable_undefined⟩
  intro t hclosed start hstart tokens sink production h
  rcases drive_noExpansion h with ⟨_, hlacks⟩ | hundefined
  · rw [hstart] at hlacks
    cases hlacks
  · rw [hclosed] at hundefined
    cases hundefined

/-- A table in which one production becomes another that is missing. -/
def holedTable : Table :=
  ofRules [⟨"List", "[", [.production "Items"]⟩]

theorem holedTable_noExpansion :
    (holedTable.drive "List" [.sample "[", .sample "]"] ({} : Collector)).1 =
        .rejected (.noExpansion "Items") ∧
      "Items" ∈ holedTable.undefined ∧
      ∀ tokens production, (queryTable.drive startProduction tokens ({} : Collector)).1 ≠
        .rejected (.noExpansion production) := by
  have hdrive : (holedTable.drive "List" [.sample "[", .sample "]"] ({} : Collector)).1 =
      .rejected (.noExpansion "Items") := by
    have hlist : holedTable.expands "List" (lookahead [.sample "[", .sample "]"])
        [.production "Items"] := by
      unfold expands
      decide
    rw [drive_of_ne_nil _ _ (List.cons_ne_nil _ _), run_of_moves (.enter (by decide) hlist),
      run_of_moves .push, run_of_stops (.refused (by decide) (by decide))]
    decide
  refine ⟨hdrive, ?_, ?_⟩
  · exact (noExpansion_undefined.1 _ _ _ _ _ hdrive).resolve_left (by decide)
  · intro tokens production
    have hstart : queryTable.contains startProduction = true :=
      queryTable_contains (by decide)
    exact noExpansion_undefined.2.1 _ queryTable_undefined _ hstart _ _ _

end Table

end SparqlQuery
