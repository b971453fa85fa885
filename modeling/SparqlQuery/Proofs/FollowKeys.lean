import SparqlQuery.Proofs.QueryEntries

namespace SparqlQuery

namespace Table

/-- The keys that may come first where terms are derived and `next` comes after them. -/
def Starts (t : Table) (next : String) : List Term → String → Prop
  | [], key => key = next
  | .terminal expected :: _, key => key = expected
  | .production name :: terms, key =>
    ∃ inner, t.expands name key inner ∧ (inner = [] → t.Starts next terms key)

/-- Whether all that may come after each production in some terms is allowed there. -/
def Fits (t : Table) (follow : String → String → Prop) (next : String) : List Term → Prop
  | [] => True
  | .terminal _ :: terms => t.Fits follow next terms
  | .production name :: terms =>
    (∀ key, t.Starts next terms key → follow name key) ∧ t.Fits follow next terms

/-- What begins two lists of terms begins the first one, before something that begins the
second, unless the first reads a token whatever comes after it. -/
theorem Starts.of_append {t : Table} {next key : String} {terms more : List Term}
    (h : t.Starts next (terms ++ more) key) :
    (∃ middle, t.Starts next more middle ∧ t.Starts middle terms key) ∨
      ∀ middle, t.Starts middle terms key := by
  induction terms with
  | nil => exact .inl ⟨key, h, rfl⟩
  | cons term terms ih =>
    cases term with
    | terminal expected => exact .inr fun _ => h
    | production name =>
      obtain ⟨inner, hname, hempty⟩ := h
      by_cases hinner : inner = []
      · rcases ih (hempty hinner) with ⟨middle, hmore, hterms⟩ | hterms
        · exact .inl ⟨middle, hmore, inner, hname, fun _ => hterms⟩
        · exact .inr fun middle => ⟨inner, hname, fun _ => hterms middle⟩
      · exact .inr fun _ => ⟨inner, hname, fun h => absurd h hinner⟩

theorem Fits.append {t : Table} {follow : String → String → Prop} {next : String}
    {terms more : List Term} (hstart : ∃ key, t.Starts next more key)
    (h : ∀ key, t.Starts next more key → t.Fits follow key terms)
    (hmore : t.Fits follow next more) : t.Fits follow next (terms ++ more) := by
  induction terms with
  | nil => exact hmore
  | cons term terms ih =>
    cases term with
    | terminal expected => exact ih h
    | production name =>
      refine ⟨?_, ih fun key hkey => (h key hkey).2⟩
      intro key hkey
      rcases hkey.of_append with ⟨middle, hmiddle, hterms⟩ | hterms
      · exact (h middle hmiddle).1 key hterms
      · obtain ⟨middle, hmiddle⟩ := hstart
        exact (h middle hmiddle).1 key (hterms middle)

/-- Keys that may follow the productions of a table: closed under its expansions, and enough to
choose between them. -/
structure Follows (t : Table) (follow : String → String → Prop) : Prop where
  closed : ∀ production terms next, t.produces production terms → follow production next →
    t.Fits follow next terms
  chosen : ∀ production terms next key, t.produces production terms → follow production next →
    t.Starts next terms key → t.expands production key terms

end Table

/-- Where the keys that may follow choose the expansion, no derivation takes another one. -/
theorem Derives.chosen {t : Table} {follow : String → String → Prop}
    {branch : String → String → List Term → Prop} {terms : List Term}
    {tokens rest : List Token} {trees : List ParseTree} (hf : t.Follows follow)
    (hb : ∀ production key inner, branch production key inner → t.produces production inner)
    (h : Derives branch terms tokens trees rest) (hfit : t.Fits follow (lookahead rest) terms) :
    Derives (fun production key inner => branch production key inner ∧
      t.expands production key inner) terms tokens trees rest ∧
        t.Starts (lookahead rest) terms (lookahead tokens) := by
  induction h with
  | done tokens => exact ⟨.done tokens, rfl⟩
  | terminal hkey _ ih => exact ⟨.terminal hkey (ih hfit).1, hkey⟩
  | @production name inner terms tokens middle rest children trees hname hinside _ ihInside
      ihAfter =>
    obtain ⟨hallowed, hfit⟩ := hfit
    obtain ⟨hafter, hstart⟩ := ihAfter hfit
    have hfollow := hallowed _ hstart
    have hproduces := hb _ _ _ hname
    obtain ⟨hinner, hfirst⟩ := ihInside (hf.closed _ _ _ hproduces hfollow)
    have hexpands := hf.chosen _ _ _ _ hproduces hfollow hfirst
    refine ⟨.production ⟨hname, hexpands⟩ hinner hafter, inner, hexpands, ?_⟩
    rintro rfl
    cases hinside
    exact hstart

/-- A set of keys, with `none` for all of them. -/
abbrev KeySet := Option (List String)

namespace KeySet

def Has (set : KeySet) (key : String) : Prop :=
  ∀ keys ∈ set, key ∈ keys

def within : KeySet → KeySet → Bool
  | _, none => true
  | none, some _ => false
  | some keys, some wider => keys.all wider.contains

theorem Has.of_within {set wider : KeySet} {key : String} (h : set.Has key)
    (hw : set.within wider = true) : wider.Has key := by
  cases wider with
  | none => simp [Has]
  | some wider =>
    cases set with
    | none => simp [within] at hw
    | some keys =>
      have hkey := List.all_eq_true.mp hw key (h keys rfl)
      simpa [Has] using hkey

theorem has_some {keys : List String} {key : String} : Has (some keys) key ↔ key ∈ keys := by
  simp [Has]

end KeySet

namespace RuleGroup

variable (groups : List RuleGroup)

def openingKeys (name : String) : List String :=
  (groups.filter fun group => group.production = name ∧ group.terms ≠ []).flatMap keys

def erasable (name : String) : Bool :=
  groups.any fun group => group.production = name ∧ group.terms = []

def branchKeys (name : String) (terms : List Term) : List String :=
  (groups.filter fun group => group.production = name ∧ group.terms = terms).flatMap keys

def firstKeys : List Term → List String
  | [] => []
  | .terminal key :: _ => [key]
  | .production name :: terms =>
    openingKeys groups name ++ if erasable groups name then firstKeys terms else []

def passable : List Term → Bool
  | [] => true
  | .terminal _ :: _ => false
  | .production name :: terms => erasable groups name && passable terms

variable (follow : String → KeySet)

/-- Whether what comes after each production in a branch of `parent` is allowed there. -/
def fitting (parent : String) : List Term → Bool
  | [] => true
  | .terminal _ :: terms => fitting parent terms
  | .production name :: terms =>
    KeySet.within (some (firstKeys groups terms)) (follow name) &&
      (!passable groups terms || (follow parent).within (follow name)) && fitting parent terms

/-- Whether a branch is there for each key that it may begin at. -/
def reachable (group : RuleGroup) : Bool :=
  let keys := branchKeys groups group.production group.terms
  KeySet.within (some (firstKeys groups group.terms)) (some keys) &&
    (!passable groups group.terms || (follow group.production).within (some keys))

end RuleGroup

namespace Table

open RuleGroup

variable {t : Table} {groups : List RuleGroup} {follow : String → KeySet} {next key : String}
  {terms : List Term}

theorem ListedBy.starts (hl : t.ListedBy groups) (h : t.Starts next terms key) :
    key ∈ firstKeys groups terms ∨ passable groups terms = true ∧ key = next := by
  induction terms with
  | nil => exact .inr ⟨rfl, h⟩
  | cons term terms ih =>
    cases term with
    | terminal expected =>
      obtain rfl : key = expected := h
      exact .inl List.mem_cons_self
    | production name =>
      obtain ⟨inner, hexpands, hempty⟩ := h
      obtain ⟨group, hgroup, rfl, hkey, rfl⟩ := hl.mp hexpands
      by_cases hterms : group.terms = []
      · have herase : erasable groups group.production = true :=
          List.any_eq_true.mpr ⟨group, hgroup, by simp [hterms]⟩
        simp only [firstKeys, passable, herase, if_true, Bool.true_and, List.mem_append]
        exact (ih (hempty hterms)).imp_left .inr
      · refine .inl (List.mem_append_left _ (List.mem_flatMap.mpr ⟨group, ?_, hkey⟩))
        simp [hgroup, hterms]

theorem ListedBy.fits (hl : t.ListedBy groups) {parent : String}
    (hcheck : fitting groups follow parent terms = true) (hnext : (follow parent).Has next) :
    t.Fits (fun name => (follow name).Has) next terms := by
  induction terms with
  | nil => trivial
  | cons term terms ih =>
    cases term with
    | terminal expected => exact ih hcheck
    | production name =>
      simp only [fitting, Bool.and_eq_true, Bool.or_eq_true, Bool.not_eq_true'] at hcheck
      obtain ⟨⟨hfirst, hpass⟩, hrest⟩ := hcheck
      refine ⟨?_, ih hrest⟩
      intro key hstart
      rcases hl.starts hstart with hkey | ⟨hp, rfl⟩
      · exact (KeySet.has_some.mpr hkey).of_within hfirst
      · rcases hpass with hpass | hpass
        · simp [hp] at hpass
        · exact hnext.of_within hpass

theorem ListedBy.expands_of_mem_branchKeys (hl : t.ListedBy groups) {name : String}
    (h : key ∈ branchKeys groups name terms) : t.expands name key terms := by
  obtain ⟨group, hgroup, hkey⟩ := List.mem_flatMap.mp h
  simp only [List.mem_filter, decide_eq_true_eq] at hgroup
  obtain ⟨hmem, rfl, rfl⟩ := hgroup
  exact hl.mpr ⟨group, hmem, rfl, hkey, rfl⟩

theorem ListedBy.follows (hl : t.ListedBy groups)
    (hfit : ∀ group ∈ groups, fitting groups follow group.production group.terms = true)
    (hreach : ∀ group ∈ groups, reachable groups follow group = true) :
    t.Follows fun name => (follow name).Has where
  closed := by
    rintro production terms next ⟨key, hexpands⟩ hnext
    obtain ⟨group, hgroup, rfl, _, rfl⟩ := hl.mp hexpands
    exact hl.fits (hfit group hgroup) hnext
  chosen := by
    rintro production terms next key ⟨_, hexpands⟩ hnext hstart
    obtain ⟨group, hgroup, rfl, _, rfl⟩ := hl.mp hexpands
    have hcheck := hreach group hgroup
    simp only [reachable, Bool.and_eq_true, Bool.or_eq_true, Bool.not_eq_true'] at hcheck
    obtain ⟨hfirst, hpass⟩ := hcheck
    refine hl.expands_of_mem_branchKeys (KeySet.has_some.mp ?_)
    rcases hl.starts hstart with hkey | ⟨hp, rfl⟩
    · exact (KeySet.has_some.mpr hkey).of_within hfirst
    · rcases hpass with hpass | hpass
      · simp [hp] at hpass
      · exact hnext.of_within hpass

end Table

end SparqlQuery
