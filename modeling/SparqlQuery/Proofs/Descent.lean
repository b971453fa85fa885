import SparqlQuery.Proofs.QueryEntries

namespace SparqlQuery

/-- What a search for a derivation ends with. -/
inductive Descent where
  | found (trees : List ParseTree) (rest : List Token)
  | stuck
  | exhausted

namespace Descent

def next (d : Descent) (more : List ParseTree → List Token → Descent) : Descent :=
  match d with
  | found trees rest => more trees rest
  | stuck => stuck
  | exhausted => exhausted

def isStuck : Descent → Bool
  | stuck => true
  | found _ _ | exhausted => false

def isComplete : Descent → Bool
  | found _ rest => rest.isEmpty
  | stuck | exhausted => false

end Descent

namespace RuleGroup

def select (groups : List RuleGroup) (name key : String) : Option (List Term) :=
  (groups.find? fun group => group.production = name ∧ group.keys.contains key).map terms

/-- Derives terms from the front of some tokens, the branches chosen from groups. -/
def descend (groups : List RuleGroup) : Nat → List Term → List Token → Descent
  | 0, _, _ => .exhausted
  | _ + 1, [], tokens => .found [] tokens
  | _ + 1, .terminal _ :: _, [] => .stuck
  | fuel + 1, .terminal key :: terms, token :: tokens =>
    if token.key = key then
      (descend groups fuel terms tokens).next fun trees => .found (.leaf token :: trees)
    else .stuck
  | fuel + 1, .production name :: terms, tokens =>
    match select groups name (lookahead tokens) with
    | none => .stuck
    | some inner =>
      (descend groups fuel inner tokens).next fun children middle =>
        (descend groups fuel terms middle).next fun trees => .found (.node name children :: trees)

end RuleGroup

namespace Table

open RuleGroup

variable {t : Table} {groups : List RuleGroup} {terms more : List Term}
  {tokens other : List Token}

theorem ListedBy.expansion?_eq (hl : t.ListedBy groups) (name key : String) :
    t.expansion? name key = select groups name key := by
  unfold select
  cases hfind : groups.find? fun group =>
      group.production = name ∧ group.keys.contains key with
  | none =>
    cases h : t.expansion? name key with
    | none => rfl
    | some inner =>
      obtain ⟨group, hgroup, rfl, hkey, _⟩ := hl.mp h
      have := List.find?_eq_none.mp hfind group hgroup
      simp [hkey] at this
  | some group =>
    have hmem := List.mem_of_find?_eq_some hfind
    have hgroup := List.find?_some hfind
    simp only [List.contains_iff_mem, decide_eq_true_eq] at hgroup
    exact hl.mpr ⟨group, hmem, hgroup.1.symm, hgroup.2, rfl⟩

/-- What the end of a search says about derivations. -/
def Settles (t : Table) (terms : List Term) (tokens : List Token) : Descent → Prop
  | .found trees rest => Derives t.expands terms tokens trees rest
  | .stuck => ∀ trees rest, ¬ Derives t.expands terms tokens trees rest
  | .exhausted => True

/-- A search that needs another one first is stuck where that one is. -/
theorem Settles.next {d : Descent} {f : List ParseTree → List Token → Descent}
    (hd : t.Settles terms tokens d)
    (hfound : ∀ trees rest, Derives t.expands terms tokens trees rest →
      t.Settles more other (f trees rest))
    (hneeds : ∀ trees rest, Derives t.expands more other trees rest →
      ∃ inner middle, Derives t.expands terms tokens inner middle) :
    t.Settles more other (d.next f) := by
  cases d with
  | found trees rest => exact hfound trees rest hd
  | stuck =>
    intro trees rest h
    obtain ⟨inner, middle, hinner⟩ := hneeds trees rest h
    exact hd inner middle hinner
  | exhausted => trivial

theorem ListedBy.descend_settles (hl : t.ListedBy groups) (fuel : Nat) (terms : List Term)
    (tokens : List Token) : t.Settles terms tokens (descend groups fuel terms tokens) := by
  induction fuel generalizing terms tokens with
  | zero => trivial
  | succ fuel ih =>
    match terms, tokens with
    | [], tokens => exact .done tokens
    | .terminal key :: terms, [] => exact fun _ _ h => nomatch h
    | .terminal key :: terms, token :: tokens =>
      rw [descend]
      split
      next hkey =>
        refine (ih terms tokens).next (fun trees rest h => .terminal hkey h) ?_
        intro trees rest h
        cases h with
        | terminal _ after => exact ⟨_, _, after⟩
      next hkey =>
        intro trees rest h
        cases h with
        | terminal hkey' _ => exact hkey hkey'
    | .production name :: terms, tokens =>
      rw [descend]
      split
      next hselect =>
        intro trees rest h
        cases h with
        | production hname _ _ =>
          rw [← hl.expansion?_eq] at hselect
          cases hselect.symm.trans hname
      next inner hselect =>
        have hname : t.expands name (lookahead tokens) inner :=
          (hl.expansion?_eq _ _).trans hselect
        refine (ih inner tokens).next ?_ ?_
        · intro children middle hinside
          refine (ih terms middle).next (fun trees rest h => .production hname hinside h) ?_
          intro trees rest h
          cases h with
          | production hname' hinside' after =>
            obtain rfl := expands_unique hname hname'
            obtain ⟨rfl, rfl⟩ := hinside.expands_unique hinside'
            exact ⟨_, _, after⟩
        · intro trees rest h
          cases h with
          | production hname' hinside' _ =>
            obtain rfl := expands_unique hname hname'
            exact ⟨_, _, hinside'⟩

theorem ListedBy.derives_of_isComplete (hl : t.ListedBy groups) {fuel : Nat}
    (h : (descend groups fuel terms tokens).isComplete = true) :
    ∃ trees, Derives t.expands terms tokens trees [] := by
  have hsettles := hl.descend_settles fuel terms tokens
  cases hd : descend groups fuel terms tokens with
  | found trees rest =>
    rw [hd] at h hsettles
    obtain rfl : rest = [] := List.isEmpty_iff.mp h
    exact ⟨trees, hsettles⟩
  | stuck =>
    rw [hd] at h
    cases h
  | exhausted =>
    rw [hd] at h
    cases h

theorem ListedBy.not_derives_of_isStuck (hl : t.ListedBy groups) {fuel : Nat}
    (h : (descend groups fuel terms tokens).isStuck = true) (trees : List ParseTree)
    (rest : List Token) : ¬ Derives t.expands terms tokens trees rest := by
  have hsettles := hl.descend_settles fuel terms tokens
  cases hd : descend groups fuel terms tokens with
  | stuck =>
    rw [hd] at hsettles
    exact hsettles trees rest
  | found _ _ =>
    rw [hd] at h
    cases h
  | exhausted =>
    rw [hd] at h
    cases h

end Table

end SparqlQuery
