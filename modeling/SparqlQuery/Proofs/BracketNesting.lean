import SparqlQuery.Proofs.Descent
import SparqlQuery.Proofs.DriverDerivation

namespace SparqlQuery

/-- The keys that open a bracket, each with the one that closes it. -/
def bracketPairs : List (String × String) :=
  [("\x7b", "\x7d"), ("(", ")"), ("[", "]")]

def isBracket (key : String) : Bool :=
  bracketPairs.any fun pair => key == pair.1 || key == pair.2

/-- Brackets of which each opening one is closed by the one that belongs to it, properly nested. -/
inductive Bracketed : List String → Prop
  | nil : Bracketed []
  | pair {opening closing : String} {inside after : List String}
      (hpair : (opening, closing) ∈ bracketPairs) (hinside : Bracketed inside)
      (hafter : Bracketed after) : Bracketed (opening :: (inside ++ closing :: after))

/-- Brackets that close those which are due, innermost first, with nested ones in between. -/
inductive Closes : List String → List String → Prop
  | done {keys : List String} (h : Bracketed keys) : Closes [] keys
  | next {closing : String} {due before after : List String} (hbefore : Bracketed before)
      (hafter : Closes due after) : Closes (closing :: due) (before ++ closing :: after)

/-- The closing brackets due after a key, innermost first. No bracket but the innermost one can be
closed. -/
def dueAfterKey (due : List String) (key : String) : Option (List String) :=
  match bracketPairs.lookup key with
  | some closing => some (closing :: due)
  | none =>
    if isBracket key then
      match due with
      | [] => none
      | closing :: outer => if key = closing then some outer else none
    else some due

def dueAfter (due keys : List String) : Option (List String) :=
  keys.foldlM dueAfterKey due

section

variable {due due' keys more before : List String} {key closing : String}

@[simp] theorem dueAfter_nil (due : List String) : dueAfter due [] = some due :=
  rfl

@[simp] theorem dueAfter_cons (due : List String) (key : String) (keys : List String) :
    dueAfter due (key :: keys) = (dueAfterKey due key).bind (dueAfter · keys) :=
  rfl

theorem Bracketed.append (h : Bracketed keys) (hmore : Bracketed more) :
    Bracketed (keys ++ more) := by
  induction h with
  | nil => exact hmore
  | pair hpair hinside _ _ ih =>
    rw [List.cons_append, List.append_assoc, List.cons_append]
    exact .pair hpair hinside ih

theorem Closes.prepend (hbefore : Bracketed before) (h : Closes due keys) :
    Closes due (before ++ keys) := by
  cases h with
  | done h => exact .done (hbefore.append h)
  | next hfront hafter =>
    rw [← List.append_assoc]
    exact .next (hbefore.append hfront) hafter

/-- What one key leaves due: an opening bracket adds its own, the closing bracket that is due takes
itself off, and any other key that is no bracket changes nothing. -/
theorem dueAfterKey_cases (h : dueAfterKey due key = some due') :
    (∃ closing, (key, closing) ∈ bracketPairs ∧ due' = closing :: due) ∨
      due = key :: due' ∨ isBracket key = false ∧ due' = due := by
  unfold dueAfterKey at h
  split at h
  next closing hlookup =>
    obtain ⟨before, after, heq, -⟩ := List.lookup_eq_some_iff.mp hlookup
    have hmem : (key, closing) ∈ bracketPairs := by simp [heq]
    exact .inl ⟨closing, hmem, (Option.some.inj h).symm⟩
  next =>
    split at h
    next =>
      split at h
      next => cases h
      next closing outer =>
        split at h
        next hkey => exact .inr (.inl (by rw [hkey, Option.some.inj h]))
        next => cases h
    next hnot => exact .inr (.inr ⟨by simpa using hnot, (Option.some.inj h).symm⟩)

theorem isBracket_of_mem (h : (key, closing) ∈ bracketPairs) : isBracket key = true :=
  List.any_eq_true.mpr ⟨_, h, by simp⟩

/-- A stack of due brackets is worked off by brackets that close them one after the other. -/
theorem closes_of_dueAfter (hkeys : ∀ key ∈ keys, isBracket key = true)
    (h : dueAfter due keys = some []) : Closes due keys := by
  induction keys generalizing due with
  | nil =>
    obtain rfl : due = [] := Option.some.inj h
    exact .done .nil
  | cons key keys ih =>
    obtain ⟨hkey, hkeys⟩ := List.forall_mem_cons.mp hkeys
    rw [dueAfter_cons] at h
    obtain ⟨due', hdue, hrest⟩ := Option.bind_eq_some_iff.mp h
    have hcloses := ih hkeys hrest
    rcases dueAfterKey_cases hdue with ⟨closing, hpair, rfl⟩ | rfl | ⟨hnot, -⟩
    · cases hcloses with
      | @next _ _ inside after hinside hafter =>
        have hfront : Bracketed (key :: (inside ++ [closing])) := .pair hpair hinside .nil
        have hall := hafter.prepend hfront
        rwa [List.cons_append, List.append_assoc] at hall
    · exact .next .nil hcloses
    · rw [hkey] at hnot
      cases hnot

theorem bracketed_of_dueAfter (hkeys : ∀ key ∈ keys, isBracket key = true)
    (h : dueAfter [] keys = some []) : Bracketed keys := by
  cases closes_of_dueAfter hkeys h with
  | done h => exact h

theorem dueAfterKey_of_not_isBracket (h : isBracket key = false) :
    dueAfterKey due key = some due := by
  have hlookup : bracketPairs.lookup key = none := by
    rw [List.lookup_eq_none_iff]
    intro pair hpair
    by_contra hne
    have hkey : key = pair.1 := by simpa using hne
    have htrue := isBracket_of_mem hpair
    rw [← hkey, h] at htrue
    cases htrue
  simp [dueAfterKey, hlookup, h]

theorem dueAfter_filter (due keys : List String) :
    dueAfter due (keys.filter isBracket) = dueAfter due keys := by
  induction keys generalizing due with
  | nil => rfl
  | cons key keys ih =>
    cases hkey : isBracket key with
    | true =>
      rw [List.filter_cons_of_pos hkey, dueAfter_cons, dueAfter_cons]
      exact congrArg _ (funext ih)
    | false =>
      rw [List.filter_cons_of_neg (by simp [hkey]), dueAfter_cons,
        dueAfterKey_of_not_isBracket hkey, Option.bind_some, ih]

theorem dueAfterKey_append (h : dueAfterKey due key = some due') (outer : List String) :
    dueAfterKey (due ++ outer) key = some (due' ++ outer) := by
  unfold dueAfterKey at h ⊢
  split at h
  next closing _ => rw [← Option.some.inj h, List.cons_append]
  next =>
    by_cases hbracket : isBracket key = true
    · rw [if_pos hbracket] at h ⊢
      cases due with
      | nil => cases h
      | cons closing inner =>
        simp only [List.cons_append] at h ⊢
        split at h
        next hkey => rw [if_pos hkey, Option.some.inj h]
        next => cases h
    · rw [if_neg hbracket] at h ⊢
      rw [Option.some.inj h]

/-- What is due further out does not matter. -/
theorem dueAfter_append (h : dueAfter due keys = some due') (outer : List String) :
    dueAfter (due ++ outer) keys = some (due' ++ outer) := by
  induction keys generalizing due with
  | nil =>
    obtain rfl := Option.some.inj h
    rfl
  | cons key keys ih =>
    rw [dueAfter_cons] at h ⊢
    obtain ⟨middle, hkey, hrest⟩ := Option.bind_eq_some_iff.mp h
    rw [dueAfterKey_append hkey outer, Option.bind_some]
    exact ih hrest

end

def Term.terminalKey? : Term → Option String
  | .terminal key => some key
  | .production _ => none

/-- The keys that stand in some terms themselves. -/
def terminalKeys (terms : List Term) : List String :=
  terms.filterMap Term.terminalKey?

/-- Terms in which no bracket stands without its other half. -/
def closesBrackets (terms : List Term) : Bool :=
  dueAfter [] (terminalKeys terms) == some []

/-- Where every branch closes its brackets, what terms derive leaves the same brackets due as the
terms themselves. -/
theorem Derives.due_eq {branch : String → String → List Term → Prop}
    (hbranch : ∀ production key inner, branch production key inner → closesBrackets inner = true)
    {terms : List Term} {tokens rest : List Token} {trees : List ParseTree}
    (h : Derives branch terms tokens trees rest) : ∃ front, tokens = front ++ rest ∧
      ∀ due, dueAfter due (front.map Token.key) = dueAfter due (terminalKeys terms) := by
  induction h with
  | done tokens => exact ⟨[], rfl, fun _ => rfl⟩
  | @terminal key token terms tokens rest trees hkey _ ih =>
    obtain ⟨front, rfl, hfront⟩ := ih
    refine ⟨token :: front, rfl, ?_⟩
    intro due
    have hkeys : terminalKeys (.terminal key :: terms) = key :: terminalKeys terms := rfl
    rw [hkeys, List.map_cons, hkey, dueAfter_cons, dueAfter_cons]
    exact congrArg _ (funext hfront)
  | @production name inner terms tokens middle rest children trees hname _ _ ihInside ihAfter =>
    obtain ⟨inside, rfl, hinside⟩ := ihInside
    obtain ⟨front, rfl, hfront⟩ := ihAfter
    refine ⟨inside ++ front, by rw [List.append_assoc], ?_⟩
    intro due
    have hkeys : terminalKeys (.production name :: terms) = terminalKeys terms := rfl
    have hempty : dueAfter [] (terminalKeys inner) = some [] := by
      simpa [closesBrackets] using hbranch _ _ _ hname
    have hneutral : dueAfter due (inside.map Token.key) = some due := by
      have hdue := dueAfter_append hempty due
      rw [List.nil_append] at hdue
      rw [hinside, hdue]
    rw [hkeys, List.map_append, ← hfront due]
    unfold dueAfter at hneutral ⊢
    rw [List.foldlM_append, hneutral]
    rfl

theorem queryGroups_closeBrackets :
    (queryGroups.all fun group => closesBrackets group.terms) = true := by
  decide

/-- The brackets of whatever is accepted match, from each production of the grammar of queries. -/
theorem accepted_bracketed {σ : Type} [Sink σ] {start : String} {tokens : List Token} {sink : σ}
    (h : (queryTable.drive start tokens sink).1 = .accepted) :
    Bracketed ((tokens.map Token.key).filter isBracket) := by
  by_cases hne : tokens = []
  · rw [hne]
    exact .nil
  · have hbranch : ∀ production key inner, queryTable.expands production key inner →
        closesBrackets inner = true := by
      intro production key inner hname
      obtain ⟨group, hgroup, -, -, rfl⟩ := queryTable_listedBy.mp hname
      exact List.all_eq_true.mp queryGroups_closeBrackets group hgroup
    obtain ⟨tree, htree⟩ := (Table.drive_accepted_iff hne sink).mp h
    obtain ⟨front, hfront, hdue⟩ := htree.due_eq hbranch
    rw [List.append_nil] at hfront
    subst hfront
    have hclosed : dueAfter [] ((tokens.map Token.key).filter isBracket) = some [] := by
      rw [dueAfter_filter, hdue []]
      rfl
    exact bracketed_of_dueAfter (fun _ hkey => (List.mem_filter.mp hkey).2) hclosed

/-- The tokens of `{ ?a ?b ( 1 [ ?c ?d ] ) }`. -/
def nestedBrackets : List Token :=
  [⟨.delimiter, .text "\x7b", {}⟩, ⟨.variableName, .text "a", {}⟩, ⟨.variableName, .text "b", {}⟩,
    ⟨.delimiter, .text "(", {}⟩, ⟨.numericLiteral, .integer 1, {}⟩, ⟨.delimiter, .text "[", {}⟩,
    ⟨.variableName, .text "c", {}⟩, ⟨.variableName, .text "d", {}⟩, ⟨.delimiter, .text "]", {}⟩,
    ⟨.delimiter, .text ")", {}⟩, ⟨.delimiter, .text "\x7d", {}⟩]

theorem nestedBrackets_bracketed :
    (queryTable.drive "GroupGraphPattern" nestedBrackets ({} : Collector)).1 = .accepted ∧
      Bracketed ["\x7b", "(", "[", "]", ")", "\x7d"] := by
  have hne : nestedBrackets ≠ [] := List.cons_ne_nil _ _
  have hcomplete : (RuleGroup.descend queryGroups 60 [.production "GroupGraphPattern"]
      nestedBrackets).isComplete = true := by decide
  obtain ⟨trees, htrees⟩ := queryTable_listedBy.derives_of_isComplete hcomplete
  obtain ⟨_, _, rfl, _⟩ := htrees.production_tree
  have haccepted := (Table.drive_accepted_iff hne ({} : Collector)).mpr ⟨_, htrees⟩
  exact ⟨haccepted, accepted_bracketed haccepted⟩

end SparqlQuery
