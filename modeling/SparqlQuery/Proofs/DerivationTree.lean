import SparqlQuery.ParseStep

namespace SparqlQuery

/-- How tokens are derived: a production and what it became at a node, a token at a leaf. -/
inductive ParseTree where
  | leaf (token : Token)
  | node (production : String) (children : List ParseTree)

mutual

/-- The events of walking through a tree. A leaf belongs to the production above it. -/
def ParseTree.events (parent : String) : ParseTree → List Event
  | .leaf token => [.token parent token.kind token.value]
  | .node production children =>
    .enter production :: (forestEvents production children ++ [.exit production])

def forestEvents (parent : String) : List ParseTree → List Event
  | [] => []
  | tree :: trees => tree.events parent ++ forestEvents parent trees

end

/-- Terms derived from the front of some tokens: the trees that show how, and the tokens left.
`branch` says what a production may become at the key of the token that comes next. -/
inductive Derives (branch : String → String → List Term → Prop) :
    List Term → List Token → List ParseTree → List Token → Prop
  | done (tokens : List Token) : Derives branch [] tokens [] tokens
  | terminal {key : String} {token : Token} {terms : List Term} {tokens rest : List Token}
      {trees : List ParseTree} (hkey : token.key = key)
      (after : Derives branch terms tokens trees rest) :
      Derives branch (.terminal key :: terms) (token :: tokens) (.leaf token :: trees) rest
  | production {name : String} {inner terms : List Term} {tokens middle rest : List Token}
      {children trees : List ParseTree} (hname : branch name (lookahead tokens) inner)
      (inside : Derives branch inner tokens children middle)
      (after : Derives branch terms middle trees rest) :
      Derives branch (.production name :: terms) tokens (.node name children :: trees) rest

def Table.expands (t : Table) (production key : String) (terms : List Term) : Prop :=
  t.expansion? production key = some terms

/-- What a table has a production become at any key. -/
def Table.produces (t : Table) (production : String) (terms : List Term) : Prop :=
  ∃ key, t.expansion? production key = some terms

theorem Table.expands_unique {t : Table} {production key : String} {terms other : List Term}
    (h : t.expands production key terms) (ho : t.expands production key other) :
    terms = other :=
  Option.some.inj (h.symm.trans ho)

namespace Derives

variable {branch other : String → String → List Term → Prop}
  {terms more : List Term} {tokens middle rest : List Token} {trees moreTrees : List ParseTree}

theorem mono (h : Derives branch terms tokens trees rest)
    (hb : ∀ production key inner, branch production key inner → other production key inner) :
    Derives other terms tokens trees rest := by
  induction h with
  | done tokens => exact .done tokens
  | terminal hkey _ ih => exact .terminal hkey ih
  | production hname _ _ ihInside ihAfter => exact .production (hb _ _ _ hname) ihInside ihAfter

theorem append (h : Derives branch terms tokens trees middle)
    (hm : Derives branch more middle moreTrees rest) :
    Derives branch (terms ++ more) tokens (trees ++ moreTrees) rest := by
  induction h with
  | done tokens => exact hm
  | terminal hkey _ ih => exact .terminal hkey (ih hm)
  | production hname inside _ _ ihAfter => exact .production hname inside (ihAfter hm)

theorem split (h : Derives branch (terms ++ more) tokens trees rest) :
    ∃ front back middle, trees = front ++ back ∧ Derives branch terms tokens front middle ∧
      Derives branch more middle back rest := by
  induction terms generalizing tokens trees with
  | nil => exact ⟨[], trees, tokens, rfl, .done tokens, h⟩
  | cons term terms ih =>
    cases h with
    | terminal hkey after =>
      obtain ⟨front, back, middle, rfl, hfront, hback⟩ := ih after
      exact ⟨_ :: front, back, middle, rfl, .terminal hkey hfront, hback⟩
    | production hname inside after =>
      obtain ⟨front, back, middle, rfl, hfront, hback⟩ := ih after
      exact ⟨_ :: front, back, middle, rfl, .production hname inside hfront, hback⟩

/-- Where each key leaves one choice at most, so do the tokens. -/
theorem unique (hb : ∀ production key inner inner', branch production key inner →
      branch production key inner' → inner = inner')
    {trees' : List ParseTree} {rest' : List Token} (h : Derives branch terms tokens trees rest)
    (h' : Derives branch terms tokens trees' rest') : trees = trees' ∧ rest = rest' := by
  induction h generalizing trees' rest' with
  | done tokens =>
    cases h'
    exact ⟨rfl, rfl⟩
  | terminal _ _ ih =>
    cases h' with
    | terminal _ after =>
      obtain ⟨rfl, rfl⟩ := ih after
      exact ⟨rfl, rfl⟩
  | production hname _ _ ihInside ihAfter =>
    cases h' with
    | production hname' inside after =>
      obtain rfl := hb _ _ _ _ hname hname'
      obtain ⟨rfl, rfl⟩ := ihInside inside
      obtain ⟨rfl, rfl⟩ := ihAfter after
      exact ⟨rfl, rfl⟩

theorem expands_unique {t : Table} {trees' : List ParseTree} {rest' : List Token}
    (h : Derives t.expands terms tokens trees rest)
    (h' : Derives t.expands terms tokens trees' rest') : trees = trees' ∧ rest = rest' :=
  unique (fun production key _ _ (ha : t.expands production key _) hb =>
    Table.expands_unique ha hb) h h'

theorem production_tree {name : String}
    (h : Derives branch [.production name] tokens trees rest) :
    ∃ inner children, trees = [.node name children] ∧ branch name (lookahead tokens) inner ∧
      Derives branch inner tokens children rest := by
  cases h with
  | production hname inside after =>
    cases after
    exact ⟨_, _, rfl, hname, inside⟩

end Derives

end SparqlQuery
