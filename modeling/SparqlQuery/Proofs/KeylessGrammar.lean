import SparqlQuery.Proofs.RuleTable
import Mathlib.Computability.ContextFreeGrammar
import Mathlib.Data.Finset.Dedup

namespace SparqlQuery

def Term.symbol : Term → Symbol String String
  | .terminal key => .terminal key
  | .production name => .nonterminal name

theorem Term.symbol_injective : Function.Injective Term.symbol := by
  intro a b h
  cases a <;> cases b <;> simp [symbol] at h <;> rw [h]

namespace Table

/-- What a production may become when the key is not looked at. -/
def keyless (t : Table) (production _key : String) (terms : List Term) : Prop :=
  t.produces production terms

def keylessRules (t : Table) : List (ContextFreeRule String String) :=
  t.productions.entries.flatMap fun entry =>
    entry.2.values.map fun terms => ⟨entry.1, terms.map Term.symbol⟩

/-- The context-free grammar that a table is for: a production may become any of its branches. -/
def grammar (t : Table) (start : String) : ContextFreeGrammar String where
  NT := String
  initial := start
  rules := t.keylessRules.toFinset

variable {t : Table} {start : String}

theorem produces_iff {name : String} {terms : List Term} :
    t.produces name terms ↔
      ∃ branches, (name, branches) ∈ t.productions.entries ∧ terms ∈ branches.values := by
  simp only [produces, expansion?, branches?, Option.bind_eq_some_iff,
    Dictionary.get?_eq_some_iff, Dictionary.values, List.mem_map, Prod.exists]
  grind

theorem mem_keylessRules {rule : ContextFreeRule String String} :
    rule ∈ t.keylessRules ↔
      ∃ terms, t.produces rule.input terms ∧ rule.output = terms.map Term.symbol := by
  obtain ⟨input, output⟩ := rule
  simp only [keylessRules, List.mem_flatMap, List.mem_map, Prod.exists,
    ContextFreeRule.mk.injEq, produces_iff]
  grind

theorem mem_rules_grammar {rule : ContextFreeRule String String} :
    rule ∈ (t.grammar start).rules ↔
      ∃ terms, t.produces rule.input terms ∧ rule.output = terms.map Term.symbol :=
  List.mem_toFinset.trans mem_keylessRules

theorem derives_grammar (start : String) {terms : List Term} {tokens rest : List Token}
    {trees : List ParseTree}
    (h : Derives t.keyless terms tokens trees rest) :
    ∃ front, tokens = front ++ rest ∧ (t.grammar start).Derives (terms.map Term.symbol)
      ((front.map Token.key).map Symbol.terminal) := by
  induction h with
  | done tokens => exact ⟨[], rfl, Relation.ReflTransGen.refl⟩
  | @terminal key token terms tokens rest trees hkey _ ih =>
    obtain ⟨front, rfl, hfront⟩ := ih
    refine ⟨token :: front, rfl, ?_⟩
    subst hkey
    exact hfront.append_left [Symbol.terminal token.key]
  | @production name inner terms tokens middle rest children trees hname _ _ ihInside ihAfter =>
    obtain ⟨inside, rfl, hinside⟩ := ihInside
    obtain ⟨front, rfl, hfront⟩ := ihAfter
    refine ⟨inside ++ front, by simp, ?_⟩
    have hrule : ⟨name, inner.map Term.symbol⟩ ∈ (t.grammar start).rules :=
      mem_rules_grammar.mpr ⟨inner, hname, rfl⟩
    have henter : (t.grammar start).Produces ((Term.production name :: terms).map Term.symbol)
        (inner.map Term.symbol ++ terms.map Term.symbol) := ⟨_, hrule, .head _⟩
    have hboth := (hinside.append_right (terms.map Term.symbol)).trans (hfront.append_left _)
    simpa using henter.trans_derives hboth

theorem derives_keys (branch : String → String → List Term → Prop) (tokens : List Token) :
    ∃ trees, Derives branch (tokens.map fun token => .terminal token.key) tokens trees [] := by
  induction tokens with
  | nil => exact ⟨[], .done []⟩
  | cons token tokens ih =>
    obtain ⟨trees, h⟩ := ih
    exact ⟨.leaf token :: trees, .terminal rfl h⟩

/-- A rule of the grammar, undone, folds some trees into one. -/
theorem derives_of_produces {terms : List Term} {tokens : List Token}
    {after : List (Symbol String String)}
    (h : (t.grammar start).Produces (terms.map Term.symbol) after) :
    ∃ more : List Term, after = more.map Term.symbol ∧
      ∀ trees, Derives t.keyless more tokens trees [] →
        ∃ folded, Derives t.keyless terms tokens folded [] := by
  obtain ⟨rule, hrule, hrewrites⟩ := h
  obtain ⟨inner, hname, hout⟩ := mem_rules_grammar.mp hrule
  obtain ⟨front, back, hterms, rfl⟩ := hrewrites.exists_parts
  obtain ⟨head, last, rfl, hhead, rfl⟩ := List.map_eq_append_iff.mp hterms
  obtain ⟨left, single, rfl, rfl, hsingle⟩ := List.map_eq_append_iff.mp hhead
  obtain rfl : single = [.production rule.input] := Term.symbol_injective.list_map hsingle
  refine ⟨left ++ inner ++ last, ?_, ?_⟩
  · rw [hout, List.map_append, List.map_append]
    rfl
  · intro trees hd
    obtain ⟨_, back, _, _, hfront, hback⟩ := hd.split
    obtain ⟨leftTrees, inside, _, _, hleft, hinner⟩ := hfront.split
    exact ⟨_, (hleft.append (.production hname hinner (.done _))).append hback⟩

theorem derives_of_grammar {form : List (Symbol String String)} {tokens : List Token}
    (h : (t.grammar start).Derives form ((tokens.map Token.key).map Symbol.terminal))
    {terms : List Term} (hform : terms.map Term.symbol = form) :
    ∃ trees, Derives t.keyless terms tokens trees [] := by
  induction h using Relation.ReflTransGen.head_induction_on generalizing terms with
  | refl =>
    obtain rfl : terms = tokens.map fun token => .terminal token.key := by
      refine Term.symbol_injective.list_map (hform.trans ?_)
      rw [List.map_map, List.map_map]
      rfl
    exact derives_keys _ tokens
  | head hstep _ ih =>
    subst hform
    obtain ⟨more, hmore, hfold⟩ := derives_of_produces hstep
    obtain ⟨trees, htrees⟩ := ih hmore.symm
    exact hfold trees htrees

theorem mem_language_grammar {tokens : List Token} :
    tokens.map Token.key ∈ (t.grammar start).language ↔
      ∃ tree, Derives t.keyless [.production start] tokens [tree] [] := by
  rw [ContextFreeGrammar.mem_language_iff]
  constructor
  · intro h
    have hstart : [Term.production start].map Term.symbol = [.nonterminal start] := rfl
    obtain ⟨trees, htrees⟩ := derives_of_grammar h hstart
    obtain ⟨inner, children, rfl, _, _⟩ := htrees.production_tree
    exact ⟨_, htrees⟩
  · rintro ⟨tree, htree⟩
    obtain ⟨front, heq, h⟩ := derives_grammar start htree
    rw [List.append_nil] at heq
    exact heq ▸ h

end Table

end SparqlQuery
