import SparqlQuery.Proofs.Descent
import SparqlQuery.Proofs.FollowKeys

namespace SparqlQuery

/-- The keys that come after some productions, wherever they stand. -/
def followGroups : List (List String × List String) :=
  [(["Query", "QueryForm", "SelectQuery", "ConstructQuery", "DescribeQuery", "SolutionModifier",
      "LimitOffsetClausesOpt", "LimitClauseOpt", "OffsetClauseOpt"], ["$"]),
    (["Prologue", "PrefixDeclList"], formKeys),
    (["BaseDeclOpt"], "prefix" :: formKeys),
    (["SelectModifier"], ["*", "Variable"]),
    (["SelectProjection", "VarList"], ["from", "where", "\x7b"]),
    (["DescribeTargets", "VarOrIRIrefList"], modifierKeys ++ ["from", "where", "\x7b"]),
    (["DatasetClauseList"], modifierKeys ++ ["where", "\x7b"]),
    (["WhereClauseOpt"], modifierKeys),
    (["WhereKeyword"], ["\x7b"]),
    (["OrderClauseOpt", "OrderClause", "OrderConditionList"], ["$", "limit", "offset"]),
    (["GroupGraphPatternTail", "ConstructTriplesOpt", "ConstructTriples", "ConstructTriplesTail"],
      ["\x7d"]),
    (["DotOpt"], nodeKeys ++ patternKeys ++ ["\x7d"]),
    (["TriplesBlockOpt", "TriplesBlock", "TriplesBlockTail"], patternKeys ++ ["\x7d"]),
    (["GraphPatternNotTriplesOrFilter", "GraphPatternNotTriples", "GroupOrUnionGraphPattern",
      "UnionTail"], nodeKeys ++ patternKeys ++ [".", "\x7d"]),
    (["ExpressionList", "RegexFlags", "GraphNodeList"], [")"]),
    (["TriplesSameSubject", "PropertyList"], patternKeys ++ [".", "\x7d"]),
    (["PropertyListNotEmpty", "PropertyListTail"], patternKeys ++ [".", "]", "\x7d"]),
    (["VerbObjectListOpt", "ObjectList", "ObjectListTail"],
      patternKeys ++ [".", ";", "]", "\x7d"]),
    (["Object"], patternKeys ++ [",", ".", ";", "]", "\x7d"]),
    (["GraphNode"], nodeKeys ++ patternKeys ++ [")", ",", ".", ";", "]", "\x7d"]),
    (["VarOrTerm", "GraphTerm"],
      nodeKeys ++ patternKeys ++ [")", ",", ".", ";", "]", "a", "\x7d"]),
    (["RDFLiteral", "LiteralSuffix"],
      nodeKeys ++ comparisonKeys ++ patternKeys ++ ["&&", ")", "*", "+", ",", "-", ".", "/", ";",
        "]", "a", "||", "\x7d"]),
    (["Expression", "ConditionalOrExpression", "OrTail"], [")", ","]),
    (["ConditionalAndExpression", "AndTail"], [")", ",", "||"]),
    (["ValueLogical", "RelationalExpression", "RelationalTail"], ["&&", ")", ",", "||"]),
    (["NumericExpression", "AdditiveExpression", "AdditiveTail"],
      comparisonKeys ++ ["&&", ")", ",", "||"]),
    (["MultiplicativeExpression", "MultiplicativeTail"],
      comparisonKeys ++ ["&&", ")", "+", ",", "-", "NumericLiteral", "||"]),
    (["UnaryExpression", "PrimaryExpression", "IRIrefOrFunction", "ArgListOpt"],
      comparisonKeys ++ ["&&", ")", "*", "+", ",", "-", "/", "NumericLiteral", "||"])]

/-- The keys that may come after a production. The ones that are not listed read at least one
token and need not know. -/
def queryFollow (name : String) : KeySet :=
  (followGroups.find? fun entry => entry.1.contains name).map Prod.snd

/-- The query table with the entry that it lacks: a number may follow a name that is no call. -/
def completedTable : Table :=
  queryTable.addRule ⟨"ArgListOpt", "NumericLiteral", []⟩

def completedGroups : List RuleGroup :=
  queryGroups ++ [⟨"ArgListOpt", ["NumericLiteral"], []⟩]

theorem queryTable_lacks : queryTable.expansion? "ArgListOpt" "NumericLiteral" = none := by
  have hnone : (queryGroups.all fun group =>
      group.production != "ArgListOpt" || !group.keys.contains "NumericLiteral") = true := by
    decide
  cases h : queryTable.expansion? "ArgListOpt" "NumericLiteral" with
  | none => rfl
  | some terms =>
    obtain ⟨group, hgroup, hname, hkey, _⟩ := queryTable_listedBy.mp h
    have := List.all_eq_true.mp hnone group hgroup
    simp [← hname, hkey] at this

theorem expands_completedTable_iff {production key : String} {terms : List Term} :
    completedTable.expands production key terms ↔
      queryTable.expands production key terms ∨
        production = "ArgListOpt" ∧ key = "NumericLiteral" ∧ terms = [] := by
  unfold completedTable Table.expands
  rw [Table.expansion?_addRule]
  split
  next h =>
    obtain ⟨rfl, rfl⟩ := h
    simp [queryTable_lacks, eq_comm]
  next h =>
    constructor
    · exact .inl
    · rintro (hq | ⟨rfl, rfl, _⟩)
      · exact hq
      · exact absurd ⟨rfl, rfl⟩ h

theorem completedTable_listedBy : completedTable.ListedBy completedGroups := by
  intro production key terms
  rw [expands_completedTable_iff, queryTable_listedBy, completedGroups]
  simp [or_and_right, exists_or]

theorem completedGroups_fitting : (completedGroups.all fun group =>
    RuleGroup.fitting completedGroups queryFollow group.production group.terms) = true := by
  decide +kernel

theorem completedGroups_reachable :
    completedGroups.all (RuleGroup.reachable completedGroups queryFollow) = true := by
  decide +kernel

/-- The completed table is an LL(1) table of its own grammar. -/
theorem completedTable_follows : completedTable.Follows fun name => (queryFollow name).Has :=
  completedTable_listedBy.follows (List.all_eq_true.mp completedGroups_fitting)
    (List.all_eq_true.mp completedGroups_reachable)

/-- The choice that the grammar of queries has and the query table does not. -/
def LacksEntry (production key : String) : Prop :=
  production = "ArgListOpt" ∧ key = "NumericLiteral"

theorem not_lacksEntry_of_expands {production key : String} {terms : List Term}
    (h : queryTable.expands production key terms) : ¬ LacksEntry production key := by
  rintro ⟨rfl, rfl⟩
  cases queryTable_lacks.symm.trans h

theorem expands_queryTable_of_completed {production key : String} {terms : List Term}
    (h : completedTable.expands production key terms) (hl : ¬ LacksEntry production key) :
    queryTable.expands production key terms := by
  rcases expands_completedTable_iff.mp h with hq | ⟨rfl, rfl, _⟩
  · exact hq
  · exact absurd ⟨rfl, rfl⟩ hl

/-- The missing entry is for a branch that its production has at other keys. -/
theorem produces_completedTable_iff {name : String} {terms : List Term} :
    completedTable.produces name terms ↔ queryTable.produces name terms := by
  constructor
  · rintro ⟨key, h⟩
    rcases expands_completedTable_iff.mp h with hq | ⟨rfl, _, rfl⟩
    · exact ⟨key, hq⟩
    · have hselect : RuleGroup.select queryGroups "ArgListOpt" ")" = some [] := by
        decide
      exact ⟨")", (queryTable_listedBy.expansion?_eq _ _).trans hselect⟩
  · rintro ⟨key, h⟩
    exact ⟨key, expands_completedTable_iff.mpr (.inl h)⟩

theorem Derives.completed {branch : String → String → List Term → Prop} {terms : List Term}
    {tokens : List Token} {trees : List ParseTree}
    (h : Derives branch terms tokens trees [])
    (hb : ∀ production key inner, branch production key inner →
      queryTable.produces production inner)
    (hfit : completedTable.Fits (fun name => (queryFollow name).Has) endOfInput terms) :
    Derives (fun production key inner => branch production key inner ∧
      completedTable.expands production key inner) terms tokens trees [] ∧
        completedTable.Starts endOfInput terms (lookahead tokens) :=
  h.chosen completedTable_follows
    (fun _ _ _ hname => produces_completedTable_iff.mpr (hb _ _ _ hname)) hfit

theorem startProduction_fits : completedTable.Fits (fun name => (queryFollow name).Has)
    endOfInput [.production startProduction] := by
  refine ⟨?_, trivial⟩
  rintro key rfl
  have hend : queryFollow startProduction = some [endOfInput] := rfl
  rw [hend]
  exact KeySet.has_some.mpr List.mem_cons_self

end SparqlQuery
