import SparqlQuery.Proofs.QueryEntries

namespace SparqlQuery

/-- The keys of a shortest text for each production, the productions before those that they are
made of. -/
def closingGroups : List (List String × List String) :=
  [(["RegexExpression"], ["regex", "(", "Variable", ",", "Variable", ")"]),
    (["ConstructQuery"], ["construct", "\x7b", "\x7d", "\x7b", "\x7d"]),
    (["SelectQuery"], ["select", "Variable", "\x7b", "\x7d"]),
    (["GraphGraphPattern"], ["graph", "Variable", "\x7b", "\x7d"]),
    (["BuiltInCall"], ["bound", "(", "Variable", ")"]),
    (["BlankNodePropertyList"], ["[", "Variable", "Variable", "]"]),
    (["OptionalGraphPattern"], ["optional", "\x7b", "\x7d"]),
    (["AskQuery"], ["ask", "\x7b", "\x7d"]),
    (["PrefixDecl"], ["prefix", "PrefixedNameNamespace", "IriRef"]),
    (["Filter"], ["filter", "IriRef", "Nil"]),
    (["TriplesNode", "Collection", "BrackettedExpression"], ["(", "Variable", ")"]),
    (["OrderClause"], ["order", "by", "Variable"]),
    (["TriplesBlock", "ConstructTriples", "TriplesSameSubject"],
      ["Variable", "Variable", "Variable"]),
    (["WhereClause", "GraphPatternNotTriplesOrFilter", "GraphPatternNotTriples",
      "GroupOrUnionGraphPattern", "GroupGraphPattern", "ConstructTemplate"], ["\x7b", "\x7d"]),
    (["OffsetClause"], ["offset", "NumericLiteral"]),
    (["LimitClause"], ["limit", "NumericLiteral"]),
    (["NamedGraphClause"], ["named", "IriRef"]),
    (["Constraint", "FunctionCall"], ["IriRef", "Nil"]),
    (["DatasetClause"], ["from", "IriRef"]),
    (["BaseDecl"], ["base", "IriRef"]),
    (["Query", "QueryForm", "DescribeQuery"], ["describe", "Variable"]),
    (["PropertyListNotEmpty"], ["Variable", "Variable"]),
    (["RDFLiteral"], ["StringLiteral"]),
    (["PrefixedName"], ["PrefixedNameNamespace"]),
    (["OrderDirection"], ["asc"]),
    (["ArgList"], ["Nil"]),
    (["GraphClause", "DefaultGraphClause", "SourceSelector", "IRIrefOrFunction", "GraphTerm",
      "IRIref"], ["IriRef"]),
    (["Verb", "ObjectList", "Object", "GraphNode", "VarOrTerm", "DescribeTargets", "VarOrIRIref",
      "Expression", "ConditionalOrExpression", "ConditionalAndExpression", "ValueLogical",
      "RelationalExpression", "NumericExpression", "AdditiveExpression", "MultiplicativeExpression",
      "UnaryExpression", "SelectProjection", "PrimaryExpression", "OrderCondition", "Var"],
      ["Variable"]),
    (["WhereKeyword", "WhereClauseOpt", "VerbObjectListOpt", "VarOrIRIrefList", "VarList",
      "UnionTail", "TriplesBlockTail", "TriplesBlockOpt", "SolutionModifier", "SelectModifier",
      "RelationalTail", "RegexFlags", "PropertyListTail", "PropertyList", "Prologue",
      "PrefixDeclList", "OrderConditionList", "OrderClauseOpt", "OrTail", "OffsetClauseOpt",
      "ObjectListTail", "MultiplicativeTail", "LiteralSuffix", "LimitOffsetClausesOpt",
      "LimitClauseOpt", "GroupGraphPatternTail", "GraphNodeList", "ExpressionList", "DotOpt",
      "DatasetClauseList", "ConstructTriplesTail", "ConstructTriplesOpt", "BaseDeclOpt",
      "ArgListOpt", "AndTail", "AdditiveTail"], [])]

def numberKey : String := "NumericLiteral"

def closingWords : List (String × List String) :=
  closingGroups.flatMap fun group => group.1.map fun name => (name, group.2)

def closingOrder : List String :=
  closingWords.map Prod.fst

def closingWord (name : String) : List String :=
  (closingWords.lookup name).getD []

def wordOf : List Term → List String
  | [] => []
  | .terminal key :: terms => key :: wordOf terms
  | .production name :: terms => closingWord name ++ wordOf terms

/-- Whether each production in some terms has a word, and none is followed by a number when all
are replaced by their words. -/
def closable : List Term → Bool
  | [] => true
  | .terminal _ :: terms => closable terms
  | .production name :: terms =>
    closingOrder.contains name && (wordOf terms).head? != some numberKey && closable terms

def Term.among (names : List String) : Term → Bool
  | .terminal _ => true
  | .production name => names.contains name

def RuleGroup.closes (group : RuleGroup) (name : String) (below : List String) : Bool :=
  group.production == name && !group.keys.isEmpty && wordOf group.terms == closingWord name &&
    group.terms.all (Term.among below)

def closesInOrder : List String → Bool
  | [] => true
  | name :: below =>
    (closingWord name).head? != some numberKey &&
      queryGroups.any (RuleGroup.closes · name below) && closesInOrder below

theorem closingOrder_closes : closesInOrder closingOrder = true := by
  decide +kernel

theorem queryGroups_closable : (queryGroups.all fun group => closable group.terms) = true := by
  decide +kernel

/-- A token with a key. -/
def Token.sample (key : String) : Token :=
  match key with
  | "Variable" => ⟨.variableName, .text "x", {}⟩
  | "IriRef" => ⟨.iriRef, .iri "x", {}⟩
  | "PrefixedNameWithLocal" => ⟨.prefixedNameWithLocal, .prefixedName (some "x") (some "x"), {}⟩
  | "PrefixedNameNamespace" => ⟨.prefixedNameNamespace, .prefixedName (some "x") none, {}⟩
  | "StringLiteral" => ⟨.stringLiteral, .string "x", {}⟩
  | "LangTag" => ⟨.langTag, .text "x", {}⟩
  | "NumericLiteral" => ⟨.numericLiteral, .integer 1, {}⟩
  | "BooleanLiteral" => ⟨.booleanLiteral, .boolean true, {}⟩
  | "BlankNode" => ⟨.blankNode, .blankNode "x", {}⟩
  | "Nil" => ⟨.nil, .text "", {}⟩
  | key => ⟨.keyword, .text key, {}⟩

theorem Token.key_sample (key : String) : (Token.sample key).key = key := by
  unfold Token.sample
  split <;> rfl

theorem lookahead_samples (keys : List String) (rest : List Token) :
    lookahead (keys.map Token.sample ++ rest) = keys.headD (lookahead rest) := by
  cases keys with
  | nil => rfl
  | cons key keys => exact Token.key_sample key

theorem headD_ne_numberKey {keys : List String} {next : String}
    (hkeys : keys.head? ≠ some numberKey) (hnext : next ≠ numberKey) :
    keys.headD next ≠ numberKey := by
  cases keys with
  | nil => exact hnext
  | cons key keys => simpa using hkeys

/-- A derivation in which no production is entered at a number. -/
def AvoidsNumbers (production key : String) (terms : List Term) : Prop :=
  queryTable.produces production terms ∧ key ≠ numberKey

section

variable {terms : List Term} {rest : List Token}

theorem derives_wordOf_of_among {below : List String}
    (hbelow : ∀ name ∈ below, ∀ rest, lookahead rest ≠ numberKey →
      ∃ trees, Derives AvoidsNumbers [.production name]
        ((closingWord name).map Token.sample ++ rest) trees rest)
    (hclosable : closable terms = true) (hamong : terms.all (Term.among below) = true)
    (hrest : lookahead rest ≠ numberKey) :
    ∃ trees, Derives AvoidsNumbers terms ((wordOf terms).map Token.sample ++ rest) trees rest := by
  induction terms with
  | nil => exact ⟨[], .done rest⟩
  | cons term terms ih =>
    obtain ⟨hterm, hterms⟩ := Bool.and_eq_true_iff.mp hamong
    cases term with
    | terminal key =>
      obtain ⟨trees, h⟩ := ih hclosable hterms
      exact ⟨_, .terminal (Token.key_sample key) h⟩
    | production name =>
      simp only [closable, Bool.and_eq_true, bne_iff_ne] at hclosable
      obtain ⟨⟨_, hword⟩, hclosable⟩ := hclosable
      obtain ⟨trees, h⟩ := ih hclosable hterms
      have hnext : lookahead ((wordOf terms).map Token.sample ++ rest) ≠ numberKey := by
        rw [lookahead_samples]
        exact headD_ne_numberKey hword hrest
      obtain ⟨tree, htree⟩ := hbelow name (by simpa [Term.among] using hterm) _ hnext
      refine ⟨tree ++ trees, ?_⟩
      simpa [wordOf] using htree.append h

theorem derives_closingWord {order : List String} (horder : closesInOrder order = true)
    {name : String} (hname : name ∈ order) (hrest : lookahead rest ≠ numberKey) :
    ∃ trees, Derives AvoidsNumbers [.production name]
      ((closingWord name).map Token.sample ++ rest) trees rest := by
  induction order generalizing name rest with
  | nil => cases hname
  | cons first below ih =>
    simp only [closesInOrder, Bool.and_eq_true, bne_iff_ne] at horder
    obtain ⟨⟨hhead, hany⟩, hbelow⟩ := horder
    rcases List.mem_cons.mp hname with rfl | hname
    · obtain ⟨group, hgroup, hcloses⟩ := List.any_eq_true.mp hany
      simp only [RuleGroup.closes, Bool.and_eq_true, beq_iff_eq, Bool.not_eq_true',
        List.isEmpty_eq_false_iff_exists_mem] at hcloses
      obtain ⟨⟨⟨rfl, key, hkey⟩, hword⟩, hamong⟩ := hcloses
      have hclosable := List.all_eq_true.mp queryGroups_closable group hgroup
      obtain ⟨trees, htrees⟩ := derives_wordOf_of_among
        (fun name hname rest hrest => ih hbelow hname hrest) hclosable hamong hrest
      rw [hword] at htrees
      have hproduces : queryTable.produces group.production group.terms :=
        ⟨key, queryTable_listedBy.mpr ⟨group, hgroup, rfl, hkey, rfl⟩⟩
      refine ⟨_, .production ⟨hproduces, ?_⟩ htrees (.done rest)⟩
      rw [lookahead_samples]
      exact headD_ne_numberKey hhead hrest
    · exact ih hbelow hname hrest

theorem all_among_of_closable (h : closable terms = true) :
    terms.all (Term.among closingOrder) = true := by
  induction terms with
  | nil => rfl
  | cons term terms ih =>
    cases term with
    | terminal key => exact ih h
    | production name =>
      simp only [closable, Bool.and_eq_true] at h
      exact Bool.and_eq_true_iff.mpr ⟨h.1.1, ih h.2⟩

theorem derives_wordOf (hclosable : closable terms = true) (hrest : lookahead rest ≠ numberKey) :
    ∃ trees, Derives AvoidsNumbers terms ((wordOf terms).map Token.sample ++ rest) trees rest :=
  derives_wordOf_of_among (fun _ hname _ hrest =>
    derives_closingWord closingOrder_closes hname hrest) hclosable
    (all_among_of_closable hclosable) hrest

theorem wordOf_append (terms more : List Term) :
    wordOf (terms ++ more) = wordOf terms ++ wordOf more := by
  induction terms with
  | nil => rfl
  | cons term terms ih => cases term <;> simp [wordOf, ih]

theorem closable_append {more : List Term} (h : closable terms = true)
    (hmore : closable more = true) (hword : (wordOf more).head? ≠ some numberKey) :
    closable (terms ++ more) = true := by
  induction terms with
  | nil => exact hmore
  | cons term terms ih =>
    cases term with
    | terminal key => exact ih h
    | production name =>
      simp only [closable, Bool.and_eq_true, bne_iff_ne, List.cons_append] at h ⊢
      obtain ⟨⟨hname, hfirst⟩, hterms⟩ := h
      refine ⟨⟨hname, ?_⟩, ih hterms⟩
      rw [wordOf_append]
      cases hw : wordOf terms with
      | nil => simpa using hword
      | cons key keys => simpa [hw] using hfirst

end

end SparqlQuery
