import SparqlQuery.Grammar

namespace SparqlQuery

def iriKeys : List String :=
  ["IriRef", "PrefixedNameNamespace", "PrefixedNameWithLocal"]

/-- What begins a term that is no variable. -/
def graphTermKeys : List String :=
  iriKeys ++ ["BlankNode", "BooleanLiteral", "Nil", "NumericLiteral", "StringLiteral"]

def termKeys : List String :=
  "Variable" :: graphTermKeys

/-- What begins a node of a graph: a term, a collection or a property list. -/
def nodeKeys : List String :=
  "(" :: "[" :: termKeys

/-- The functions that have a production of their own. -/
def builtInKeys : List String :=
  ["bound", "datatype", "isblank", "isiri", "isliteral", "isuri", "lang", "langmatches", "regex",
    "sameterm", "str"]

/-- What begins an expression without operators. -/
def primaryKeys : List String :=
  ["(", "BooleanLiteral", "NumericLiteral", "StringLiteral", "Variable"] ++ iriKeys ++ builtInKeys

def expressionKeys : List String :=
  ["!", "+", "-"] ++ primaryKeys

def comparisonKeys : List String :=
  ["!=", "<", "<=", "=", ">", ">="]

/-- The words that begin the four forms of query. -/
def formKeys : List String :=
  ["ask", "construct", "describe", "select"]

/-- What may follow the patterns of a query. -/
def modifierKeys : List String :=
  ["$", "limit", "offset", "order"]

/-- What begins a pattern in a group that is no triple. -/
def patternKeys : List String :=
  ["filter", "graph", "optional", "\x7b"]

/-- The rules of a production for several keys with the same expansion. -/
structure RuleGroup where
  production : String
  keys : List String
  terms : List Term

def RuleGroup.rules (group : RuleGroup) : List Rule :=
  group.keys.map fun key => ⟨group.production, key, group.terms⟩

/-- A query, its prologue and its four forms. -/
def queryFormGroups : List RuleGroup :=
  [⟨"Query", formKeys ++ ["base", "prefix"], [.production "Prologue", .production "QueryForm"]⟩,
    ⟨"QueryForm", ["select"], [.production "SelectQuery"]⟩,
    ⟨"QueryForm", ["construct"], [.production "ConstructQuery"]⟩,
    ⟨"QueryForm", ["describe"], [.production "DescribeQuery"]⟩,
    ⟨"QueryForm", ["ask"], [.production "AskQuery"]⟩,
    ⟨"Prologue", formKeys ++ ["base", "prefix"],
      [.production "BaseDeclOpt", .production "PrefixDeclList"]⟩,
    ⟨"BaseDeclOpt", ["base"], [.production "BaseDecl"]⟩,
    ⟨"BaseDeclOpt", formKeys ++ ["prefix"], []⟩,
    ⟨"PrefixDeclList", ["prefix"], [.production "PrefixDecl", .production "PrefixDeclList"]⟩,
    ⟨"PrefixDeclList", formKeys, []⟩,
    ⟨"BaseDecl", ["base"], [.terminal "base", .terminal "IriRef"]⟩,
    ⟨"PrefixDecl", ["prefix"],
      [.terminal "prefix", .terminal "PrefixedNameNamespace", .terminal "IriRef"]⟩,
    ⟨"SelectQuery", ["select"],
      [.terminal "select", .production "SelectModifier", .production "SelectProjection",
        .production "DatasetClauseList", .production "WhereClause",
        .production "SolutionModifier"]⟩,
    ⟨"SelectModifier", ["distinct"], [.terminal "distinct"]⟩,
    ⟨"SelectModifier", ["reduced"], [.terminal "reduced"]⟩,
    ⟨"SelectModifier", ["*", "Variable"], []⟩,
    ⟨"SelectProjection", ["Variable"], [.production "Var", .production "VarList"]⟩,
    ⟨"SelectProjection", ["*"], [.terminal "*"]⟩,
    ⟨"VarList", ["Variable"], [.production "Var", .production "VarList"]⟩,
    ⟨"VarList", ["from", "where", "\x7b"], []⟩,
    ⟨"ConstructQuery", ["construct"],
      [.terminal "construct", .production "ConstructTemplate", .production "DatasetClauseList",
        .production "WhereClause", .production "SolutionModifier"]⟩,
    ⟨"DescribeQuery", ["describe"],
      [.terminal "describe", .production "DescribeTargets", .production "DatasetClauseList",
        .production "WhereClauseOpt", .production "SolutionModifier"]⟩,
    ⟨"DescribeTargets", iriKeys ++ ["Variable"],
      [.production "VarOrIRIref", .production "VarOrIRIrefList"]⟩,
    ⟨"DescribeTargets", ["*"], [.terminal "*"]⟩,
    ⟨"VarOrIRIrefList", iriKeys ++ ["Variable"],
      [.production "VarOrIRIref", .production "VarOrIRIrefList"]⟩,
    ⟨"VarOrIRIrefList", modifierKeys ++ ["from", "where", "\x7b"], []⟩,
    ⟨"AskQuery", ["ask"],
      [.terminal "ask", .production "DatasetClauseList", .production "WhereClause"]⟩,
    ⟨"DatasetClauseList", ["from"], [.production "DatasetClause", .production "DatasetClauseList"]⟩,
    ⟨"DatasetClauseList", modifierKeys ++ ["where", "\x7b"], []⟩,
    ⟨"DatasetClause", ["from"], [.terminal "from", .production "GraphClause"]⟩,
    ⟨"GraphClause", iriKeys, [.production "DefaultGraphClause"]⟩,
    ⟨"GraphClause", ["named"], [.production "NamedGraphClause"]⟩,
    ⟨"DefaultGraphClause", iriKeys, [.production "SourceSelector"]⟩,
    ⟨"NamedGraphClause", ["named"], [.terminal "named", .production "SourceSelector"]⟩,
    ⟨"SourceSelector", iriKeys, [.production "IRIref"]⟩,
    ⟨"WhereClauseOpt", ["where", "\x7b"], [.production "WhereClause"]⟩,
    ⟨"WhereClauseOpt", modifierKeys, []⟩,
    ⟨"WhereClause", ["where", "\x7b"],
      [.production "WhereKeyword", .production "GroupGraphPattern"]⟩,
    ⟨"WhereKeyword", ["where"], [.terminal "where"]⟩,
    ⟨"WhereKeyword", ["\x7b"], []⟩]

/-- Order, limit and offset. -/
def modifierGroups : List RuleGroup :=
  [⟨"SolutionModifier", modifierKeys,
      [.production "OrderClauseOpt", .production "LimitOffsetClausesOpt"]⟩,
    ⟨"OrderClauseOpt", ["order"], [.production "OrderClause"]⟩,
    ⟨"OrderClauseOpt", ["$", "limit", "offset"], []⟩,
    ⟨"OrderClause", ["order"],
      [.terminal "order", .terminal "by", .production "OrderCondition",
        .production "OrderConditionList"]⟩,
    ⟨"OrderConditionList", builtInKeys ++ iriKeys ++ ["(", "Variable", "asc", "desc"],
      [.production "OrderCondition", .production "OrderConditionList"]⟩,
    ⟨"OrderConditionList", ["$", "limit", "offset"], []⟩,
    ⟨"OrderCondition", ["asc", "desc"],
      [.production "OrderDirection", .production "BrackettedExpression"]⟩,
    ⟨"OrderCondition", builtInKeys ++ iriKeys ++ ["("], [.production "Constraint"]⟩,
    ⟨"OrderCondition", ["Variable"], [.production "Var"]⟩,
    ⟨"OrderDirection", ["asc"], [.terminal "asc"]⟩,
    ⟨"OrderDirection", ["desc"], [.terminal "desc"]⟩,
    ⟨"LimitOffsetClausesOpt", ["limit"],
      [.production "LimitClause", .production "OffsetClauseOpt"]⟩,
    ⟨"LimitOffsetClausesOpt", ["offset"],
      [.production "OffsetClause", .production "LimitClauseOpt"]⟩,
    ⟨"LimitOffsetClausesOpt", ["$"], []⟩,
    ⟨"LimitClauseOpt", ["limit"], [.production "LimitClause"]⟩,
    ⟨"LimitClauseOpt", ["$"], []⟩,
    ⟨"OffsetClauseOpt", ["offset"], [.production "OffsetClause"]⟩,
    ⟨"OffsetClauseOpt", ["$"], []⟩,
    ⟨"LimitClause", ["limit"], [.terminal "limit", .terminal "NumericLiteral"]⟩,
    ⟨"OffsetClause", ["offset"], [.terminal "offset", .terminal "NumericLiteral"]⟩]

/-- Groups of graph patterns, and filters. -/
def patternGroups : List RuleGroup :=
  [⟨"GroupGraphPattern", ["\x7b"],
      [.terminal "\x7b", .production "TriplesBlockOpt", .production "GroupGraphPatternTail",
        .terminal "\x7d"]⟩,
    ⟨"GroupGraphPatternTail", patternKeys,
      [.production "GraphPatternNotTriplesOrFilter", .production "DotOpt",
        .production "TriplesBlockOpt", .production "GroupGraphPatternTail"]⟩,
    ⟨"GroupGraphPatternTail", ["\x7d"], []⟩,
    ⟨"GraphPatternNotTriplesOrFilter", ["graph", "optional", "\x7b"],
      [.production "GraphPatternNotTriples"]⟩,
    ⟨"GraphPatternNotTriplesOrFilter", ["filter"], [.production "Filter"]⟩,
    ⟨"DotOpt", ["."], [.terminal "."]⟩,
    ⟨"DotOpt", nodeKeys ++ patternKeys ++ ["\x7d"], []⟩,
    ⟨"TriplesBlockOpt", nodeKeys, [.production "TriplesBlock"]⟩,
    ⟨"TriplesBlockOpt", patternKeys ++ ["\x7d"], []⟩,
    ⟨"TriplesBlock", nodeKeys, [.production "TriplesSameSubject", .production "TriplesBlockTail"]⟩,
    ⟨"TriplesBlockTail", ["."], [.terminal ".", .production "TriplesBlockOpt"]⟩,
    ⟨"TriplesBlockTail", patternKeys ++ ["\x7d"], []⟩,
    ⟨"GraphPatternNotTriples", ["optional"], [.production "OptionalGraphPattern"]⟩,
    ⟨"GraphPatternNotTriples", ["\x7b"], [.production "GroupOrUnionGraphPattern"]⟩,
    ⟨"GraphPatternNotTriples", ["graph"], [.production "GraphGraphPattern"]⟩,
    ⟨"OptionalGraphPattern", ["optional"], [.terminal "optional", .production "GroupGraphPattern"]⟩,
    ⟨"GraphGraphPattern", ["graph"],
      [.terminal "graph", .production "VarOrIRIref", .production "GroupGraphPattern"]⟩,
    ⟨"GroupOrUnionGraphPattern", ["\x7b"],
      [.production "GroupGraphPattern", .production "UnionTail"]⟩,
    ⟨"UnionTail", ["union"],
      [.terminal "union", .production "GroupGraphPattern", .production "UnionTail"]⟩,
    ⟨"UnionTail", nodeKeys ++ patternKeys ++ [".", "\x7d"], []⟩,
    ⟨"Filter", ["filter"], [.terminal "filter", .production "Constraint"]⟩,
    ⟨"Constraint", ["("], [.production "BrackettedExpression"]⟩,
    ⟨"Constraint", builtInKeys, [.production "BuiltInCall"]⟩,
    ⟨"Constraint", iriKeys, [.production "FunctionCall"]⟩,
    ⟨"FunctionCall", iriKeys, [.production "IRIref", .production "ArgList"]⟩,
    ⟨"ArgList", ["Nil"], [.terminal "Nil"]⟩,
    ⟨"ArgList", ["("],
      [.terminal "(", .production "Expression", .production "ExpressionList", .terminal ")"]⟩,
    ⟨"ExpressionList", [","],
      [.terminal ",", .production "Expression", .production "ExpressionList"]⟩,
    ⟨"ExpressionList", [")"], []⟩,
    ⟨"ConstructTemplate", ["\x7b"],
      [.terminal "\x7b", .production "ConstructTriplesOpt", .terminal "\x7d"]⟩,
    ⟨"ConstructTriplesOpt", nodeKeys, [.production "ConstructTriples"]⟩,
    ⟨"ConstructTriplesOpt", ["\x7d"], []⟩,
    ⟨"ConstructTriples", nodeKeys,
      [.production "TriplesSameSubject", .production "ConstructTriplesTail"]⟩,
    ⟨"ConstructTriplesTail", ["."], [.terminal ".", .production "ConstructTriplesOpt"]⟩,
    ⟨"ConstructTriplesTail", ["\x7d"], []⟩]

/-- Triples, property lists, collections and terms. -/
def tripleGroups : List RuleGroup :=
  [⟨"TriplesSameSubject", termKeys, [.production "VarOrTerm", .production "PropertyListNotEmpty"]⟩,
    ⟨"TriplesSameSubject", ["(", "["], [.production "TriplesNode", .production "PropertyList"]⟩,
    ⟨"PropertyListNotEmpty", iriKeys ++ ["Variable", "a"],
      [.production "Verb", .production "ObjectList", .production "PropertyListTail"]⟩,
    ⟨"PropertyListTail", [";"],
      [.terminal ";", .production "VerbObjectListOpt", .production "PropertyListTail"]⟩,
    ⟨"PropertyListTail", patternKeys ++ [".", "]", "\x7d"], []⟩,
    ⟨"VerbObjectListOpt", iriKeys ++ ["Variable", "a"],
      [.production "Verb", .production "ObjectList"]⟩,
    ⟨"VerbObjectListOpt", patternKeys ++ [".", ";", "]", "\x7d"], []⟩,
    ⟨"PropertyList", iriKeys ++ ["Variable", "a"], [.production "PropertyListNotEmpty"]⟩,
    ⟨"PropertyList", patternKeys ++ [".", "\x7d"], []⟩,
    ⟨"ObjectList", nodeKeys, [.production "Object", .production "ObjectListTail"]⟩,
    ⟨"ObjectListTail", [","], [.terminal ",", .production "Object", .production "ObjectListTail"]⟩,
    ⟨"ObjectListTail", patternKeys ++ [".", ";", "]", "\x7d"], []⟩,
    ⟨"Object", nodeKeys, [.production "GraphNode"]⟩,
    ⟨"Verb", iriKeys ++ ["Variable"], [.production "VarOrIRIref"]⟩,
    ⟨"Verb", ["a"], [.terminal "a"]⟩,
    ⟨"TriplesNode", ["("], [.production "Collection"]⟩,
    ⟨"TriplesNode", ["["], [.production "BlankNodePropertyList"]⟩,
    ⟨"BlankNodePropertyList", ["["],
      [.terminal "[", .production "PropertyListNotEmpty", .terminal "]"]⟩,
    ⟨"Collection", ["("],
      [.terminal "(", .production "GraphNode", .production "GraphNodeList", .terminal ")"]⟩,
    ⟨"GraphNodeList", nodeKeys, [.production "GraphNode", .production "GraphNodeList"]⟩,
    ⟨"GraphNodeList", [")"], []⟩,
    ⟨"GraphNode", termKeys, [.production "VarOrTerm"]⟩,
    ⟨"GraphNode", ["(", "["], [.production "TriplesNode"]⟩,
    ⟨"VarOrTerm", ["Variable"], [.production "Var"]⟩,
    ⟨"VarOrTerm", graphTermKeys, [.production "GraphTerm"]⟩,
    ⟨"VarOrIRIref", ["Variable"], [.production "Var"]⟩,
    ⟨"VarOrIRIref", iriKeys, [.production "IRIref"]⟩,
    ⟨"Var", ["Variable"], [.terminal "Variable"]⟩,
    ⟨"GraphTerm", iriKeys, [.production "IRIref"]⟩,
    ⟨"GraphTerm", ["StringLiteral"], [.production "RDFLiteral"]⟩,
    ⟨"GraphTerm", ["NumericLiteral"], [.terminal "NumericLiteral"]⟩,
    ⟨"GraphTerm", ["BooleanLiteral"], [.terminal "BooleanLiteral"]⟩,
    ⟨"GraphTerm", ["BlankNode"], [.terminal "BlankNode"]⟩,
    ⟨"GraphTerm", ["Nil"], [.terminal "Nil"]⟩,
    ⟨"RDFLiteral", ["StringLiteral"], [.terminal "StringLiteral", .production "LiteralSuffix"]⟩,
    ⟨"LiteralSuffix", ["LangTag"], [.terminal "LangTag"]⟩,
    ⟨"LiteralSuffix", ["^^"], [.terminal "^^", .production "IRIref"]⟩,
    ⟨"LiteralSuffix", nodeKeys ++ comparisonKeys ++ patternKeys ++ ["&&", ")", "*", "+", ",", "-",
      ".", "/", ";", "]", "a", "||", "\x7d"],
      []⟩,
    ⟨"IRIref", ["IriRef"], [.terminal "IriRef"]⟩,
    ⟨"IRIref", ["PrefixedNameNamespace", "PrefixedNameWithLocal"], [.production "PrefixedName"]⟩,
    ⟨"PrefixedName", ["PrefixedNameWithLocal"], [.terminal "PrefixedNameWithLocal"]⟩,
    ⟨"PrefixedName", ["PrefixedNameNamespace"], [.terminal "PrefixedNameNamespace"]⟩]

/-- Expressions, from the loosest operator to calls. -/
def expressionGroups : List RuleGroup :=
  [⟨"Expression", expressionKeys, [.production "ConditionalOrExpression"]⟩,
    ⟨"ConditionalOrExpression", expressionKeys,
      [.production "ConditionalAndExpression", .production "OrTail"]⟩,
    ⟨"OrTail", ["||"],
      [.terminal "||", .production "ConditionalAndExpression", .production "OrTail"]⟩,
    ⟨"OrTail", [")", ","], []⟩,
    ⟨"ConditionalAndExpression", expressionKeys,
      [.production "ValueLogical", .production "AndTail"]⟩,
    ⟨"AndTail", ["&&"], [.terminal "&&", .production "ValueLogical", .production "AndTail"]⟩,
    ⟨"AndTail", [")", ",", "||"], []⟩,
    ⟨"ValueLogical", expressionKeys, [.production "RelationalExpression"]⟩,
    ⟨"RelationalExpression", expressionKeys,
      [.production "NumericExpression", .production "RelationalTail"]⟩,
    ⟨"RelationalTail", ["="], [.terminal "=", .production "NumericExpression"]⟩,
    ⟨"RelationalTail", ["!="], [.terminal "!=", .production "NumericExpression"]⟩,
    ⟨"RelationalTail", ["<"], [.terminal "<", .production "NumericExpression"]⟩,
    ⟨"RelationalTail", [">"], [.terminal ">", .production "NumericExpression"]⟩,
    ⟨"RelationalTail", ["<="], [.terminal "<=", .production "NumericExpression"]⟩,
    ⟨"RelationalTail", [">="], [.terminal ">=", .production "NumericExpression"]⟩,
    ⟨"RelationalTail", ["&&", ")", ",", "||"], []⟩,
    ⟨"NumericExpression", expressionKeys, [.production "AdditiveExpression"]⟩,
    ⟨"AdditiveExpression", expressionKeys,
      [.production "MultiplicativeExpression", .production "AdditiveTail"]⟩,
    ⟨"AdditiveTail", ["+"],
      [.terminal "+", .production "MultiplicativeExpression", .production "AdditiveTail"]⟩,
    ⟨"AdditiveTail", ["-"],
      [.terminal "-", .production "MultiplicativeExpression", .production "AdditiveTail"]⟩,
    ⟨"AdditiveTail", ["NumericLiteral"],
      [.terminal "NumericLiteral", .production "MultiplicativeTail", .production "AdditiveTail"]⟩,
    ⟨"AdditiveTail", comparisonKeys ++ ["&&", ")", ",", "||"], []⟩,
    ⟨"MultiplicativeExpression", expressionKeys,
      [.production "UnaryExpression", .production "MultiplicativeTail"]⟩,
    ⟨"MultiplicativeTail", ["*"],
      [.terminal "*", .production "UnaryExpression", .production "MultiplicativeTail"]⟩,
    ⟨"MultiplicativeTail", ["/"],
      [.terminal "/", .production "UnaryExpression", .production "MultiplicativeTail"]⟩,
    ⟨"MultiplicativeTail", comparisonKeys ++ ["&&", ")", "+", ",", "-", "NumericLiteral", "||"],
      []⟩,
    ⟨"UnaryExpression", ["!"], [.terminal "!", .production "PrimaryExpression"]⟩,
    ⟨"UnaryExpression", ["+"], [.terminal "+", .production "PrimaryExpression"]⟩,
    ⟨"UnaryExpression", ["-"], [.terminal "-", .production "PrimaryExpression"]⟩,
    ⟨"UnaryExpression", primaryKeys, [.production "PrimaryExpression"]⟩,
    ⟨"PrimaryExpression", ["("], [.production "BrackettedExpression"]⟩,
    ⟨"PrimaryExpression", builtInKeys, [.production "BuiltInCall"]⟩,
    ⟨"PrimaryExpression", iriKeys, [.production "IRIrefOrFunction"]⟩,
    ⟨"PrimaryExpression", ["StringLiteral"], [.production "RDFLiteral"]⟩,
    ⟨"PrimaryExpression", ["NumericLiteral"], [.terminal "NumericLiteral"]⟩,
    ⟨"PrimaryExpression", ["BooleanLiteral"], [.terminal "BooleanLiteral"]⟩,
    ⟨"PrimaryExpression", ["Variable"], [.production "Var"]⟩,
    ⟨"IRIrefOrFunction", iriKeys, [.production "IRIref", .production "ArgListOpt"]⟩,
    ⟨"ArgListOpt", ["(", "Nil"], [.production "ArgList"]⟩,
    ⟨"ArgListOpt", comparisonKeys ++ ["&&", ")", "*", "+", ",", "-", "/", "||"], []⟩,
    ⟨"BrackettedExpression", ["("], [.terminal "(", .production "Expression", .terminal ")"]⟩,
    ⟨"BuiltInCall", ["str"],
      [.terminal "str", .terminal "(", .production "Expression", .terminal ")"]⟩,
    ⟨"BuiltInCall", ["lang"],
      [.terminal "lang", .terminal "(", .production "Expression", .terminal ")"]⟩,
    ⟨"BuiltInCall", ["datatype"],
      [.terminal "datatype", .terminal "(", .production "Expression", .terminal ")"]⟩,
    ⟨"BuiltInCall", ["isiri"],
      [.terminal "isiri", .terminal "(", .production "Expression", .terminal ")"]⟩,
    ⟨"BuiltInCall", ["isuri"],
      [.terminal "isuri", .terminal "(", .production "Expression", .terminal ")"]⟩,
    ⟨"BuiltInCall", ["isblank"],
      [.terminal "isblank", .terminal "(", .production "Expression", .terminal ")"]⟩,
    ⟨"BuiltInCall", ["isliteral"],
      [.terminal "isliteral", .terminal "(", .production "Expression", .terminal ")"]⟩,
    ⟨"BuiltInCall", ["langmatches"],
      [.terminal "langmatches", .terminal "(", .production "Expression", .terminal ",",
        .production "Expression", .terminal ")"]⟩,
    ⟨"BuiltInCall", ["sameterm"],
      [.terminal "sameterm", .terminal "(", .production "Expression", .terminal ",",
        .production "Expression", .terminal ")"]⟩,
    ⟨"BuiltInCall", ["bound"],
      [.terminal "bound", .terminal "(", .production "Var", .terminal ")"]⟩,
    ⟨"BuiltInCall", ["regex"], [.production "RegexExpression"]⟩,
    ⟨"RegexExpression", ["regex"],
      [.terminal "regex", .terminal "(", .production "Expression", .terminal ",",
        .production "Expression", .production "RegexFlags", .terminal ")"]⟩,
    ⟨"RegexFlags", [","], [.terminal ",", .production "Expression"]⟩,
    ⟨"RegexFlags", [")"], []⟩]

/-- The grammar of queries. -/
def queryGroups : List RuleGroup :=
  queryFormGroups ++ modifierGroups ++ patternGroups ++ tripleGroups ++ expressionGroups

def queryRules : List Rule :=
  queryGroups.flatMap RuleGroup.rules

def queryTable : Table :=
  .ofRules queryRules

end SparqlQuery
