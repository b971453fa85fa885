namespace SparqlQuery

/-- Keywords and names of built-in functions, in lower case and in increasing order. -/
def keywords : Array String :=
  #["abs", "add", "all", "as", "asc", "ask", "avg", "base", "bind", "bnode", "bound", "by",
    "ceil", "clear", "coalesce", "concat", "construct", "contains", "copy", "count", "create",
    "data", "datatype", "day", "default", "delete", "desc", "describe", "distinct", "drop",
    "encode_for_uri", "exists", "filter", "floor", "from", "graph", "group", "group_concat",
    "having", "hours", "if", "in", "insert", "into", "iri", "isblank", "isiri", "isliteral",
    "isnumeric", "isuri", "lang", "langmatches", "lcase", "limit", "load", "max", "md5", "min",
    "minus", "minutes", "month", "move", "named", "not", "now", "offset", "optional", "order",
    "prefix", "rand", "reduced", "regex", "replace", "round", "sameterm", "sample", "seconds",
    "select", "separator", "service", "sha1", "sha256", "sha384", "sha512", "silent", "str",
    "strafter", "strbefore", "strends", "strlen", "strstarts", "struuid", "substr", "sum",
    "timezone", "to", "tz", "ucase", "undef", "union", "uri", "using", "uuid", "values",
    "where", "with", "year"]

/-- Looks for a word by halving between `low` and `high` in an increasing table. -/
def bisect (table : Array String) (word : String) (low high : Nat) : Option String :=
  if _h : low < high then
    match table[(low + high) / 2]? with
    | none => none
    | some entry =>
      if word = entry then some entry
      else if word < entry then bisect table word low ((low + high) / 2)
      else bisect table word ((low + high) / 2 + 1) high
  else none
termination_by high - low
decreasing_by all_goals omega

/-- A word as a keyword, in any case; `a` is one in lower case only. -/
def lookupKeyword (word : String) : Option String :=
  if word = "a" then some "a"
  else bisect keywords (word.map Char.toLower) 0 keywords.size

end SparqlQuery
