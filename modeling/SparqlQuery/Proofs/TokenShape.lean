import SparqlQuery.Proofs.NameRoundTrip

namespace SparqlQuery

/-- The name of a variable: what follows its sigil. -/
def IsVariableName (s : List Char) : Prop :=
  ∃ c name, s = c :: name ∧ isVariableStart c = true ∧ ∀ d ∈ name, isVariableChar d = true

/-- A name that may hold dots but not end with one, its first character from a class of its own. -/
def IsDottedName (start : Char → Bool) (s : List Char) : Prop :=
  ∃ c name, s = c :: name ∧ start c = true ∧ (∀ d ∈ name, isNameChar d = true ∨ d = '.') ∧
    name.getLast? ≠ some '.'

/-- Letters, and then groups of letters and digits with a dash in front of each. -/
def IsLanguageTag (s : List Char) : Prop :=
  ∃ (letters : List Char) (groups : List (List Char)), s = letters ++ groups.flatMap ('-' :: ·) ∧
    letters ≠ [] ∧ (∀ c ∈ letters, c.isAlpha = true) ∧
    ∀ group ∈ groups, group ≠ [] ∧ ∀ c ∈ group, c.isAlphanum = true

/-- The identifier of an anonymous node: empty brackets and a number. -/
def IsAnonymousId (s : List Char) : Prop :=
  ∃ digits, s = '[' :: ']' :: digits ∧ digits ≠ [] ∧ ∀ c ∈ digits, c.isDigit = true

/-- The values that tokens of a kind can have. -/
def Kind.Admits : Kind → Value → Prop
  | .variableName, .text name => IsVariableName name.toList
  | .iriRef, .iri content => ∀ c ∈ content.toList, isIriChar c = true
  | .prefixedNameWithLocal, .prefixedName label (some localPart) =>
    (∀ text ∈ label, IsDottedName isNameBase text.toList) ∧ localPart ≠ ""
  | .prefixedNameNamespace, .prefixedName label none =>
    ∀ text ∈ label, IsDottedName isNameBase text.toList
  | .stringLiteral, .string _ => True
  | .langTag, .text tag => IsLanguageTag tag.toList
  | .numericLiteral, .integer _ => True
  | .numericLiteral, .decimal d => 1 ≤ d.scale
  | .numericLiteral, .double d => d.isFinite = true
  | .booleanLiteral, .boolean _ => True
  | .blankNode, .blankNode id => IsDottedName isVariableStart id.toList ∨ IsAnonymousId id.toList
  | .nil, .text s => s = "()"
  | .keyword, .text word => word = "a" ∨ word ∈ keywords
  | .delimiter, .text symbol => symbol.toList ∈ delimiters
  | .operator, .text symbol => symbol.toList ∈ operators
  | _, _ => False

section

variable {fresh : UInt32} {value : Value} {s lexeme rest run : List Char}

/-- No unit begins at a dot that only the rest of the text follows. -/
theorem UnitRun.dotted_last {accept : Char → Bool} (h : UnitRun (dottedUnit accept) run rest) :
    run.getLast? ≠ some '.' := by
  induction h with
  | stop => simp
  | @unit c unit run rest hsize hrun ih =>
    obtain rfl := eq_nil_of_dottedUnit hsize
    rw [List.nil_append]
    cases run with
    | cons d run => simpa using ih
    | nil =>
      intro hlast
      obtain rfl : c = '.' := by simpa using hlast
      have hzero := hrun.size_rest
      rw [List.nil_append, List.nil_append, dottedUnit_dot, hzero] at hsize
      cases hsize

theorem isDottedName_of_run {start : Char → Bool} {c : Char} (hc : start c = true)
    (hrun : UnitRun (dottedUnit isNameChar) run rest) : IsDottedName start (c :: run) :=
  ⟨c, run, rfl, hc, hrun.dotted_chars, hrun.dotted_last⟩

/-- A label that is not missing is a dotted name. -/
theorem IsLabel.isDottedName {label : List Char} (h : IsLabel label) :
    ∀ text ∈ Value.nonEmpty (String.ofList label), IsDottedName isNameBase text.toList := by
  intro text htext
  unfold Value.nonEmpty at htext
  split at htext
  next => cases htext
  next hne =>
    obtain rfl := Option.some.inj htext
    rw [String.toList_ofList]
    cases label with
    | nil => exact absurd rfl hne
    | cons c name =>
      obtain ⟨hc, hname⟩ := h c name rfl
      exact isDottedName_of_run hc hname

theorem UnitRun.subtag_groups (h : UnitRun subtagUnit run rest) : ∃ groups : List (List Char),
    run = groups.flatMap ('-' :: ·) ∧
      ∀ group ∈ groups, group ≠ [] ∧ ∀ c ∈ group, c.isAlphanum = true := by
  induction h with
  | stop => exact ⟨[], rfl, by simp⟩
  | @unit c unit run rest hsize _ ih =>
    obtain ⟨rfl, hne, hall, -⟩ := subtagUnit_eq_iff.mp hsize
    obtain ⟨groups, rfl, hgroups⟩ := ih
    exact ⟨unit :: groups, rfl, List.forall_mem_cons.mpr ⟨⟨hne, hall⟩, hgroups⟩⟩

theorem admits_variable (hsplit : splitVariable s = some (lexeme, rest))
    (hvalue : Kind.variableName.value? fresh lexeme = some value) :
    Kind.variableName.Admits value := by
  obtain ⟨sigil, c, name, -, hc, hname, -, rfl, -⟩ := splitVariable_eq_some_iff.mp hsplit
  cases hvalue
  exact ⟨c, name, by simp, hc, hname⟩

theorem admits_iri (hsplit : splitIri s = some (lexeme, rest))
    (hvalue : Kind.iriRef.value? fresh lexeme = some value) : Kind.iriRef.Admits value := by
  obtain ⟨content, hcontent, rfl, -⟩ := splitIri_eq_some_iff.mp hsplit
  cases hvalue
  have hchars : (String.ofList (('<' :: (content ++ ['>'])).drop 1).dropLast).toList = content := by
    simp
  simp only [Kind.Admits, hchars]
  exact hcontent

theorem admits_prefixedName (hsplit : splitPrefixedName s = some (lexeme, rest))
    (hvalue : Kind.prefixedNameWithLocal.value? fresh lexeme = some value) :
    Kind.prefixedNameWithLocal.Admits value := by
  obtain ⟨label, run, hlabel, hlocal, rfl, -⟩ := splitPrefixedName_eq_some_iff.mp hsplit
  rw [value?_name_of_split fresh hlabel hlocal] at hvalue
  obtain rfl := Option.some.inj hvalue
  refine ⟨hlabel.isDottedName, fun hempty => filter_slash_ne_nil hlocal ?_⟩
  simpa using congrArg String.toList hempty

theorem admits_namespace (hsplit : splitNamespace s = some (lexeme, rest))
    (hvalue : Kind.prefixedNameNamespace.value? fresh lexeme = some value) :
    Kind.prefixedNameNamespace.Admits value := by
  obtain ⟨label, hlabel, rfl, -⟩ := splitNamespace_eq_some_iff.mp hsplit
  simp only [Kind.value?, nameParts_of_label hlabel, Option.some.injEq] at hvalue
  subst hvalue
  exact hlabel.isDottedName

theorem admits_langTag (hsplit : splitLangTag s = some (lexeme, rest))
    (hvalue : Kind.langTag.value? fresh lexeme = some value) : Kind.langTag.Admits value := by
  obtain ⟨c, letters, run, hc, hletters, -, hrun, rfl, -⟩ := splitLangTag_eq_some_iff.mp hsplit
  obtain ⟨groups, rfl, hgroups⟩ := hrun.subtag_groups
  cases hvalue
  exact ⟨c :: letters, groups, by simp, List.cons_ne_nil c letters,
    List.forall_mem_cons.mpr ⟨hc, hletters⟩, hgroups⟩

theorem admits_number (hvalue : numericValue? lexeme = some value) :
    Kind.numericLiteral.Admits value := by
  rcases numericValue?_cases hvalue with ⟨n, rfl⟩ | ⟨d, rfl, hscale⟩ | ⟨d, rfl, hfinite⟩
  · trivial
  · exact hscale
  · exact hfinite

theorem admits_blankNode (hsplit : splitBlankNode s = some (lexeme, rest))
    (hvalue : Kind.blankNode.value? fresh lexeme = some value) : Kind.blankNode.Admits value := by
  rcases orElse_eq_some_iff.mp hsplit with hlabel | ⟨-, hempty⟩
  · obtain ⟨c, run, hc, hrun, rfl, -⟩ := splitBlankLabel_eq_some_iff.mp hlabel
    cases hvalue
    have hchars : (String.ofList (('_' :: ':' :: c :: run).drop 2)).toList = c :: run := by simp
    refine .inl ?_
    rw [hchars]
    exact isDottedName_of_run hc hrun
  · obtain ⟨gap, -, rfl, -⟩ := (splitEmpty_eq_some_iff (by decide)).mp hempty
    cases hvalue
    refine .inr ⟨natChars fresh.toNat, ?_, natChars_ne_nil _, isDigit_of_mem_natChars⟩
    simp [natChars, Value.anonymousMark]

theorem admits_keyword (hvalue : Kind.keyword.value? fresh lexeme = some value) :
    Kind.keyword.Admits value := by
  obtain ⟨entry, hentry, rfl⟩ := Option.map_eq_some_iff.mp hvalue
  obtain ⟨hmem, -⟩ := lookupKeyword_eq_some hentry
  exact mem_keywordTexts_iff.mp hmem

/-- A lexeme of a kind has a value that the kind admits. -/
theorem Kind.admits_of_split {kind : Kind} (hsplit : kind.split s = some (lexeme, rest))
    (hvalue : kind.value? fresh lexeme = some value) : kind.Admits value := by
  cases kind with
  | variableName => exact admits_variable hsplit hvalue
  | iriRef => exact admits_iri hsplit hvalue
  | prefixedNameWithLocal => exact admits_prefixedName hsplit hvalue
  | prefixedNameNamespace => exact admits_namespace hsplit hvalue
  | stringLiteral =>
    cases hvalue
    trivial
  | langTag => exact admits_langTag hsplit hvalue
  | numericLiteral => exact admits_number hvalue
  | booleanLiteral =>
    cases hvalue
    trivial
  | blankNode => exact admits_blankNode hsplit hvalue
  | nil =>
    cases hvalue
    rfl
  | keyword => exact admits_keyword hvalue
  | delimiter =>
    cases hvalue
    simpa [Kind.Admits] using splitSymbol_mem hsplit
  | operator =>
    cases hvalue
    simpa [Kind.Admits] using splitSymbol_mem hsplit

theorem Kind.admits_of_scan {kind : Kind}
    (h : scanLexeme fresh s = some (kind, value, lexeme, rest)) : kind.Admits value := by
  obtain ⟨hsplit, hvalue, -⟩ := scanLexeme_eq_some_iff.mp h
  exact kind.admits_of_split hsplit hvalue

end

namespace Lexer

variable {lexer : Lexer} {token : Token}

theorem scanned_next (h : lexer.next.1 = some (.ok token)) : ∃ lexeme rest,
    scanLexeme lexer.fresh (lexeme ++ rest) = some (token.kind, token.value, lexeme, rest) := by
  unfold next at h
  split at h
  next => cases h
  next =>
    split at h
    next => cases h
    next c s _ =>
      split at h
      next => cases h
      next kind value lexeme rest hscan =>
        obtain ⟨happ, -⟩ := scanLexeme_append hscan
        cases h
        exact ⟨lexeme, rest, happ ▸ hscan⟩

/-- Every token that a lexer yields was scanned at its place, also where an error follows. -/
theorem scanned_item {n : Nat} (h : lexer.item n = some (.ok token)) : ∃ fresh lexeme rest,
    scanLexeme fresh (lexeme ++ rest) = some (token.kind, token.value, lexeme, rest) := by
  induction n generalizing lexer with
  | zero => exact ⟨lexer.fresh, scanned_next h⟩
  | succ n ih =>
    rw [item_succ] at h
    exact ih h

end Lexer

/-- Every token that a lexer yields has a value such as its kind promises, whether or not the text
is lexed to its end. -/
theorem item_admits {text : String} {n : Nat} {token : Token}
    (h : (Lexer.ofText text).item n = some (.ok token)) : token.kind.Admits token.value := by
  obtain ⟨fresh, lexeme, rest, hscan⟩ := Lexer.scanned_item h
  exact Kind.admits_of_scan hscan

/-- A name in front of a percent sign at which the lexer fails. -/
theorem dottedName_admits :
    (Lexer.ofText "@en ex.y:a\\-b %").item 1 =
        some (.ok ⟨.prefixedNameWithLocal, .prefixedName (some "ex.y") (some "a-b"), ⟨4, 13⟩⟩) ∧
      Kind.prefixedNameWithLocal.Admits (.prefixedName (some "ex.y") (some "a-b")) := by
  have hitem : (Lexer.ofText "@en ex.y:a\\-b %").item 1 =
      some (.ok ⟨.prefixedNameWithLocal, .prefixedName (some "ex.y") (some "a-b"), ⟨4, 13⟩⟩) := by
    decide +kernel
  exact ⟨hitem, item_admits hitem⟩

end SparqlQuery
