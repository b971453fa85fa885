import SparqlQuery.Proofs.DecimalValue
import SparqlQuery.Proofs.NearestDouble
import SparqlQuery.Proofs.NumberText
import SparqlQuery.Proofs.ScanCut
import SparqlQuery.Proofs.StringText

namespace SparqlQuery

/-- A finite double is read back from its scientific notation. -/
def Double.ReadsBack (d : Double) : Prop :=
  ∃ e, numericValue? d.scientificChars = some (.double e) ∧ d.agrees e = true

/-- Only what is not a number does not agree with itself. -/
theorem Value.agrees_self {value : Value} (h : ∀ d, value = .double d → d.isNaN = false) :
    value.agrees value = true := by
  cases value with
  | double d => exact Double.agrees_iff.mpr ⟨h d rfl, h d rfl, rfl⟩
  | decimal d => exact Decimal.agrees_iff.mpr rfl
  | _ => simp [agrees]

/-- Values that agree leave the same number for the next anonymous node. -/
theorem Value.isAnonymousBlank_of_agrees {value again : Value} (h : value.agrees again = true) :
    again.isAnonymousBlank = value.isAnonymousBlank := by
  unfold agrees at h
  split at h
  next => rfl
  next => rfl
  next =>
    rw [eq_of_beq h]

section

variable {fresh : UInt32} {value : Value} {lexeme rest t : List Char}

theorem nonEmpty_getD (s : String) : (Value.nonEmpty s).getD "" = s := by
  unfold Value.nonEmpty
  split
  next h => simpa using (String.isEmpty_iff.mp h).symm
  next => rfl

theorem IsLabel.not_mem_colon {label : List Char} (h : IsLabel label) : ':' ∉ label := by
  intro hmem
  cases label with
  | nil => cases hmem
  | cons c name =>
    obtain ⟨hc, hname⟩ := h c name rfl
    rcases List.mem_cons.mp hmem with rfl | hmem
    · exact absurd hc (by decide)
    · rcases hname.dotted_chars _ hmem with hchar | hdot
      · exact absurd hchar (by decide)
      · cases hdot

theorem nameParts_of_label {label : List Char} (hlabel : IsLabel label) (run : List Char) :
    nameParts (label ++ ':' :: run) = (label, run.filter (· != '\\')) := by
  have hfront : ∀ c ∈ label, (c != ':') = true := by
    intro c hc
    simp only [bne_iff_ne]
    rintro rfl
    exact hlabel.not_mem_colon hc
  have hstops : StopsAt (· != ':') (':' :: run) := stopsAt_cons rfl run
  simp [nameParts, hstops.takeWhile_append hfront, hstops.dropWhile_append hfront]

theorem filter_slash_eq_self {run : List Char} (hslash : '\\' ∉ run) :
    run.filter (· != '\\') = run := by
  rw [List.filter_eq_self]
  intro c hc
  simp only [bne_iff_ne]
  rintro rfl
  exact hslash hc

theorem chars_ofParts (label localPart : List Char) :
    (Value.ofParts (String.ofList label) (String.ofList localPart)).chars =
      label ++ ':' :: localPart := by
  simp [Value.ofParts, Value.chars, nonEmpty_getD]

/-- A name without backslashes is written as it was read. -/
theorem chars_of_nameParts {label run : List Char} (hlabel : IsLabel label)
    (hslash : '\\' ∉ run) : (Value.ofParts (String.ofList (nameParts (label ++ ':' :: run)).1)
      (String.ofList (nameParts (label ++ ':' :: run)).2)).chars = label ++ ':' :: run := by
  rw [nameParts_of_label hlabel, filter_slash_eq_self hslash, chars_ofParts]

/-- A token written as it was read is read as it was. -/
theorem scan_lexeme {kind : Kind} (ht : BlankNext t) (hstring : kind ≠ .stringLiteral)
    (hopen : kind = .delimiter →
      splitEmpty '[' ']' (lexeme ++ t) = none ∧ splitEmpty '(' ')' (lexeme ++ t) = none)
    (h : scanLexeme fresh (lexeme ++ rest) = some (kind, value, lexeme, rest)) :
    scanLexeme fresh (lexeme ++ t) = some (kind, value, lexeme, t) := by
  have hcut : Cut rest t := .here ht
  refine scanLexeme_cut hcut ?_ h
  cases kind with
  | prefixedNameNamespace =>
    have hname := keepsLexeme_namespace hcut (scanLexeme_eq_some_iff.mp h).1
    exact splitPrefixedName_of_stopsAt hname (ht.stopsAt blankFree_localLead)
  | stringLiteral => exact absurd rfl hstring
  | delimiter => exact hopen rfl
  | _ => trivial

/-- The kinds whose tokens are written as they were read. -/
def verbatimKinds : List Kind :=
  [.iriRef, .prefixedNameWithLocal, .prefixedNameNamespace, .langTag, .booleanLiteral, .delimiter,
    .operator]

theorem chars_eq_lexeme {kind : Kind} (hkind : kind ∈ verbatimKinds) {s : List Char}
    (hsplit : kind.split s = some (lexeme, rest)) (hvalue : kind.value? fresh lexeme = some value)
    (hslash : '\\' ∉ lexeme) : kind.chars value = lexeme := by
  cases kind with
  | iriRef =>
    obtain ⟨content, -, rfl, -⟩ := splitIri_eq_some_iff.mp hsplit
    cases hvalue
    simp [Kind.chars, Value.chars]
  | prefixedNameWithLocal =>
    obtain ⟨label, run, hlabel, -, rfl, -⟩ := splitPrefixedName_eq_some_iff.mp hsplit
    cases hvalue
    exact chars_of_nameParts hlabel fun hmem => hslash (by simp [hmem])
  | prefixedNameNamespace =>
    obtain ⟨label, hlabel, rfl, -⟩ := splitNamespace_eq_some_iff.mp hsplit
    cases hvalue
    exact chars_of_nameParts hlabel List.not_mem_nil
  | langTag =>
    obtain ⟨c, letters, run, -, -, -, -, rfl, -⟩ := splitLangTag_eq_some_iff.mp hsplit
    cases hvalue
    simp [Kind.chars]
  | booleanLiteral =>
    obtain ⟨rfl | rfl, -, -⟩ := splitBoolean_eq_some_iff.mp hsplit
    · cases hvalue
      rfl
    · cases hvalue
      rfl
  | delimiter =>
    cases hvalue
    simp [Kind.chars, Value.chars]
  | operator =>
    cases hvalue
    simp [Kind.chars, Value.chars]
  | _ => exact absurd hkind (by decide)

/-- A kind without rivals is the first to take what it can take. -/
theorem scanLexeme_of_split {kind : Kind} (hrivals : kind.rivals = [])
    (hsplit : kind.split (lexeme ++ t) = some (lexeme, t))
    (hvalue : kind.value? fresh lexeme = some value) :
    scanLexeme fresh (lexeme ++ t) = some (kind, value, lexeme, t) :=
  scanLexeme_eq_some_iff.mpr ⟨hsplit, hvalue, by simp [hrivals]⟩

theorem scan_variable (ht : BlankNext t) {s : List Char}
    (hsplit : splitVariable s = some (lexeme, rest))
    (hvalue : Kind.variableName.value? fresh lexeme = some value) :
    scanLexeme fresh (Kind.variableName.chars value ++ t) =
      some (.variableName, value, Kind.variableName.chars value, t) := by
  obtain ⟨sigil, c, name, -, hc, hname, -, rfl, -⟩ := splitVariable_eq_some_iff.mp hsplit
  cases hvalue
  have hchars : Kind.variableName.chars (.text (String.ofList ((sigil :: c :: name).drop 1))) =
      '?' :: c :: name := by simp [Kind.chars]
  rw [hchars]
  have hread : splitVariable ('?' :: c :: name ++ t) = some ('?' :: c :: name, t) :=
    splitVariable_eq_some_iff.mpr
      ⟨'?', c, name, .inl rfl, hc, hname, ht.stopsAt blankFree_variableChar, rfl, rfl⟩
  exact scanLexeme_of_split rfl hread rfl

theorem scan_string (ht : BlankNext t)
    (hvalue : Kind.stringLiteral.value? fresh lexeme = some value) :
    scanLexeme fresh (Kind.stringLiteral.chars value ++ t) =
      some (.stringLiteral, value, Kind.stringLiteral.chars value, t) := by
  cases hvalue
  have hchars : Kind.stringLiteral.chars (.string (String.ofList (stringContent lexeme))) =
      quotedChars (stringContent lexeme) := by simp [Kind.chars, Value.chars]
  rw [hchars]
  refine scanLexeme_of_split rfl (splitString_quotedChars ht _) ?_
  simp [Kind.value?, stringContent_quotedChars]

/-- A number is read again from what it is written as, whatever white space follows. -/
theorem scan_numeral {again : Value} (ht : BlankNext t)
    (hsplit : splitNumber lexeme = some (lexeme, []))
    (hvalue : numericValue? lexeme = some again) :
    scanLexeme fresh (lexeme ++ t) = some (.numericLiteral, again, lexeme, t) := by
  have halone : splitNumber (lexeme ++ []) = some (lexeme, []) := by
    rw [List.append_nil]
    exact hsplit
  exact scanLexeme_of_split rfl (keepsLexeme_number (.here ht) halone) hvalue

theorem Double.chars_of_isFinite {d : Double} (h : d.isFinite = true) :
    d.chars = d.scientificChars := by
  simp only [Double.isFinite, decide_eq_true_eq] at h
  have hnan : d.isNaN = false := by
    simp only [Double.isNaN, decide_eq_false_iff_not]
    omega
  have hinfinite : d.isInfinite = false := by
    simp only [Double.isInfinite, beq_eq_false_iff_ne]
    omega
  simp [Double.chars, hnan, hinfinite]

theorem scan_number (ht : BlankNext t) (hdouble : ∀ d, value = .double d → d.ReadsBack)
    (hvalue : Kind.numericLiteral.value? fresh lexeme = some value) : ∃ again,
    scanLexeme fresh (Kind.numericLiteral.chars value ++ t) =
      some (.numericLiteral, again, Kind.numericLiteral.chars value, t) ∧
        value.agrees again = true := by
  rcases numericValue?_cases hvalue with ⟨n, rfl⟩ | ⟨d, rfl, hscale⟩ | ⟨d, rfl, hfinite⟩
  · exact ⟨_, scan_numeral ht (splitNumber_intChars n) (numericValue?_intChars n),
      Value.agrees_self (by simp)⟩
  · exact ⟨_, scan_numeral ht (Decimal.splitNumber_chars hscale)
      (Decimal.numericValue?_chars hscale), Value.agrees_self (by simp)⟩
  · obtain ⟨e, hread, hagrees⟩ := hdouble d rfl
    have hchars : Kind.numericLiteral.chars (.double d) = d.scientificChars :=
      Double.chars_of_isFinite hfinite
    rw [hchars]
    exact ⟨.double e, scan_numeral ht d.splitNumber_scientificChars hread, hagrees⟩

theorem scan_nil (t : List Char) (hvalue : Kind.nil.value? fresh lexeme = some value) :
    scanLexeme fresh (Kind.nil.chars value ++ t) = some (.nil, value, Kind.nil.chars value, t) := by
  cases hvalue
  have hread : splitEmpty '(' ')' (['(', ')'] ++ t) = some (['(', ')'], t) :=
    (splitEmpty_eq_some_iff (by decide)).mpr ⟨[], by simp, rfl, rfl⟩
  exact scanLexeme_of_split rfl hread rfl

theorem isAnonymousBlank_ofAnonymous (number : UInt32) :
    (Value.ofAnonymous number).isAnonymousBlank = true := by
  simp [Value.ofAnonymous, Value.isAnonymousBlank, Value.anonymousMark]

theorem scan_blankNode (ht : BlankNext t)
    (h : scanLexeme fresh (lexeme ++ rest) = some (.blankNode, value, lexeme, rest)) :
    scanLexeme fresh (Kind.blankNode.chars value ++ t) =
      some (.blankNode, value, Kind.blankNode.chars value, t) := by
  obtain ⟨hsplit, hvalue, -⟩ := scanLexeme_eq_some_iff.mp h
  rcases orElse_eq_some_iff.mp hsplit with hlabel | ⟨-, hempty⟩
  · obtain ⟨c, run, hc, -, hlexeme, -⟩ := splitBlankLabel_eq_some_iff.mp hlabel
    have hchars : Kind.blankNode.chars value = lexeme := by
      subst hlexeme
      cases hvalue
      have hne : c ≠ '[' := ne_of_class hc (by decide)
      simp [Kind.chars, Value.chars, Value.isAnonymousBlank, Value.anonymousMark, hne.symm]
    rw [hchars]
    exact scan_lexeme ht (by decide) (fun h => by cases h) h
  · obtain ⟨gap, -, rfl, -⟩ := (splitEmpty_eq_some_iff (by decide)).mp hempty
    cases hvalue
    have hchars : Kind.blankNode.chars (.ofAnonymous fresh) = ['[', ']'] := by
      have hmark := isAnonymousBlank_ofAnonymous fresh
      simp only [Value.ofAnonymous] at hmark ⊢
      simp [Kind.chars, Value.chars, hmark]
    rw [hchars]
    have hread : splitEmpty '[' ']' (['[', ']'] ++ t) = some (['[', ']'], t) :=
      (splitEmpty_eq_some_iff (by decide)).mpr ⟨[], by simp, rfl, rfl⟩
    exact scanLexeme_of_split rfl hread rfl

theorem scan_keyword (ht : BlankNext t)
    (hvalue : Kind.keyword.value? fresh lexeme = some value) :
    scanLexeme fresh (Kind.keyword.chars value ++ t) =
      some (.keyword, value, Kind.keyword.chars value, t) := by
  simp only [Kind.value?, Option.map_eq_some_iff] at hvalue
  obtain ⟨entry, hentry, rfl⟩ := hvalue
  obtain ⟨hmem, -⟩ := lookupKeyword_eq_some hentry
  have hword := List.all_eq_true.mp (chars_of_keyword hmem).1
  have hself := lookupKeyword_self hmem
  have hend : endsWord t.head? = true := endsWord_cut (s := []) rfl (.here ht)
  have hsplit : splitKeyword (entry.toList ++ t) = some (entry.toList, t) :=
    splitKeyword_eq_some_iff.mpr ⟨hword, by rw [String.ofList_toList, hself]; rfl, hend, rfl⟩
  have halone : splitNamespace (entry.toList ++ []) = none := by
    by_contra hsome
    obtain ⟨⟨name, rest⟩, hname⟩ := Option.ne_none_iff_exists'.mp hsome
    obtain ⟨label, -, rfl, happ⟩ := splitNamespace_eq_some_iff.mp hname
    rw [List.append_nil] at happ
    exact absurd (hword ':' (by simp [happ])) (by decide)
  have hname : splitNamespace (entry.toList ++ t) = none :=
    keepsSilent_namespace (Cut.append entry.toList (.here ht)) halone
  have hchars : Kind.keyword.chars (.text entry) = entry.toList := rfl
  rw [hchars]
  refine scanLexeme_eq_some_iff.mpr ⟨hsplit, by simp [Kind.value?, hself], ?_⟩
  simp only [Kind.rivals, List.forall_mem_cons, Kind.split]
  exact ⟨splitPrefixedName_of_namespace hname, hname, splitBoolean_of_keyword hsplit, by simp⟩

theorem Kind.value?_ne_double {kind : Kind} (hkind : kind ≠ .numericLiteral)
    (h : kind.value? fresh lexeme = some value) (d : Double) : value ≠ .double d := by
  rintro rfl
  cases kind with
  | numericLiteral => exact hkind rfl
  | keyword => simp [Kind.value?] at h
  | blankNode =>
    simp only [Kind.value?] at h
    split at h <;> cases h
  | _ => cases h

/-- Every token is read again from what it is written as, if white space or nothing follows and no
bracket closes over that white space. -/
theorem scan_rendered {kind : Kind} (ht : BlankNext t) (hslash : '\\' ∉ lexeme)
    (hdouble : ∀ d, value = .double d → d.ReadsBack)
    (hopen : kind = .delimiter → splitEmpty '[' ']' (kind.chars value ++ t) = none ∧
      splitEmpty '(' ')' (kind.chars value ++ t) = none)
    (h : scanLexeme fresh (lexeme ++ rest) = some (kind, value, lexeme, rest)) : ∃ again,
    scanLexeme fresh (kind.chars value ++ t) = some (kind, again, kind.chars value, t) ∧
      value.agrees again = true := by
  obtain ⟨hsplit, hvalue, -⟩ := scanLexeme_eq_some_iff.mp h
  by_cases hnumber : kind = .numericLiteral
  · subst hnumber
    exact scan_number ht hdouble hvalue
  have hself := Value.agrees_self fun d hd => absurd hd (Kind.value?_ne_double hnumber hvalue d)
  refine ⟨value, ?_, hself⟩
  by_cases hverbatim : kind ∈ verbatimKinds
  · have hchars := chars_eq_lexeme hverbatim hsplit hvalue hslash
    have hstring : kind ≠ .stringLiteral := by
      rintro rfl
      exact absurd hverbatim (by decide)
    rw [hchars] at hopen ⊢
    exact scan_lexeme ht hstring hopen h
  · cases kind with
    | variableName => exact scan_variable ht hsplit hvalue
    | stringLiteral => exact scan_string ht hvalue
    | numericLiteral => exact absurd rfl hnumber
    | blankNode => exact scan_blankNode ht h
    | nil => exact scan_nil t hvalue
    | keyword => exact scan_keyword ht hvalue
    | _ => exact absurd (by decide) hverbatim

/-- The kinds that are written in a way of their own write lexemes of theirs. -/
theorem split_rendered {kind : Kind} (hverbatim : kind ∉ verbatimKinds) (hslash : '\\' ∉ lexeme)
    (hdouble : ∀ d, value = .double d → d.ReadsBack)
    (h : scanLexeme fresh (lexeme ++ rest) = some (kind, value, lexeme, rest)) :
    kind.split (kind.chars value) = some (kind.chars value, []) := by
  have hopen : kind = .delimiter → splitEmpty '[' ']' (kind.chars value ++ []) = none ∧
      splitEmpty '(' ')' (kind.chars value ++ []) = none := by
    rintro rfl
    exact absurd (by decide) hverbatim
  obtain ⟨again, hscan, -⟩ := scan_rendered blankNext_nil hslash hdouble hopen h
  rw [List.append_nil] at hscan
  exact (scanLexeme_eq_some_iff.mp hscan).1

/-- What a token is written as begins as the lexemes of its kind do. -/
theorem rendered_leading {kind : Kind} (hslash : '\\' ∉ lexeme)
    (hdouble : ∀ d, value = .double d → d.ReadsBack)
    (h : scanLexeme fresh (lexeme ++ rest) = some (kind, value, lexeme, rest)) :
    ∃ c more, kind.chars value = c :: more ∧ kind ∈ leading c := by
  obtain ⟨hsplit, hvalue, -⟩ := scanLexeme_eq_some_iff.mp h
  by_cases hverbatim : kind ∈ verbatimKinds
  · obtain ⟨c, more, rfl⟩ := List.exists_cons_of_ne_nil (scanLexeme_append h).2
    exact ⟨c, more, chars_eq_lexeme hverbatim hsplit hvalue hslash, mem_leading hsplit⟩
  · have hagain := split_rendered hverbatim hslash hdouble h
    obtain ⟨c, more, hchars⟩ := List.exists_cons_of_ne_nil (kind.splits _ _ _ hagain).2
    rw [hchars] at hagain
    exact ⟨c, more, hchars, mem_leading hagain⟩

end

end SparqlQuery
