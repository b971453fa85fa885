import SparqlQuery.Proofs.LexerGaps
import SparqlQuery.Proofs.ScanCut

namespace SparqlQuery

/-- The longest beginning of a text that has a form, and what follows it. -/
structure IsLongest (form : List Char → Prop) (s lexeme rest : List Char) : Prop where
  form_lexeme : form lexeme
  append_eq : lexeme ++ rest = s
  length_le : ∀ other, form other → other <+: s → other.length ≤ lexeme.length

theorem IsLongest.eq {form : List Char → Prop} {s lexeme rest lexeme' rest' : List Char}
    (h : IsLongest form s lexeme rest) (h' : IsLongest form s lexeme' rest') :
    lexeme = lexeme' ∧ rest = rest' := by
  have hle := h.length_le lexeme' h'.form_lexeme ⟨rest', h'.append_eq⟩
  have hge := h'.length_le lexeme h.form_lexeme ⟨rest, h.append_eq⟩
  exact List.append_inj (h.append_eq.trans h'.append_eq.symm) (Nat.le_antisymm hge hle)

/-- A splitter that takes nothing but what has a form, and never less than anything in front of a
text that has it. -/
structure TakesLongest (split : Splitter) (form : List Char → Prop) : Prop where
  sound : ∀ {s lexeme rest}, split s = some (lexeme, rest) → form lexeme
  reaches : ∀ {lexeme}, form lexeme → ∀ t, ∃ more rest,
    split (lexeme ++ t) = some (lexeme ++ more, rest)

namespace TakesLongest

variable {split : Splitter} {form : List Char → Prop} {s lexeme rest : List Char}

theorem isLongest (h : TakesLongest split form) (hsplits : Splits split)
    (hsplit : split s = some (lexeme, rest)) : IsLongest form s lexeme rest := by
  refine ⟨h.sound hsplit, (hsplits _ _ _ hsplit).1, ?_⟩
  rintro other hother ⟨t, rfl⟩
  obtain ⟨more, tail, hreach⟩ := h.reaches hother t
  obtain ⟨rfl, -⟩ := Prod.mk.inj (Option.some.inj (hsplit.symm.trans hreach))
  simp

theorem split_eq_some_iff (h : TakesLongest split form) (hsplits : Splits split) :
    split s = some (lexeme, rest) ↔ IsLongest form s lexeme rest := by
  refine ⟨h.isLongest hsplits, fun hlongest => ?_⟩
  obtain ⟨more, tail, hreach⟩ := h.reaches hlongest.form_lexeme rest
  rw [hlongest.append_eq] at hreach
  obtain ⟨hlexeme, hrest⟩ := hlongest.eq (h.isLongest hsplits hreach)
  rw [hlexeme, hrest]
  exact hreach

theorem isSome_iff (h : TakesLongest split form) (hsplits : Splits split) :
    (split s).isSome = true ↔ ∃ lexeme, form lexeme ∧ lexeme <+: s := by
  rw [Option.isSome_iff_exists]
  constructor
  · rintro ⟨⟨lexeme, rest⟩, hsplit⟩
    exact ⟨lexeme, h.sound hsplit, ⟨rest, (hsplits _ _ _ hsplit).1⟩⟩
  · rintro ⟨lexeme, hform, t, rfl⟩
    obtain ⟨more, rest, hreach⟩ := h.reaches hform t
    exact ⟨_, hreach⟩

end TakesLongest

/-- A lexeme that is no part of any of these symbols from the front on. -/
def Outgrows (symbols : List (List Char)) (lexeme : List Char) : Prop :=
  ∀ symbol ∈ symbols, ¬ lexeme <+: symbol

section

variable {symbols : List (List Char)} {lexeme : List Char}

/-- A lexeme outgrows the symbols if it holds a character of a class that none of them has. -/
theorem outgrows_of_class {p : Char → Bool} (hsymbols : symbols.all (·.all (!p ·)) = true)
    {c : Char} (hc : c ∈ lexeme) (hp : p c = true) : Outgrows symbols lexeme := by
  intro symbol hsymbol hfront
  have hall := List.all_eq_true.mp (List.all_eq_true.mp hsymbols symbol hsymbol)
  have hnone := hall c (hfront.subset hc)
  rw [hp] at hnone
  cases hnone

/-- A bracketed lexeme outgrows the symbols if none of them has both brackets. -/
theorem outgrows_of_brackets {opening closing : Char}
    (hsymbols : symbols.all (fun symbol => symbol.head? != some opening ||
      !symbol.tail.contains closing) = true) (content : List Char) :
    Outgrows symbols (opening :: (content ++ [closing])) := by
  intro symbol hsymbol hfront
  have hone := List.all_eq_true.mp hsymbols symbol hsymbol
  obtain ⟨more, happ⟩ := hfront
  subst happ
  simp at hone

/-- No operator goes on from a delimiter. -/
theorem outgrows_of_mem_delimiters (h : lexeme ∈ delimiters) : Outgrows operators lexeme := by
  have hall : ∀ symbol ∈ delimiters, operators.all (!symbol.isPrefixOf ·) = true := by decide
  intro symbol hsymbol hfront
  have hnone := List.all_eq_true.mp (hall lexeme h) symbol hsymbol
  rw [List.isPrefixOf_iff_prefix.mpr hfront] at hnone
  cases hnone

end

section

variable {s lexeme rest lexeme' rest' : List Char}

/-- There is a digit in every number. -/
theorem exists_digit_of_splitNumber (h : splitNumber s = some (lexeme, rest)) :
    ∃ d ∈ lexeme, d.isDigit = true := by
  obtain ⟨sign, mantissa, exponent, -, hmantissa, -, hlexeme, -⟩ := splitNumber_eq_some_iff.mp h
  obtain ⟨front, more, ⟨d, hd, hfront⟩, happ⟩ := hmantissa.front
  have hmem : d ∈ front := by
    rcases hfront with rfl | rfl <;> simp
  refine ⟨d, ?_, hd⟩
  rw [hlexeme, happ]
  simp [hmem]

/-- There is a colon in a prefixed name, with a local part or without. -/
theorem colon_mem_of_name {kind : Kind}
    (hkind : kind = .prefixedNameWithLocal ∨ kind = .prefixedNameNamespace)
    (h : kind.split s = some (lexeme, rest)) : ':' ∈ lexeme := by
  rcases hkind with rfl | rfl
  · obtain ⟨label, run, -, -, hlexeme, -⟩ := splitPrefixedName_eq_some_iff.mp h
    simp [hlexeme]
  · obtain ⟨label, -, hlexeme, -⟩ := splitNamespace_eq_some_iff.mp h
    simp [hlexeme]

/-- There is none in a word. -/
theorem colon_not_mem_of_word {kind : Kind}
    (hkind : kind = .booleanLiteral ∨ kind = .keyword)
    (h : kind.split s = some (lexeme, rest)) : ':' ∉ lexeme := by
  rcases hkind with rfl | rfl
  · obtain ⟨hlexeme, -, -⟩ := splitBoolean_eq_some_iff.mp h
    rcases hlexeme with rfl | rfl <;> decide
  · obtain ⟨hword, -, -, -⟩ := splitKeyword_eq_some_iff.mp h
    intro hmem
    have hcolon := hword ':' hmem
    exact absurd hcolon (by decide)

/-- A local part makes a name longer than its namespace. -/
theorem not_prefix_namespace (h : splitPrefixedName s = some (lexeme, rest))
    (h' : splitNamespace s = some (lexeme', rest')) : ¬ lexeme <+: lexeme' := by
  unfold splitPrefixedName at h
  rw [h'] at h
  simp only at h
  split at h
  next => cases h
  next run tail hlocal =>
    simp only [Option.some.injEq, Prod.mk.injEq] at h
    obtain ⟨hname, -⟩ := h
    obtain ⟨-, -, ⟨c, hc, -⟩, -⟩ := splitLocal_eq_some_iff.mp hlocal
    have hrun : 0 < run.length := List.length_pos_of_mem (List.mem_of_mem_head? hc)
    intro hfront
    have hle := hfront.length_le
    rw [← hname, List.length_append] at hle
    omega

theorem outgrows_delimiters {kind : Kind} (hkind : kind ∈ Kind.delimiter.rivals)
    (h : kind.split s = some (lexeme, rest)) : Outgrows delimiters lexeme := by
  cases kind with
  | numericLiteral =>
    obtain ⟨d, hmem, hd⟩ := exists_digit_of_splitNumber h
    exact outgrows_of_class (by decide) hmem hd
  | blankNode =>
    rcases orElse_eq_some_iff.mp h with hlabel | ⟨-, hempty⟩
    · obtain ⟨c, run, -, -, hlexeme, -⟩ := splitBlankLabel_eq_some_iff.mp hlabel
      have hcolon : ':' ∈ lexeme := by simp [hlexeme]
      exact outgrows_of_class (p := (· == ':')) (by decide) hcolon rfl
    · obtain ⟨gap, -, hlexeme, -⟩ := (splitEmpty_eq_some_iff (by decide)).mp hempty
      rw [hlexeme]
      exact outgrows_of_brackets (by decide) gap
  | nil =>
    have hempty : splitEmpty '(' ')' s = some (lexeme, rest) := h
    obtain ⟨gap, -, hlexeme, -⟩ := (splitEmpty_eq_some_iff (by decide)).mp hempty
    rw [hlexeme]
    exact outgrows_of_brackets (by decide) gap
  | _ => exact absurd hkind (by decide)

theorem outgrows_operators {kind : Kind} (hkind : kind ∈ Kind.operator.rivals)
    (h : kind.split s = some (lexeme, rest)) : Outgrows operators lexeme := by
  cases kind with
  | variableName =>
    obtain ⟨sigil, c, name, -, hc, -, -, hlexeme, -⟩ := splitVariable_eq_some_iff.mp h
    have hmem : c ∈ lexeme := by simp [hlexeme]
    exact outgrows_of_class (by decide) hmem hc
  | iriRef =>
    obtain ⟨content, -, hlexeme, -⟩ := splitIri_eq_some_iff.mp h
    rw [hlexeme]
    exact outgrows_of_brackets (by decide) content
  | numericLiteral =>
    obtain ⟨d, hmem, hd⟩ := exists_digit_of_splitNumber h
    exact outgrows_of_class (by decide) hmem hd
  | delimiter => exact outgrows_of_mem_delimiters (splitSymbol_mem h)
  | _ => exact absurd hkind (by decide)

/-- What a kind takes is never the beginning of what a kind takes that is tried later. -/
theorem Kind.not_prefix_of_rival {kind other : Kind} (hrival : kind ∈ other.rivals)
    (h : kind.split s = some (lexeme, rest)) (h' : other.split s = some (lexeme', rest')) :
    ¬ lexeme <+: lexeme' := by
  have hword (hkind : kind = .prefixedNameWithLocal ∨ kind = .prefixedNameNamespace)
      (hother : other = .booleanLiteral ∨ other = .keyword) : ¬ lexeme <+: lexeme' :=
    fun hfront => colon_not_mem_of_word hother h' (hfront.subset (colon_mem_of_name hkind h))
  cases other with
  | prefixedNameNamespace =>
    obtain rfl := List.mem_singleton.mp hrival
    exact not_prefix_namespace h h'
  | booleanLiteral =>
    simp only [rivals, List.mem_cons, List.not_mem_nil, or_false] at hrival
    exact hword hrival (.inl rfl)
  | keyword =>
    simp only [rivals, List.mem_cons, List.not_mem_nil, or_false] at hrival
    rcases hrival with hname | hname | rfl
    · exact hword (.inl hname) (.inr rfl)
    · exact hword (.inr hname) (.inr rfl)
    · have hnone := splitBoolean_of_keyword h'
      have hsome : splitBoolean s = some (lexeme, rest) := h
      rw [hnone] at hsome
      cases hsome
  | delimiter => exact outgrows_delimiters hrival h lexeme' (splitSymbol_mem h')
  | operator => exact outgrows_operators hrival h lexeme' (splitSymbol_mem h')
  | _ => cases hrival

/-- Of two beginnings of a text the one that the other does not begin with is the longer. -/
theorem byteCount_lt_of_not_prefix (h : lexeme <+: s) (h' : lexeme' <+: s)
    (hnot : ¬ lexeme <+: lexeme') : byteCount lexeme' < byteCount lexeme := by
  have hfront : lexeme' <+: lexeme :=
    (List.prefix_or_prefix_of_prefix h h').resolve_left hnot
  obtain ⟨more, happ⟩ := hfront
  have hne : more ≠ [] := by
    intro hnil
    apply hnot
    have hsame : lexeme' = lexeme := by simpa [hnil] using happ
    exact hsame ▸ List.prefix_rfl
  have hpos := byteCount_pos hne
  rw [← happ, byteCount_append]
  omega

/-- Two kinds that both take something begin alike, so one of them is a rival of the other. -/
theorem Kind.rival_of_split {kind other : Kind} (hne : other ≠ kind)
    (h : kind.split s = some (lexeme, rest)) (h' : other.split s = some (lexeme', rest')) :
    other ∈ kind.rivals ∨ kind ∈ other.rivals := by
  obtain ⟨happ, hlexeme⟩ := kind.splits _ _ _ h
  obtain ⟨happ', hlexeme'⟩ := other.splits _ _ _ h'
  obtain ⟨c, more, rfl⟩ := List.exists_cons_of_ne_nil hlexeme
  obtain ⟨d, more', rfl⟩ := List.exists_cons_of_ne_nil hlexeme'
  obtain rfl := (List.cons.inj (happ'.trans happ.symm)).1
  have htotal : other ∈ kind.before ∨ kind ∈ other.before := by
    revert hne
    cases kind <;> cases other <;> decide
  rcases htotal with hbefore | hbefore
  · exact .inl (mem_rivals kind (mem_leading h) other (mem_leading h') hbefore)
  · exact .inr (mem_rivals other (mem_leading h') kind (mem_leading h) hbefore)

end

/-- The order in which the kinds are tried finds the longest lexeme: each of the others that would
take something of the text if it were tried alone takes fewer bytes of it. -/
theorem scanLexeme_longest {fresh : UInt32} {s lexeme rest : List Char} {kind : Kind}
    {value : Value} (h : scanLexeme fresh s = some (kind, value, lexeme, rest)) :
    kind.scan fresh s = some (value, lexeme, rest) ∧
      ∀ (other : Kind) (fresh' : UInt32) (value' : Value) (lexeme' rest' : List Char),
        other ≠ kind → other.scan fresh' s = some (value', lexeme', rest') →
          byteCount lexeme' < byteCount lexeme := by
  obtain ⟨hsplit, hvalue, hrivals⟩ := scanLexeme_eq_some_iff.mp h
  refine ⟨Kind.scan_eq_some_iff.mpr ⟨hsplit, hvalue⟩, ?_⟩
  intro other fresh' value' lexeme' rest' hne hscan
  obtain ⟨hsplit', -⟩ := Kind.scan_eq_some_iff.mp hscan
  have hrival : kind ∈ other.rivals := by
    rcases Kind.rival_of_split hne hsplit hsplit' with hother | hkind
    · have hnone := hrivals other hother
      rw [hsplit'] at hnone
      cases hnone
    · exact hkind
  have hfront : lexeme <+: s := ⟨rest, (kind.splits _ _ _ hsplit).1⟩
  have hfront' : lexeme' <+: s := ⟨rest', (other.splits _ _ _ hsplit').1⟩
  exact byteCount_lt_of_not_prefix hfront hfront' (Kind.not_prefix_of_rival hrival hsplit hsplit')

/-- An IRI of one equals sign is longer than the comparison that it begins with. -/
theorem equalsIri_longest :
    Kind.iriRef.scan 0 "<=>".toList = some (.iri "=", "<=>".toList, []) ∧
      ∀ (other : Kind) (fresh' : UInt32) (value' : Value) (lexeme' rest' : List Char),
        other ≠ .iriRef → other.scan fresh' "<=>".toList = some (value', lexeme', rest') →
          byteCount lexeme' < byteCount "<=>".toList :=
  scanLexeme_longest (by decide)

end SparqlQuery
