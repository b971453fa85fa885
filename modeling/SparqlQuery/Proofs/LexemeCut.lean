import SparqlQuery.Proofs.LexemeShape
import SparqlQuery.Proofs.NumberShape

namespace SparqlQuery

/-- A lexeme is still taken when the text behind it is cut. -/
def KeepsLexeme (split : Splitter) : Prop :=
  ∀ ⦃lexeme rest rest'⦄, Cut rest rest' → split (lexeme ++ rest) = some (lexeme, rest) →
    split (lexeme ++ rest') = some (lexeme, rest')

/-- Nothing is taken from a cut text if nothing is taken from the whole one. -/
def KeepsSilent (split : Splitter) : Prop :=
  ∀ ⦃s t⦄, Cut s t → split s = none → split t = none

theorem keepsLexeme_variable : KeepsLexeme splitVariable := by
  intro lexeme rest rest' hcut h
  obtain ⟨sigil, c, name, hsigil, hc, hname, hstops, hlexeme, -⟩ := splitVariable_eq_some_iff.mp h
  exact splitVariable_eq_some_iff.mpr
    ⟨sigil, c, name, hsigil, hc, hname, hstops.cut blankFree_variableChar hcut, hlexeme, rfl⟩

theorem keepsLexeme_iri : KeepsLexeme splitIri := by
  intro lexeme rest rest' _ h
  obtain ⟨content, hcontent, hlexeme, -⟩ := splitIri_eq_some_iff.mp h
  exact splitIri_eq_some_iff.mpr ⟨content, hcontent, hlexeme, rfl⟩

theorem keepsLexeme_namespace : KeepsLexeme splitNamespace := by
  intro lexeme rest rest' _ h
  obtain ⟨label, hlabel, hlexeme, -⟩ := splitNamespace_eq_some_iff.mp h
  exact splitNamespace_eq_some_iff.mpr ⟨label, hlabel, hlexeme, rfl⟩

theorem NoLocalEscape.cut {s t : List Char} (hs : NoLocalEscape s) (h : Cut s t) :
    NoLocalEscape t :=
  StopsAt.cut (blankFree_of rfl rfl rfl rfl) hs h

theorem keepsLexeme_local : KeepsLexeme splitLocal := by
  intro lexeme rest rest' hcut h
  obtain ⟨hrun, hescape, hlead, -⟩ := splitLocal_eq_some_iff.mp h
  exact splitLocal_eq_some_iff.mpr
    ⟨hrun.local_cut hescape hcut, hescape.cut hcut, hlead, rfl⟩

theorem keepsLexeme_prefixedName : KeepsLexeme splitPrefixedName := by
  intro lexeme rest rest' hcut h
  obtain ⟨label, run, hlabel, hlocal, hlexeme, -⟩ := splitPrefixedName_eq_some_iff.mp h
  exact splitPrefixedName_eq_some_iff.mpr
    ⟨label, run, hlabel, keepsLexeme_local hcut hlocal, hlexeme, rfl⟩

theorem keepsLexeme_langTag : KeepsLexeme splitLangTag := by
  intro lexeme rest rest' hcut h
  obtain ⟨c, letters, run, hc, hletters, hstops, hrun, hlexeme, -⟩ :=
    splitLangTag_eq_some_iff.mp h
  exact splitLangTag_eq_some_iff.mpr ⟨c, letters, run, hc, hletters,
    hstops.cut blankFree_alpha (hcut.append run), hrun.subtag_cut hcut, hlexeme, rfl⟩

theorem keepsLexeme_blankLabel : KeepsLexeme splitBlankLabel := by
  intro lexeme rest rest' hcut h
  obtain ⟨c, run, hc, hrun, hlexeme, -⟩ := splitBlankLabel_eq_some_iff.mp h
  exact splitBlankLabel_eq_some_iff.mpr
    ⟨c, run, hc, hrun.dotted_cut blankFree_nameChar hcut, hlexeme, rfl⟩

theorem keepsLexeme_empty {opening closing : Char} (hclosing : isBlank closing = false) :
    KeepsLexeme (splitEmpty opening closing) := by
  intro lexeme rest rest' _ h
  obtain ⟨gap, hgap, hlexeme, -⟩ := (splitEmpty_eq_some_iff hclosing).mp h
  exact (splitEmpty_eq_some_iff hclosing).mpr ⟨gap, hgap, hlexeme, rfl⟩

theorem endsWord_cut {s t : List Char} (hs : endsWord s.head? = true) (h : Cut s t) :
    endsWord t.head? = true := by
  refine endsWord_iff.mpr ((endsWord_iff.mp hs).cut ?_ h)
  exact blankFree_of (by decide) (by decide) (by decide) (by decide)

theorem keepsLexeme_boolean : KeepsLexeme splitBoolean := by
  intro lexeme rest rest' hcut h
  obtain ⟨hlexeme, hend, -⟩ := splitBoolean_eq_some_iff.mp h
  exact splitBoolean_eq_some_iff.mpr ⟨hlexeme, endsWord_cut hend hcut, rfl⟩

theorem keepsLexeme_keyword : KeepsLexeme splitKeyword := by
  intro lexeme rest rest' hcut h
  obtain ⟨hword, hlookup, hend, -⟩ := splitKeyword_eq_some_iff.mp h
  exact splitKeyword_eq_some_iff.mpr ⟨hword, hlookup, endsWord_cut hend hcut, rfl⟩

theorem IsSign.blankFree {sign : List Char} (h : IsSign sign) : ∀ c ∈ sign, isBlank c = false := by
  have hfree : BlankFree isSign := blankFree_of rfl rfl rfl rfl
  rcases h with rfl | ⟨c, hc, rfl⟩
  · simp
  · simpa using hfree.isBlank_false hc

/-- What begins an exponent in a cut text begins one in the whole text. -/
theorem BeginsExponent.of_cut {s t : List Char} (ht : BeginsExponent t) (h : Cut s t) :
    BeginsExponent s := by
  obtain ⟨mark, sign, d, u, hmark, hsign, hd, rfl⟩ := ht
  have hfront : ∀ c ∈ mark :: (sign ++ [d]), isBlank c = false := by
    have hfree : BlankFree isExponentMark := blankFree_of rfl rfl rfl rfl
    intro c hc
    simp only [List.mem_cons, List.mem_append, List.not_mem_nil, or_false] at hc
    rcases hc with rfl | hc | rfl
    · exact hfree.isBlank_false hmark
    · exact hsign.blankFree c hc
    · exact blankFree_digit.isBlank_false hd
  have happ : mark :: (sign ++ d :: u) = mark :: (sign ++ [d]) ++ u := by simp
  obtain ⟨rest, rfl, -⟩ := Cut.of_append hfront (happ ▸ h)
  exact ⟨mark, sign, d, rest, hmark, hsign, hd, by simp⟩

theorem Mantissa.cut {mantissa rest rest' : List Char} (h : Mantissa mantissa rest)
    (hcut : Cut rest rest') : Mantissa mantissa rest' := by
  cases h with
  | whole hne hdigits hstops =>
    exact .whole hne hdigits (hstops.cut (blankFree_of rfl rfl rfl rfl) hcut)
  | point hne hwhole hfraction hstops =>
    exact .point hne hwhole hfraction (hstops.cut blankFree_digit hcut)

theorem Exponent.cut {exponent rest rest' : List Char} (h : Exponent exponent rest)
    (hcut : Cut rest rest') : Exponent exponent rest' := by
  cases h with
  | none hnone => exact .none fun hbegins => hnone (hbegins.of_cut hcut)
  | power hmark hsign hne hdigits hstops =>
    exact .power hmark hsign hne hdigits (hstops.cut blankFree_digit hcut)

theorem keepsLexeme_number : KeepsLexeme splitNumber := by
  intro lexeme rest rest' hcut h
  obtain ⟨sign, mantissa, exponent, hsign, hmantissa, hexponent, hlexeme, -⟩ :=
    splitNumber_eq_some_iff.mp h
  exact splitNumber_eq_some_iff.mpr ⟨sign, mantissa, exponent, hsign,
    hmantissa.cut (hcut.append exponent), hexponent.cut hcut, hlexeme, rfl⟩

/-- Symbols without white space in them. -/
def BlankFreeSymbols (symbols : List (List Char)) : Prop :=
  ∀ symbol ∈ symbols, ∀ c ∈ symbol, isBlank c = false

theorem blankFreeSymbols_of_all {symbols : List (List Char)}
    (h : symbols.all (fun symbol => symbol.all (!isBlank ·)) = true) :
    BlankFreeSymbols symbols := by
  intro symbol hsymbol c hc
  have hall := List.all_eq_true.mp h symbol hsymbol
  simpa using List.all_eq_true.mp hall c hc

theorem blankFree_delimiters : BlankFreeSymbols delimiters :=
  blankFreeSymbols_of_all (by decide)

theorem blankFree_operators : BlankFreeSymbols operators :=
  blankFreeSymbols_of_all (by decide)

section

variable {symbols : List (List Char)} {s t : List Char}

/-- A symbol in front of a cut text is in front of the whole text. -/
theorem isPrefixOf_of_cut {symbol : List Char} (hfree : ∀ c ∈ symbol, isBlank c = false)
    (hcut : Cut s t) (h : symbol.isPrefixOf t = true) : symbol.isPrefixOf s = true := by
  obtain ⟨u, rfl⟩ := List.isPrefixOf_iff_prefix.mp h
  obtain ⟨rest, rfl, -⟩ := Cut.of_append hfree hcut
  exact List.isPrefixOf_iff_prefix.mpr (List.prefix_append symbol rest)

theorem keepsLexeme_symbol (hfree : BlankFreeSymbols symbols) :
    KeepsLexeme (splitSymbol symbols) := by
  intro lexeme rest rest' hcut h
  rw [splitSymbol_eq_some_iff, List.find?_eq_some_iff_append] at h ⊢
  obtain ⟨⟨-, before, after, rfl, hbefore⟩, -⟩ := h
  refine ⟨⟨List.isPrefixOf_iff_prefix.mpr (List.prefix_append lexeme rest'), before, after, rfl,
    ?_⟩, rfl⟩
  intro symbol hsymbol
  have hnot := hbefore symbol hsymbol
  simp only [Bool.not_eq_true'] at hnot ⊢
  by_contra hfront
  have hfront' := isPrefixOf_of_cut (hfree symbol (List.mem_append_left _ hsymbol))
    (hcut.append lexeme) (by simpa using hfront)
  rw [hnot] at hfront'
  cases hfront'

theorem keepsSilent_symbol (hfree : BlankFreeSymbols symbols) :
    KeepsSilent (splitSymbol symbols) := by
  intro s t hcut h
  simp only [splitSymbol, Option.map_eq_none_iff, List.find?_eq_none] at h ⊢
  exact fun symbol hsymbol hfront =>
    h symbol hsymbol (isPrefixOf_of_cut (hfree symbol hsymbol) hcut hfront)

end

/-- A splitter is silent on cut texts if a front without white space is enough for it to take
something. -/
theorem keepsSilent_of_front {split : Splitter}
    (hfront : ∀ ⦃lexeme rest⦄, split (lexeme ++ rest) = some (lexeme, rest) →
      ∃ front more, lexeme = front ++ more ∧ (∀ c ∈ front, isBlank c = false) ∧
        ∀ u, split (front ++ u) ≠ none)
    (hsplits : Splits split) : KeepsSilent split := by
  intro s t hcut h
  by_contra hsome
  obtain ⟨⟨lexeme, rest⟩, hsplit⟩ := Option.ne_none_iff_exists'.mp hsome
  obtain ⟨rfl, -⟩ := hsplits t lexeme rest hsplit
  obtain ⟨front, more, rfl, hfree, htakes⟩ := hfront hsplit
  rw [List.append_assoc] at hcut
  obtain ⟨u, rfl, -⟩ := Cut.of_append hfree hcut
  exact htakes u h

theorem keepsSilent_variable : KeepsSilent splitVariable := by
  refine keepsSilent_of_front ?_ splits_variable
  intro lexeme rest h
  obtain ⟨sigil, c, name, hsigil, hc, -, -, rfl, -⟩ := splitVariable_eq_some_iff.mp h
  refine ⟨[sigil, c], name, rfl, ?_, fun u => ?_⟩
  · rcases hsigil with rfl | rfl <;> simpa [isBlank] using blankFree_variableStart.isBlank_false hc
  · rcases hsigil with rfl | rfl <;> simp [splitVariable, hc]

theorem keepsSilent_iri : KeepsSilent splitIri := by
  refine keepsSilent_of_front ?_ splits_iri
  intro lexeme rest h
  obtain ⟨content, hcontent, rfl, -⟩ := splitIri_eq_some_iff.mp h
  refine ⟨_, [], (List.append_nil _).symm, ?_, fun u => ?_⟩
  · intro c hc
    simp only [List.mem_cons, List.mem_append, List.not_mem_nil, or_false] at hc
    rcases hc with rfl | hc | rfl
    · rfl
    · exact blankFree_iriChar.isBlank_false (hcontent c hc)
    · rfl
  · rw [splitIri_eq_some_iff.mpr ⟨content, hcontent, rfl, rfl⟩]
    simp

theorem IsLabel.blankFree {label : List Char} (h : IsLabel label) :
    ∀ c ∈ label, isBlank c = false := by
  cases label with
  | nil => simp
  | cons c name =>
    obtain ⟨hc, hname⟩ := h c name rfl
    have hfree : BlankFree isNameBase :=
      blankFree_of (by decide) (by decide) (by decide) (by decide)
    refine List.forall_mem_cons.mpr ⟨hfree.isBlank_false hc, fun d hd => ?_⟩
    rcases hname.dotted_chars d hd with hchar | rfl
    · exact blankFree_nameChar.isBlank_false hchar
    · rfl

theorem keepsSilent_namespace : KeepsSilent splitNamespace := by
  refine keepsSilent_of_front ?_ splits_namespace
  intro lexeme rest h
  obtain ⟨label, hlabel, rfl, -⟩ := splitNamespace_eq_some_iff.mp h
  refine ⟨_, [], (List.append_nil _).symm, ?_, fun u => ?_⟩
  · intro c hc
    simp only [List.mem_append, List.mem_singleton] at hc
    rcases hc with hc | rfl
    · exact hlabel.blankFree c hc
    · rfl
  · rw [splitNamespace_eq_some_iff.mpr ⟨label, hlabel, rfl, rfl⟩]
    simp

/-- A digit, or a point and a digit: enough to tell that a text begins with a mantissa. -/
def IsMantissaFront (front : List Char) : Prop :=
  ∃ d, d.isDigit = true ∧ (front = [d] ∨ front = ['.', d])

theorem Mantissa.front {mantissa rest : List Char} (h : Mantissa mantissa rest) :
    ∃ front more, IsMantissaFront front ∧ mantissa = front ++ more := by
  cases h with
  | whole hne hdigits =>
    obtain ⟨d, digits, rfl⟩ := List.exists_cons_of_ne_nil hne
    exact ⟨[d], digits, ⟨d, hdigits d List.mem_cons_self, .inl rfl⟩, rfl⟩
  | @point whole fraction _ hne hwhole hfraction =>
    cases whole with
    | cons d whole =>
      exact ⟨[d], _, ⟨d, hwhole d List.mem_cons_self, .inl rfl⟩, rfl⟩
    | nil =>
      have hne' : fraction ≠ [] := by simpa using hne
      obtain ⟨d, digits, rfl⟩ := List.exists_cons_of_ne_nil hne'
      exact ⟨['.', d], digits, ⟨d, hfraction d List.mem_cons_self, .inr rfl⟩, rfl⟩

theorem IsMantissaFront.splitMantissa_ne_none {front : List Char} (h : IsMantissaFront front)
    (s : List Char) : splitMantissa (front ++ s) ≠ none := by
  obtain ⟨d, hd, rfl | rfl⟩ := h
  · simp only [splitMantissa, List.cons_append, List.nil_append, List.takeWhile_cons, hd, if_true]
    split <;> simp
  · simp [splitMantissa, hd]

theorem IsMantissaFront.blankFree {front : List Char} (h : IsMantissaFront front) :
    ∀ c ∈ front, isBlank c = false := by
  obtain ⟨d, hd, rfl | rfl⟩ := h
  · simpa using blankFree_digit.isBlank_false hd
  · simpa [isBlank] using blankFree_digit.isBlank_false hd

theorem IsMantissaFront.stopsAt_isSign {front : List Char} (h : IsMantissaFront front)
    (s : List Char) : StopsAt isSign (front ++ s) := by
  obtain ⟨d, hd, rfl | rfl⟩ := h
  · exact stopsAt_cons (isDigit_not_sign hd) s
  · exact stopsAt_cons rfl _

theorem keepsSilent_number : KeepsSilent splitNumber := by
  refine keepsSilent_of_front ?_ splits_number
  intro lexeme rest h
  obtain ⟨sign, mantissa, exponent, hsign, hmantissa, -, rfl, -⟩ := splitNumber_eq_some_iff.mp h
  obtain ⟨front, more, hfront, rfl⟩ := hmantissa.front
  refine ⟨sign ++ front, more ++ exponent, by simp, ?_, fun u => ?_⟩
  · intro c hc
    rcases List.mem_append.mp hc with hc | hc
    · exact hsign.blankFree c hc
    · exact hfront.blankFree c hc
  · have hparts := splitSign_eq hsign (hfront.stopsAt_isSign u)
    rw [List.append_assoc]
    simp only [splitNumber, hparts]
    split
    next hnone => exact absurd hnone (hfront.splitMantissa_ne_none u)
    next => simp

end SparqlQuery
