import SparqlQuery.Proofs.LexerReads

namespace SparqlQuery

/-- A text that begins as a local name and goes wrong in an escape. -/
def Spoiled (s : List Char) : Prop :=
  ¬ NoLocalEscape (splitRun localUnit s).2

theorem not_isEscapeMark_of {p : Char → Bool} (hpercent : p '%' = false) (hslash : p '\\' = false)
    {c : Char} (hc : p c = true) : isEscapeMark c = false := by
  simp [isEscapeMark, ne_of_class hc hpercent, ne_of_class hc hslash]

theorem Spoiled.of_cons {c : Char} {s : List Char} (hc : isEscapeMark c = false)
    (h : Spoiled (c :: s)) : localUnit (c :: s) = 1 ∧ Spoiled s := by
  cases hunit : localUnit (c :: s) with
  | zero =>
    refine absurd ?_ h
    rw [splitRun_stop hunit]
    exact stopsAt_cons hc s
  | succ n =>
    have hone : n = 0 := by
      by_cases hdot : c = '.'
      · subst hdot
        have hle := localUnit_dot_le_one s
        omega
      · rw [localUnit_unmarked hc hdot] at hunit
        split at hunit <;> omega
    subst hone
    refine ⟨rfl, ?_⟩
    unfold Spoiled at h
    rwa [splitRun_step hunit] at h

theorem Spoiled.of_append {u s : List Char} (hu : ∀ c ∈ u, isEscapeMark c = false)
    (h : Spoiled (u ++ s)) : Spoiled s := by
  induction u with
  | nil => exact h
  | cons c u ih =>
    obtain ⟨hc, hu⟩ := List.forall_mem_cons.mp hu
    exact ih hu (h.of_cons hc).2

theorem localUnit_eq_zero {c : Char} (hc : isEscapeMark c = false) (hdot : c ≠ '.')
    (hlocal : isLocalChar c = false) (s : List Char) : localUnit (c :: s) = 0 := by
  simp [localUnit_unmarked hc hdot, hlocal]

theorem not_spoiled_cons {c : Char} (hc : isEscapeMark c = false) (hdot : c ≠ '.')
    (hlocal : isLocalChar c = false) (s : List Char) : ¬ Spoiled (c :: s) := by
  intro h
  have hone := (h.of_cons hc).1
  rw [localUnit_eq_zero hc hdot hlocal] at hone
  cases hone

/-- What stands between tokens does not begin a local name. -/
theorem not_spoiled_gap {gap rest : List Char} (h : Gap gap rest) (hne : gap ≠ []) :
    ¬ Spoiled (gap ++ rest) := by
  cases h with
  | done => exact absurd rfl hne
  | blank hc =>
    rcases eq_of_isBlank hc with rfl | rfl | rfl | rfl <;>
      exact not_spoiled_cons (by decide) (by decide) (by decide) _
  | comment => exact not_spoiled_cons (by decide) (by decide) (by decide) _

/-- A text without a percent sign or a backslash. -/
def MarkFree (s : List Char) : Prop :=
  ∀ c ∈ s, isEscapeMark c = false

section

variable {s t lexeme rest : List Char}

theorem markFree_nil : MarkFree [] :=
  List.forall_mem_nil _

theorem MarkFree.cons {c : Char} (hc : isEscapeMark c = false) (hs : MarkFree s) :
    MarkFree (c :: s) :=
  List.forall_mem_cons.mpr ⟨hc, hs⟩

theorem MarkFree.append (hs : MarkFree s) (ht : MarkFree t) : MarkFree (s ++ t) :=
  List.forall_mem_append.mpr ⟨hs, ht⟩

theorem markFree_of {p : Char → Bool} (hpercent : p '%' = false) (hslash : p '\\' = false)
    (hs : ∀ c ∈ s, p c = true) : MarkFree s :=
  fun c hc => not_isEscapeMark_of hpercent hslash (hs c hc)

theorem UnitRun.dotted_markFree (h : UnitRun (dottedUnit isNameChar) s t) : MarkFree s := by
  intro c hc
  rcases h.dotted_chars c hc with hchar | rfl
  · exact not_isEscapeMark_of (by decide) (by decide) hchar
  · rfl

theorem IsLabel.markFree (h : IsLabel s) : MarkFree s := by
  cases s with
  | nil => exact markFree_nil
  | cons c name =>
    obtain ⟨hc, hname⟩ := h c name rfl
    exact .cons (not_isEscapeMark_of (by decide) (by decide) hc) hname.dotted_markFree

theorem markFree_digits (h : ∀ c ∈ s, c.isDigit = true) : MarkFree s :=
  markFree_of rfl rfl h

theorem IsSign.markFree (h : IsSign s) : MarkFree s := by
  rcases h with rfl | ⟨c, hc, rfl⟩
  · exact markFree_nil
  · exact markFree_of (p := isSign) rfl rfl (by simpa using hc)

theorem Mantissa.markFree (h : Mantissa s t) : MarkFree s := by
  cases h with
  | whole _ hdigits => exact markFree_digits hdigits
  | point _ hwhole hfraction =>
    exact (markFree_digits hwhole).append (.cons rfl (markFree_digits hfraction))

theorem Exponent.markFree (h : Exponent s t) : MarkFree s := by
  cases h with
  | none => exact markFree_nil
  | power hmark hsign _ hdigits =>
    refine .cons ?_ (hsign.markFree.append (markFree_digits hdigits))
    exact not_isEscapeMark_of (p := isExponentMark) rfl rfl hmark

theorem markFree_symbol {symbols : List (List Char)}
    (hall : ∀ symbol ∈ symbols, symbol.all (!isEscapeMark ·) = true)
    (h : splitSymbol symbols s = some (lexeme, rest)) : MarkFree lexeme := by
  have hmem := splitSymbol_mem h
  intro c hc
  simpa using List.all_eq_true.mp (hall lexeme hmem) c hc

theorem markFree_empty (opening closing : Char) (hclosing : isBlank closing = false)
    (hmarks : isEscapeMark opening = false ∧ isEscapeMark closing = false)
    (h : splitEmpty opening closing s = some (lexeme, rest)) : MarkFree lexeme := by
  obtain ⟨gap, hgap, rfl, -⟩ := (splitEmpty_eq_some_iff hclosing).mp h
  have hgap' : MarkFree gap := markFree_of rfl rfl hgap
  exact .cons hmarks.1 (hgap'.append (.cons hmarks.2 markFree_nil))

/-- Only in an IRI, a local name and a string is there room for the characters of escapes. -/
theorem Kind.split_markFree {kind : Kind} (hiri : kind ≠ .iriRef)
    (hname : kind ≠ .prefixedNameWithLocal) (hstring : kind ≠ .stringLiteral)
    (h : kind.split s = some (lexeme, rest)) : MarkFree lexeme := by
  cases kind with
  | variableName =>
    obtain ⟨sigil, c, name, hsigil, hc, hname, -, rfl, -⟩ := splitVariable_eq_some_iff.mp h
    refine .cons ?_ (.cons (not_isEscapeMark_of (by decide) (by decide) hc)
      (markFree_of (by decide) (by decide) hname))
    rcases hsigil with rfl | rfl <;> rfl
  | iriRef => exact absurd rfl hiri
  | prefixedNameWithLocal => exact absurd rfl hname
  | prefixedNameNamespace =>
    obtain ⟨label, hlabel, rfl, -⟩ := splitNamespace_eq_some_iff.mp h
    exact hlabel.markFree.append (.cons rfl markFree_nil)
  | stringLiteral => exact absurd rfl hstring
  | langTag =>
    obtain ⟨c, letters, run, hc, hletters, -, hrun, rfl, -⟩ := splitLangTag_eq_some_iff.mp h
    refine .cons rfl (.cons (not_isEscapeMark_of (p := Char.isAlpha) rfl rfl hc)
      ((markFree_of rfl rfl hletters).append ?_))
    intro d hd
    rcases hrun.subtag_chars d hd with rfl | hchar
    · rfl
    · exact not_isEscapeMark_of (p := Char.isAlphanum) rfl rfl hchar
  | numericLiteral =>
    obtain ⟨sign, mantissa, exponent, hsign, hmantissa, hexponent, rfl, -⟩ :=
      splitNumber_eq_some_iff.mp h
    exact hsign.markFree.append (hmantissa.markFree.append hexponent.markFree)
  | booleanLiteral =>
    obtain ⟨rfl | rfl, -, -⟩ := splitBoolean_eq_some_iff.mp h
    · exact markFree_of (p := Char.isAlpha) rfl rfl (List.all_eq_true.mp (by decide))
    · exact markFree_of (p := Char.isAlpha) rfl rfl (List.all_eq_true.mp (by decide))
  | blankNode =>
    rcases orElse_eq_some_iff.mp h with h | ⟨-, h⟩
    · obtain ⟨c, run, hc, hrun, rfl, -⟩ := splitBlankLabel_eq_some_iff.mp h
      exact .cons rfl (.cons rfl (.cons (not_isEscapeMark_of (by decide) (by decide) hc)
        hrun.dotted_markFree))
    · exact markFree_empty '[' ']' (by decide) (by decide) h
  | nil => exact markFree_empty '(' ')' (by decide) (by decide) h
  | keyword =>
    obtain ⟨hword, -⟩ := splitKeyword_eq_some_iff.mp h
    exact markFree_of (by decide) (by decide) hword
  | delimiter => exact markFree_symbol (by decide) h
  | operator => exact markFree_symbol (by decide) h

end

/-- No text that is read to its end is spoiled: the tokens in it would have to end where the
escape goes wrong, and none begins there. -/
theorem Reads.not_spoiled {offset : Nat} {fresh : UInt32} {text : List Char}
    {tokens : List Token} (h : Reads offset fresh text tokens) : ¬ Spoiled text := by
  have hnil : ¬ Spoiled [] := by
    unfold Spoiled
    rw [splitRun_nil]
    simp [NoLocalEscape, StopsAt]
  induction h with
  | @ends offset fresh gap hgap =>
    by_cases hne : gap = []
    · subst hne
      exact hnil
    · rw [← List.append_nil gap]
      exact not_spoiled_gap hgap hne
  | @token offset fresh gap lexeme rest token tokens hgap hscan _ _ _ ih =>
    by_cases hne : gap = []
    · subst hne
      rw [List.nil_append]
      obtain ⟨hsplit, -, -⟩ := scanLexeme_eq_some_iff.mp hscan
      generalize token.kind = kind at hsplit
      intro hspoiled
      by_cases hiri : kind = .iriRef
      · subst hiri
        obtain ⟨content, -, rfl, -⟩ := splitIri_eq_some_iff.mp hsplit
        exact not_spoiled_cons (by decide) (by decide) (by decide) _ hspoiled
      by_cases hstring : kind = .stringLiteral
      · subst hstring
        obtain ⟨content, rfl | rfl⟩ := splitString_head hsplit <;>
          exact not_spoiled_cons (by decide) (by decide) (by decide) _ hspoiled
      by_cases hname : kind = .prefixedNameWithLocal
      · subst hname
        obtain ⟨label, run, hlabel, hlocal, rfl, -⟩ := splitPrefixedName_eq_some_iff.mp hsplit
        have hmarks : MarkFree (label ++ [':']) :=
          hlabel.markFree.append (.cons rfl markFree_nil)
        have happ : label ++ ':' :: run ++ rest = (label ++ [':']) ++ (run ++ rest) := by simp
        rw [happ] at hspoiled
        refine hspoiled.of_append hmarks ?_
        obtain ⟨hrun, hescape, -⟩ := splitLocal_eq_some_iff.mp hlocal
        rw [hrun.splitRun_eq]
        exact hescape
      · exact ih (hspoiled.of_append (Kind.split_markFree hiri hname hstring hsplit))
    · exact not_spoiled_gap hgap hne

/-- Where a text that is read to its end has no local name, it has nothing that could be mistaken
for the beginning of one. -/
theorem Reads.stopsAt_localLead {offset : Nat} {fresh : UInt32} {text : List Char}
    {tokens : List Token} (h : Reads offset fresh text tokens) (hnone : splitLocal text = none) :
    StopsAt isLocalLead text := by
  intro c hc
  by_contra hlead
  have hescape : NoLocalEscape (splitRun localUnit text).2 := not_not.mp h.not_spoiled
  cases text with
  | nil => cases hc
  | cons d s =>
    cases hc
    rw [splitLocal_of_run (by simpa using hlead) rfl hescape] at hnone
    cases hnone

end SparqlQuery
