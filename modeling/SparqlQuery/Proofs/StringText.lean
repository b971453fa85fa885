import SparqlQuery.Proofs.StringCut
import SparqlQuery.Rendering

namespace SparqlQuery

theorem escapedChar?_of_letter {c letter : Char} (h : escapeLetter? c = some letter) :
    escapedChar? letter = some c := by
  fun_cases escapeLetter? c <;> simp_all [escapeLetter?] <;> subst h <;> rfl

/-- The letters that a quoted string is written with do not begin the escape of a code point. -/
theorem letter_ne_mark {c letter : Char} (h : escapeLetter? c = some letter) :
    letter ≠ 'u' ∧ letter ≠ 'U' := by
  fun_cases escapeLetter? c <;> simp_all [escapeLetter?] <;> subst h <;> decide

/-- What needs no escape in a quoted string. -/
theorem plain_of_escapeLetter?_none {c : Char} (h : escapeLetter? c = none) :
    c ≠ '"' ∧ c ≠ '\\' ∧ isLineBreak c = false := by
  refine ⟨?_, ?_, ?_⟩
  · rintro rfl
    cases h
  · rintro rfl
    cases h
  · by_contra hbreak
    simp only [isLineBreak, Bool.not_eq_false, Bool.or_eq_true, beq_iff_eq] at hbreak
    rcases hbreak with rfl | rfl <;> cases h

/-- A character of a string as it is written between quotes. -/
def quotedUnit (c : Char) : List Char :=
  match escapeLetter? c with
  | some letter => ['\\', letter]
  | none => [c]

theorem quotedChars_eq (s : List Char) : quotedChars s = '"' :: (s.flatMap quotedUnit ++ ['"']) :=
  rfl

/-- Either an escape or a character that stands for itself. -/
theorem quotedUnit_cases (c : Char) :
    (∃ letter, escapedChar? letter = some c ∧ quotedUnit c = ['\\', letter] ∧ letter ≠ 'u' ∧
      letter ≠ 'U') ∨
    (quotedUnit c = [c] ∧ c ≠ '"' ∧ c ≠ '\\' ∧ isLineBreak c = false) := by
  cases h : escapeLetter? c with
  | some letter =>
    exact .inl ⟨letter, escapedChar?_of_letter h, by simp [quotedUnit, h], letter_ne_mark h⟩
  | none => exact .inr ⟨by simp [quotedUnit, h], plain_of_escapeLetter?_none h⟩

section

variable {s t : List Char}

theorem unitRun_quoted (s t : List Char) :
    UnitRun (shortUnit '"') (s.flatMap quotedUnit) ('"' :: t) := by
  induction s with
  | nil => exact .stop (shortUnit_quote (by decide) t)
  | cons c s ih =>
    rw [List.flatMap_cons]
    rcases quotedUnit_cases c with ⟨letter, hletter, hunit, -⟩ | ⟨hunit, hquote, hslash, hbreak⟩
    · rw [hunit]
      refine @UnitRun.unit _ '\\' [letter] _ _ ?_ ih
      simp [(takesEscapes_short '"').2, hletter]
    · rw [hunit]
      refine @UnitRun.unit _ c [] _ _ ?_ ih
      simp [shortUnit_plain hslash, hquote, hbreak]

theorem splitUnits_escapePair_plain {c : Char} (hc : c ≠ '\\') (s : List Char) :
    splitUnits escapePair (c :: s) =
      ([c] :: (splitUnits escapePair s).1, (splitUnits escapePair s).2) := by
  have hone : escapePair (c :: s) = 0 + 1 := by
    unfold escapePair
    split
    next h =>
      cases h
      exact absurd rfl hc
    next => rfl
  rw [splitUnits_step hone]
  simp

theorem unescapePair_singleton (c : Char) : unescapePair [c] = [c] := by
  unfold unescapePair
  split
  next h => cases h
  next => rfl

theorem unescape_cons {c : Char} (hc : c ≠ '\\') (s : List Char) :
    (splitUnits escapePair (c :: s)).1.flatMap unescapePair =
      c :: (splitUnits escapePair s).1.flatMap unescapePair := by
  rw [splitUnits_escapePair_plain hc, List.flatMap_cons, unescapePair_singleton,
    List.singleton_append]

theorem unescape_escape {letter c : Char} (h : escapedChar? letter = some c) (s : List Char) :
    (splitUnits escapePair ('\\' :: letter :: s)).1.flatMap unescapePair =
      c :: (splitUnits escapePair s).1.flatMap unescapePair := by
  have htwo : escapePair ('\\' :: letter :: s) = 1 + 1 := rfl
  rw [splitUnits_step htwo]
  simp [unescapePair, h]

theorem unescape_quoted (s : List Char) :
    (splitUnits escapePair (s.flatMap quotedUnit)).1.flatMap unescapePair = s := by
  induction s with
  | nil => simp
  | cons c s ih =>
    rw [List.flatMap_cons]
    rcases quotedUnit_cases c with ⟨letter, hletter, hunit, -⟩ | ⟨hunit, -, hslash, -⟩
    · rw [hunit, List.cons_append, List.singleton_append, unescape_escape hletter, ih]
    · rw [hunit, List.singleton_append, unescape_cons hslash, ih]

/-- Without backslashes nothing is unescaped. -/
theorem unescape_plain (h : '\\' ∉ s) :
    (splitUnits escapePair s).1.flatMap unescapePair = s := by
  induction s with
  | nil => simp
  | cons c s ih =>
    rw [List.mem_cons, not_or] at h
    rw [unescape_cons (Ne.symm h.1), ih h.2]

theorem stringContent_plain (h : '\\' ∉ s) : '\\' ∉ stringContent s := by
  have hbody : '\\' ∉ stringBody s :=
    fun hmem => h (List.mem_of_mem_drop (List.mem_of_mem_take hmem))
  rwa [stringContent, unescape_plain hbody]

/-- The first character between the quotes is no quote. -/
theorem head_quoted {c : Char} (hc : c ∈ (s.flatMap quotedUnit).head?) : c ≠ '"' := by
  cases s with
  | nil => cases hc
  | cons d s =>
    rw [List.flatMap_cons] at hc
    rcases quotedUnit_cases d with ⟨letter, -, hunit, -⟩ | ⟨hunit, hquote, -⟩
    · rw [hunit] at hc
      cases hc
      decide
    · rw [hunit] at hc
      cases hc
      exact hquote

theorem stringBody_of_head {quote : Char} {body : List Char} (h : ∀ c ∈ body.head?, c ≠ quote) :
    stringBody (quote :: (body ++ [quote])) = body := by
  cases body with
  | nil => rfl
  | cons c body =>
    have hc : c ≠ quote := h c rfl
    simp [stringBody, hc]

theorem stringBody_long (quote : Char) (body : List Char) :
    stringBody (List.replicate 3 quote ++ body ++ List.replicate 3 quote) = body := by
  simp [stringBody, List.replicate]

theorem stringBody_quotedChars (s : List Char) :
    stringBody (quotedChars s) = s.flatMap quotedUnit := by
  rw [quotedChars_eq]
  exact stringBody_of_head fun c hc => head_quoted hc

theorem stringContent_quotedChars (s : List Char) : stringContent (quotedChars s) = s := by
  rw [stringContent, stringBody_quotedChars, unescape_quoted]

theorem eq_nil_of_unescaped (h : (splitUnits escapePair s).1.flatMap unescapePair = []) :
    s = [] := by
  cases s with
  | nil => rfl
  | cons c s =>
    exfalso
    obtain ⟨n, hn⟩ : ∃ n, escapePair (c :: s) = n + 1 := by
      unfold escapePair
      split
      · exact ⟨1, rfl⟩
      · exact ⟨0, rfl⟩
    rw [splitUnits_step hn, List.flatMap_cons, List.append_eq_nil_iff] at h
    obtain ⟨hunit, -⟩ := h
    unfold unescapePair at hunit
    split at hunit <;> cases hunit

/-- A string between triple quotes is empty only if nothing stands between them. -/
theorem eq_nil_of_stringContent {quote : Char}
    (h : stringContent (List.replicate 3 quote ++ s ++ List.replicate 3 quote) = []) : s = [] := by
  apply eq_nil_of_unescaped
  rwa [stringContent, stringBody_long] at h

/-- A body that does not begin with its quote is not taken for one between triple quotes. -/
theorem splitLong_of_head_ne {quote : Char} {body : List Char} (h : ∀ c ∈ body.head?, c ≠ quote)
    (ht : ∀ c ∈ t.head?, c ≠ quote) : splitLong quote (quote :: (body ++ [quote]) ++ t) = none := by
  have hfront : (List.replicate 3 quote).isPrefixOf (quote :: (body ++ [quote]) ++ t) = false := by
    cases body with
    | cons c body =>
      have hc : c ≠ quote := h c rfl
      simp [List.isPrefixOf, hc.symm]
    | nil =>
      cases t with
      | nil => simp [List.isPrefixOf]
      | cons c t =>
        have hc : c ≠ quote := ht c rfl
        simp [List.isPrefixOf, hc.symm]
  unfold splitLong splitFenced
  rw [if_neg (by rw [hfront]; exact Bool.false_ne_true)]

theorem splitLong_of_head {body : List Char} (h : ∀ c ∈ body.head?, c ≠ '"') (ht : BlankNext t) :
    ∀ quote ∈ ['"', '\''], splitLong quote ('"' :: (body ++ ['"']) ++ t) = none := by
  intro quote hquote
  rcases quote_cases hquote with rfl | rfl
  · refine splitLong_of_head_ne h fun c hc => ?_
    rintro rfl
    exact absurd (ht _ hc) (by decide)
  · exact splitFenced_of_ne (by decide) _ _ _

theorem splitLong_quotedChars (ht : BlankNext t) (s : List Char) :
    ∀ quote ∈ ['"', '\''], splitLong quote (quotedChars s ++ t) = none := by
  rw [quotedChars_eq]
  exact splitLong_of_head (fun c hc => head_quoted hc) ht

theorem splitString_quotedChars (ht : BlankNext t) (s : List Char) :
    splitString (quotedChars s ++ t) = some (quotedChars s, t) := by
  have hlong := splitLong_quotedChars ht s
  have hshort : splitShort '"' (quotedChars s ++ t) = some (quotedChars s, t) :=
    (splitFenced_eq_some_iff (fits_shortUnit '"')).mpr ⟨_, unitRun_quoted s t, rfl, rfl⟩
  rw [splitString_eq, hlong '"' (by decide), hlong '\'' (by decide), hshort]
  rfl

end

end SparqlQuery
