import SparqlQuery.UnicodeEscape
import SparqlQuery.Proofs.TextCut

namespace SparqlQuery

/-- No escape with all its digits begins anywhere in a text. -/
inductive EscapeFree : List Char → Prop
  | nil : EscapeFree []
  | cons {c : Char} {s : List Char} (h : escapeDigits? (c :: s) = none) (hs : EscapeFree s) :
      EscapeFree (c :: s)

section

variable {s t digits : List Char} {mark : Char}

theorem hexDigits?_eq_some_iff {n : Nat} :
    hexDigits? n s = some digits ↔ digits.length = n ∧ (∀ d ∈ digits, isHexDigit d = true) ∧
      digits <+: s := by
  unfold hexDigits?
  constructor
  · intro h
    split at h
    next hall =>
      cases h
      exact ⟨hall.1, List.all_eq_true.mp hall.2, List.take_prefix n s⟩
    next => cases h
  · rintro ⟨rfl, hall, t, rfl⟩
    rw [List.take_left, if_pos ⟨rfl, List.all_eq_true.mpr hall⟩]

/-- An escape is a backslash, a mark and as many digits as the mark asks for. -/
theorem escapeDigits?_eq_some_iff :
    escapeDigits? s = some digits ↔ ∃ mark t, (mark = 'u' ∧ digits.length = 4 ∨
      mark = 'U' ∧ digits.length = 8) ∧ (∀ d ∈ digits, isHexDigit d = true) ∧
      s = '\\' :: mark :: (digits ++ t) := by
  constructor
  · intro h
    fun_cases escapeDigits? s with
    | case1 s =>
      obtain ⟨hlength, hall, t, rfl⟩ := hexDigits?_eq_some_iff.mp h
      exact ⟨'u', t, .inl ⟨rfl, hlength⟩, hall, rfl⟩
    | case2 s =>
      obtain ⟨hlength, hall, t, rfl⟩ := hexDigits?_eq_some_iff.mp h
      exact ⟨'U', t, .inr ⟨rfl, hlength⟩, hall, rfl⟩
    | case3 => simp [escapeDigits?] at h
  · rintro ⟨mark, t, ⟨rfl, hlength⟩ | ⟨rfl, hlength⟩, hall, rfl⟩
    · exact hexDigits?_eq_some_iff.mpr ⟨hlength, hall, List.prefix_append digits t⟩
    · exact hexDigits?_eq_some_iff.mpr ⟨hlength, hall, List.prefix_append digits t⟩

/-- An escape in a cut text is one in the whole text. -/
theorem escapeDigits?_cut (hcut : Cut s t) (h : escapeDigits? s = none) :
    escapeDigits? t = none := by
  by_contra hsome
  obtain ⟨digits, hdigits⟩ := Option.ne_none_iff_exists'.mp hsome
  obtain ⟨mark, u, hmark, hall, rfl⟩ := escapeDigits?_eq_some_iff.mp hdigits
  have hhex : BlankFree isHexDigit :=
    blankFree_of (by decide) (by decide) (by decide) (by decide)
  have hfree : ∀ c ∈ '\\' :: mark :: digits, isBlank c = false := by
    intro c hc
    simp only [List.mem_cons] at hc
    rcases hc with rfl | rfl | hc
    · rfl
    · rcases hmark with ⟨rfl, -⟩ | ⟨rfl, -⟩ <;> rfl
    · exact hhex.isBlank_false (hall c hc)
  obtain ⟨rest, rfl, -⟩ := Cut.of_append hfree hcut
  have hsame : escapeDigits? ('\\' :: mark :: digits ++ rest) = some digits :=
    escapeDigits?_eq_some_iff.mpr ⟨mark, rest, hmark, hall, rfl⟩
  rw [hsame] at h
  cases h

theorem escapeUnit_of_none {c : Char} (h : escapeDigits? (c :: s) = none) :
    escapeUnit (c :: s) = 0 + 1 := by
  simp [escapeUnit, h]

/-- The digits of an escape do not depend on what comes after them. -/
theorem escapeDigits?_append (h : escapeDigits? ('\\' :: mark :: (digits ++ s)) = some digits)
    (t : List Char) : escapeDigits? ('\\' :: mark :: (digits ++ t)) = some digits := by
  obtain ⟨mark', u, hmark, hall, happ⟩ := escapeDigits?_eq_some_iff.mp h
  have hsame : mark = mark' := (List.cons.inj (List.cons.inj happ).2).1
  exact escapeDigits?_eq_some_iff.mpr ⟨mark, t, hsame ▸ hmark, hall, rfl⟩

/-- An escape with all its digits in front of a text. -/
theorem exists_of_escapeDigits? (h : escapeDigits? s = some digits) :
    ∃ mark t, s = '\\' :: mark :: (digits ++ t) ∧ '\\' ∉ mark :: digits := by
  obtain ⟨mark, t, hmark, hall, happ⟩ := escapeDigits?_eq_some_iff.mp h
  refine ⟨mark, t, happ, ?_⟩
  have hne : '\\' ≠ mark := by
    rcases hmark with ⟨hu, -⟩ | ⟨hU, -⟩
    · rw [hu]
      decide
    · rw [hU]
      decide
  have hnot : '\\' ∉ digits := by
    intro hmem
    exact absurd (hall '\\' hmem) (by decide)
  simp [hne, hnot]

theorem splitUnits_escape (h : escapeDigits? ('\\' :: mark :: (digits ++ s)) = some digits) :
    splitUnits escapeUnit ('\\' :: mark :: (digits ++ s)) =
      (('\\' :: mark :: digits) :: (splitUnits escapeUnit s).1, (splitUnits escapeUnit s).2) := by
  have hunit : escapeUnit ('\\' :: mark :: (digits ++ s)) = (digits.length + 1) + 1 := by
    simp [escapeUnit, h]
  rw [splitUnits_step hunit]
  simp

theorem splitUnits_of_escapeFree (h : EscapeFree s) :
    splitUnits escapeUnit s = (s.map fun c => [c], []) := by
  induction h with
  | nil => exact splitUnits_nil escapeUnit
  | cons h _ ih =>
    rw [splitUnits_step (escapeUnit_of_none h), List.drop_zero, ih]
    rfl

theorem escapeDigits?_singleton (c : Char) : escapeDigits? [c] = none := by
  unfold escapeDigits?
  split <;> simp_all

theorem decodeUnit_singleton (c : Char) : decodeUnit [c] = [c] := by
  simp [decodeUnit, escapeDigits?_singleton]

theorem decodeUnits_of_escapeFree (h : EscapeFree s) :
    (splitUnits escapeUnit s).1.flatMap decodeUnit = s := by
  rw [splitUnits_of_escapeFree h]
  clear h
  induction s with
  | nil => rfl
  | cons c s ih =>
    rw [List.map_cons, List.flatMap_cons, ih, decodeUnit_singleton]
    rfl

/-- An escape begins with a backslash and a u, so a text with no such pair has none. -/
theorem escapeFree_of_hasEscapeMark (h : hasEscapeMark s = false) : EscapeFree s := by
  induction s with
  | nil => exact .nil
  | cons c s ih =>
    simp only [hasEscapeMark, containsText, Bool.or_eq_false_iff] at h ih
    obtain ⟨⟨hsmall, hsmall'⟩, hcapital, hcapital'⟩ := h
    refine .cons ?_ (ih ⟨hsmall', hcapital'⟩)
    by_contra hsome
    obtain ⟨digits, hdigits⟩ := Option.ne_none_iff_exists'.mp hsome
    obtain ⟨mark, t, hmark, -, happ⟩ := escapeDigits?_eq_some_iff.mp hdigits
    rw [happ] at hsmall hcapital
    rcases hmark with ⟨rfl, -⟩ | ⟨rfl, -⟩
    · simp [List.isPrefixOf] at hsmall
    · simp [List.isPrefixOf] at hcapital

/-- The look for escapes before any is decoded changes nothing. -/
theorem decodeEscapes_eq (s : List Char) :
    decodeEscapes s = (splitUnits escapeUnit s).1.flatMap decodeUnit := by
  unfold decodeEscapes
  split
  next => rfl
  next h =>
    have hnone : hasEscapeMark s = false := Bool.eq_false_iff.mpr h
    exact (decodeUnits_of_escapeFree (escapeFree_of_hasEscapeMark hnone)).symm

/-- A text without escapes is as it is decoded. -/
theorem EscapeFree.decodeEscapes (h : EscapeFree s) : decodeEscapes s = s :=
  (decodeEscapes_eq s).trans (decodeUnits_of_escapeFree h)

theorem hasEscape_eq_false_iff : hasEscape s = false ↔ EscapeFree s := by
  constructor
  · intro h
    induction s with
    | nil => exact .nil
    | cons c s ih =>
      cases hdigits : escapeDigits? (c :: s) with
      | none =>
        refine .cons hdigits (ih ?_)
        unfold hasEscape at h
        rw [splitUnits_step (escapeUnit_of_none hdigits), List.drop_zero, List.any_cons,
          Bool.or_eq_false_iff] at h
        exact h.2
      | some digits =>
        obtain ⟨mark, t, happ, -⟩ := exists_of_escapeDigits? hdigits
        obtain ⟨rfl, rfl⟩ := List.cons.inj happ
        have hself := escapeDigits?_append hdigits []
        rw [List.append_nil] at hself
        unfold hasEscape at h
        rw [splitUnits_escape hdigits, List.any_cons, hself] at h
        cases h
  · intro h
    unfold hasEscape
    rw [splitUnits_of_escapeFree h]
    simp only [List.any_map, List.any_eq_false, Function.comp]
    intro c _
    simp [escapeDigits?_singleton]

theorem EscapeFree.of_append {u : List Char} (h : EscapeFree (u ++ s)) : EscapeFree s := by
  induction u with
  | nil => exact h
  | cons c u ih =>
    cases h with
    | cons _ h => exact ih h

/-- White space ends what might have become an escape. -/
theorem EscapeFree.append_cut {u : List Char} (h : EscapeFree (u ++ s)) (hcut : Cut s t)
    (ht : EscapeFree t) : EscapeFree (u ++ t) := by
  induction u with
  | nil => exact ht
  | cons c u ih =>
    cases h with
    | cons hnone h => exact .cons (escapeDigits?_cut (hcut.append (c :: u)) hnone) (ih h)

end

end SparqlQuery
