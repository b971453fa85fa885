import SparqlQuery.LexemeSplit
import SparqlQuery.Proofs.TextCut

namespace SparqlQuery

/-- At most one sign. -/
def IsSign (sign : List Char) : Prop :=
  sign = [] ∨ ∃ c, isSign c = true ∧ sign = [c]

/-- Digits with or without a point, as far as they go before the rest of a text. -/
inductive Mantissa : List Char → List Char → Prop
  | whole {digits rest : List Char} (hne : digits ≠ []) (hdigits : ∀ c ∈ digits, c.isDigit = true)
      (hstops : StopsAt (fun c => c.isDigit || c == '.') rest) : Mantissa digits rest
  | point {whole fraction rest : List Char} (hne : whole ≠ [] ∨ fraction ≠ [])
      (hwhole : ∀ c ∈ whole, c.isDigit = true) (hfraction : ∀ c ∈ fraction, c.isDigit = true)
      (hstops : StopsAt Char.isDigit rest) : Mantissa (whole ++ '.' :: fraction) rest

/-- A mark, a sign and a digit: enough to tell that a text begins with an exponent. -/
def BeginsExponent (s : List Char) : Prop :=
  ∃ mark sign d t, isExponentMark mark = true ∧ IsSign sign ∧ d.isDigit = true ∧
    s = mark :: (sign ++ d :: t)

/-- An exponent as far as it goes before the rest of a text, or none. -/
inductive Exponent : List Char → List Char → Prop
  | none {rest : List Char} (hnone : ¬ BeginsExponent rest) : Exponent [] rest
  | power {mark : Char} {sign digits rest : List Char} (hmark : isExponentMark mark = true)
      (hsign : IsSign sign) (hne : digits ≠ []) (hdigits : ∀ c ∈ digits, c.isDigit = true)
      (hstops : StopsAt Char.isDigit rest) : Exponent (mark :: (sign ++ digits)) rest

section

variable {s lexeme rest : List Char}

theorem isDigit_not_sign {c : Char} (h : c.isDigit = true) : isSign c = false := by
  by_contra hsign
  simp only [isSign, Bool.not_eq_false, Bool.or_eq_true, beq_iff_eq] at hsign
  rcases hsign with rfl | rfl <;> cases h

theorem isSign_splitSign (s : List Char) : IsSign (splitSign s).1 := by
  cases s with
  | nil => exact .inl rfl
  | cons c s =>
    simp only [splitSign]
    split
    next hc => exact .inr ⟨c, hc, rfl⟩
    next => exact .inl rfl

theorem splitSign_eq {sign : List Char} (hsign : IsSign sign) (hstops : StopsAt isSign s) :
    splitSign (sign ++ s) = (sign, s) := by
  rcases hsign with rfl | ⟨c, hc, rfl⟩
  · cases s with
    | nil => rfl
    | cons c s => simp [splitSign, hstops c rfl]
  · simp [splitSign, hc]

theorem splitMantissa_eq_some_iff :
    splitMantissa s = some (lexeme, rest) ↔ Mantissa lexeme rest ∧ s = lexeme ++ rest := by
  constructor
  · intro h
    refine ⟨?_, (splits_mantissa s lexeme rest h).1.symm⟩
    have hwhole : ∀ c ∈ s.takeWhile Char.isDigit, c.isDigit = true :=
      fun c hc => List.mem_takeWhile_imp hc
    have hstops := stopsAt_dropWhile Char.isDigit s
    simp only [splitMantissa] at h
    split at h
    next t hdrop =>
      split at h
      next => cases h
      next hne =>
        simp only [Option.some.injEq, Prod.mk.injEq] at h
        obtain ⟨rfl, rfl⟩ := h
        refine .point ?_ hwhole (fun c hc => List.mem_takeWhile_imp hc) (stopsAt_dropWhile _ t)
        simp only [Bool.and_eq_true, List.isEmpty_iff] at hne
        exact not_and_or.mp hne
    next hdot =>
      split at h
      next => cases h
      next hne =>
        simp only [Option.some.injEq, Prod.mk.injEq] at h
        obtain ⟨rfl, rfl⟩ := h
        refine .whole (by simpa using hne) hwhole ?_
        intro c hc
        have hc' := hstops c hc
        cases hd : s.dropWhile Char.isDigit with
        | nil => simp [hd] at hc
        | cons e t =>
          rw [hd] at hc
          cases hc
          simp only [hc', Bool.false_or, beq_eq_false_iff_ne]
          rintro rfl
          exact hdot t hd
  · rintro ⟨hmantissa, rfl⟩
    cases hmantissa with
    | whole hne hdigits hstops =>
      have hstops' : StopsAt Char.isDigit rest := fun c hc =>
        (Bool.or_eq_false_iff.mp (hstops c hc)).1
      have htake := hstops'.takeWhile_append hdigits
      have hdrop := hstops'.dropWhile_append hdigits
      simp only [splitMantissa, htake, hdrop]
      split
      next t => exact absurd (hstops '.' rfl) (by decide)
      next => rw [if_neg (by simpa using hne)]
    | @point whole fraction _ hne hwhole hfraction hstops =>
      have hpoint : StopsAt Char.isDigit ('.' :: (fraction ++ rest)) := stopsAt_cons rfl _
      have htake := hpoint.takeWhile_append hwhole
      have hdrop := hpoint.dropWhile_append hwhole
      have htake' := hstops.takeWhile_append hfraction
      have hdrop' := hstops.dropWhile_append hfraction
      have hboth : (whole.isEmpty && fraction.isEmpty) = false := by
        simp only [Bool.and_eq_false_iff, List.isEmpty_eq_false_iff]
        exact hne
      rw [List.append_assoc, List.cons_append]
      simp [splitMantissa, htake, hdrop, htake', hdrop', hboth]

theorem stopsAt_isSign_of_digits {digits : List Char} (hne : digits ≠ [])
    (hdigits : ∀ c ∈ digits, c.isDigit = true) (t : List Char) : StopsAt isSign (digits ++ t) := by
  obtain ⟨d, digits, rfl⟩ := List.exists_cons_of_ne_nil hne
  exact stopsAt_cons (isDigit_not_sign (hdigits d List.mem_cons_self)) (digits ++ t)

theorem splitSign_of_digit {sign t : List Char} {d : Char} (hsign : IsSign sign)
    (hd : d.isDigit = true) : splitSign (sign ++ d :: t) = (sign, d :: t) :=
  splitSign_eq hsign (stopsAt_cons (isDigit_not_sign hd) t)

/-- Where no exponent begins, none is split off; elsewhere its parts are. -/
theorem splitExponent_of_not_begins (h : ¬ BeginsExponent s) : splitExponent s = ([], s) := by
  cases s with
  | nil => rfl
  | cons mark t =>
    simp only [splitExponent]
    split
    next hboth =>
      simp only [Bool.and_eq_true, Bool.not_eq_true', List.isEmpty_eq_false_iff] at hboth
      obtain ⟨d, digits, hdigits⟩ := List.exists_cons_of_ne_nil hboth.2
      have hd : d.isDigit = true :=
        List.mem_takeWhile_imp (hdigits ▸ List.mem_cons_self)
      have hparts := List.takeWhile_append_dropWhile (p := Char.isDigit) (l := (splitSign t).2)
      rw [hdigits] at hparts
      refine absurd ⟨mark, _, d, digits ++ (splitSign t).2.dropWhile Char.isDigit, hboth.1,
        isSign_splitSign t, hd, ?_⟩ h
      exact congrArg (mark :: ·)
        ((splitSign_append t).symm.trans (congrArg ((splitSign t).1 ++ ·) hparts.symm))
    next => rfl

theorem splitExponent_eq_iff :
    splitExponent s = (lexeme, rest) ↔ Exponent lexeme rest ∧ s = lexeme ++ rest := by
  constructor
  · intro h
    by_cases hbegins : BeginsExponent s
    · obtain ⟨mark, sign, d, t, hmark, hsign, hd, rfl⟩ := hbegins
      simp only [splitExponent, splitSign_of_digit hsign hd, hmark, List.takeWhile_cons, hd,
        if_true, List.dropWhile_cons, List.isEmpty_cons, Bool.not_false, Bool.and_self,
        Prod.mk.injEq] at h
      obtain ⟨rfl, rfl⟩ := h
      have hparts := List.takeWhile_append_dropWhile (p := Char.isDigit) (l := t)
      refine ⟨.power hmark hsign (List.cons_ne_nil d _) ?_ (stopsAt_dropWhile _ t), by simp⟩
      intro c hc
      rcases List.mem_cons.mp hc with rfl | hc
      · exact hd
      · exact List.mem_takeWhile_imp hc
    · rw [splitExponent_of_not_begins hbegins, Prod.mk.injEq] at h
      obtain ⟨rfl, rfl⟩ := h
      exact ⟨.none hbegins, rfl⟩
  · rintro ⟨hexponent, rfl⟩
    cases hexponent with
    | none hnone => exact splitExponent_of_not_begins hnone
    | @power mark sign digits _ hmark hsign hne hdigits hstops =>
      have hsplit := splitSign_eq hsign (stopsAt_isSign_of_digits hne hdigits rest)
      have htake := hstops.takeWhile_append hdigits
      have hdrop := hstops.dropWhile_append hdigits
      rw [List.cons_append, List.append_assoc]
      simp [splitExponent, hsplit, htake, hdrop, hmark, hne]

theorem Mantissa.stopsAt_isSign {mantissa : List Char} (h : Mantissa mantissa rest)
    (t : List Char) : StopsAt isSign (mantissa ++ t) := by
  cases h with
  | whole hne hdigits => exact stopsAt_isSign_of_digits hne hdigits t
  | @point whole fraction _ _ hwhole =>
    rw [List.append_assoc]
    cases whole with
    | nil => exact stopsAt_cons rfl _
    | cons d whole => exact stopsAt_isSign_of_digits (List.cons_ne_nil d whole) hwhole _

theorem splitNumber_eq_some_iff :
    splitNumber s = some (lexeme, rest) ↔ ∃ sign mantissa exponent, IsSign sign ∧
      Mantissa mantissa (exponent ++ rest) ∧ Exponent exponent rest ∧
      lexeme = sign ++ (mantissa ++ exponent) ∧ s = lexeme ++ rest := by
  constructor
  · intro h
    have happ := (splits_number s lexeme rest h).1
    simp only [splitNumber] at h
    split at h
    next => cases h
    next mantissa t hmantissa =>
      simp only [Option.some.injEq, Prod.mk.injEq] at h
      obtain ⟨rfl, rfl⟩ := h
      have hexponent := (splitExponent_eq_iff.mp (rfl : splitExponent t = _)).1
      have hparts := (splitMantissa_eq_some_iff.mp hmantissa).1
      rw [← splitExponent_append t] at hparts
      exact ⟨_, mantissa, _, isSign_splitSign s, hparts, hexponent, by simp, happ.symm⟩
  · rintro ⟨sign, mantissa, exponent, hsign, hmantissa, hexponent, rfl, rfl⟩
    have hsplit := splitSign_eq hsign (hmantissa.stopsAt_isSign (exponent ++ rest))
    have hmid := splitMantissa_eq_some_iff.mpr ⟨hmantissa, rfl⟩
    have hend := splitExponent_eq_iff.mpr ⟨hexponent, rfl⟩
    rw [List.append_assoc, List.append_assoc]
    simp only [splitNumber, hsplit, hmid, hend]
    simp

end

end SparqlQuery
