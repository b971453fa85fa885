import SparqlQuery.Proofs.NumberShape
import SparqlQuery.Rendering
import Mathlib.Data.List.TakeWhile

namespace SparqlQuery

theorem isDigit_of_mem_natChars {n : Nat} : ∀ c ∈ natChars n, c.isDigit = true := by
  intro c hc
  rw [natChars, Nat.toList_repr] at hc
  exact Nat.isDigit_of_mem_toDigits (by decide) (by decide) hc

theorem natChars_ne_nil (n : Nat) : natChars n ≠ [] := by
  rw [natChars, Nat.toList_repr]
  exact Nat.toDigits_ne_nil

theorem digitsValue_natChars (n : Nat) : digitsValue (natChars n) = n := by
  rw [natChars, Nat.toList_repr]
  exact Nat.ofDigitChars_toDigits (by decide) (by decide)

/-- Leading zeros do not count. -/
theorem digitsValue_replicate_zero (k : Nat) (s : List Char) :
    digitsValue (List.replicate k '0' ++ s) = digitsValue s := by
  induction k with
  | zero => rfl
  | succ k ih =>
    rw [List.replicate_succ, List.cons_append]
    exact ih

section

variable {sign whole fraction s : List Char}

theorem isDigit_not_exponentMark {c : Char} (h : c.isDigit = true) : isExponentMark c = false := by
  by_contra hmark
  simp only [isExponentMark, Bool.not_eq_false, Bool.or_eq_true, beq_iff_eq] at hmark
  rcases hmark with rfl | rfl <;> cases h

/-- A sign shows at the front of what it belongs to. -/
theorem head?_beq_minus (hsign : IsSign sign) (hs : StopsAt isSign s) :
    ((sign ++ s).head? == some '-') = (sign == ['-']) := by
  rcases hsign with rfl | ⟨c, -, rfl⟩
  · cases s with
    | nil => rfl
    | cons c s =>
      have hc : c ≠ '-' := by
        rintro rfl
        cases hs '-' rfl
      simp [hc]
  · simp

theorem splitAt_exponentMark (h : ∀ c ∈ s, isExponentMark c = false) :
    s.takeWhile (!isExponentMark ·) = s ∧ s.dropWhile (!isExponentMark ·) = [] := by
  have hall : ∀ c ∈ s, (!isExponentMark c) = true := by
    intro c hc
    rw [h c hc]
    rfl
  have htake := (stopsAt_nil (!isExponentMark ·)).takeWhile_append hall
  have hdrop := (stopsAt_nil (!isExponentMark ·)).dropWhile_append hall
  rw [List.append_nil] at htake hdrop
  exact ⟨htake, hdrop⟩

theorem numericValue?_whole (hsign : IsSign sign) (hne : whole ≠ [])
    (hwhole : ∀ c ∈ whole, c.isDigit = true) :
    numericValue? (sign ++ whole) = some (.integer
      (if sign == ['-'] then -(digitsValue whole : Int) else digitsValue whole)) := by
  have hmantissa : Mantissa whole [] := .whole hne hwhole (stopsAt_nil _)
  have hstops := hmantissa.stopsAt_isSign []
  rw [List.append_nil] at hstops
  have hplain := splitAt_exponentMark fun c hc => isDigit_not_exponentMark (hwhole c hc)
  have hpoint : '.' ∉ whole := fun hmem => absurd (hwhole _ hmem) (by decide)
  have htake := (stopsAt_nil Char.isDigit).takeWhile_append hwhole
  rw [List.append_nil] at htake
  simp only [numericValue?, head?_beq_minus hsign hstops, splitSign_eq hsign hstops, hplain.1,
    hplain.2, htake]
  rw [if_neg (by simpa using hpoint)]

theorem numericValue?_point (hsign : IsSign sign) (hne : whole ≠ [] ∨ fraction ≠ [])
    (hwhole : ∀ c ∈ whole, c.isDigit = true) (hfraction : ∀ c ∈ fraction, c.isDigit = true) :
    numericValue? (sign ++ (whole ++ '.' :: fraction)) =
      some (.decimal (.ofDigits (sign == ['-']) whole fraction)) := by
  have hmantissa : Mantissa (whole ++ '.' :: fraction) [] :=
    .point hne hwhole hfraction (stopsAt_nil _)
  have hstops := hmantissa.stopsAt_isSign []
  rw [List.append_nil] at hstops
  have hplain := splitAt_exponentMark (s := whole ++ '.' :: fraction) <| by
    refine List.forall_mem_append.mpr
      ⟨fun c hc => isDigit_not_exponentMark (hwhole c hc), ?_⟩
    exact List.forall_mem_cons.mpr
      ⟨rfl, fun c hc => isDigit_not_exponentMark (hfraction c hc)⟩
  have hpoint : StopsAt Char.isDigit ('.' :: fraction) := stopsAt_cons rfl fraction
  simp only [numericValue?, head?_beq_minus hsign hstops, splitSign_eq hsign hstops, hplain.1,
    hplain.2, hpoint.takeWhile_append hwhole, hpoint.dropWhile_append hwhole]
  simp

theorem Decimal.scale_ofDigits (negative : Bool) (whole fraction : List Char) :
    (Decimal.ofDigits negative whole fraction).scale = max 1 fraction.length := by
  cases fraction with
  | nil => rfl
  | cons c fraction =>
    simp only [Decimal.ofDigits, List.isEmpty_cons, List.length_cons, if_false, Bool.false_eq_true]
    omega

theorem Decimal.scale_ofDigits_pos (negative : Bool) (whole fraction : List Char) :
    0 < (Decimal.ofDigits negative whole fraction).scale := by
  rw [scale_ofDigits]
  omega

/-- What a numeric literal denotes: an integer, a decimal with a place after the point, or a finite
double. -/
theorem numericValue?_cases {value : Value} (h : numericValue? s = some value) :
    (∃ n, value = .integer n) ∨ (∃ d, value = .decimal d ∧ 0 < d.scale) ∨
      ∃ d, value = .double d ∧ d.isFinite = true := by
  simp only [numericValue?] at h
  split at h
  next =>
    split at h
    next hfinite =>
      cases h
      exact .inr (.inr ⟨_, rfl, hfinite⟩)
    next => cases h
  next =>
    split at h
    next =>
      cases h
      exact .inr (.inl ⟨_, rfl, Decimal.scale_ofDigits_pos _ _ _⟩)
    next =>
      cases h
      exact .inl ⟨_, rfl⟩

/-- An integer as it is written out. -/
theorem intChars_eq (n : Int) : ∃ sign, IsSign sign ∧ intChars n = sign ++ natChars n.natAbs ∧
    ((sign == ['-']) = decide (n < 0)) := by
  cases n with
  | ofNat n => exact ⟨[], .inl rfl, rfl, rfl⟩
  | negSucc n => exact ⟨['-'], .inr ⟨'-', rfl, rfl⟩, rfl, by simp [Int.negSucc_lt_zero]⟩

theorem numericValue?_intChars (n : Int) : numericValue? (intChars n) = some (.integer n) := by
  obtain ⟨sign, hsign, hchars, hnegative⟩ := intChars_eq n
  rw [hchars, numericValue?_whole hsign (natChars_ne_nil _) isDigit_of_mem_natChars,
    digitsValue_natChars, hnegative]
  by_cases hn : n < 0
  · rw [if_pos (by simpa using hn)]
    congr 2
    omega
  · rw [if_neg (by simpa using hn)]
    congr 2
    omega

theorem not_beginsExponent_nil : ¬ BeginsExponent [] := by
  rintro ⟨_, _, _, _, -, -, -, ⟨⟩⟩

theorem splitNumber_intChars (n : Int) : splitNumber (intChars n) = some (intChars n, []) := by
  obtain ⟨sign, hsign, hchars, -⟩ := intChars_eq n
  refine splitNumber_eq_some_iff.mpr ⟨sign, natChars n.natAbs, [], hsign,
    .whole (natChars_ne_nil _) isDigit_of_mem_natChars (stopsAt_nil _),
    .none not_beginsExponent_nil, by simp [hchars], (List.append_nil _).symm⟩

end

namespace Decimal

variable {d : Decimal}

/-- The digits of a decimal with enough zeros in front for one before the point. -/
def padded (d : Decimal) : List Char :=
  List.replicate (d.scale.toNat + 1 - (natChars d.digits.natAbs).length) '0' ++
    natChars d.digits.natAbs

def sign (d : Decimal) : List Char :=
  if d.digits < 0 then ['-'] else []

def whole (d : Decimal) : List Char :=
  d.padded.take (d.padded.length - d.scale.toNat)

def places (d : Decimal) : List Char :=
  d.padded.drop (d.padded.length - d.scale.toNat)

theorem chars_of_scale_pos (hscale : 0 < d.scale) :
    d.chars = d.sign ++ (d.whole ++ '.' :: d.places) := by
  simp only [chars, sign, whole, places, padded]
  rw [if_neg (by omega), List.append_assoc]

theorem isDigit_of_mem_padded : ∀ c ∈ d.padded, c.isDigit = true := by
  refine List.forall_mem_append.mpr ⟨fun c hc => ?_, isDigit_of_mem_natChars⟩
  rw [List.eq_of_mem_replicate hc]
  rfl

theorem isDigit_of_mem_whole : ∀ c ∈ d.whole, c.isDigit = true :=
  fun c hc => isDigit_of_mem_padded c (List.mem_of_mem_take hc)

theorem isDigit_of_mem_places : ∀ c ∈ d.places, c.isDigit = true :=
  fun c hc => isDigit_of_mem_padded c (List.mem_of_mem_drop hc)

theorem scale_lt_length_padded (d : Decimal) : d.scale.toNat < d.padded.length := by
  simp only [padded, List.length_append, List.length_replicate]
  omega

theorem whole_ne_nil : d.whole ≠ [] := by
  have hlength := d.scale_lt_length_padded
  refine List.ne_nil_of_length_pos ?_
  rw [whole, List.length_take]
  omega

theorem length_places : d.places.length = d.scale.toNat := by
  have hlength := d.scale_lt_length_padded
  rw [places, List.length_drop]
  omega

theorem digitsValue_whole_append_places :
    digitsValue (d.whole ++ d.places) = d.digits.natAbs := by
  rw [whole, places, List.take_append_drop, padded, digitsValue_replicate_zero,
    digitsValue_natChars]

theorem isSign_sign : IsSign d.sign := by
  unfold sign
  split
  next => exact .inr ⟨'-', rfl, rfl⟩
  next => exact .inl rfl

theorem sign_natAbs :
    (if d.sign == ['-'] then -(d.digits.natAbs : Int) else d.digits.natAbs) = d.digits := by
  unfold sign
  by_cases hdigits : d.digits < 0
  · simp only [if_pos hdigits, BEq.rfl, if_true]
    omega
  · rw [if_neg hdigits, if_neg (by decide)]
    omega

theorem numericValue?_chars (hscale : 0 < d.scale) :
    numericValue? d.chars = some (.decimal d) := by
  rw [chars_of_scale_pos hscale, numericValue?_point isSign_sign (.inl whole_ne_nil)
    isDigit_of_mem_whole isDigit_of_mem_places]
  have hne : d.places.isEmpty = false := by
    rw [List.isEmpty_eq_false_iff]
    exact List.ne_nil_of_length_pos (by rw [length_places]; omega)
  have hscale' : (d.scale.toNat : Int) = d.scale := by omega
  simp only [ofDigits, hne, Bool.false_eq_true, if_false, digitsValue_whole_append_places,
    sign_natAbs, length_places, hscale']

theorem splitNumber_chars (hscale : 0 < d.scale) : splitNumber d.chars = some (d.chars, []) := by
  rw [chars_of_scale_pos hscale]
  refine splitNumber_eq_some_iff.mpr ⟨d.sign, d.whole ++ '.' :: d.places, [], isSign_sign,
    .point (.inl whole_ne_nil) isDigit_of_mem_whole isDigit_of_mem_places (stopsAt_nil _),
    .none not_beginsExponent_nil, by simp, (List.append_nil _).symm⟩

end Decimal

/-- Digits without the zeros at their end. -/
theorem isDigit_of_mem_stripped {others : List Char} (h : ∀ c ∈ others, c.isDigit = true) :
    ∀ c ∈ (others.reverse.dropWhile (· == '0')).reverse, c.isDigit = true := by
  intro c hc
  have hmem := (List.dropWhile_sublist _).subset (List.mem_reverse.mp hc)
  exact h c (List.mem_reverse.mp hmem)

/-- The scientific notation of a number has digits, a point only between them, and an exponent. -/
theorem Double.scientificChars_eq (d : Double) : ∃ sign mantissa power, IsSign sign ∧
    Mantissa mantissa ('e' :: intChars power) ∧
    d.scientificChars = sign ++ (mantissa ++ 'e' :: intChars power) := by
  have hsign : IsSign (if d.isNegative then ['-'] else []) := by
    split
    next => exact .inr ⟨'-', rfl, rfl⟩
    next => exact .inl rfl
  have hall := isDigit_of_mem_natChars (n := d.shortest.1)
  simp only [scientificChars]
  split
  next hnil => exact absurd hnil (natChars_ne_nil _)
  next first others hcons =>
    rw [hcons] at hall
    obtain ⟨hfirst, hothers⟩ := List.forall_mem_cons.mp hall
    split
    next =>
      exact ⟨_, [first], _, hsign,
        .whole (List.cons_ne_nil _ _) (by simpa using hfirst) (stopsAt_cons rfl _), rfl⟩
    next =>
      exact ⟨_, [first] ++ '.' :: (others.reverse.dropWhile (· == '0')).reverse,
        d.shortest.2 + ((natChars d.shortest.1).length - 1 : Nat), hsign,
        .point (.inl (List.cons_ne_nil _ _)) (by simpa using hfirst)
          (isDigit_of_mem_stripped hothers) (stopsAt_cons rfl _), by simp⟩

theorem Double.splitNumber_scientificChars (d : Double) :
    splitNumber d.scientificChars = some (d.scientificChars, []) := by
  obtain ⟨sign, mantissa, power, hsign, hmantissa, hchars⟩ := d.scientificChars_eq
  obtain ⟨minus, hminus, hpower, -⟩ := intChars_eq power
  have hexponent : Exponent ('e' :: intChars power) [] := by
    rw [hpower]
    exact .power rfl hminus (natChars_ne_nil _) isDigit_of_mem_natChars (stopsAt_nil _)
  rw [hchars]
  exact splitNumber_eq_some_iff.mpr ⟨sign, mantissa, 'e' :: intChars power, hsign,
    by simpa using hmantissa, hexponent, rfl, (List.append_nil _).symm⟩

end SparqlQuery
