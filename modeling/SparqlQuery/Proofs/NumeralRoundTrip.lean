import SparqlQuery.Proofs.DecimalValue
import SparqlQuery.Proofs.EscapeDecoding
import SparqlQuery.Proofs.LexerReads
import SparqlQuery.Proofs.RenderScan
import SparqlQuery.Proofs.SpoiledName

namespace SparqlQuery

/-- Zeros at the end of the digits of a number, none of them a digit of zero itself. -/
theorem natChars_mul_pow {n : Nat} (hn : n ≠ 0) (k : Nat) :
    natChars (n * 10 ^ k) = natChars n ++ List.replicate k '0' := by
  induction k with
  | zero => simp
  | succ k ih =>
    have hpos : 0 < n * 10 ^ k := Nat.mul_pos (Nat.pos_of_ne_zero hn) (Nat.pow_pos (by decide))
    have hzero := Nat.toDigits_append_toDigits (b := 10) (d := 0) (by decide) hpos (by decide)
    rw [natChars, Nat.toList_repr] at ih
    rw [natChars, Nat.toList_repr, Nat.pow_succ', Nat.mul_left_comm, ← Nat.add_zero (10 * _),
      ← hzero, ih, List.replicate_succ', List.append_assoc]
    rfl

namespace Decimal

variable {d : Decimal}

/-- The same number with a place after the point. -/
def withPlace (d : Decimal) : Decimal :=
  ⟨d.digits * 10 ^ (1 - d.scale).toNat, max 1 d.scale⟩

theorem withPlace_of_scale_pos (hscale : 0 < d.scale) : d.withPlace = d := by
  have hplaces : (1 - d.scale).toNat = 0 := by omega
  have hmax : max 1 d.scale = d.scale := by omega
  rw [withPlace, hplaces, pow_zero, mul_one, hmax]

theorem toRat_withPlace (d : Decimal) : d.withPlace.toRat = d.toRat := by
  have hplaces : (max 1 d.scale - d.scale).toNat = (1 - d.scale).toNat := by omega
  rw [toRat_eq_iff (k := max 1 d.scale) le_rfl (le_max_right 1 d.scale), hplaces]
  simp [withPlace]

/-- The digits in front of the point where no scale moves it. -/
def shifted (d : Decimal) : List Char :=
  natChars d.digits.natAbs ++ List.replicate (-d.scale).toNat '0'

theorem chars_of_scale_nonpos (hscale : d.scale ≤ 0) :
    d.chars = d.sign ++ (d.shifted ++ '.' :: ['0']) := by
  simp only [chars, if_pos hscale]
  simp [sign, shifted]

theorem isDigit_of_mem_shifted : ∀ c ∈ d.shifted, c.isDigit = true := by
  refine List.forall_mem_append.mpr ⟨isDigit_of_mem_natChars, fun c hc => ?_⟩
  rw [List.eq_of_mem_replicate hc]
  rfl

theorem shifted_append_zero (hscale : d.scale ≤ 0) :
    d.shifted ++ ['0'] = natChars d.digits.natAbs ++ List.replicate (1 - d.scale).toNat '0' := by
  have hplaces : (1 - d.scale).toNat = (-d.scale).toNat + 1 := by omega
  rw [shifted, hplaces, List.replicate_succ', List.append_assoc]

theorem numericValue?_chars_withPlace (d : Decimal) :
    numericValue? d.chars = some (.decimal d.withPlace) := by
  by_cases hscale : 0 < d.scale
  · rw [withPlace_of_scale_pos hscale]
    exact numericValue?_chars hscale
  have hscale' := Int.not_lt.mp hscale
  have hmax : max 1 d.scale = 1 := by omega
  have hzeros := digitsValue_replicate_zero (1 - d.scale).toNat []
  have hvalue : (digitsValue (d.shifted ++ ['0']) : Int) =
      d.digits.natAbs * 10 ^ (1 - d.scale).toNat := by
    rw [List.append_nil] at hzeros
    rw [shifted_append_zero hscale', digitsValue_append, hzeros, digitsValue_natChars,
      List.length_replicate, mul_comm]
    simp [digitsValue]
  have hsigned : signed d.sign d.digits.natAbs = d.digits := sign_natAbs
  have hread : ofDigits (d.sign == ['-']) d.shifted ['0'] = d.withPlace := by
    have hdigits : ofDigits (d.sign == ['-']) d.shifted ['0'] =
        ⟨signed d.sign (digitsValue (d.shifted ++ ['0']) : Nat), 1⟩ := rfl
    rw [hdigits, hvalue, signed_mul, hsigned, withPlace, hmax]
  rw [chars_of_scale_nonpos hscale', numericValue?_point isSign_sign (.inr (List.cons_ne_nil _ _))
    isDigit_of_mem_shifted (List.forall_mem_singleton.mpr rfl), hread]

theorem splitNumber_chars_self (d : Decimal) : splitNumber d.chars = some (d.chars, []) := by
  by_cases hscale : 0 < d.scale
  · exact splitNumber_chars hscale
  · have hmantissa : Mantissa (d.shifted ++ '.' :: ['0']) [] :=
      .point (.inr (List.cons_ne_nil _ _)) isDigit_of_mem_shifted
        (List.forall_mem_singleton.mpr rfl) (stopsAt_nil _)
    rw [chars_of_scale_nonpos (Int.not_lt.mp hscale)]
    exact splitNumber_eq_some_iff.mpr ⟨d.sign, _, [], isSign_sign, hmantissa,
      .none not_beginsExponent_nil, by simp, (List.append_nil _).symm⟩

/-- Zeros behind a digit other than zero are digits like all others. -/
theorem chars_withPlace_of_ne_zero (hscale : d.scale ≤ 0) (hd : d.digits ≠ 0) :
    d.withPlace.chars = d.chars := by
  have hmax : max 1 d.scale = 1 := by omega
  have hone : d.withPlace.scale = 1 := hmax
  have hmagnitude : natChars d.withPlace.digits.natAbs = d.shifted ++ ['0'] := by
    rw [withPlace, Int.natAbs_mul, Int.natAbs_pow, shifted_append_zero hscale]
    exact natChars_mul_pow (Int.natAbs_ne_zero.mpr hd) _
  have hpadded : d.withPlace.padded = d.shifted ++ ['0'] := by
    have hpos := List.length_pos_of_ne_nil (natChars_ne_nil d.digits.natAbs)
    have hnone : d.withPlace.scale.toNat + 1 - (d.shifted ++ ['0']).length = 0 := by
      rw [hone]
      simp [shifted]
      omega
    rw [padded, hmagnitude, hnone, List.replicate_zero, List.nil_append]
  have hlength : d.withPlace.padded.length - d.withPlace.scale.toNat = d.shifted.length := by
    simp [hpadded, hone]
  have hsign : d.withPlace.sign = d.sign := by
    have hpow : (0 : Int) < 10 ^ (1 - d.scale).toNat := by positivity
    have hneg : d.digits * 10 ^ (1 - d.scale).toNat < 0 ↔ d.digits < 0 :=
      ⟨fun h => neg_of_mul_neg_left h hpow.le, fun h => mul_neg_of_neg_of_pos h hpow⟩
    simp [sign, withPlace, hneg]
  rw [chars_of_scale_pos (by omega), chars_of_scale_nonpos hscale, hsign, whole, places, hlength,
    hpadded, List.take_left, List.drop_left]

/-- Only zero does not keep its zeros in front of the point. -/
theorem chars_withPlace_iff : d.withPlace.chars = d.chars ↔ d.digits ≠ 0 ∨ 0 ≤ d.scale := by
  by_cases hscale : 0 < d.scale
  · rw [withPlace_of_scale_pos hscale]
    simp [hscale.le]
  have hscale' := Int.not_lt.mp hscale
  by_cases hd : d.digits = 0
  · have hmax : max 1 d.scale = 1 := by omega
    have hplace : d.withPlace = ⟨0, 1⟩ := by rw [withPlace, hd, hmax, zero_mul]
    have hzero : (⟨0, 1⟩ : Decimal).chars = ['0', '.', '0'] := by decide
    have hchars : d.chars = '0' :: (List.replicate (-d.scale).toNat '0' ++ ['.', '0']) := by
      rw [chars_of_scale_nonpos hscale', sign, shifted, hd]
      rfl
    rw [hplace, hzero, hchars]
    constructor
    · intro h
      have hlength := congrArg List.length h
      simp only [List.length_cons, List.length_append, List.length_replicate, List.length_nil]
        at hlength
      omega
    · rintro (hne | hpos)
      · exact absurd hd hne
      · have hnone : (-d.scale).toNat = 0 := by omega
        rw [hnone]
        rfl
  · exact ⟨fun _ => .inl hd, fun _ => chars_withPlace_of_ne_zero hscale' hd⟩

end Decimal

/-- A text that is one numeral is read as one token. -/
theorem tokenize_of_splitNumber {s : List Char} {value : Value}
    (hsplit : splitNumber s = some (s, [])) (hvalue : numericValue? s = some value) :
    tokenize (String.ofList s) = .ok [⟨.numericLiteral, value, ⟨0, byteCount s⟩⟩] := by
  have hmarks := @Kind.split_markFree _ _ _ .numericLiteral (by decide) (by decide) (by decide)
    hsplit
  have hslash : '\\' ∉ s := fun hmem => absurd (hmarks _ hmem) (by decide)
  have hself := decodeEscapes_append hslash []
  have hscan : scanLexeme 0 (s ++ []) = some (.numericLiteral, value, s, []) :=
    scan_numeral blankNext_nil hsplit hvalue
  rw [decodeEscapes_nil, List.append_nil] at hself
  rw [List.append_nil] at hscan
  exact tokenize_of_scan (by rw [String.toList_ofList, hself]) hscan

/-- Exact numbers are read back from what they are written as: an integer as itself, a decimal as
the same number, with its scale if that leaves a place after the point. What is read back is written
as before, unless it is a zero with zeros to spare. -/
theorem tokenize_numeral (n : Int) (d : Decimal) :
    (∃ span, tokenize (Value.integer n).render = .ok [⟨.numericLiteral, .integer n, span⟩]) ∧
    ∃ e span, tokenize (Value.decimal d).render = .ok [⟨.numericLiteral, .decimal e, span⟩] ∧
      e.toRat = d.toRat ∧ (1 ≤ d.scale → e = d) ∧
      ((Value.decimal e).render = (Value.decimal d).render ↔ d.digits ≠ 0 ∨ 0 ≤ d.scale) := by
  have hinteger := tokenize_of_splitNumber (splitNumber_intChars n) (numericValue?_intChars n)
  have hdecimal := tokenize_of_splitNumber d.splitNumber_chars_self d.numericValue?_chars_withPlace
  refine ⟨⟨_, hinteger⟩, d.withPlace, _, hdecimal, d.toRat_withPlace,
    Decimal.withPlace_of_scale_pos, ?_⟩
  rw [← Decimal.chars_withPlace_iff]
  exact String.ofList_inj

/-- The places of a half are read back with it. -/
theorem minusHalf_readBack : ∃ span, tokenize (Value.decimal ⟨-50, 2⟩).render =
    .ok [⟨.numericLiteral, .decimal ⟨-50, 2⟩, span⟩] := by
  obtain ⟨e, span, hread, -, hsame, -⟩ := (tokenize_numeral 0 ⟨-50, 2⟩).2
  obtain rfl := hsame (by decide)
  exact ⟨span, hread⟩

/-- The zeros that a zero is written with are not written again. -/
theorem zeroThousands_changed :
    (tokenize (Value.decimal ⟨0, -3⟩).render).toOption =
      some [⟨.numericLiteral, .decimal ⟨0, 1⟩, ⟨0, 6⟩⟩] ∧
    (Value.decimal ⟨0, 1⟩).render ≠ (Value.decimal ⟨0, -3⟩).render := by
  decide +kernel

end SparqlQuery
