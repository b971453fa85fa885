import SparqlQuery.Double
import SparqlQuery.Proofs.NearestRung
import Mathlib.Algebra.Order.Field.Power

namespace SparqlQuery

/-- A fraction with both sides scaled by the parts of a power. -/
theorem scaled_div {base : Nat} (hbase : 0 < base) (numerator denominator : Nat) (e : ℤ) :
    ((numerator * Nat.pow base e.toNat : Nat) : ℚ) / (denominator * Nat.pow base (-e).toNat : Nat) =
      numerator / denominator * base ^ e := by
  have hne : (base : ℚ) ≠ 0 := by positivity
  have hsplit : e = e.toNat - (-e).toNat := (Int.toNat_sub_toNat_neg e).symm
  have hpow : (base : ℚ) ^ e = base ^ e.toNat / base ^ (-e).toNat := by
    conv_lhs => rw [hsplit]
    rw [zpow_sub₀ hne, zpow_natCast, zpow_natCast]
  rw [hpow, Nat.pow_eq, Nat.pow_eq]
  push_cast
  rw [mul_div_mul_comm]

/-- The power that is found is the largest that a fraction reaches. -/
theorem floorExponent_spec {base : Nat} (hbase : 0 < base) {guess : ℤ} {numerator denominator : Nat}
    (hpos : 0 < denominator) (hlow : (base : ℚ) ^ (guess - 1) ≤ numerator / denominator)
    (hhigh : (numerator / denominator : ℚ) < base ^ (guess + 1)) :
    (base : ℚ) ^ floorExponent base guess numerator denominator ≤ numerator / denominator ∧
      (numerator / denominator : ℚ) <
        base ^ (floorExponent base guess numerator denominator + 1) := by
  have hiff : numerator * Nat.pow base (-guess).toNat < denominator * Nat.pow base guess.toNat ↔
      (numerator / denominator : ℚ) < base ^ guess := by
    have hscaled := scaled_div hbase numerator denominator (-guess)
    rw [neg_neg] at hscaled
    have hside : (0 : ℚ) < (denominator * Nat.pow base guess.toNat : Nat) := by
      rw [Nat.pow_eq]
      positivity
    have hpow : (0 : ℚ) < base ^ guess := by positivity
    rw [← @Nat.cast_lt ℚ, ← div_lt_one hside, hscaled, zpow_neg, ← div_eq_mul_inv,
      div_lt_one hpow]
  unfold floorExponent
  split
  next hlt => exact ⟨hlow, by simpa using hiff.mp hlt⟩
  next hge => exact ⟨not_lt.mp (hiff.not.mp hge), hhigh⟩

/-- A fraction lies between powers of two that the lengths of its sides tell. -/
theorem two_zpow_log2_le {numerator denominator : Nat} (hne : numerator ≠ 0)
    (hpos : 0 < denominator) :
    (2 : ℚ) ^ ((numerator.log2 : ℤ) - denominator.log2 - 1) ≤ numerator / denominator ∧
      (numerator / denominator : ℚ) < 2 ^ ((numerator.log2 : ℤ) - denominator.log2 + 1) := by
  have hlow : (2 : ℚ) ^ numerator.log2 ≤ numerator := mod_cast Nat.log2_self_le hne
  have hhigh : (numerator : ℚ) < 2 ^ (numerator.log2 + 1) := mod_cast Nat.lt_log2_self
  have hlow' : (2 : ℚ) ^ denominator.log2 ≤ denominator := mod_cast Nat.log2_self_le hpos.ne'
  have hhigh' : (denominator : ℚ) < 2 ^ (denominator.log2 + 1) := mod_cast Nat.lt_log2_self
  have hpos' : (0 : ℚ) < denominator := mod_cast hpos
  constructor
  · have hpow : (2 : ℚ) ^ ((numerator.log2 : ℤ) - denominator.log2 - 1) =
        2 ^ numerator.log2 / 2 ^ (denominator.log2 + 1) := by
      rw [sub_sub, zpow_sub₀ (by norm_num), zpow_natCast]
      norm_cast
    rw [hpow]
    exact div_le_div₀ numerator.cast_nonneg hlow hpos' hhigh'.le
  · have hpow : (2 : ℚ) ^ ((numerator.log2 : ℤ) - denominator.log2 + 1) =
        2 ^ (numerator.log2 + 1) / 2 ^ denominator.log2 := by
      rw [sub_add_eq_add_sub, zpow_sub₀ (by norm_num), zpow_natCast]
      norm_cast
    rw [hpow]
    exact div_lt_div₀ hhigh hlow' (by positivity) (by positivity)

/-- How wide a whole part is can be told from the fraction in its scale. -/
theorem mul_zpow_lt_iff {numerator denominator width : Nat} (hpos : 0 < denominator) (unit : ℤ) :
    (numerator / denominator * 2 ^ unit : ℚ) < 2 ^ (unit + width) ↔
      numerator / denominator < 2 ^ width := by
  have hunit : (0 : ℚ) < 2 ^ unit := by positivity
  have hpos' : (0 : ℚ) < denominator := mod_cast hpos
  rw [add_comm unit, zpow_add₀ two_ne_zero, mul_lt_mul_iff_left₀ hunit, div_lt_iff₀ hpos',
    zpow_natCast, Nat.div_lt_iff_lt_mul hpos]
  norm_cast

namespace Double

/-- The number that a magnitude stands for, or would if exponents had no end. -/
def numberAt (magnitude : Nat) : ℚ :=
  if magnitude < 2 ^ 52 then magnitude * 2 ^ (-1074 : ℤ)
  else (magnitude % 2 ^ 52 + 2 ^ 52 : Nat) * 2 ^ ((magnitude / 2 ^ 52 : Nat) - 1075 : ℤ)

/-- The absolute value of a double, for infinity the power of two that would come next. -/
def absolute (d : Double) : ℚ :=
  d.significand * 2 ^ d.exponent

/-- The number that a double stands for, if it stands for any. Both zeros stand for the same. -/
def toRat (d : Double) : ℚ :=
  if d.isNegative then -d.absolute else d.absolute

/-- A double whose absolute value is nearest to a number, infinity standing in for all that is too
large. Of two that are equally near it is the one whose last bit is zero. -/
structure IsNearest (x : ℚ) (d : Double) : Prop where
  number : d.isNaN = false
  nearest : ∀ other : Double, other.isNaN = false → |x - d.absolute| ≤ |x - other.absolute|
  even : ∀ other : Double, other.isNaN = false → other.magnitude ≠ d.magnitude →
    |x - other.absolute| = |x - d.absolute| → d.magnitude % 2 = 0

theorem absolute_eq (d : Double) : d.absolute = numberAt d.magnitude := by
  unfold absolute numberAt significand exponent
  simp only [Nat.pow_eq]
  split <;> rfl

theorem numberAt_add {q k : Nat} (hq : q ≤ 2 ^ 53) (hk : 2 ^ 52 ≤ q ∨ k = 0) :
    numberAt (q + k * 2 ^ 52) = q * 2 ^ (k - 1074 : ℤ) := by
  unfold numberAt
  rcases Nat.lt_or_ge q (2 ^ 52) with hlt | hge
  · obtain rfl := hk.resolve_left (by omega)
    rw [Nat.zero_mul, Nat.add_zero, if_pos hlt]
    simp
  · rw [if_neg (by omega)]
    rcases Nat.lt_or_ge q (2 ^ 53) with hlt | hge'
    · have hmod : (q + k * 2 ^ 52) % 2 ^ 52 + 2 ^ 52 = q := by omega
      have hdiv : (q + k * 2 ^ 52) / 2 ^ 52 = k + 1 := by omega
      rw [hmod, hdiv]
      congr 2
      push_cast
      ring
    · have hmod : (q + k * 2 ^ 52) % 2 ^ 52 + 2 ^ 52 = 2 ^ 52 := by omega
      have hdiv : (q + k * 2 ^ 52) / 2 ^ 52 = k + 2 := by omega
      have hpow : (2 : ℚ) ^ ((k + 2 : Nat) - 1075 : ℤ) = 2 * 2 ^ (k - 1074 : ℤ) := by
        rw [← zpow_one_add₀ (by norm_num)]
        congr 1
        push_cast
        ring
      obtain rfl : q = 2 * 2 ^ 52 := by omega
      rw [hmod, hdiv, hpow]
      push_cast
      ring

theorem exists_scale (magnitude : Nat) : ∃ q k, magnitude = q + k * 2 ^ 52 ∧ q < 2 ^ 53 ∧
    (2 ^ 52 ≤ q ∨ k = 0) := by
  rcases Nat.lt_or_ge magnitude (2 ^ 52) with hlt | hge
  · exact ⟨magnitude, 0, by omega, by omega, .inr rfl⟩
  · exact ⟨magnitude % 2 ^ 52 + 2 ^ 52, magnitude / 2 ^ 52 - 1, by omega, by omega, .inl (by omega)⟩

theorem strictMono_numberAt : StrictMono numberAt := by
  refine strictMono_nat_of_lt_succ fun magnitude => ?_
  obtain ⟨q, k, rfl, hq, hk⟩ := exists_scale magnitude
  have hnext : q + k * 2 ^ 52 + 1 = (q + 1) + k * 2 ^ 52 := by omega
  rw [hnext, numberAt_add hq.le hk, numberAt_add hq (hk.imp_left Nat.le_succ_of_le)]
  have hunit : (0 : ℚ) < 2 ^ (k - 1074 : ℤ) := by positivity
  push_cast
  linarith

theorem numberAt_zero : numberAt 0 = 0 := by
  simp [numberAt]

theorem numberAt_nonneg (magnitude : Nat) : 0 ≤ numberAt magnitude := by
  rw [← numberAt_zero]
  exact strictMono_numberAt.monotone (Nat.zero_le magnitude)

theorem nearestRung_zero : NearestRung numberAt infiniteMagnitude 0 0 := by
  refine nearestRung_low strictMono_numberAt (Nat.zero_le _) numberAt_zero.le ?_ fun _ => rfl
  rw [numberAt_zero, mul_zero, zero_add]
  exact numberAt_nonneg 1

/-- A fraction in the scale of its last place is rounded to the nearest magnitude. -/
theorem nearestRung_of_scale {numerator denominator k : Nat} (hpos : 0 < denominator)
    (hwhole : numerator / denominator < 2 ^ 53)
    (hnormal : 2 ^ 52 ≤ numerator / denominator ∨ k = 0) :
    NearestRung numberAt infiniteMagnitude (numerator / denominator * 2 ^ (k - 1074 : ℤ))
      (min (roundQuotient numerator denominator + k * 2 ^ 52) infiniteMagnitude) := by
  have hnext := numberAt_add (q := numerator / denominator + 1) hwhole
    (hnormal.imp_left Nat.le_succ_of_le)
  rw [Nat.cast_add, Nat.cast_one, Nat.add_right_comm] at hnext
  have hunbounded := nearestRung_roundQuotient strictMono_numberAt hpos (by positivity) (by omega)
    (numberAt_add hwhole.le hnormal) hnext (Nat.le_max_left _ infiniteMagnitude)
  exact hunbounded.min_top strictMono_numberAt

/-- The magnitude is rounded to nearest, a tie to even. -/
theorem nearestRung_nearestMagnitude (numerator : Nat) {denominator : Nat}
    (hpos : 0 < denominator) :
    NearestRung numberAt infiniteMagnitude (numerator / denominator)
      (nearestMagnitude numerator denominator) := by
  unfold nearestMagnitude
  split
  next hzero =>
    rw [hzero, Nat.cast_zero, zero_div]
    exact nearestRung_zero
  next hne =>
    simp only
    obtain ⟨hguess, hguess'⟩ := two_zpow_log2_le hne hpos
    obtain ⟨hlow, hhigh⟩ := floorExponent_spec Nat.two_pos hpos hguess hguess'
    rw [Nat.cast_ofNat] at hlow hhigh
    generalize floorExponent 2 _ numerator denominator = power at hlow hhigh ⊢
    have hcases : max (-1074) (power - 52) = -1074 ∨ max (-1074) (power - 52) = power - 52 :=
      max_choice _ _
    have hfloor := le_max_right (-1074) (power - 52)
    have hleast := le_max_left (-1074) (power - 52)
    generalize max (-1074) (power - 52) = unit at *
    obtain ⟨k, rfl⟩ : ∃ k : Nat, unit = k - 1074 := ⟨(unit + 1074).toNat, by omega⟩
    have hscaled := scaled_div Nat.two_pos numerator denominator (-(k - 1074))
    rw [neg_neg, Nat.cast_ofNat] at hscaled
    have hpos' : 0 < denominator * Nat.pow 2 ((k : ℤ) - 1074).toNat := by
      rw [Nat.pow_eq]
      positivity
    generalize numerator * Nat.pow 2 (-((k : ℤ) - 1074)).toNat = scaled at *
    generalize denominator * Nat.pow 2 ((k : ℤ) - 1074).toNat = scaled' at *
    have hx : (numerator / denominator : ℚ) = scaled / scaled' * 2 ^ (k - 1074 : ℤ) := by
      rw [hscaled, mul_assoc, ← zpow_add₀ two_ne_zero, neg_add_cancel, zpow_zero, mul_one]
    rw [hx] at hlow hhigh ⊢
    have hwhole : scaled / scaled' < 2 ^ 53 := by
      refine (mul_zpow_lt_iff hpos' _).mp (hhigh.trans_le ?_)
      exact zpow_le_zpow_right₀ one_le_two (by push_cast; omega)
    have hnormal : 2 ^ 52 ≤ scaled / scaled' ∨ k = 0 := by
      rcases hcases with heq | heq
      · exact .inr (by omega)
      · have hunit : (k - 1074 : ℤ) + (52 : Nat) = power := by push_cast; omega
        refine .inl (not_lt.mp fun hlt => ?_)
        have hshort := (mul_zpow_lt_iff hpos' (k - 1074)).mpr hlt
        rw [hunit] at hshort
        exact absurd hshort (not_lt.mpr hlow)
    have hshift : ((k : ℤ) - 1074 + 1074).toNat * Nat.pow 2 52 = k * 2 ^ 52 := by simp
    rw [hshift]
    exact nearestRung_of_scale hpos' hwhole hnormal

/-- Halfway from the largest finite double to the power of two that would come next. -/
def overflowBound : ℚ :=
  (2 ^ 54 - 1) * 2 ^ (970 : ℤ)

theorem numberAt_add_numberAt_infinite :
    numberAt (infiniteMagnitude - 1) + numberAt infiniteMagnitude = 2 * overflowBound := by
  have hinfinite := numberAt_add (q := 2 ^ 53) (k := 2045) le_rfl (.inl (by decide))
  have hlast := numberAt_add (q := 2 ^ 53 - 1) (k := 2045) (by decide) (.inl (by decide))
  have htop : 2 ^ 53 + 2045 * 2 ^ 52 = infiniteMagnitude := by decide
  have hbelow : 2 ^ 53 - 1 + 2045 * 2 ^ 52 = infiniteMagnitude - 1 := by decide
  have hpow : (2 : ℚ) ^ ((2045 : Nat) - 1074 : ℤ) = 2 * 2 ^ (970 : ℤ) := by
    rw [← zpow_one_add₀ (by norm_num)]
    rfl
  rw [htop, hpow] at hinfinite
  rw [hbelow, hpow] at hlast
  rw [hinfinite, hlast, overflowBound]
  generalize (2 : ℚ) ^ (970 : ℤ) = half
  push_cast
  ring

theorem eq_infiniteMagnitude_iff {x : ℚ} {n : Nat}
    (h : NearestRung numberAt infiniteMagnitude x n) :
    n = infiniteMagnitude ↔ overflowBound ≤ x := by
  have hlt : numberAt (infiniteMagnitude - 1) < numberAt infiniteMagnitude :=
    strictMono_numberAt (by decide)
  have hhalf := numberAt_add_numberAt_infinite
  constructor
  · rintro rfl
    have hmiddle := (abs_sub_le_right_iff hlt).mp (h.nearest _ (Nat.sub_le _ 1))
    linarith
  · intro hle
    by_contra hne
    have hbelow : n ≤ infiniteMagnitude - 1 := by
      have htop := h.le_top
      omega
    have hrung := strictMono_numberAt.monotone hbelow
    have hmiddle := (abs_sub_le_left_iff (hrung.trans_lt hlt)).mp (h.nearest _ le_rfl)
    have hlast : numberAt n = numberAt (infiniteMagnitude - 1) := by linarith
    obtain rfl := strictMono_numberAt.injective hlast
    have htie : |x - numberAt infiniteMagnitude| = |x - numberAt (infiniteMagnitude - 1)| :=
      ((abs_sub_eq_iff hlt).mpr (by linarith)).symm
    have heven := h.even _ le_rfl (Ne.symm hne) htie
    revert heven
    decide

theorem magnitude_ofMagnitude (negative : Bool) {n : Nat} (h : n < 2 ^ 63) :
    (ofMagnitude negative n).magnitude = n := by
  cases negative with
  | false =>
    simp only [magnitude, ofMagnitude, BitVec.toNat_ofNat, Nat.pow_eq, Bool.false_eq_true, if_false]
    omega
  | true =>
    simp only [magnitude, ofMagnitude, BitVec.toNat_ofNat, Nat.pow_eq, if_true]
    omega

theorem isNegative_ofMagnitude (negative : Bool) {n : Nat} (h : n < 2 ^ 63) :
    (ofMagnitude negative n).isNegative = negative := by
  rw [isNegative, BitVec.msb_eq_decide]
  cases negative with
  | false =>
    simp only [ofMagnitude, BitVec.toNat_ofNat, Bool.false_eq_true, if_false]
    exact decide_eq_false (by omega)
  | true =>
    simp only [ofMagnitude, BitVec.toNat_ofNat, Nat.pow_eq, if_true]
    exact decide_eq_true (by omega)

/-- A double is its sign and its magnitude. -/
theorem eq_of_magnitude {a b : Double} (hnegative : a.isNegative = b.isNegative)
    (hmagnitude : a.magnitude = b.magnitude) : a = b := by
  cases a
  cases b
  congr 1
  simp only [isNegative, magnitude, BitVec.msb_eq_decide, decide_eq_decide, Nat.pow_eq] at *
  refine BitVec.eq_of_toNat_eq ?_
  omega

theorem toRat_eq_iff {a b : Double} : a.toRat = b.toRat ↔
    a = b ∨ a.magnitude = 0 ∧ b.magnitude = 0 := by
  have hzero {n : Nat} (hn : numberAt n = 0) : n = 0 :=
    strictMono_numberAt.injective (hn.trans numberAt_zero.symm)
  have hnonneg := numberAt_nonneg a.magnitude
  have hnonneg' := numberAt_nonneg b.magnitude
  rw [toRat, toRat, absolute_eq, absolute_eq]
  constructor
  · intro h
    rcases eq_or_ne a.isNegative b.isNegative with hsign | hsign
    · left
      rw [hsign] at h
      refine eq_of_magnitude hsign (strictMono_numberAt.injective ?_)
      split at h
      next => exact neg_injective h
      next => exact h
    · right
      have hsum : numberAt a.magnitude + numberAt b.magnitude = 0 := by
        cases hb : b.isNegative with
        | false =>
          rw [hb, ne_eq, Bool.not_eq_false] at hsign
          rw [hsign, hb, if_pos rfl, if_neg Bool.false_ne_true] at h
          linarith
        | true =>
          rw [hb, ne_eq, Bool.not_eq_true] at hsign
          rw [hsign, hb, if_neg Bool.false_ne_true, if_pos rfl] at h
          linarith
      exact ⟨hzero (by linarith), hzero (by linarith)⟩
  · rintro (rfl | ⟨ha, hb⟩)
    · rfl
    · rw [ha, hb, numberAt_zero, neg_zero, ite_self, ite_self]

/-- Doubles agree when they stand for the same number. -/
theorem agrees_iff {a b : Double} : a.agrees b = true ↔
    a.isNaN = false ∧ b.isNaN = false ∧ a.toRat = b.toRat := by
  rw [toRat_eq_iff, agrees]
  simp only [Bool.and_eq_true, Bool.not_eq_true', Bool.or_eq_true, beq_iff_eq, and_assoc]

theorem isNaN_eq_false_iff {d : Double} : d.isNaN = false ↔ d.magnitude ≤ infiniteMagnitude := by
  rw [isNaN, decide_eq_false_iff_not, not_lt]

theorem isNearest_iff {x : ℚ} {d : Double} :
    IsNearest x d ↔ NearestRung numberAt infiniteMagnitude x d.magnitude := by
  have hbound : infiniteMagnitude < 2 ^ 63 := by decide
  constructor
  · rintro ⟨hnumber, hnearest, heven⟩
    have hother (n : Nat) (hn : n ≤ infiniteMagnitude) :
        (ofMagnitude false n).isNaN = false ∧ (ofMagnitude false n).magnitude = n := by
      have hmagnitude := magnitude_ofMagnitude false (hn.trans_lt hbound)
      exact ⟨isNaN_eq_false_iff.mpr (hmagnitude.trans_le hn), hmagnitude⟩
    refine ⟨isNaN_eq_false_iff.mp hnumber, fun n hn => ?_, fun n hn hne heq => ?_⟩
    · have hle := hnearest _ (hother n hn).1
      rwa [absolute_eq, absolute_eq, (hother n hn).2] at hle
    · refine heven _ (hother n hn).1 ?_ ?_
      · rwa [(hother n hn).2]
      · rwa [absolute_eq, absolute_eq, (hother n hn).2]
  · rintro ⟨htop, hnearest, heven⟩
    refine ⟨isNaN_eq_false_iff.mpr htop, fun other hnumber => ?_, fun other hnumber hne heq => ?_⟩
    · rw [absolute_eq, absolute_eq]
      exact hnearest _ (isNaN_eq_false_iff.mp hnumber)
    · rw [absolute_eq, absolute_eq] at heq
      exact heven _ (isNaN_eq_false_iff.mp hnumber) hne heq

/-- What is nearest is infinite from the bound on. -/
theorem IsNearest.isInfinite_iff {x : ℚ} {d : Double} (h : IsNearest x d) :
    d.isInfinite = true ↔ overflowBound ≤ x := by
  rw [isInfinite, beq_iff_eq]
  exact eq_infiniteMagnitude_iff (isNearest_iff.mp h)

theorem IsNearest.isFinite_eq {x : ℚ} {d : Double} (h : IsNearest x d) :
    d.isFinite = !d.isInfinite := by
  have hle := isNaN_eq_false_iff.mp h.number
  rw [isFinite, isInfinite, Bool.eq_iff_iff]
  simp only [decide_eq_true_eq, Bool.not_eq_true', beq_eq_false_iff_ne]
  omega

/-- Only one double of each sign is nearest to a number. -/
theorem IsNearest.unique {x : ℚ} {a b : Double} (ha : IsNearest x a) (hb : IsNearest x b)
    (hnegative : a.isNegative = b.isNegative) : a = b :=
  eq_of_magnitude hnegative
    (NearestRung.unique strictMono_numberAt (isNearest_iff.mp ha) (isNearest_iff.mp hb))

/-- Digits with an exponent make the nearest double. -/
theorem ofScientific_spec (negative : Bool) (digits : Nat) (exponent : ℤ) :
    (ofScientific negative digits exponent).isNegative = negative ∧
      IsNearest (digits * 10 ^ exponent) (ofScientific negative digits exponent) := by
  have hpos : 0 < Nat.pow 10 (-exponent).toNat := Nat.pow_pos (by decide)
  have hrung := nearestRung_nearestMagnitude (digits * Nat.pow 10 exponent.toNat) hpos
  have hbound : nearestMagnitude (digits * Nat.pow 10 exponent.toNat)
      (Nat.pow 10 (-exponent).toNat) < 2 ^ 63 := hrung.le_top.trans_lt (by decide)
  have hscaled := scaled_div (show 0 < 10 by decide) digits 1 exponent
  rw [one_mul, Nat.cast_one, div_one, Nat.cast_ofNat] at hscaled
  refine ⟨isNegative_ofMagnitude negative hbound, isNearest_iff.mpr ?_⟩
  rwa [ofScientific, magnitude_ofMagnitude negative hbound, ← hscaled]

/-- The sign and what it is nearest to tell the double that is made. -/
theorem eq_ofScientific_iff {negative : Bool} {digits : Nat} {exponent : ℤ} {d : Double} :
    d = ofScientific negative digits exponent ↔
      d.isNegative = negative ∧ IsNearest (digits * 10 ^ exponent) d := by
  constructor
  · rintro rfl
    exact ofScientific_spec negative digits exponent
  · rintro ⟨hnegative, hnearest⟩
    obtain ⟨hnegative', hnearest'⟩ := ofScientific_spec negative digits exponent
    exact hnearest.unique hnearest' (hnegative.trans hnegative'.symm)

end Double

end SparqlQuery
