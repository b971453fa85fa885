import SparqlQuery.Decimal
import SparqlQuery.Proofs.PositionalNotation
import Mathlib.Algebra.Order.Field.Rat

namespace SparqlQuery

/-- A number with the sign in front of it. -/
def signed (sign : List Char) (n : Int) : Int :=
  if sign == ['-'] then -n else n

theorem signed_mul (sign : List Char) (m n : Int) : signed sign (m * n) = signed sign m * n := by
  unfold signed
  split
  next => exact (Int.neg_mul m n).symm
  next => rfl

namespace Decimal

/-- The number that a decimal stands for. -/
def toRat (d : Decimal) : ℚ :=
  d.digits * 10 ^ (-d.scale)

variable {a b d : Decimal} {k : Int}

/-- Moved by as many places as it has or more, a decimal is a whole number. -/
theorem toRat_mul_zpow (h : d.scale ≤ k) :
    d.toRat * 10 ^ k = (d.digits * 10 ^ (k - d.scale).toNat : Int) := by
  have hplaces : ((k - d.scale).toNat : Int) = k - d.scale := Int.toNat_of_nonneg (by omega)
  have hpow : (10 : ℚ) ^ (k - d.scale).toNat = 10 ^ (k - d.scale) := by
    rw [← zpow_natCast, hplaces]
  rw [toRat, mul_assoc, ← zpow_add₀ (by decide), neg_add_eq_sub, ← hpow]
  push_cast
  rfl

theorem toRat_eq_iff (ha : a.scale ≤ k) (hb : b.scale ≤ k) :
    a.toRat = b.toRat ↔
      a.digits * 10 ^ (k - a.scale).toNat = b.digits * 10 ^ (k - b.scale).toNat := by
  have hpow : (10 : ℚ) ^ k ≠ 0 := zpow_ne_zero k (by decide)
  rw [← mul_left_inj' hpow, toRat_mul_zpow ha, toRat_mul_zpow hb, Int.cast_inj]

theorem eq_of_toRat (hscale : a.scale = b.scale) (h : a.toRat = b.toRat) : a = b := by
  rw [toRat_eq_iff hscale.le le_rfl, hscale, sub_self, Int.toNat_zero, pow_zero, mul_one,
    mul_one] at h
  cases a
  cases b
  exact congrArg₂ Decimal.mk h hscale

/-- Decimals agree when they stand for the same number. -/
theorem agrees_iff : a.agrees b = true ↔ a.toRat = b.toRat := by
  rw [toRat_eq_iff (le_max_left a.scale b.scale) (le_max_right a.scale b.scale), agrees, beq_iff_eq]
  have ha : (b.scale - a.scale).toNat = (max a.scale b.scale - a.scale).toNat := by omega
  have hb : (a.scale - b.scale).toNat = (max a.scale b.scale - b.scale).toNat := by omega
  rw [ha, hb]
  rfl

/-- The digits around a point denote a whole number, divided by ten for each place. -/
theorem toRat_ofDigits {sign whole fraction : List Char} {n : Nat}
    (hn : Denotes 10 (whole ++ fraction) n) :
    (ofDigits (sign == ['-']) whole fraction).toRat = signed sign n / 10 ^ fraction.length := by
  obtain ⟨-, rfl⟩ := denotes_ten_iff.mp hn
  cases fraction with
  | nil =>
    have hzero : digitsValue (whole ++ ['0']) = digitsValue whole * 10 := by
      simp [digitsValue, mul_comm]
    have hdigits : ofDigits (sign == ['-']) whole [] =
        ⟨signed sign (digitsValue (whole ++ ['0']) : Nat), 1⟩ := rfl
    rw [hdigits, toRat, List.append_nil, hzero, Nat.cast_mul, signed_mul, Int.cast_mul, mul_assoc]
    norm_num
  | cons c fraction =>
    have hdigits : ofDigits (sign == ['-']) whole (c :: fraction) =
        ⟨signed sign (digitsValue (whole ++ c :: fraction)), (c :: fraction).length⟩ := rfl
    rw [hdigits, toRat, zpow_neg, zpow_natCast, div_eq_mul_inv]

end Decimal

end SparqlQuery
