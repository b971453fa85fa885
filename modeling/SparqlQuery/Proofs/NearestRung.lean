import SparqlQuery.Numeral
import Mathlib.Algebra.Order.Field.Rat
import Mathlib.Tactic.FieldSimp
import Mathlib.Tactic.Linarith
import Mathlib.Tactic.Positivity
import Mathlib.Tactic.Ring

namespace SparqlQuery

/-- A rung of a ladder of numbers, no higher than its top, that is nearest to a number. Of two that
are equally near it is the even one. -/
structure NearestRung (height : Nat → ℚ) (top : Nat) (x : ℚ) (n : Nat) : Prop where
  le_top : n ≤ top
  nearest : ∀ other ≤ top, |x - height n| ≤ |x - height other|
  even : ∀ other ≤ top, other ≠ n → |x - height other| = |x - height n| → n % 2 = 0

section

variable {a b x : ℚ}

theorem abs_sub_le_left_iff (h : a < b) : |x - a| ≤ |x - b| ↔ 2 * x ≤ a + b := by
  rw [← sq_le_sq]
  constructor
  · intro hle
    by_contra hlt
    have hpos := mul_pos (sub_pos.mpr h) (sub_pos.mpr (not_le.mp hlt))
    linarith
  · intro hle
    have hnonneg := mul_nonneg (sub_pos.mpr h).le (sub_nonneg.mpr hle)
    linarith

theorem abs_sub_le_right_iff (h : a < b) : |x - b| ≤ |x - a| ↔ a + b ≤ 2 * x := by
  have hreflected := abs_sub_le_left_iff (x := -x) (neg_lt_neg h)
  rw [neg_sub_neg, neg_sub_neg, abs_sub_comm b, abs_sub_comm a] at hreflected
  rw [hreflected]
  constructor <;> intro hle <;> linarith

theorem abs_sub_eq_iff (h : a < b) : |x - a| = |x - b| ↔ 2 * x = a + b := by
  rw [le_antisymm_iff, abs_sub_le_left_iff h, abs_sub_le_right_iff h, ← le_antisymm_iff]

end

section

variable {height : Nat → ℚ} {top n : Nat} {x : ℚ}

/-- A rung is nearest to the numbers from halfway to the one below it up to halfway to the one above
it. -/
theorem nearestRung_of_cell (hheight : StrictMono height) (htop : n ≤ top)
    (hbelow : ∀ m, n = m + 1 → height m + height n ≤ 2 * x)
    (habove : 2 * x ≤ height n + height (n + 1))
    (heven : ∀ m, n = m + 1 → height m + height n = 2 * x → n % 2 = 0)
    (heven' : height n + height (n + 1) = 2 * x → n % 2 = 0) : NearestRung height top x n := by
  refine ⟨htop, ?_, ?_⟩
  · intro other _
    rcases Nat.lt_trichotomy other n with hlt | rfl | hlt
    · obtain ⟨m, rfl⟩ := Nat.exists_eq_add_one_of_ne_zero (Nat.ne_zero_of_lt hlt)
      have hle := hheight.monotone (Nat.le_of_lt_succ hlt)
      have hmiddle := hbelow m rfl
      rw [abs_sub_le_right_iff (hheight hlt)]
      linarith
    · exact le_rfl
    · have hle := hheight.monotone (Nat.succ_le_of_lt hlt)
      rw [abs_sub_le_left_iff (hheight hlt)]
      linarith
  · intro other _ hne heq
    rcases Nat.lt_or_gt_of_ne hne with hlt | hlt
    · obtain ⟨m, rfl⟩ := Nat.exists_eq_add_one_of_ne_zero (Nat.ne_zero_of_lt hlt)
      have hle := hheight.monotone (Nat.le_of_lt_succ hlt)
      have hmiddle := hbelow m rfl
      rw [abs_sub_eq_iff (hheight hlt)] at heq
      exact heven m rfl (by linarith)
    · have hle := hheight.monotone (Nat.succ_le_of_lt hlt)
      rw [eq_comm, abs_sub_eq_iff (hheight hlt)] at heq
      exact heven' (by linarith)

theorem nearestRung_low (hheight : StrictMono height) (htop : n ≤ top) (hlow : height n ≤ x)
    (hmiddle : 2 * x ≤ height n + height (n + 1))
    (heven : height n + height (n + 1) = 2 * x → n % 2 = 0) : NearestRung height top x n := by
  have hbelow (m : Nat) (hm : n = m + 1) : height m + height n < 2 * x := by
    have hlt := hheight (show m < n by omega)
    linarith
  exact nearestRung_of_cell hheight htop (fun m hm => (hbelow m hm).le) hmiddle
    (fun m hm heq => absurd heq (hbelow m hm).ne) heven

theorem nearestRung_high (hheight : StrictMono height) (htop : n + 1 ≤ top)
    (hhigh : x ≤ height (n + 1)) (hmiddle : height n + height (n + 1) ≤ 2 * x)
    (heven : height n + height (n + 1) = 2 * x → (n + 1) % 2 = 0) :
    NearestRung height top x (n + 1) := by
  have habove : 2 * x < height (n + 1) + height (n + 1 + 1) := by
    have hlt := hheight (Nat.lt_succ_self (n + 1))
    linarith
  refine nearestRung_of_cell hheight htop ?_ habove.le ?_ fun heq => absurd heq habove.ne'
  · rintro m ⟨⟩
    exact hmiddle
  · rintro m ⟨⟩
    exact heven

/-- What is nearest to a rung above the top is nearest to the top. -/
theorem NearestRung.min_top (h : NearestRung height (max n top) x n) (hheight : StrictMono height) :
    NearestRung height top x (min n top) := by
  rcases le_or_gt n top with hle | hlt
  · rw [Nat.max_eq_right hle] at h
    rwa [Nat.min_eq_left hle]
  · rw [Nat.min_eq_right hlt.le]
    have hmiddle := (abs_sub_le_right_iff (hheight hlt)).mp (h.nearest top (Nat.le_max_right n top))
    have hbeyond : height top < x := by
      have hlow := hheight hlt
      linarith
    have hcloser (other : Nat) (hother : other < top) : height other + height top < 2 * x := by
      have hlow := hheight hother
      linarith
    refine ⟨le_rfl, ?_, ?_⟩
    · intro other hother
      rcases hother.eq_or_lt with rfl | hother
      · exact le_rfl
      · exact (abs_sub_le_right_iff (hheight hother)).mpr (hcloser other hother).le
    · intro other hother hne heq
      have hother := Nat.lt_of_le_of_ne hother hne
      exact absurd ((abs_sub_eq_iff (hheight hother)).mp heq) (hcloser other hother).ne'

/-- No two rungs are nearest to a number. -/
theorem NearestRung.unique (hheight : StrictMono height) {m : Nat}
    (hm : NearestRung height top x m) (hn : NearestRung height top x n) : m = n := by
  wlog hlt : m < n generalizing m n
  · rcases Nat.lt_or_ge n m with hlt' | hge
    · exact (this hn hm hlt').symm
    · omega
  · have heq : |x - height m| = |x - height n| :=
      le_antisymm (hm.nearest n hn.le_top) (hn.nearest m hm.le_top)
    have hmiddle := (abs_sub_eq_iff (hheight hlt)).mp heq
    have heven := hm.even n hn.le_top hlt.ne' heq.symm
    have heven' := hn.even m hm.le_top hlt.ne heq
    have hsucc : m + 1 < n := by omega
    have hnear := (abs_sub_le_left_iff (hheight (Nat.lt_succ_self m))).mp
      (hm.nearest (m + 1) (by have := hn.le_top; omega))
    have hhigh := hheight hsucc
    linarith

end

theorem roundQuotient_cases (numerator denominator : Nat) :
    (roundQuotient numerator denominator = numerator / denominator ∧
      2 * (numerator % denominator) ≤ denominator ∧
      (2 * (numerator % denominator) = denominator → numerator / denominator % 2 = 0)) ∨
    (roundQuotient numerator denominator = numerator / denominator + 1 ∧
      denominator ≤ 2 * (numerator % denominator) ∧
      (2 * (numerator % denominator) = denominator → (numerator / denominator + 1) % 2 = 0)) := by
  unfold roundQuotient
  simp only
  split
  next => exact .inr ⟨rfl, by omega, by omega⟩
  next => exact .inl ⟨rfl, by omega, by omega⟩

/-- A fraction is rounded to the nearest of the rungs around it. -/
theorem nearestRung_roundQuotient {height : Nat → ℚ} (hheight : StrictMono height)
    {numerator denominator shift top : Nat} {unit : ℚ} (hpos : 0 < denominator) (hunit : 0 < unit)
    (hshift : shift % 2 = 0)
    (hlow : height (numerator / denominator + shift) = (numerator / denominator : Nat) * unit)
    (hhigh : height (numerator / denominator + shift + 1) =
      ((numerator / denominator : Nat) + 1) * unit)
    (htop : roundQuotient numerator denominator + shift ≤ top) :
    NearestRung height top (numerator / denominator * unit)
      (roundQuotient numerator denominator + shift) := by
  have hparts := Nat.div_add_mod numerator denominator
  have hrest := Nat.mod_lt numerator hpos
  have hround := roundQuotient_cases numerator denominator
  generalize roundQuotient numerator denominator = rounded at *
  generalize numerator / denominator = whole at *
  generalize numerator % denominator = rest at *
  have hpos' : (0 : ℚ) < denominator := mod_cast hpos
  have hx : (numerator / denominator * unit : ℚ) = whole * unit + rest * (unit / denominator) := by
    rw [← hparts]
    push_cast
    field_simp
  have hpart : (0 : ℚ) < unit / denominator := by positivity
  have hwhole : unit = denominator * (unit / denominator) := by field_simp
  rw [hx]
  generalize unit / denominator = part at *
  have htie : height (whole + shift) + height (whole + shift + 1) =
      2 * (whole * unit + rest * part) → 2 * rest = denominator := by
    intro heq
    have hdiff : (2 * rest : ℚ) * part = denominator * part := by
      rw [hlow, hhigh] at heq
      linarith
    exact_mod_cast mul_right_cancel₀ hpart.ne' hdiff
  rcases hround with ⟨rfl, hle, heven⟩ | ⟨rfl, hle, heven⟩
  · have hle' : (2 * rest : ℚ) * part ≤ denominator * part :=
      mul_le_mul_of_nonneg_right (mod_cast hle) hpart.le
    have hnonneg : (0 : ℚ) ≤ rest * part := by positivity
    refine nearestRung_low hheight htop (by linarith) (by linarith) fun heq => ?_
    have hwhole := heven (htie heq)
    omega
  · have hle' : (denominator : ℚ) * part ≤ 2 * rest * part :=
      mul_le_mul_of_nonneg_right (mod_cast hle) hpart.le
    have hlt : (rest : ℚ) * part ≤ denominator * part :=
      mul_le_mul_of_nonneg_right (mod_cast hrest.le) hpart.le
    rw [Nat.add_right_comm] at htop ⊢
    refine nearestRung_high hheight htop (by linarith) (by linarith) fun heq => ?_
    have hwhole := heven (htie heq)
    omega

end SparqlQuery
