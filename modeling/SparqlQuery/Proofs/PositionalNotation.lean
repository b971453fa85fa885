import SparqlQuery.Numeral
import SparqlQuery.UnicodeEscape
import Mathlib.Data.List.Forall2
import Mathlib.Data.Nat.Digits.Defs

namespace SparqlQuery

/-- A character that is the digit of a value in a base, letters in either case. -/
def IsDigitOf (base value : Nat) (c : Char) : Prop :=
  value < base ∧ (c = value.digitChar ∨ c = value.digitChar.toUpper)

instance {base value : Nat} {c : Char} : Decidable (IsDigitOf base value c) :=
  inferInstanceAs (Decidable (_ ∧ _))

/-- Digits of a base, the highest first, and the number that they denote together. -/
def Denotes (base : Nat) (digits : List Char) (n : Nat) : Prop :=
  ∃ values, List.Forall₂ (IsDigitOf base) values digits ∧ Nat.ofDigits base values.reverse = n

section

variable {base v n : Nat} {c : Char} {digits : List Char}

/-- Reading digits from the front on comes to the number that their values make up. -/
theorem foldl_eq_ofDigits {value : Char → Nat} {values : List Nat}
    (h : List.Forall₂ (fun v c => value c = v) values digits) (n : Nat) :
    digits.foldl (fun n c => base * n + value c) n =
      Nat.ofDigits base values.reverse + base ^ values.length * n := by
  induction h generalizing n with
  | nil => simp
  | cons hv _ ih =>
    rw [List.foldl_cons, ih, hv, Nat.ofDigits_reverse_cons, List.length_cons]
    ring

theorem Denotes.foldl_eq {value : Char → Nat} (h : Denotes base digits n)
    (hvalue : ∀ v c, IsDigitOf base v c → value c = v) :
    digits.foldl (fun n c => base * n + value c) 0 = n := by
  obtain ⟨values, hvalues, hn⟩ := h
  rw [foldl_eq_ofDigits (hvalues.imp hvalue), Nat.mul_zero, Nat.add_zero, hn]

theorem Denotes.forall_mem {p : Char → Prop} (h : Denotes base digits n)
    (hp : ∀ v c, IsDigitOf base v c → p c) : ∀ c ∈ digits, p c := by
  obtain ⟨values, hvalues, -⟩ := h
  induction hvalues with
  | nil => simp
  | cons hv _ ih => exact List.forall_mem_cons.mpr ⟨hp _ _ hv, ih⟩

theorem IsDigitOf.hex (h : IsDigitOf 16 v c) : isHexDigit c = true ∧ hexDigitValue c = v := by
  have hall : ∀ v < 16, (isHexDigit v.digitChar = true ∧ hexDigitValue v.digitChar = v) ∧
      isHexDigit v.digitChar.toUpper = true ∧ hexDigitValue v.digitChar.toUpper = v := by decide
  obtain ⟨hv, rfl | rfl⟩ := h
  · exact (hall v hv).1
  · exact (hall v hv).2

theorem Denotes.isHexDigit (h : Denotes 16 digits n) : ∀ c ∈ digits, isHexDigit c = true :=
  h.forall_mem fun _ _ hv => hv.hex.1

theorem Denotes.hexValue_eq (h : Denotes 16 digits n) : hexValue digits = n :=
  h.foldl_eq fun _ _ hv => hv.hex.2

theorem isDigitOf_ten_iff :
    IsDigitOf 10 v c ↔ c.isDigit = true ∧ c.toNat - '0'.toNat = v := by
  constructor
  · have hall : ∀ v < 10, v.digitChar.isDigit = true ∧ v.digitChar.toNat - '0'.toNat = v ∧
        v.digitChar.toUpper = v.digitChar := by decide
    rintro ⟨hv, hc⟩
    obtain ⟨hdigit, hvalue, hupper⟩ := hall v hv
    rw [hupper, or_self] at hc
    subst hc
    exact ⟨hdigit, hvalue⟩
  · rintro ⟨hc, rfl⟩
    obtain ⟨hlow, hhigh⟩ := Char.isDigit_iff_toNat.mp hc
    have hzero : '0'.toNat = 48 := rfl
    have hnine : '9'.toNat = 57 := rfl
    refine ⟨by omega, .inl (Char.toNat_inj.mp ?_)⟩
    rw [Nat.toNat_digitChar_of_lt_ten (by omega)]
    omega

theorem digitsValue_append (s t : List Char) :
    digitsValue (s ++ t) = 10 ^ t.length * digitsValue s + digitsValue t :=
  (Nat.ofDigitChars_append 0).trans Nat.ofDigitChars_eq_ofDigitChars_zero

/-- Decimal digits denote what they are read as. -/
theorem denotes_ten_iff :
    Denotes 10 digits n ↔ (∀ c ∈ digits, c.isDigit = true) ∧ digitsValue digits = n := by
  constructor
  · intro h
    exact ⟨h.forall_mem fun _ _ hv => (isDigitOf_ten_iff.mp hv).1,
      h.foldl_eq fun _ _ hv => (isDigitOf_ten_iff.mp hv).2⟩
  · rintro ⟨hdigits, rfl⟩
    have hvalues :
        List.Forall₂ (IsDigitOf 10) (digits.map fun c => c.toNat - '0'.toNat) digits := by
      rw [List.forall₂_map_left_iff, List.forall₂_same]
      exact fun c hc => isDigitOf_ten_iff.mpr ⟨hdigits c hc, rfl⟩
    refine ⟨_, hvalues, ?_⟩
    have hread := Denotes.foldl_eq ⟨_, hvalues, rfl⟩ fun _ _ hv => (isDigitOf_ten_iff.mp hv).2
    exact hread.symm

end

end SparqlQuery
