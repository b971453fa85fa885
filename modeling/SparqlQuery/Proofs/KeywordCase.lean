import SparqlQuery.Proofs.KeywordTable
import Mathlib.Data.List.Forall2

namespace SparqlQuery

/-- The second character is the first one as a small or as a capital letter. Outside the letters of
ASCII both are the character itself. -/
def SameLetter (c d : Char) : Prop :=
  d = c.toLower ∨ d = c.toUpper

instance : DecidableRel SameLetter := fun c d =>
  inferInstanceAs (Decidable (d = c.toLower ∨ d = c.toUpper))

/-- Two words that differ in the case of their letters at most. -/
def SameLetters (word other : String) : Prop :=
  List.Forall₂ SameLetter word.toList other.toList

instance : DecidableRel SameLetters := fun word other =>
  inferInstanceAs (Decidable (List.Forall₂ SameLetter word.toList other.toList))

/-- Only letters below 123 have two cases, and each of them is one of its two. -/
theorem letterCases (c : Char) : c.toLower.toLower = c.toLower ∧ c.toUpper.toLower = c.toLower ∧
    c.toLower.toUpper = c.toUpper ∧ (c = c.toLower ∨ c = c.toUpper) := by
  have hall : ∀ n < 123, (Char.ofNat n).toLower.toLower = (Char.ofNat n).toLower ∧
      (Char.ofNat n).toUpper.toLower = (Char.ofNat n).toLower ∧
      (Char.ofNat n).toLower.toUpper = (Char.ofNat n).toUpper ∧
      (Char.ofNat n = (Char.ofNat n).toLower ∨ Char.ofNat n = (Char.ofNat n).toUpper) := by decide
  rcases Nat.lt_or_ge c.toNat 123 with hlt | hge
  · have hc := hall c.toNat hlt
    rwa [Char.ofNat_toNat] at hc
  · have hbeyond (d : Char) (hd : d.toNat < 123) : ¬ c.val ≤ d.val := by
      intro h
      have hle : c.toNat ≤ d.toNat := UInt32.le_iff_toNat_le.mp h
      omega
    have hlower : c.toLower = c := dif_neg fun h => hbeyond 'Z' (by decide) h.2
    have hupper : c.toUpper = c := dif_neg fun h => hbeyond 'z' (by decide) h.2
    simp only [hlower, hupper, true_or, and_self]

theorem sameLetter_iff {c d : Char} : SameLetter c d ↔ c.toLower = d.toLower := by
  obtain ⟨hlower, hupper, hcapital, -⟩ := letterCases c
  constructor
  · rintro (rfl | rfl)
    · exact hlower.symm
    · exact hupper.symm
  · intro h
    obtain ⟨-, -, hcapital', hd | hd⟩ := letterCases d
    · exact .inl (hd.trans h.symm)
    · right
      calc d = d.toLower.toUpper := by rw [hcapital', ← hd]
        _ = c.toUpper := by rw [← h, hcapital]

/-- The sign of the kelvin is no letter of ASCII, although it looks like one. -/
example : ¬ SameLetter '\u212a' 'k' := by decide

section

variable {word other : String}

theorem sameLetters_iff :
    SameLetters word other ↔ word.map Char.toLower = other.map Char.toLower := by
  rw [← String.toList_inj, String.toList_map, String.toList_map, ← List.forall₂_eq_eq_eq,
    List.forall₂_map_left_iff, List.forall₂_map_right_iff]
  constructor
  · exact fun h => h.imp fun _ _ => sameLetter_iff.mp
  · exact fun h => h.imp fun _ _ => sameLetter_iff.mpr

theorem SameLetters.symm (h : SameLetters word other) : SameLetters other word :=
  sameLetters_iff.mpr (sameLetters_iff.mp h).symm

/-- The one keyword that can have the letters of a word is that word in lower case. -/
theorem sameLetters_keyword_iff {entry : String} (h : entry ∈ keywords) :
    SameLetters word entry ↔ entry = word.map Char.toLower := by
  have hsmall : entry.map Char.toLower = entry :=
    map_toLower_keyword (mem_keywordTexts_iff.mpr (.inr h))
  rw [sameLetters_iff, hsmall, eq_comm]

theorem isSome_lookupKeyword_iff :
    (lookupKeyword word).isSome = true ↔
      word = "a" ∨ ∃ entry ∈ keywords, SameLetters word entry := by
  rw [Option.isSome_iff_exists]
  constructor
  · rintro ⟨entry, hentry⟩
    rcases lookupKeyword_eq_some_iff.mp hentry with ⟨hword, -⟩ | ⟨hmem, hlower⟩
    · exact .inl hword
    · exact .inr ⟨entry, hmem, (sameLetters_keyword_iff hmem).mpr hlower⟩
  · rintro (hword | ⟨entry, hmem, hsame⟩)
    · exact ⟨"a", lookupKeyword_eq_some_iff.mpr (.inl ⟨hword, rfl⟩)⟩
    · have hlower := (sameLetters_keyword_iff hmem).mp hsame
      exact ⟨entry, lookupKeyword_eq_some_iff.mpr (.inr ⟨hmem, hlower⟩)⟩

theorem eq_of_sameLetters_a (h : SameLetters "a" other) : other = "a" ∨ other = "A" := by
  obtain ⟨d, rest, hd, hnil, hother⟩ := List.forall₂_cons_left_iff.mp h
  obtain rfl := List.forall₂_nil_left_iff.mp hnil
  rcases hd with rfl | rfl
  · exact .inl (String.toList_inj.mp hother)
  · exact .inr (String.toList_inj.mp hother)

theorem lookupKeyword_congr (h : SameLetters word other) (hword : word ≠ "a")
    (hother : other ≠ "a") : lookupKeyword word = lookupKeyword other := by
  rw [lookupKeyword, lookupKeyword, if_neg hword, if_neg hother, sameLetters_iff.mp h]

/-- As a capital `a` is no keyword. -/
theorem lookupKeyword_a_ne : lookupKeyword "a" ≠ lookupKeyword "A" := by
  decide +kernel

theorem lookupKeyword_ne_iff (h : SameLetters word other) :
    lookupKeyword word ≠ lookupKeyword other ↔
      word = "a" ∧ other = "A" ∨ word = "A" ∧ other = "a" := by
  constructor
  · intro hne
    by_cases hword : word = "a"
    · subst hword
      rcases eq_of_sameLetters_a h with rfl | rfl
      · exact absurd rfl hne
      · exact .inl ⟨rfl, rfl⟩
    · by_cases hother : other = "a"
      · subst hother
        exact .inr ⟨(eq_of_sameLetters_a h.symm).resolve_left hword, rfl⟩
      · exact absurd (lookupKeyword_congr h hword hother) hne
  · rintro (⟨rfl, rfl⟩ | ⟨rfl, rfl⟩)
    · exact lookupKeyword_a_ne
    · exact lookupKeyword_a_ne.symm

end

/-- What is looked up is found if and only if it is `a` or has the letters of an entry of the table,
in any case, and what is found is in small letters. Words with the same letters are looked up alike,
but for `a` and `A`. -/
theorem lookupKeyword_ignores_case (word : String) :
    (∀ entry, lookupKeyword word = some entry ↔
      word = "a" ∧ entry = "a" ∨ entry ∈ keywords ∧ entry = word.map Char.toLower) ∧
    ((lookupKeyword word).isSome = true ↔
      word = "a" ∨ ∃ entry ∈ keywords, SameLetters word entry) ∧
    ∀ other, SameLetters word other →
      (lookupKeyword word ≠ lookupKeyword other ↔
        word = "a" ∧ other = "A" ∨ word = "A" ∧ other = "a") :=
  ⟨fun _ => lookupKeyword_eq_some_iff, isSome_lookupKeyword_iff, fun _ => lookupKeyword_ne_iff⟩

/-- A keyword that goes on where another one ends. -/
theorem groupConcat_found :
    SameLetters "Group_Concat" "gROUP_cONCAT" ∧
      lookupKeyword "Group_Concat" = some "group_concat" ∧
      lookupKeyword "Group_Concat" = lookupKeyword "gROUP_cONCAT" := by
  have hsame : SameLetters "Group_Concat" "gROUP_cONCAT" := by decide
  have hentry : "group_concat" ∈ keywords ∧ "group_concat" = "Group_Concat".map Char.toLower := by
    decide +kernel
  obtain ⟨hfound, -, hcase⟩ := lookupKeyword_ignores_case "Group_Concat"
  refine ⟨hsame, (hfound "group_concat").mpr (.inr hentry), ?_⟩
  by_contra hne
  have hexception := (hcase "gROUP_cONCAT" hsame).mp hne
  exact absurd hexception (by decide)

end SparqlQuery
