import SparqlQuery.SymbolLexeme
import Mathlib.Data.List.Chain

namespace SparqlQuery

/-- What halving finds is the word itself, and it stands in the table. -/
theorem bisect_eq_some {table : Array String} {word entry : String} {low high : Nat}
    (h : bisect table word low high = some entry) : entry = word ∧ entry ∈ table.toList := by
  fun_induction bisect table word low high with
  | case1 => cases h
  | case2 low high hlow hentry =>
    cases h
    exact ⟨rfl, Array.mem_toList_iff.mpr (Array.mem_of_getElem? hentry)⟩
  | case3 low high hlow middle hentry hne hlt ih => exact ih h
  | case4 low high hlow middle hentry hne hge ih => exact ih h
  | case5 => cases h

/-- Halving finds each word of an increasing table. -/
theorem bisect_of_mem {table : Array String} {word : String} {low high place : Nat}
    (hsorted : table.toList.Pairwise (· < ·)) (hword : table[place]? = some word)
    (hhigh : high ≤ table.size) (hle : low ≤ place) (hlt : place < high) :
    bisect table word low high = some word := by
  have hbefore {i j : Nat} {a b : String} (hij : i < j) (ha : table[i]? = some a)
      (hb : table[j]? = some b) : a < b := by
    obtain ⟨hi, rfl⟩ := Array.getElem?_eq_some_iff.mp ha
    obtain ⟨hj, rfl⟩ := Array.getElem?_eq_some_iff.mp hb
    exact List.pairwise_iff_getElem.mp hsorted i j hi hj hij
  fun_induction bisect table word low high with
  | case1 low high hlow hnone =>
    rw [Array.getElem?_eq_none_iff] at hnone
    omega
  | case2 => rfl
  | case3 low high hlow middle hmiddle hne hsmaller ih =>
    refine ih (by omega) hle ?_
    rcases Nat.lt_trichotomy place ((low + high) / 2) with h | h | h
    · exact h
    · rw [← h, hword] at hmiddle
      exact absurd (Option.some.inj hmiddle) hne
    · exact absurd (hbefore h hmiddle hword) (String.lt_asymm hsmaller)
  | case4 low high hlow middle hmiddle hne hnot ih =>
    refine ih hhigh ?_ hlt
    rcases Nat.lt_trichotomy place ((low + high) / 2) with h | h | h
    · exact absurd (hbefore h hword hmiddle) hnot
    · rw [← h, hword] at hmiddle
      exact absurd (Option.some.inj hmiddle) hne
    · exact h
  | case5 low high hlow => omega

/-- Halving an increasing table yields a word if and only if the word stands in it. -/
theorem bisect_eq_some_iff {table : Array String} {word entry : String}
    (hsorted : table.toList.Pairwise (· < ·)) :
    bisect table word 0 table.size = some entry ↔ entry ∈ table ∧ entry = word := by
  constructor
  · intro h
    obtain ⟨hword, hmem⟩ := bisect_eq_some h
    exact ⟨Array.mem_toList_iff.mp hmem, hword⟩
  · rintro ⟨hmem, rfl⟩
    obtain ⟨place, hplace, hentry⟩ := Array.mem_iff_getElem.mp hmem
    exact bisect_of_mem hsorted (Array.getElem?_eq_some_iff.mpr ⟨hplace, hentry⟩) le_rfl
      (Nat.zero_le _) hplace

/-- The words that the lookup of a word may yield. -/
def keywordTexts : List String :=
  "a" :: keywords.toList

theorem mem_keywordTexts_iff {entry : String} :
    entry ∈ keywordTexts ↔ entry = "a" ∨ entry ∈ keywords := by
  rw [keywordTexts, List.mem_cons, Array.mem_toList_iff]

/-- The table is in order. Keywords begin with a letter and hold nothing but small letters,
digits and underscores. -/
theorem keywords_wellFormed : keywords.toList.IsChain (· < ·) ∧ ∀ entry ∈ keywordTexts,
    entry.toList.all (fun c => isWordChar c && !c.isUpper) = true ∧
      entry.toList.head?.any Char.isAlpha = true := by
  decide +kernel

theorem chars_of_keyword {entry : String} (h : entry ∈ keywordTexts) :
    entry.toList.all isWordChar = true ∧ entry.toList.head?.any Char.isAlpha = true := by
  obtain ⟨hchars, hhead⟩ := keywords_wellFormed.2 entry h
  refine ⟨List.all_eq_true.mpr fun c hc => ?_, hhead⟩
  exact (Bool.and_eq_true_iff.mp (List.all_eq_true.mp hchars c hc)).1

theorem toLower_of_not_upper {c : Char} (h : c.isUpper = false) : c.toLower = c :=
  dif_neg (of_decide_eq_false h)

theorem toLower_of_not_alpha {c : Char} (h : c.isAlpha = false) : c.toLower = c :=
  toLower_of_not_upper (Bool.or_eq_false_iff.mp h).1

theorem map_toLower_keyword {entry : String} (h : entry ∈ keywordTexts) :
    entry.map Char.toLower = entry := by
  have hchars := List.all_eq_true.mp (keywords_wellFormed.2 entry h).1
  have hsmall (c : Char) (hc : c ∈ entry.toList) : c.toLower = c :=
    toLower_of_not_upper (by simpa using (Bool.and_eq_true_iff.mp (hchars c hc)).2)
  rw [← String.toList_inj, String.toList_map, List.map_congr_left hsmall, List.map_id']

theorem lookupKeyword_eq_some_iff {word entry : String} :
    lookupKeyword word = some entry ↔
      word = "a" ∧ entry = "a" ∨ entry ∈ keywords ∧ entry = word.map Char.toLower := by
  unfold lookupKeyword
  split
  next hword =>
    have hlower : word.map Char.toLower = "a" := by
      rw [hword]
      exact map_toLower_keyword List.mem_cons_self
    rw [hlower, Option.some.injEq]
    constructor
    · rintro rfl
      exact .inl ⟨hword, rfl⟩
    · rintro (⟨-, rfl⟩ | ⟨-, rfl⟩) <;> rfl
  next hword =>
    rw [bisect_eq_some_iff keywords_wellFormed.1.pairwise]
    simp [hword]

theorem lookupKeyword_eq_some {word entry : String} (h : lookupKeyword word = some entry) :
    entry ∈ keywordTexts ∧ (word = entry ∨ word.map Char.toLower = entry) := by
  rcases lookupKeyword_eq_some_iff.mp h with ⟨rfl, rfl⟩ | ⟨hmem, rfl⟩
  · exact ⟨List.mem_cons_self, .inl rfl⟩
  · exact ⟨mem_keywordTexts_iff.mpr (.inr hmem), .inr rfl⟩

/-- A keyword in the case of the table is found as it stands. -/
theorem lookupKeyword_self {entry : String} (h : entry ∈ keywordTexts) :
    lookupKeyword entry = some entry := by
  rw [lookupKeyword_eq_some_iff]
  rcases mem_keywordTexts_iff.mp h with rfl | hmem
  · exact .inl ⟨rfl, rfl⟩
  · exact .inr ⟨hmem, (map_toLower_keyword h).symm⟩

theorem isAlpha_of_lookupKeyword {c : Char} {word : List Char}
    (h : (lookupKeyword (String.ofList (c :: word))).isSome = true) : c.isAlpha = true := by
  obtain ⟨entry, hentry⟩ := Option.isSome_iff_exists.mp h
  obtain ⟨hmem, hword⟩ := lookupKeyword_eq_some hentry
  have hhead := (chars_of_keyword hmem).2
  rcases hword with rfl | rfl
  · simpa using hhead
  · cases hc : c.isAlpha with
    | true => rfl
    | false => simp [toLower_of_not_alpha hc, hc] at hhead

end SparqlQuery
