import SparqlQuery.Proofs.LexemeCut

namespace SparqlQuery

/-- A string on one line. -/
def splitShort (quote : Char) : Splitter :=
  splitFenced [quote] (shortUnit quote)

/-- A string between triple quotes. -/
def splitLong (quote : Char) : Splitter :=
  splitFenced (List.replicate 3 quote) (longUnit quote)

theorem splitString_eq (s : List Char) :
    splitString s = (splitLong '"' s <|> splitLong '\'' s <|> splitShort '"' s <|>
      splitShort '\'' s) :=
  rfl

section

variable {quote : Char}

theorem keepsLexeme_short (quote : Char) (hquote : quote ≠ '\\') :
    KeepsLexeme (splitShort quote) := by
  intro lexeme rest rest' _ h
  have hiff := @splitFenced_eq_some_iff
  obtain ⟨content, hrun, hlexeme, -⟩ := (hiff (fits_shortUnit quote)).mp h
  exact (hiff (fits_shortUnit quote)).mpr
    ⟨content, hrun.short_quote hquote rest', hlexeme, rfl⟩

theorem keepsLexeme_long (quote : Char) (hquote : quote ≠ '\\') :
    KeepsLexeme (splitLong quote) := by
  intro lexeme rest rest' _ h
  have hiff := @splitFenced_eq_some_iff
  obtain ⟨content, hrun, hlexeme, -⟩ := (hiff (fits_longUnit quote)).mp h
  exact (hiff (fits_longUnit quote)).mpr
    ⟨content, hrun.long_fence hquote rest', hlexeme, rfl⟩

theorem splitFenced_of_ne {c : Char} (hne : quote ≠ c) (fence : List Char)
    (size : List Char → Nat) (s : List Char) :
    splitFenced (quote :: fence) size (c :: s) = none := by
  simp [splitFenced, hne]

end

theorem orElse_eq_some_iff {α : Type} {first second : Option α} {x : α} :
    (first <|> second) = some x ↔ first = some x ∨ first = none ∧ second = some x := by
  cases first <;> simp

/-- A string literal begins with its quote. -/
theorem splitString_head {s lexeme rest : List Char} (h : splitString s = some (lexeme, rest)) :
    ∃ content, lexeme = '"' :: content ∨ lexeme = '\'' :: content := by
  simp only [splitString, orElse_eq_some_iff, splitFenced_eq_some_iff (fits_longUnit _),
    splitFenced_eq_some_iff (fits_shortUnit _)] at h
  rcases h with ⟨_, -, rfl, -⟩ | ⟨-, ⟨_, -, rfl, -⟩ | ⟨-, ⟨_, -, rfl, -⟩ | ⟨-, _, -, rfl, -⟩⟩⟩
  · exact ⟨_, .inl rfl⟩
  · exact ⟨_, .inr rfl⟩
  · exact ⟨_, .inl rfl⟩
  · exact ⟨_, .inr rfl⟩

theorem orElse_eq_some_of {α : Type} {first second first' second' : Option α} {x x' : α}
    (hkeep : first = some x → first' = some x')
    (hsilent : first = none → second = some x → first' = none)
    (hnext : second = some x → second' = some x') (h : (first <|> second) = some x) :
    (first' <|> second') = some x' := by
  cases first with
  | some y =>
    rw [hkeep h]
    rfl
  | none =>
    rw [hsilent rfl h, hnext h]
    rfl

theorem quote_cases {quote : Char} (h : quote ∈ ['"', '\'']) : quote = '"' ∨ quote = '\'' := by
  simpa using h

/-- Triple quotes come before single ones. -/
theorem splitString_of_long {quote : Char} (hquote : quote ∈ ['"', '\'']) {s : List Char}
    {found : List Char × List Char} (h : splitLong quote s = some found) :
    splitString s = some found := by
  rw [splitString_eq]
  rcases quote_cases hquote with rfl | rfl
  · rw [h]
    rfl
  · obtain ⟨lexeme, rest⟩ := found
    obtain ⟨content, -, rfl, rfl⟩ := (splitFenced_eq_some_iff (fits_longUnit _)).mp h
    have hother : splitLong '"' (List.replicate 3 '\'' ++ content ++ List.replicate 3 '\'' ++ rest) =
        none := splitFenced_of_ne (by decide) _ _ _
    rw [hother, h]
    rfl

/-- A string literal is kept as long as no string in triple quotes comes up where it begins. -/
theorem splitString_cut {lexeme rest rest' : List Char} (hcut : Cut rest rest')
    (hlong : ∀ quote ∈ ['"', '\''], splitLong quote (lexeme ++ rest) = none →
      splitLong quote (lexeme ++ rest') = none)
    (h : splitString (lexeme ++ rest) = some (lexeme, rest)) :
    splitString (lexeme ++ rest') = some (lexeme, rest') := by
  have hlast := @keepsLexeme_short '\'' (by decide) lexeme rest rest' hcut
  have hother (h : splitShort '\'' (lexeme ++ rest) = some (lexeme, rest)) :
      splitShort '"' (lexeme ++ rest') = none := by
    obtain ⟨content, -, hlexeme, -⟩ := (splitFenced_eq_some_iff (fits_shortUnit '\'')).mp h
    rw [hlexeme]
    exact splitFenced_of_ne (by decide) [] _ _
  have hthird := orElse_eq_some_of (keepsLexeme_short '"' (by decide) hcut)
    (fun _ => hother) hlast
  have hsecond := orElse_eq_some_of (keepsLexeme_long '\'' (by decide) hcut)
    (fun hnone _ => hlong _ (by decide) hnone) hthird
  exact orElse_eq_some_of (keepsLexeme_long '"' (by decide) hcut)
    (fun hnone _ => hlong _ (by decide) hnone) hsecond h

/-- Content and then three quotes: what is left of a string in triple quotes once its first
three are read. -/
inductive ReachesFence (quote : Char) : List Char → Prop
  | fence {s : List Char} (h : List.replicate 3 quote <+: s) : ReachesFence quote s
  | plain {c : Char} {s : List Char} (hc : c ≠ '\\') (h : ReachesFence quote s) :
      ReachesFence quote (c :: s)
  | escape {c : Char} {s : List Char} (hc : (escapedChar? c).isSome = true)
      (h : ReachesFence quote s) : ReachesFence quote ('\\' :: c :: s)

section

variable {quote : Char} {s t : List Char}

theorem ReachesFence.of_run (h : UnitRun (longUnit quote) s t)
    (hfence : List.replicate 3 quote <+: t) : ReachesFence quote (s ++ t) := by
  induction h with
  | stop => exact .fence hfence
  | @unit c unit run rest hsize _ ih =>
    have hrest := ih hfence
    by_cases hslash : c = '\\'
    · subst hslash
      obtain ⟨d, hd, rfl⟩ := (takesEscapes_long quote).eq_letter hsize
      exact .escape hd hrest
    · rw [longUnit_plain hslash] at hsize
      split at hsize
      next => cases hsize
      next =>
        obtain rfl : unit = [] := List.eq_nil_of_length_eq_zero (by omega)
        exact .plain hslash hrest

theorem ReachesFence.splitRun (hquote : quote ≠ '\\') (h : ReachesFence quote s) :
    List.replicate 3 quote <+: (SparqlQuery.splitRun (longUnit quote) s).2 := by
  induction h with
  | fence h =>
    obtain ⟨t, rfl⟩ := h
    rw [splitRun_stop (longUnit_fence hquote t)]
    exact List.prefix_append _ t
  | @plain c s hc _ ih =>
    by_cases hfront : (List.replicate 3 quote).isPrefixOf (c :: s) = true
    · rw [splitRun_stop (by rw [longUnit_plain hc, if_pos hfront])]
      exact List.isPrefixOf_iff_prefix.mp hfront
    · have hone : longUnit quote (c :: s) = 0 + 1 := by rw [longUnit_plain hc, if_neg hfront]
      rw [splitRun_step hone]
      exact ih
  | @escape c s hc _ ih =>
    have htwo : longUnit quote ('\\' :: c :: s) = 1 + 1 := by
      rw [(takesEscapes_long quote).2, if_pos hc]
    rw [splitRun_step htwo]
    exact ih

theorem splitLong_ne_none_iff (hquote : quote ≠ '\\') :
    splitLong quote s ≠ none ↔ ∃ t, s = List.replicate 3 quote ++ t ∧ ReachesFence quote t := by
  constructor
  · intro h
    obtain ⟨⟨lexeme, rest⟩, hsplit⟩ := Option.ne_none_iff_exists'.mp h
    obtain ⟨content, hrun, rfl, rfl⟩ := (splitFenced_eq_some_iff (fits_longUnit quote)).mp hsplit
    exact ⟨content ++ (List.replicate 3 quote ++ rest), by simp,
      .of_run hrun (List.prefix_append _ rest)⟩
  · rintro ⟨t, rfl, hreach⟩
    have hfence := List.isPrefixOf_iff_prefix.mpr (hreach.splitRun hquote)
    have hfront := List.isPrefixOf_iff_prefix.mpr (List.prefix_append (List.replicate 3 quote) t)
    simp only [splitLong, splitFenced]
    rw [if_pos hfront, List.drop_left, if_pos hfence]
    exact Option.some_ne_none _

end

end SparqlQuery
