import SparqlQuery.Lexeme

namespace SparqlQuery

/-- A splitter that only ever takes a first part, never an empty one. -/
def Splits (split : Splitter) : Prop :=
  ∀ s lexeme rest, split s = some (lexeme, rest) → lexeme ++ rest = s ∧ lexeme ≠ []

theorem splits_variable : Splits splitVariable := by
  intro s lexeme rest h
  unfold splitVariable at h
  split at h
  next =>
    split at h <;> simp at h
    obtain ⟨rfl, rfl⟩ := h
    simp
  next => simp at h

theorem splits_iri : Splits splitIri := by
  intro s lexeme rest h
  unfold splitIri at h
  split at h
  next t =>
    split at h
    next tail heq =>
      simp at h
      obtain ⟨rfl, rfl⟩ := h
      have := List.takeWhile_append_dropWhile (p := isIriChar) (l := t)
      simp [← heq]
    next => simp at h
  next => simp at h

theorem splitLabel_append (s : List Char) : (splitLabel s).1 ++ (splitLabel s).2 = s := by
  cases s with
  | nil => rfl
  | cons c s =>
    simp only [splitLabel]
    split <;> simp

theorem splits_namespace : Splits splitNamespace := by
  intro s lexeme rest h
  unfold splitNamespace at h
  split at h
  next label tail heq =>
    simp at h
    obtain ⟨rfl, rfl⟩ := h
    have := splitLabel_append s
    simp [heq] at this
    simp [this]
  next => simp at h

theorem splitLocal_append {s lexeme rest : List Char} (h : splitLocal s = some (lexeme, rest)) :
    lexeme ++ rest = s := by
  cases s with
  | nil => simp [splitLocal] at h
  | cons c s =>
    have hrun := splitRun_append localUnit (c :: s)
    simp only [splitLocal] at h
    split at h
    next =>
      split at h
      next => simp at h
      next => simp at h
      next heq =>
        simp at h
        obtain ⟨rfl, rfl⟩ := h
        simpa [heq] using hrun
    next => simp at h

theorem splits_prefixedName : Splits splitPrefixedName := by
  intro s lexeme rest h
  unfold splitPrefixedName at h
  split at h
  next => simp at h
  next name tail hname =>
    split at h
    next => simp at h
    next run rest' hrun =>
      simp at h
      obtain ⟨rfl, rfl⟩ := h
      have := splits_namespace _ _ _ hname
      have := splitLocal_append hrun
      simp_all

theorem splits_fenced (q : Char) (more : List Char) (size : List Char → Nat) :
    Splits (splitFenced (q :: more) size) := by
  intro s lexeme rest h
  simp only [splitFenced] at h
  split at h
  next hfront =>
    split at h
    next hback =>
      simp only [Option.some.injEq, Prod.mk.injEq] at h
      obtain ⟨rfl, rfl⟩ := h
      obtain ⟨t, rfl⟩ := List.isPrefixOf_iff_prefix.mp hfront
      obtain ⟨u, hu⟩ := List.isPrefixOf_iff_prefix.mp hback
      have ht := splitRun_append size t
      simp only [List.drop_left] at hu ⊢
      generalize splitRun size t = parts at hu ht ⊢
      obtain ⟨content, tail⟩ := parts
      subst hu
      rw [List.drop_left]
      exact ⟨by simp [← ht], by simp⟩
    next => simp at h
  next => simp at h

theorem Splits.orElse {first second : Splitter} (h : Splits first) (k : Splits second) :
    Splits fun s => first s <|> second s := by
  intro s lexeme rest hs
  cases hf : first s with
  | none => simp [hf] at hs; exact k _ _ _ hs
  | some found =>
    simp [hf] at hs
    subst hs
    exact h _ _ _ hf

theorem splits_string : Splits splitString :=
  (splits_fenced _ _ _).orElse <| (splits_fenced _ _ _).orElse <|
    (splits_fenced _ _ _).orElse (splits_fenced _ _ _)

theorem splits_blankLabel : Splits splitBlankLabel := by
  intro s lexeme rest h
  unfold splitBlankLabel at h
  split at h
  next c t =>
    split at h
    next =>
      simp at h
      obtain ⟨rfl, rfl⟩ := h
      simp
    next => simp at h
  next => simp at h

theorem splits_langTag : Splits splitLangTag := by
  intro s lexeme rest h
  unfold splitLangTag at h
  split at h
  next c t =>
    split at h
    next =>
      simp at h
      obtain ⟨rfl, rfl⟩ := h
      simp
    next => simp at h
  next => simp at h

theorem splitSign_append (s : List Char) : (splitSign s).1 ++ (splitSign s).2 = s := by
  cases s with
  | nil => rfl
  | cons c s =>
    simp only [splitSign]
    split <;> simp

theorem splitExponent_append (s : List Char) :
    (splitExponent s).1 ++ (splitExponent s).2 = s := by
  cases s with
  | nil => rfl
  | cons c s =>
    have := splitSign_append s
    simp only [splitExponent]
    split <;> simp [this]

theorem splits_mantissa : Splits splitMantissa := by
  intro s lexeme rest h
  have hs := List.takeWhile_append_dropWhile (p := Char.isDigit) (l := s)
  unfold splitMantissa at h
  simp only at h
  split at h
  next t heq =>
    split at h
    next => simp at h
    next =>
      simp at h
      obtain ⟨rfl, rfl⟩ := h
      rw [heq] at hs
      simp [hs]
  next =>
    split at h
    next => simp at h
    next hne =>
      simp only [Option.some.injEq, Prod.mk.injEq] at h
      simp only [List.isEmpty_iff] at hne
      obtain ⟨rfl, rfl⟩ := h
      exact ⟨hs, hne⟩

theorem splits_number : Splits splitNumber := by
  intro s lexeme rest h
  have hs := splitSign_append s
  simp only [splitNumber] at h
  split at h
  next => simp at h
  next mantissa t hm =>
    obtain ⟨ht, hne⟩ := splits_mantissa _ _ _ hm
    have he := splitExponent_append t
    simp at h
    obtain ⟨rfl, rfl⟩ := h
    simp [he, ht, hs, hne]

theorem splits_symbol {symbols : List (List Char)} (h : [] ∉ symbols) :
    Splits (splitSymbol symbols) := by
  intro s lexeme rest hs
  simp only [splitSymbol, Option.map_eq_some_iff, Prod.mk.injEq] at hs
  obtain ⟨symbol, hfind, rfl, rfl⟩ := hs
  have hmem := List.mem_of_find?_eq_some hfind
  have hfront := List.find?_some hfind
  obtain ⟨t, rfl⟩ := List.isPrefixOf_iff_prefix.mp hfront
  refine ⟨by simp, ?_⟩
  rintro rfl
  exact h hmem

theorem Splits.atWordEnd {split : Splitter} (h : Splits split) :
    Splits fun s => SparqlQuery.atWordEnd (split s) := by
  intro s lexeme rest hs
  exact h _ _ _ (Option.filter_eq_some_iff.mp hs).1

theorem splits_boolean : Splits splitBoolean :=
  (splits_symbol (by decide)).atWordEnd

theorem lookupKeyword_empty : lookupKeyword "" = none := by
  decide +kernel

theorem splits_keyword : Splits splitKeyword := by
  intro s lexeme rest h
  simp only [splitKeyword] at h
  split at h
  next hword =>
    have := (Option.filter_eq_some_iff.mp h).1
    simp at this
    obtain ⟨rfl, rfl⟩ := this
    refine ⟨List.takeWhile_append_dropWhile, ?_⟩
    intro hempty
    rw [hempty] at hword
    have : String.ofList [] = "" := rfl
    simp [this, lookupKeyword_empty] at hword
  next => simp at h

theorem splits_empty (opening closing : Char) : Splits (splitEmpty opening closing) := by
  intro s lexeme rest h
  unfold splitEmpty at h
  split at h
  next => simp at h
  next c t =>
    have ht := List.takeWhile_append_dropWhile (p := isBlank) (l := t)
    split at h
    next => simp at h
    next d u heq =>
      split at h <;> simp at h
      obtain ⟨rfl, rfl⟩ := h
      simp [← heq]

theorem splits_blankNode : Splits splitBlankNode :=
  splits_blankLabel.orElse (splits_empty _ _)

theorem Kind.splits (kind : Kind) : Splits kind.split := by
  cases kind
  · exact splits_variable
  · exact splits_iri
  · exact splits_prefixedName
  · exact splits_namespace
  · exact splits_string
  · exact splits_langTag
  · exact splits_number
  · exact splits_boolean
  · exact splits_blankNode
  · exact splits_empty _ _
  · exact splits_keyword
  · exact splits_symbol (by decide)
  · exact splits_symbol (by decide)

theorem Kind.scan_eq_some_iff {kind : Kind} {fresh : UInt32} {s lexeme rest : List Char}
    {value : Value} : kind.scan fresh s = some (value, lexeme, rest) ↔
      kind.split s = some (lexeme, rest) ∧ kind.value? fresh lexeme = some value := by
  unfold scan
  constructor
  · intro h
    split at h
    next => cases h
    next hsplit =>
      simp only [Option.map_eq_some_iff, Prod.mk.injEq] at h
      obtain ⟨_, hvalue, rfl, rfl, rfl⟩ := h
      exact ⟨hsplit, hvalue⟩
  · rintro ⟨hsplit, hvalue⟩
    simp [hsplit, hvalue]

theorem scanLexeme_append {fresh : UInt32} {s lexeme rest : List Char} {kind : Kind}
    {value : Value} (h : scanLexeme fresh s = some (kind, value, lexeme, rest)) :
    lexeme ++ rest = s ∧ lexeme ≠ [] := by
  unfold scanLexeme at h
  split at h
  next => simp at h
  next k hk =>
    simp only [Option.map_eq_some_iff, Prod.mk.injEq, Prod.exists] at h
    obtain ⟨_, _, _, hscan, rfl, rfl, rfl, rfl⟩ := h
    exact k.splits _ _ _ (Kind.scan_eq_some_iff.mp hscan).1

end SparqlQuery
