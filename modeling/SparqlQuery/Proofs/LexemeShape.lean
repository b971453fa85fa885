import SparqlQuery.LexemeSplit
import SparqlQuery.Proofs.RunCut

namespace SparqlQuery

section

variable {s lexeme rest : List Char}

theorem splitVariable_eq_some_iff :
    splitVariable s = some (lexeme, rest) ↔ ∃ sigil c name, (sigil = '?' ∨ sigil = '$') ∧
      isVariableStart c = true ∧ (∀ d ∈ name, isVariableChar d = true) ∧
      StopsAt isVariableChar rest ∧ lexeme = sigil :: c :: name ∧ s = lexeme ++ rest := by
  constructor
  · intro h
    have happ := (splits_variable s lexeme rest h).1
    fun_cases splitVariable s with
    | case1 sigil c t hstart =>
      simp only [splitVariable, hstart, if_true, Option.some.injEq, Prod.mk.injEq] at h
      obtain ⟨rfl, rfl⟩ := h
      simp only [Bool.and_eq_true, Bool.or_eq_true, beq_iff_eq] at hstart
      exact ⟨sigil, c, _, hstart.1, hstart.2, fun d hd => List.mem_takeWhile_imp hd,
        stopsAt_dropWhile _ t, rfl, happ.symm⟩
    | case2 sigil c t hstart => simp [splitVariable, hstart] at h
    | case3 t hshort => simp [splitVariable] at h
  · rintro ⟨sigil, c, name, hsigil, hstart, hname, hstops, rfl, rfl⟩
    have hfront : (sigil == '?' || sigil == '$') = true := by simpa using hsigil
    simp [splitVariable, hfront, hstart, hstops.takeWhile_append hname,
      hstops.dropWhile_append hname]

theorem splitIri_eq_some_iff :
    splitIri s = some (lexeme, rest) ↔ ∃ content, (∀ c ∈ content, isIriChar c = true) ∧
      lexeme = '<' :: (content ++ ['>']) ∧ s = lexeme ++ rest := by
  constructor
  · intro h
    have happ := (splits_iri s lexeme rest h).1
    unfold splitIri at h
    split at h
    next t =>
      split at h
      next tail hdrop =>
        simp only [Option.some.injEq, Prod.mk.injEq] at h
        obtain ⟨rfl, rfl⟩ := h
        exact ⟨_, fun c hc => List.mem_takeWhile_imp hc, rfl, happ.symm⟩
      next => cases h
    next => cases h
  · rintro ⟨content, hcontent, rfl, rfl⟩
    have hstops : StopsAt isIriChar ('>' :: rest) := stopsAt_cons (by decide) rest
    have htake := hstops.takeWhile_append hcontent
    have hdrop := hstops.dropWhile_append hcontent
    simp [splitIri, htake, hdrop]

/-- The label in front of a colon: nothing, or a letter and a run with dots. -/
def IsLabel (label : List Char) : Prop :=
  ∀ c name, label = c :: name →
    isNameBase c = true ∧ UnitRun (dottedUnit isNameChar) name [':']

theorem dottedUnit_colon (s : List Char) : dottedUnit isNameChar (':' :: s) = 0 := by
  rw [dottedUnit_of_ne_dot (by decide)]
  decide

theorem splitNamespace_eq_some_iff :
    splitNamespace s = some (lexeme, rest) ↔ ∃ label, IsLabel label ∧ lexeme = label ++ [':'] ∧
      s = lexeme ++ rest := by
  constructor
  · intro h
    have happ := (splits_namespace s lexeme rest h).1
    unfold splitNamespace at h
    split at h
    next label tail hlabel =>
      simp only [Option.some.injEq, Prod.mk.injEq] at h
      obtain ⟨rfl, rfl⟩ := h
      refine ⟨label, ?_, rfl, happ.symm⟩
      rintro c name rfl
      cases s with
      | nil => cases hlabel
      | cons d t =>
        simp only [splitLabel] at hlabel
        split at hlabel
        next hd =>
          simp only [Prod.mk.injEq, List.cons.injEq] at hlabel
          obtain ⟨⟨rfl, hname⟩, htail⟩ := hlabel
          have hrun := unitRun_splitRun (fits_dottedUnit isNameChar) t
          rw [hname, htail] at hrun
          exact ⟨hd, hrun.dotted_stop (dottedUnit_colon [])⟩
        next => cases hlabel
    next => cases h
  · rintro ⟨label, hlabel, rfl, rfl⟩
    cases label with
    | nil => simp [splitNamespace, splitLabel, show isNameBase ':' = false by decide]
    | cons c name =>
      obtain ⟨hc, hname⟩ := hlabel c name rfl
      have hrun := (hname.dotted_stop (dottedUnit_colon rest)).splitRun_eq
      simp [splitNamespace, splitLabel, hc, hrun]

/-- The characters that a local name may begin with, those of escapes included. -/
def isLocalLead (c : Char) : Bool :=
  isLocalStart c || isEscapeMark c

theorem blankFree_localLead : BlankFree isLocalLead :=
  blankFree_of (by decide) (by decide) (by decide) (by decide)

theorem isLocalChar_of_start {c : Char} (hc : isLocalStart c = true) : isLocalChar c = true := by
  simp only [isLocalStart, isLocalChar, isNameChar, Bool.or_eq_true] at hc ⊢
  rcases hc with (hc | hc) | hc <;> simp [hc]

theorem localUnit_of_localChar {c : Char} (hc : isLocalChar c = true) (s : List Char) :
    localUnit (c :: s) = 1 := by
  rw [localUnit_plain (ne_of_class hc (by decide)) (ne_of_class hc (by decide))
    (ne_of_class hc (by decide)), if_pos hc]

theorem splitLocal_of_run {c : Char} {t run : List Char} (hlead : isLocalLead c = true)
    (hrun : splitRun localUnit (c :: t) = (run, rest)) (hescape : NoLocalEscape rest) :
    splitLocal (c :: t) = some (run, rest) := by
  simp only [isLocalLead, isEscapeMark, ← Bool.or_assoc] at hlead
  simp only [splitLocal, hlead, if_true, hrun]
  split
  next h =>
    cases h
    exact absurd (hescape '%' rfl) (by decide)
  next h =>
    cases h
    exact absurd (hescape '\\' rfl) (by decide)
  next h => cases h; rfl

/-- A run that an escape puts an end to is no local name. -/
theorem splitLocal_of_escape (h : ¬ NoLocalEscape (splitRun localUnit s).2) :
    splitLocal s = none := by
  cases s with
  | nil => rfl
  | cons c t =>
    simp only [splitLocal]
    split
    next =>
      split
      next => rfl
      next => rfl
      next run tail hpercent hslash hsplit =>
        rw [hsplit] at h
        refine absurd ?_ h
        intro d hd
        cases tail with
        | nil => cases hd
        | cons e u =>
          cases hd
          simp only [isEscapeMark, Bool.or_eq_false_iff, beq_eq_false_iff_ne]
          exact ⟨fun he => hpercent u (by rw [he]), fun he => hslash u (by rw [he])⟩
    next => rfl

theorem splitLocal_of_not_lead {c : Char} (hlead : isLocalLead c = false) (t : List Char) :
    splitLocal (c :: t) = none := by
  simp only [isLocalLead, isEscapeMark, ← Bool.or_assoc] at hlead
  simp [splitLocal, hlead]

theorem splitLocal_of_stopsAt (h : StopsAt isLocalLead s) : splitLocal s = none := by
  cases s with
  | nil => rfl
  | cons c t => exact splitLocal_of_not_lead (h c rfl) t

theorem splitLocal_eq_some_iff :
    splitLocal s = some (lexeme, rest) ↔ UnitRun localUnit lexeme rest ∧ NoLocalEscape rest ∧
      (∃ c ∈ lexeme.head?, isLocalLead c = true) ∧ s = lexeme ++ rest := by
  constructor
  · intro h
    have happ := splitLocal_append h
    by_cases hescape : NoLocalEscape (splitRun localUnit s).2
    · cases s with
      | nil => cases h
      | cons c t =>
        by_cases hlead : isLocalLead c = true
        · generalize hsplit : splitRun localUnit (c :: t) = parts at hescape
          obtain ⟨run, tail⟩ := parts
          rw [splitLocal_of_run hlead hsplit hescape, Option.some.injEq, Prod.mk.injEq] at h
          obtain ⟨rfl, rfl⟩ := h
          have hrun := ((splitRun_eq_iff fits_localUnit).mp hsplit).2
          refine ⟨hrun, hescape, ?_, happ.symm⟩
          cases run with
          | cons d u =>
            cases happ
            exact ⟨c, rfl, hlead⟩
          | nil =>
            cases happ
            have hzero := hrun.size_rest
            have hc := hescape c rfl
            simp only [isLocalLead, hc, Bool.or_false] at hlead
            rw [localUnit_of_localChar (isLocalChar_of_start hlead)] at hzero
            cases hzero
        · rw [splitLocal_of_not_lead (by simpa using hlead)] at h
          cases h
    · rw [splitLocal_of_escape hescape] at h
      cases h
  · rintro ⟨hrun, hescape, ⟨c, hc, hlead⟩, rfl⟩
    cases lexeme with
    | nil => cases hc
    | cons d t =>
      cases hc
      exact splitLocal_of_run hlead hrun.splitRun_eq hescape

theorem splitPrefixedName_eq_some_iff :
    splitPrefixedName s = some (lexeme, rest) ↔ ∃ label run, IsLabel label ∧
      splitLocal (run ++ rest) = some (run, rest) ∧ lexeme = label ++ ':' :: run ∧
      s = lexeme ++ rest := by
  constructor
  · intro h
    have happ := (splits_prefixedName s lexeme rest h).1
    unfold splitPrefixedName at h
    split at h
    next => cases h
    next name tail hname =>
      split at h
      next => cases h
      next run tail' hrun =>
        simp only [Option.some.injEq, Prod.mk.injEq] at h
        obtain ⟨rfl, rfl⟩ := h
        obtain ⟨label, hlabel, rfl, -⟩ := splitNamespace_eq_some_iff.mp hname
        rw [← splitLocal_append hrun] at hrun
        exact ⟨label, run, hlabel, hrun, by simp, happ.symm⟩
  · rintro ⟨label, run, hlabel, hrun, rfl, rfl⟩
    have hname : splitNamespace ((label ++ ':' :: run) ++ rest) =
        some (label ++ [':'], run ++ rest) :=
      splitNamespace_eq_some_iff.mpr ⟨label, hlabel, rfl, by simp⟩
    simp only [splitPrefixedName, hname, hrun]
    simp

theorem splitFenced_eq_some_iff {fence : List Char} {size : List Char → Nat}
    (hfit : FitsText size) :
    splitFenced fence size s = some (lexeme, rest) ↔ ∃ content,
      UnitRun size content (fence ++ rest) ∧ lexeme = fence ++ content ++ fence ∧
      s = lexeme ++ rest := by
  constructor
  · intro h
    simp only [splitFenced, List.isPrefixOf_iff_prefix] at h
    split at h
    next hfront =>
      obtain ⟨t, rfl⟩ := hfront
      rw [List.drop_left] at h
      split at h
      next hback =>
        obtain ⟨u, hu⟩ := hback
        rw [← hu, List.drop_left] at h
        simp only [Option.some.injEq, Prod.mk.injEq] at h
        obtain ⟨rfl, rfl⟩ := h
        have hrun := unitRun_splitRun hfit t
        rw [← hu] at hrun
        have happ := splitRun_append size t
        rw [← hu] at happ
        exact ⟨_, hrun, rfl, by simp [happ]⟩
      next => cases h
    next => cases h
  · rintro ⟨content, hrun, rfl, rfl⟩
    have hsplit := hrun.splitRun_eq
    simp only [splitFenced, List.isPrefixOf_iff_prefix]
    rw [if_pos ⟨content ++ fence ++ rest, by simp⟩]
    have hdrop : List.drop fence.length (fence ++ content ++ fence ++ rest) =
        content ++ (fence ++ rest) := by
      rw [List.append_assoc, List.append_assoc, List.drop_left]
    rw [hdrop, hsplit]
    simp

theorem splitBlankLabel_eq_some_iff :
    splitBlankLabel s = some (lexeme, rest) ↔ ∃ c run, isVariableStart c = true ∧
      UnitRun (dottedUnit isNameChar) run rest ∧ lexeme = '_' :: ':' :: c :: run ∧
      s = lexeme ++ rest := by
  constructor
  · intro h
    have happ := (splits_blankLabel s lexeme rest h).1
    unfold splitBlankLabel at h
    split at h
    next c t =>
      split at h
      next hc =>
        simp only [Option.some.injEq, Prod.mk.injEq] at h
        obtain ⟨rfl, rfl⟩ := h
        exact ⟨c, _, hc, unitRun_splitRun (fits_dottedUnit isNameChar) t, rfl, happ.symm⟩
      next => cases h
    next => cases h
  · rintro ⟨c, run, hc, hrun, rfl, rfl⟩
    have hstart : (isNameStart c || c.isDigit) = true := hc
    simp [splitBlankLabel, hstart, hrun.splitRun_eq]

theorem splitLangTag_eq_some_iff :
    splitLangTag s = some (lexeme, rest) ↔ ∃ c letters run, c.isAlpha = true ∧
      (∀ d ∈ letters, d.isAlpha = true) ∧ StopsAt Char.isAlpha (run ++ rest) ∧
      UnitRun subtagUnit run rest ∧ lexeme = '@' :: c :: (letters ++ run) ∧
      s = lexeme ++ rest := by
  constructor
  · intro h
    have happ := (splits_langTag s lexeme rest h).1
    unfold splitLangTag at h
    split at h
    next c t =>
      split at h
      next hc =>
        simp only [Option.some.injEq, Prod.mk.injEq] at h
        obtain ⟨rfl, rfl⟩ := h
        refine ⟨c, t.takeWhile Char.isAlpha, _, hc, fun d hd => List.mem_takeWhile_imp hd, ?_,
          unitRun_splitRun fits_subtagUnit _, by simp, happ.symm⟩
        rw [splitRun_append]
        exact stopsAt_dropWhile _ t
      next => cases h
    next => cases h
  · rintro ⟨c, letters, run, hc, hletters, hstops, hrun, rfl, rfl⟩
    have htake := hstops.takeWhile_append hletters
    have hdrop := hstops.dropWhile_append hletters
    simp [splitLangTag, hc, htake, hdrop, hrun.splitRun_eq]

theorem splitEmpty_eq_some_iff {opening closing : Char} (hclosing : isBlank closing = false) :
    splitEmpty opening closing s = some (lexeme, rest) ↔ ∃ gap,
      (∀ c ∈ gap, isBlank c = true) ∧ lexeme = opening :: (gap ++ [closing]) ∧
      s = lexeme ++ rest := by
  constructor
  · intro h
    have happ := (splits_empty opening closing s lexeme rest h).1
    unfold splitEmpty at h
    split at h
    next => cases h
    next c t =>
      split at h
      next => cases h
      next d u hdrop =>
        split at h
        next hboth =>
          simp only [Bool.and_eq_true, beq_iff_eq] at hboth
          obtain ⟨rfl, rfl⟩ := hboth
          simp only [Option.some.injEq, Prod.mk.injEq] at h
          obtain ⟨rfl, rfl⟩ := h
          exact ⟨_, fun c hc => List.mem_takeWhile_imp hc, rfl, happ.symm⟩
        next => cases h
  · rintro ⟨gap, hgap, rfl, rfl⟩
    have hstops : StopsAt isBlank (closing :: rest) := stopsAt_cons hclosing rest
    have htake := hstops.takeWhile_append hgap
    have hdrop := hstops.dropWhile_append hgap
    simp [splitEmpty, htake, hdrop]

theorem splitEmpty_eq_none_iff {opening closing c : Char} :
    splitEmpty opening closing (c :: s) = none ↔
      ¬ (c = opening ∧ (s.dropWhile isBlank).head? = some closing) := by
  simp only [splitEmpty]
  cases s.dropWhile isBlank with
  | nil => simp
  | cons d t => simp

theorem splitSymbol_eq_some_iff {symbols : List (List Char)} :
    splitSymbol symbols s = some (lexeme, rest) ↔
      symbols.find? (·.isPrefixOf s) = some lexeme ∧ s = lexeme ++ rest := by
  simp only [splitSymbol, Option.map_eq_some_iff, Prod.mk.injEq]
  constructor
  · rintro ⟨symbol, hfind, rfl, rfl⟩
    have hfront := List.find?_some hfind
    obtain ⟨t, rfl⟩ := List.isPrefixOf_iff_prefix.mp hfront
    exact ⟨hfind, by rw [List.drop_left]⟩
  · rintro ⟨hfind, rfl⟩
    exact ⟨lexeme, hfind, rfl, List.drop_left⟩

theorem splitSymbol_mem {symbols : List (List Char)}
    (h : splitSymbol symbols s = some (lexeme, rest)) : lexeme ∈ symbols :=
  List.mem_of_find?_eq_some (splitSymbol_eq_some_iff.mp h).1

theorem endsWord_iff : endsWord s.head? = true ↔ StopsAt (fun c => isNameChar c || c == ':') s := by
  cases s with
  | nil => simp [endsWord, StopsAt]
  | cons c s => simp [endsWord, StopsAt]

theorem isNameBase_of_isAlpha {c : Char} (h : c.isAlpha = true) : isNameBase c = true := by
  simp only [isNameBase, inRanges, nameBaseRanges, List.any_cons, Bool.or_eq_true,
    Bool.and_eq_true, decide_eq_true_eq]
  rcases Bool.or_eq_true_iff.mp h with hupper | hlower
  · exact .inl (of_decide_eq_true hupper)
  · obtain ⟨hlow, hhigh⟩ := Bool.and_eq_true_iff.mp hlower
    exact .inr (.inl ⟨of_decide_eq_true hlow, of_decide_eq_true hhigh⟩)

theorem isNameChar_of_isWordChar {c : Char} (h : isWordChar c = true) : isNameChar c = true := by
  simp only [isWordChar, Char.isAlphanum, Bool.or_eq_true, beq_iff_eq] at h
  rcases h with (halpha | hdigit) | rfl
  · simp [isNameChar, isNameStart, isNameBase_of_isAlpha halpha]
  · simp [isNameChar, hdigit]
  · decide

theorem stopsAt_wordChar (h : endsWord s.head? = true) : StopsAt isWordChar s := by
  intro c hc
  have hname := endsWord_iff.mp h c hc
  by_contra hne
  have hchar := isNameChar_of_isWordChar (by simpa using hne)
  simp [hchar] at hname

theorem splitBoolean_eq_some_iff :
    splitBoolean s = some (lexeme, rest) ↔
      (lexeme = "true".toList ∨ lexeme = "false".toList) ∧ endsWord rest.head? = true ∧
      s = lexeme ++ rest := by
  simp only [splitBoolean, atWordEnd, Option.filter_eq_some_iff, splitSymbol_eq_some_iff]
  constructor
  · rintro ⟨⟨hfind, rfl⟩, hend⟩
    have hmem := List.mem_of_find?_eq_some hfind
    exact ⟨by simpa using hmem, hend, rfl⟩
  · rintro ⟨rfl | rfl, hend, rfl⟩
    · exact ⟨⟨rfl, rfl⟩, hend⟩
    · exact ⟨⟨rfl, rfl⟩, hend⟩

theorem splitKeyword_eq_some_iff :
    splitKeyword s = some (lexeme, rest) ↔ (∀ c ∈ lexeme, isWordChar c = true) ∧
      (lookupKeyword (String.ofList lexeme)).isSome = true ∧ endsWord rest.head? = true ∧
      s = lexeme ++ rest := by
  constructor
  · intro h
    have happ := (splits_keyword s lexeme rest h).1
    simp only [splitKeyword] at h
    split at h
    next hword =>
      obtain ⟨hparts, hend⟩ := Option.filter_eq_some_iff.mp h
      simp only [Option.some.injEq, Prod.mk.injEq] at hparts
      obtain ⟨rfl, rfl⟩ := hparts
      exact ⟨fun c hc => List.mem_takeWhile_imp hc, hword, hend, happ.symm⟩
    next => cases h
  · rintro ⟨hword, hlookup, hend, rfl⟩
    have htake := (stopsAt_wordChar hend).takeWhile_append hword
    have hdrop := (stopsAt_wordChar hend).dropWhile_append hword
    simp [splitKeyword, htake, hdrop, hlookup, atWordEnd, hend]

end

end SparqlQuery
