import SparqlQuery.Proofs.FirstKind

namespace SparqlQuery

/-- Some patterns go on over white space or give up only far behind a lexeme. What is asked of
them where the text of the first argument has become that of the second. -/
def Kind.StaysShort : Kind → List Char → List Char → Prop
  | .prefixedNameNamespace, _, t => splitPrefixedName t = none
  | .stringLiteral, s, t =>
    ∀ quote ∈ ['"', '\''], splitLong quote s = none → splitLong quote t = none
  | .delimiter, _, t => splitEmpty '[' ']' t = none ∧ splitEmpty '(' ')' t = none
  | _, _, _ => True

theorem keepsSilent_blankLabel : KeepsSilent splitBlankLabel := by
  refine keepsSilent_of_front ?_ splits_blankLabel
  intro lexeme rest h
  obtain ⟨c, run, hc, -, rfl, -⟩ := splitBlankLabel_eq_some_iff.mp h
  refine ⟨['_', ':', c], run, rfl, ?_, fun u => ?_⟩
  · simpa [isBlank] using blankFree_variableStart.isBlank_false hc
  · have hstart : (isNameStart c || c.isDigit) = true := hc
    simp [splitBlankLabel, hstart]

theorem splitPrefixedName_of_namespace {s : List Char} (h : splitNamespace s = none) :
    splitPrefixedName s = none := by
  simp [splitPrefixedName, h]

/-- A namespace is all there is of a name in front of what begins no local name. -/
theorem splitPrefixedName_of_stopsAt {s lexeme rest : List Char}
    (h : splitNamespace s = some (lexeme, rest)) (hlead : StopsAt isLocalLead rest) :
    splitPrefixedName s = none := by
  simp [splitPrefixedName, h, splitLocal_of_stopsAt hlead]

/-- No truth value is a keyword, and both go on to the end of a word. -/
theorem splitBoolean_of_keyword {s lexeme rest : List Char}
    (h : splitKeyword s = some (lexeme, rest)) : splitBoolean s = none := by
  by_contra hsome
  obtain ⟨⟨truth, rest'⟩, hsplit⟩ := Option.ne_none_iff_exists'.mp hsome
  obtain ⟨hword, hlookup, hend, happ⟩ := splitKeyword_eq_some_iff.mp h
  obtain ⟨htruth, hend', happ'⟩ := splitBoolean_eq_some_iff.mp hsplit
  have hword' : ∀ c ∈ truth, isWordChar c = true := by
    rcases htruth with rfl | rfl <;> exact List.all_eq_true.mp (by decide)
  have hsame : lexeme = truth := by
    rw [← (stopsAt_wordChar hend).takeWhile_append hword, ← happ, happ',
      (stopsAt_wordChar hend').takeWhile_append hword']
  have hnone : lookupKeyword (String.ofList truth) = none := by
    rcases htruth with rfl | rfl <;> decide +kernel
  rw [hsame, hnone] at hlookup
  cases hlookup

section

variable {kind : Kind} {lexeme rest rest' : List Char}

theorem Kind.split_cut (hcut : Cut rest rest')
    (hshort : kind.StaysShort (lexeme ++ rest) (lexeme ++ rest'))
    (h : kind.split (lexeme ++ rest) = some (lexeme, rest)) :
    kind.split (lexeme ++ rest') = some (lexeme, rest') := by
  cases kind with
  | variableName => exact keepsLexeme_variable hcut h
  | iriRef => exact keepsLexeme_iri hcut h
  | prefixedNameWithLocal => exact keepsLexeme_prefixedName hcut h
  | prefixedNameNamespace => exact keepsLexeme_namespace hcut h
  | stringLiteral => exact splitString_cut hcut hshort h
  | langTag => exact keepsLexeme_langTag hcut h
  | numericLiteral => exact keepsLexeme_number hcut h
  | booleanLiteral => exact keepsLexeme_boolean hcut h
  | blankNode =>
    exact orElse_eq_some_of (keepsLexeme_blankLabel hcut)
      (fun hnone _ => keepsSilent_blankLabel (hcut.append lexeme) hnone)
      (keepsLexeme_empty (by decide) hcut) h
  | nil => exact keepsLexeme_empty (by decide) hcut h
  | keyword => exact keepsLexeme_keyword hcut h
  | delimiter => exact keepsLexeme_symbol blankFree_delimiters hcut h
  | operator => exact keepsLexeme_symbol blankFree_operators hcut h

theorem Kind.rivals_cut (hcut : Cut rest rest')
    (hshort : kind.StaysShort (lexeme ++ rest) (lexeme ++ rest'))
    (h : kind.split (lexeme ++ rest) = some (lexeme, rest))
    (hrivals : ∀ other ∈ kind.rivals, other.split (lexeme ++ rest) = none) :
    ∀ other ∈ kind.rivals, other.split (lexeme ++ rest') = none := by
  have hall := hcut.append lexeme
  cases kind with
  | prefixedNameNamespace =>
    intro other hother
    obtain rfl := List.mem_singleton.mp hother
    exact hshort
  | booleanLiteral =>
    simp only [Kind.rivals, List.forall_mem_cons, Kind.split] at hrivals ⊢
    have hname := keepsSilent_namespace hall hrivals.2.1
    exact ⟨splitPrefixedName_of_namespace hname, hname, by simp⟩
  | keyword =>
    simp only [Kind.rivals, List.forall_mem_cons, Kind.split] at hrivals ⊢
    have hname := keepsSilent_namespace hall hrivals.2.1
    have hkept : splitKeyword (lexeme ++ rest') = some (lexeme, rest') :=
      keepsLexeme_keyword hcut h
    exact ⟨splitPrefixedName_of_namespace hname, hname, splitBoolean_of_keyword hkept, by simp⟩
  | delimiter =>
    simp only [Kind.rivals, List.forall_mem_cons, Kind.split] at hrivals ⊢
    obtain ⟨hbrackets, hparens⟩ := hshort
    have hlabel : splitBlankLabel (lexeme ++ rest) = none := by
      cases hfound : splitBlankLabel (lexeme ++ rest) with
      | none => rfl
      | some found => simp [splitBlankNode, hfound] at hrivals
    refine ⟨keepsSilent_number hall hrivals.1, ?_, hparens, by simp⟩
    rw [splitBlankNode, keepsSilent_blankLabel hall hlabel, hbrackets]
    rfl
  | operator =>
    simp only [Kind.rivals, List.forall_mem_cons, Kind.split] at hrivals ⊢
    exact ⟨keepsSilent_variable hall hrivals.1, keepsSilent_iri hall hrivals.2.1,
      keepsSilent_number hall hrivals.2.2.1,
      keepsSilent_symbol blankFree_delimiters hall hrivals.2.2.2.1, by simp⟩
  | _ => simp [Kind.rivals]

/-- Cutting the text somewhere behind a token does not change the token. -/
theorem scanLexeme_cut {fresh : UInt32} {value : Value} (hcut : Cut rest rest')
    (hshort : kind.StaysShort (lexeme ++ rest) (lexeme ++ rest'))
    (h : scanLexeme fresh (lexeme ++ rest) = some (kind, value, lexeme, rest)) :
    scanLexeme fresh (lexeme ++ rest') = some (kind, value, lexeme, rest') := by
  obtain ⟨hsplit, hvalue, hrivals⟩ := scanLexeme_eq_some_iff.mp h
  exact scanLexeme_eq_some_iff.mpr ⟨Kind.split_cut hcut hshort hsplit, hvalue,
    Kind.rivals_cut hcut hshort hsplit hrivals⟩

end

end SparqlQuery
