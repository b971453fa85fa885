import SparqlQuery.Proofs.BlankNodeIdentity
import SparqlQuery.Proofs.ScanInsert

namespace SparqlQuery

/-- A value, with the number given if it was numbered. -/
def Value.renumbered (value : Value) (number : UInt32) : Value :=
  if value.isAnonymousBlank then .ofAnonymous number else value

section

variable {quote : Char} {s t : List Char}

theorem ReachesFence.append (h : ReachesFence quote s) (t : List Char) :
    ReachesFence quote (s ++ t) := by
  induction h with
  | fence h => exact .fence (h.trans (List.prefix_append _ t))
  | plain hc _ ih => exact .plain hc ih
  | escape hc _ ih => exact .escape hc ih

theorem splitLong_of_append (hquote : quote ≠ '\\') (h : splitLong quote (s ++ t) = none) :
    splitLong quote s = none := by
  by_contra hsome
  obtain ⟨content, rfl, hreach⟩ := (splitLong_ne_none_iff hquote).mp hsome
  refine (splitLong_ne_none_iff hquote).mpr ⟨content ++ t, by simp, hreach.append t⟩ h

theorem splitEmpty_of_append {opening closing : Char}
    (h : splitEmpty opening closing (s ++ t) = none) : splitEmpty opening closing s = none := by
  cases s with
  | nil => rfl
  | cons c s =>
    rw [List.cons_append, splitEmpty_eq_none_iff] at h
    rw [splitEmpty_eq_none_iff]
    rintro ⟨hc, hhead⟩
    refine h ⟨hc, ?_⟩
    rw [List.dropWhile_append]
    split
    next hnil =>
      rw [List.isEmpty_iff.mp hnil] at hhead
      cases hhead
    next => rw [List.head?_append, hhead, Option.some_or]

end

section

variable {kind : Kind} {fresh : UInt32} {value : Value} {lexeme rest : List Char}

/-- No pattern takes more where the text ends. -/
theorem Kind.staysShort_alone
    (h : scanLexeme fresh (lexeme ++ rest) = some (kind, value, lexeme, rest)) :
    kind.StaysShort (lexeme ++ rest) (lexeme ++ []) := by
  obtain ⟨hsplit, -, -⟩ := scanLexeme_eq_some_iff.mp h
  cases kind with
  | prefixedNameNamespace =>
    exact splitPrefixedName_of_stopsAt (keepsLexeme_namespace (.here blankNext_nil) hsplit)
      (stopsAt_nil _)
  | stringLiteral =>
    intro quote hquote hnone
    rw [List.append_nil]
    rcases quote_cases hquote with rfl | rfl
    · exact splitLong_of_append (by decide) hnone
    · exact splitLong_of_append (by decide) hnone
  | delimiter =>
    obtain ⟨hbrackets, hparens⟩ := splitEmpty_of_scan h
    rw [List.append_nil]
    exact ⟨splitEmpty_of_append hbrackets, splitEmpty_of_append hparens⟩
  | _ => trivial

theorem scanLexeme_alone
    (h : scanLexeme fresh (lexeme ++ rest) = some (kind, value, lexeme, rest)) :
    scanLexeme fresh lexeme = some (kind, value, lexeme, []) := by
  have hcut := scanLexeme_cut (.here blankNext_nil) (Kind.staysShort_alone h) h
  rwa [List.append_nil] at hcut

theorem Kind.value?_renumbered (number : UInt32)
    (h : scanLexeme fresh (lexeme ++ rest) = some (kind, value, lexeme, rest)) :
    kind.value? number lexeme = some (value.renumbered number) := by
  obtain ⟨-, hvalue, -⟩ := scanLexeme_eq_some_iff.mp h
  cases hmark : value.isAnonymousBlank with
  | true =>
    obtain ⟨rfl, hempty⟩ := (isAnonymousBlank_iff h).mp hmark
    simp only [Value.renumbered, hmark, if_true]
    cases lexeme with
    | nil => cases hempty
    | cons c lexeme =>
      unfold isEmptyBrackets at hempty
      split at hempty
      next heq => simp [Kind.value?, heq]
      next => cases hempty
  | false =>
    simp only [Value.renumbered, hmark]
    cases kind with
    | blankNode =>
      rcases blankNode_of_scan h with ⟨label, rfl, -, rfl⟩ | ⟨-, rfl⟩
      · rfl
      · rw [isAnonymousBlank_ofAnonymous] at hmark
        cases hmark
    | _ => exact hvalue

theorem scanLexeme_renumbered (number : UInt32)
    (h : scanLexeme fresh (lexeme ++ rest) = some (kind, value, lexeme, rest)) :
    scanLexeme number (lexeme ++ rest) = some (kind, value.renumbered number, lexeme, rest) := by
  obtain ⟨hsplit, -, hrivals⟩ := scanLexeme_eq_some_iff.mp h
  exact scanLexeme_eq_some_iff.mpr ⟨hsplit, Kind.value?_renumbered number h, hrivals⟩

end

/-- The slice of a token is as long as its span, and is read alone as that one token. Only the
number of an anonymous node may be another one. -/
theorem run_slice {text : String} {token : Token}
    (htoken : token ∈ (Lexer.ofText text).run.1) :
    let slice := token.span.slice (decodeEscapes text.toList)
    byteCount slice = token.span.length ∧
      (Lexer.ofChars slice).run =
        ([⟨token.kind, token.value.renumbered 0, ⟨0, byteCount slice⟩⟩], none) := by
  intro slice
  obtain ⟨fresh, front, lexeme, rest, happ, hstart, hstop, hscan⟩ := Lexer.run_placed htoken
  have hslice : slice = lexeme := by
    simp only [slice, happ]
    exact Span.slice_of_append rest hstart hstop
  rw [hslice]
  refine ⟨by unfold Span.length; omega, ?_⟩
  have halone := scanLexeme_alone (scanLexeme_renumbered 0 hscan)
  exact Lexer.run_of_reads rfl (reads_of_scan halone)

/-- An anonymous node is read from its brackets again, with the first number. -/
theorem secondBrackets_alone :
    let token : Token := ⟨.blankNode, .blankNode "[]1", ⟨3, 6⟩⟩
    token ∈ (Lexer.ofText "[] [ ] ~").run.1 ∧
      token.span.slice (decodeEscapes "[] [ ] ~".toList) = "[ ]".toList ∧
      (Lexer.ofChars "[ ]".toList).run = ([⟨.blankNode, .blankNode "[]0", ⟨0, 3⟩⟩], none) := by
  intro token
  have htoken : token ∈ (Lexer.ofText "[] [ ] ~").run.1 := by decide +kernel
  have hslice : token.span.slice (decodeEscapes "[] [ ] ~".toList) = "[ ]".toList := by
    decide +kernel
  have hvalue : token.value.renumbered 0 = .blankNode "[]0" := by decide
  obtain ⟨hlength, hrun⟩ := run_slice htoken
  rw [hvalue, hlength, hslice] at hrun
  exact ⟨htoken, hslice, hrun⟩

end SparqlQuery
