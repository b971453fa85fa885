import SparqlQuery.Proofs.EscapeDecoding
import SparqlQuery.Proofs.LexerReads
import SparqlQuery.Proofs.RenderScan

namespace SparqlQuery

/-- A piece of what stands between double quotes: a backslash and a character, or a character that
is no backslash and no quote. -/
def IsStringPiece (piece : List Char) : Prop :=
  (∃ c, piece = ['\\', c]) ∨ ∃ c, c ≠ '\\' ∧ c ≠ '"' ∧ piece = [c]

section

variable {s t lexeme rest content : List Char} {pieces : List (List Char)}

theorem isStringPiece_quotedUnit (c : Char) : IsStringPiece (quotedUnit c) := by
  rcases quotedUnit_cases c with ⟨letter, -, hunit, -⟩ | ⟨hunit, hquote, hslash, -⟩
  · exact .inl ⟨letter, hunit⟩
  · exact .inr ⟨c, hslash, hquote, hunit⟩

theorem head_flatten_pieces (h : ∀ piece ∈ pieces, IsStringPiece piece) :
    ∀ c ∈ pieces.flatten.head?, c ≠ '"' := by
  intro c hc
  cases pieces with
  | nil => cases hc
  | cons piece pieces =>
    rcases h piece List.mem_cons_self with ⟨d, hpiece⟩ | ⟨d, -, hquote, hpiece⟩
    · rw [hpiece] at hc
      cases hc
      decide
    · rw [hpiece] at hc
      cases hc
      exact hquote

/-- Each piece is read as one. -/
theorem splitUnits_flatten_pieces (h : ∀ piece ∈ pieces, IsStringPiece piece) :
    splitUnits escapePair pieces.flatten = (pieces, []) := by
  induction pieces with
  | nil => exact splitUnits_nil escapePair
  | cons piece pieces ih =>
    obtain ⟨hpiece, hpieces⟩ := List.forall_mem_cons.mp h
    have hrest := ih hpieces
    rw [List.flatten_cons]
    rcases hpiece with ⟨c, rfl⟩ | ⟨c, hslash, -, rfl⟩
    · have htwo : escapePair ('\\' :: c :: pieces.flatten) = 1 + 1 := rfl
      have hsplit := splitUnits_step htwo
      simpa [hrest] using hsplit
    · have hsplit := splitUnits_escapePair_plain hslash pieces.flatten
      rw [hrest] at hsplit
      exact hsplit

/-- Each piece stands for one character. -/
theorem length_unescapePair {piece : List Char} (h : IsStringPiece piece) :
    (unescapePair piece).length = 1 := by
  rcases h with ⟨c, rfl⟩ | ⟨c, -, -, rfl⟩
  · rfl
  · rw [unescapePair_singleton]
    rfl

theorem length_flatMap_unescapePair (h : ∀ piece ∈ pieces, IsStringPiece piece) :
    (pieces.flatMap unescapePair).length = pieces.length := by
  induction pieces with
  | nil => rfl
  | cons piece pieces ih =>
    obtain ⟨hpiece, hpieces⟩ := List.forall_mem_cons.mp h
    rw [List.flatMap_cons, List.length_append, length_unescapePair hpiece, ih hpieces,
      List.length_cons]
    omega

/-- No piece ends a string, so the string goes on to the quote behind the last one. -/
theorem content_eq_pieces (h : ∀ piece ∈ pieces, IsStringPiece piece)
    (hrun : UnitRun (shortUnit '"') content ('"' :: rest))
    (happ : content ++ '"' :: rest = pieces.flatten ++ ['"']) : content = pieces.flatten := by
  induction pieces generalizing content with
  | nil =>
    cases content with
    | nil => rfl
    | cons c content => simp at happ
  | cons piece pieces ih =>
    obtain ⟨hpiece, hpieces⟩ := List.forall_mem_cons.mp h
    rw [List.flatten_cons, List.append_assoc] at happ
    generalize htail : '"' :: rest = tail at hrun
    cases hrun with
    | stop =>
      have hhead := congrArg List.head? happ
      rcases hpiece with ⟨c, rfl⟩ | ⟨c, -, hquote, rfl⟩
      · simp at hhead
      · simp at hhead
        exact absurd hhead.symm hquote
    | @unit c unit run _ hsize hrun =>
      subst htail
      rcases hpiece with ⟨d, rfl⟩ | ⟨d, hslash, -, rfl⟩
      · obtain ⟨rfl, hafter⟩ := List.cons.inj happ
        obtain ⟨e, -, rfl⟩ := (takesEscapes_short '"').eq_letter hsize
        have hrest : run ++ '"' :: rest = pieces.flatten ++ ['"'] := (List.cons.inj hafter).2
        obtain rfl := (List.cons.inj hafter).1
        rw [ih hpieces hrun hrest]
        rfl
      · obtain ⟨rfl, hafter⟩ := List.cons.inj happ
        have hunit : unit = [] := by
          rw [shortUnit_plain hslash] at hsize
          split at hsize
          next => cases hsize
          next => exact List.eq_nil_of_length_eq_zero (by omega)
        subst hunit
        rw [ih hpieces hrun hafter]
        rfl

/-- A string read from pieces between quotes has as many characters as there are pieces. -/
theorem length_stringContent_pieces (h : ∀ piece ∈ pieces, IsStringPiece piece)
    (hsplit : splitString ('"' :: (pieces.flatten ++ ['"'])) = some (lexeme, rest)) :
    (stringContent lexeme).length = pieces.length := by
  have hhead := head_flatten_pieces h
  have hlong := splitLong_of_head hhead blankNext_nil
  rw [List.append_nil] at hlong
  have hother : splitShort '\'' ('"' :: (pieces.flatten ++ ['"'])) = none :=
    splitFenced_of_ne (by decide) [] _ _
  have hshort : splitShort '"' ('"' :: (pieces.flatten ++ ['"'])) = some (lexeme, rest) := by
    rw [splitString_eq, hlong '"' (by decide), hlong '\'' (by decide), hother] at hsplit
    simpa using hsplit
  obtain ⟨content, hrun, hlexeme, happ⟩ := (splitFenced_eq_some_iff (fits_shortUnit '"')).mp hshort
  have hcontent : content = pieces.flatten := by
    apply content_eq_pieces h hrun
    rw [hlexeme] at happ
    simpa using happ.symm
  have hbody : stringBody lexeme = pieces.flatten := by
    rw [hlexeme, hcontent]
    exact stringBody_of_head hhead
  rw [stringContent, hbody, splitUnits_flatten_pieces h]
  exact length_flatMap_unescapePair h

theorem escapeLetter?_of_isHexDigit {c : Char} (h : isHexDigit c = true) :
    escapeLetter? c = none := by
  cases hletter : escapeLetter? c with
  | none => rfl
  | some letter =>
    have hfront : c ∈ ['\t', '\n', '\r', '\x08', '\x0c', '"', '\\'] := by
      fun_cases escapeLetter? c <;> simp_all [escapeLetter?]
    have hnone : ['\t', '\n', '\r', '\x08', '\x0c', '"', '\\'].all (!isHexDigit ·) = true := by
      decide
    have hc := List.all_eq_true.mp hnone c hfront
    rw [h] at hc
    cases hc

/-- What needs no escape stands in a quoted string as it stands in the string itself. -/
theorem prefix_of_quoted {u : List Char} (hu : ∀ c ∈ u, escapeLetter? c = none)
    (h : s.flatMap quotedUnit ++ '"' :: rest = u ++ t) : u <+: s := by
  induction u generalizing s with
  | nil => exact List.nil_prefix
  | cons d u ih =>
    obtain ⟨hd, hmore⟩ := List.forall_mem_cons.mp hu
    cases s with
    | nil =>
      obtain ⟨rfl, -⟩ := List.cons.inj h
      cases hd
    | cons c s =>
      rw [List.flatMap_cons, List.append_assoc] at h
      have hunit : quotedUnit c = [c] := by
        rcases quotedUnit_cases c with ⟨letter, -, hunit, -⟩ | ⟨hunit, -⟩
        · rw [hunit] at h
          obtain ⟨rfl, -⟩ := List.cons.inj h
          cases hd
        · exact hunit
      rw [hunit] at h
      obtain ⟨rfl, hafter⟩ := List.cons.inj h
      exact List.cons_prefix_cons.mpr ⟨rfl, ih hmore hafter⟩

/-- Quoting brings up no escape that was not in the string. -/
theorem escapeDigits?_quoted {digits : List Char}
    (h : escapeDigits? ('\\' :: (s.flatMap quotedUnit ++ '"' :: rest)) = some digits) :
    escapeDigits? ('\\' :: s) = some digits := by
  obtain ⟨mark, t, hmark, hall, happ⟩ := escapeDigits?_eq_some_iff.mp h
  have hplain : ∀ c ∈ mark :: digits, escapeLetter? c = none := by
    intro c hc
    rcases List.mem_cons.mp hc with rfl | hdigit
    · rcases hmark with ⟨rfl, -⟩ | ⟨rfl, -⟩ <;> rfl
    · exact escapeLetter?_of_isHexDigit (hall c hdigit)
  obtain ⟨more, hmore⟩ := prefix_of_quoted hplain (List.cons.inj happ).2
  apply escapeDigits?_eq_some_iff.mpr
  exact ⟨mark, more, hmark, hall, by rw [← hmore]; rfl⟩

theorem decodeEscapes_slash_quoted (h : escapedFront? ('\\' :: s) = none) :
    decodeEscapes ('\\' :: (s.flatMap quotedUnit ++ '"' :: rest)) =
      '\\' :: decodeEscapes (s.flatMap quotedUnit ++ '"' :: rest) := by
  apply decodeEscapes_plain
  cases hdigits : escapeDigits? ('\\' :: (s.flatMap quotedUnit ++ '"' :: rest)) with
  | none => exact escapedFront?_of_none hdigits
  | some digits =>
    have hsame := escapeDigits?_quoted hdigits
    simp only [escapedFront?, hdigits, hsame] at h ⊢
    exact h

/-- How a string that is decoded to a text is itself written between quotes, once the escapes in
what is written have been decoded: a piece for each character of the text. -/
structure WrittenAs (s t : List Char) (pieces : List (List Char)) : Prop where
  isPiece : ∀ piece ∈ pieces, IsStringPiece piece
  length_eq : pieces.length = t.length
  unchanged : t.length = s.length → pieces = s.map quotedUnit
  decoded : ∀ rest, decodeEscapes (s.flatMap quotedUnit ++ '"' :: rest) =
    pieces.flatten ++ decodeEscapes ('"' :: rest)

theorem WrittenAs.plain {c : Char} (hc : escapedFront? (c :: s) = none)
    (h : WrittenAs s t pieces) : WrittenAs (c :: s) (c :: t) (quotedUnit c :: pieces) := by
  refine ⟨?_, ?_, ?_, ?_⟩
  · exact List.forall_mem_cons.mpr ⟨isStringPiece_quotedUnit c, h.isPiece⟩
  · rw [List.length_cons, h.length_eq, List.length_cons]
  · intro hlength
    rw [List.length_cons, List.length_cons, Nat.add_right_cancel_iff] at hlength
    rw [h.unchanged hlength, List.map_cons]
  · intro rest
    have hrest := h.decoded rest
    rw [List.flatMap_cons, List.flatten_cons, List.append_assoc, List.append_assoc, ← hrest]
    rcases quotedUnit_cases c with ⟨letter, hletter, hunit, hu, hU⟩ | ⟨hunit, -, hslash, -⟩
    · rw [hunit]
      have hfront : escapeDigits? ('\\' :: letter :: (s.flatMap quotedUnit ++ '"' :: rest)) =
          none := by
        simp [escapeDigits?, hu, hU]
      show decodeEscapes ('\\' :: letter :: (s.flatMap quotedUnit ++ '"' :: rest)) =
        '\\' :: letter :: decodeEscapes (s.flatMap quotedUnit ++ '"' :: rest)
      rw [decodeEscapes_cons hfront]
      by_cases hback : letter = '\\'
      · subst hback
        obtain rfl : c = '\\' := by
          cases hletter
          rfl
        rw [decodeEscapes_slash_quoted hc]
      · rw [decodeEscapes_cons (escapeDigits?_of_ne hback _)]
    · rw [hunit]
      exact decodeEscapes_cons (escapeDigits?_of_ne hslash _)

theorem WrittenAs.escape {mark c : Char} {digits : List Char}
    (hdigits : escapeDigits? ('\\' :: mark :: (digits ++ s)) = some digits)
    (hc : charOfCode? (hexValue digits) = some c) (hle : t.length ≤ s.length)
    (h : WrittenAs s t pieces) :
    WrittenAs ('\\' :: mark :: (digits ++ s)) (c :: t) (['\\', c] :: pieces) := by
  obtain ⟨mark', u, hmark, hall, happ⟩ := escapeDigits?_eq_some_iff.mp hdigits
  obtain rfl : mark = mark' := (List.cons.inj (List.cons.inj happ).2).1
  refine ⟨?_, ?_, ?_, ?_⟩
  · exact List.forall_mem_cons.mpr ⟨.inl ⟨c, rfl⟩, h.isPiece⟩
  · rw [List.length_cons, h.length_eq, List.length_cons]
  · intro hlength
    simp only [List.length_cons, List.length_append] at hlength
    omega
  · intro rest
    have hrest := h.decoded rest
    have hmark' : quotedUnit mark = [mark] := by
      rcases hmark with ⟨rfl, -⟩ | ⟨rfl, -⟩ <;> rfl
    have hquoted : digits.flatMap quotedUnit = digits := by
      have hunit : ∀ d ∈ digits, quotedUnit d = [d] := by
        intro d hd
        simp [quotedUnit, escapeLetter?_of_isHexDigit (hall d hd)]
      rw [List.flatMap_congr hunit]
      simp
    have hwritten : ('\\' :: mark :: (digits ++ s)).flatMap quotedUnit ++ '"' :: rest =
        '\\' :: '\\' :: mark :: (digits ++ (s.flatMap quotedUnit ++ '"' :: rest)) := by
      have hslash : quotedUnit '\\' = ['\\', '\\'] := rfl
      simp [hslash, hmark', hquoted]
    have hescape := escapeDigits?_append hdigits (s.flatMap quotedUnit ++ '"' :: rest)
    rw [hwritten, decodeEscapes_cons rfl, decodeEscapes_escape hescape, decodeUnit_escape hescape,
      hc, hrest]
    rfl

theorem Decodes.writtenAs (h : Decodes s t) : ∃ pieces, WrittenAs s t pieces := by
  induction h with
  | nil => exact ⟨[], by simp, rfl, fun _ => rfl, fun _ => rfl⟩
  | plain hc _ ih =>
    obtain ⟨pieces, hwritten⟩ := ih
    exact ⟨_, hwritten.plain hc⟩
  | escape hdigits hc hs ih =>
    obtain ⟨pieces, hwritten⟩ := ih
    exact ⟨_, hwritten.escape hdigits hc hs.length_le⟩

end

/-- A string is read back from its quoted form, and as one token, if and only if there is nothing
in it that decoding the escapes of a text would replace. Backslashes are doubled in the quoted
form, but escapes are decoded before any string is read. -/
theorem tokenize_string_iff (s : String) :
    (∃ span, tokenize (Value.string s).render = .ok [⟨.stringLiteral, .string s, span⟩]) ↔
      decodeEscapes s.toList = s.toList := by
  have hdecodes := decodes_decodeEscapes s.toList
  obtain ⟨pieces, hwritten⟩ := hdecodes.writtenAs
  have htext : decodeEscapes (Value.string s).render.toList = '"' :: (pieces.flatten ++ ['"']) := by
    have hchars : (Value.string s).render.toList =
        '"' :: (s.toList.flatMap quotedUnit ++ ['"']) := by
      simp [Value.render, Value.chars, quotedChars_eq]
    rw [hchars, decodeEscapes_cons rfl, hwritten.decoded [], decodeEscapes_cons rfl,
      decodeEscapes_nil]
  constructor
  · intro h
    obtain ⟨span, htokens⟩ := h
    rw [tokenize_eq_ok_iff, htext] at htokens
    obtain ⟨lexeme, rest, -, hscan⟩ := htokens.scan_front rfl
    obtain ⟨hsplit, hvalue, -⟩ := scanLexeme_eq_some_iff.mp hscan
    have hcontent : stringContent lexeme = s.toList := by
      have hstring := Value.string.inj (Option.some.inj hvalue)
      rw [← hstring, String.toList_ofList]
    have hlength := length_stringContent_pieces hwritten.isPiece hsplit
    rw [hcontent, hwritten.length_eq] at hlength
    exact hdecodes.eq_of_length hlength.symm
  · intro h
    have hquoted : '"' :: (pieces.flatten ++ ['"']) = quotedChars s.toList := by
      rw [hwritten.unchanged (by rw [h]), quotedChars_eq, List.flatMap_def]
    rw [hquoted] at htext
    have hsplit := splitString_quotedChars blankNext_nil s.toList
    have hvalue : Kind.stringLiteral.value? 0 (quotedChars s.toList) = some (.string s) := by
      simp [Kind.value?, stringContent_quotedChars]
    have hscan := @scanLexeme_of_split _ _ _ _ .stringLiteral rfl hsplit hvalue
    rw [List.append_nil] at hscan
    exact ⟨_, tokenize_of_scan htext hscan⟩

/-- A backslash and the letters of an escape are a string that is not read back: what it is written
as has an escape in it. -/
theorem escapeString_refused :
    (tokenize (Value.string "\\u0041").render).toOption = none := by
  decide +kernel

end SparqlQuery
