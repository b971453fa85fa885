import SparqlQuery.Proofs.BlankNodeIdentity
import SparqlQuery.Proofs.EscapeSpelling
import SparqlQuery.Proofs.SlashInLexeme

namespace SparqlQuery

/-- An escape with all its digits that names no character: a surrogate, or a code above the
last. -/
def NamesNothing (pattern : List Char) : Prop :=
  ∃ mark digits n, EscapeMark mark digits ∧ Denotes 16 digits n ∧
    (0xD800 ≤ n ∧ n ≤ 0xDFFF ∨ 0x10FFFF < n) ∧ pattern = '\\' :: mark :: digits

/-- A byte that is in no token and before the error, if there is one. -/
def InGap (tokens : List Token) (failure : Option LexError) (place : Nat) : Prop :=
  (∀ token ∈ tokens, token.span.stop ≤ place ∨ place < token.span.start) ∧
    ∀ e ∈ failure, place < e.position

/-- What follows a text is in a comment: behind a hash between tokens, on its line. -/
def InComment (tokens : List Token) (failure : Option LexError) (read : List Char) : Prop :=
  ∃ front body, read = front ++ '#' :: body ∧ (∀ c ∈ body, isLineBreak c = false) ∧
    InGap tokens failure (byteCount front)

/-- What follows a text is in a string, and an odd number of backslashes stands before it, so that
it is the last of them that escapes it. -/
def EscapedInString (tokens : List Token) (read : List Char) : Prop :=
  endSlashes read % 2 = 1 ∧ ∃ token ∈ tokens, token.kind = .stringLiteral ∧
    token.span.start ≤ byteCount read ∧ byteCount read < token.span.stop

section

variable {offset : Nat} {text read more gap rest : List Char} {d : Char} {tokens : List Token}
  {failure : Option LexError}

theorem Tiling.offset_le (h : Tiling offset text tokens failure) :
    (∀ token ∈ tokens, offset ≤ token.span.start) ∧ ∀ e ∈ failure, offset ≤ e.position := by
  induction h with
  | ends => simp
  | fails _ _ hposition => simp [hposition]
  | reads _ _ hstart hstop _ ih =>
    obtain ⟨htokens, hfailure⟩ := ih
    refine ⟨List.forall_mem_cons.mpr ⟨by omega, fun token htoken => ?_⟩, fun e he => ?_⟩
    · have hle := htokens token htoken
      omega
    · have hle := hfailure e he
      omega

theorem InGap.cons {token : Token} {place : Nat} (h : InGap tokens failure place)
    (htoken : token.span.stop ≤ place ∨ place < token.span.start) :
    InGap (token :: tokens) failure place :=
  ⟨List.forall_mem_cons.mpr ⟨htoken, h.1⟩, h.2⟩

/-- What comes before the text is in no token of it. -/
theorem Tiling.inGap_of_lt {place : Nat} (h : Tiling offset text tokens failure)
    (hlt : place < offset) : InGap tokens failure place := by
  obtain ⟨htokens, hfailure⟩ := h.offset_le
  exact ⟨fun token htoken => .inr (hlt.trans_le (htokens token htoken)),
    fun e he => hlt.trans_le (hfailure e he)⟩

theorem Tiling.stop_le_position (h : Tiling offset text tokens failure) :
    ∀ token ∈ tokens, ∀ e ∈ failure, token.span.stop ≤ e.position := by
  induction h with
  | ends => simp
  | fails => simp
  | reads _ _ _ _ hrest ih => exact List.forall_mem_cons.mpr ⟨hrest.offset_le.2, ih⟩

/-- In a gap, a character that neither is white space nor begins a comment is in one. -/
theorem Gap.comment_before (h : Gap gap rest) (hgap : gap = read ++ d :: more)
    (hblank : isBlank d = false) (hhash : d ≠ '#') :
    ∃ front body, read = front ++ '#' :: body ∧ ∀ c ∈ body, isLineBreak c = false := by
  induction h generalizing read with
  | done => simp at hgap
  | @blank c gap _ hc _ ih =>
    cases read with
    | nil =>
      obtain ⟨rfl, -⟩ := List.cons.inj hgap
      rw [hc] at hblank
      cases hblank
    | cons e read =>
      obtain ⟨front, body, rfl, hbody⟩ := ih (List.cons.inj hgap).2
      exact ⟨e :: front, body, rfl, hbody⟩
  | @comment line gap _ hline _ _ ih =>
    cases read with
    | nil => exact absurd (List.cons.inj hgap).1.symm hhash
    | cons e read =>
      obtain ⟨rfl, htail⟩ := List.cons.inj hgap
      rcases List.append_eq_append_iff.mp htail with ⟨more', rfl, hmore⟩ | ⟨line', rfl, hmore⟩
      · obtain ⟨front, body, rfl, hbody⟩ := ih hmore
        exact ⟨'#' :: (line ++ front), body, by simp, hbody⟩
      · exact ⟨[], read, rfl, fun c hc => hline c (List.mem_append_left _ hc)⟩

/-- The hash of that comment is in the gap as well. -/
theorem Gap.comment_within (h : Gap gap rest) (happ : gap ++ rest = read ++ d :: more)
    (hlt : byteCount read < byteCount gap) (hblank : isBlank d = false) (hhash : d ≠ '#') :
    ∃ front body, read = front ++ '#' :: body ∧ (∀ c ∈ body, isLineBreak c = false) ∧
      byteCount front < byteCount gap := by
  obtain ⟨tail, rfl, -⟩ := exists_cons_of_byteCount_lt happ hlt
  obtain ⟨front, body, rfl, hbody⟩ := h.comment_before rfl hblank hhash
  refine ⟨front, body, rfl, hbody, lt_of_le_of_lt ?_ hlt⟩
  rw [byteCount_append]
  exact Nat.le_add_right _ _

/-- A character that neither is white space nor begins a comment is behind the error, in a token
or in a comment. -/
theorem Tiling.place (h : Tiling offset text tokens failure) (htext : text = read ++ d :: more)
    (hblank : isBlank d = false) (hhash : d ≠ '#') :
    (∃ e ∈ failure, e.position ≤ offset + byteCount read) ∨
      (∃ token ∈ tokens, token.span.start ≤ offset + byteCount read ∧
        offset + byteCount read < token.span.stop) ∨
      ∃ front body, read = front ++ '#' :: body ∧ (∀ c ∈ body, isLineBreak c = false) ∧
        InGap tokens failure (offset + byteCount front) := by
  induction h generalizing read with
  | ends hgap =>
    obtain ⟨front, body, hread, hbody⟩ := hgap.comment_before htext hblank hhash
    exact .inr (.inr ⟨front, body, hread, hbody, by simp [InGap]⟩)
  | @fails offset gap rest e hgap hne hposition =>
    by_cases hle : byteCount gap ≤ byteCount read
    · exact .inl ⟨e, rfl, by omega⟩
    · obtain ⟨front, body, rfl, hbody, hfront⟩ :=
        hgap.comment_within htext (by omega) hblank hhash
      refine .inr (.inr ⟨front, body, rfl, hbody, by simp, ?_⟩)
      rintro _ ⟨⟩
      omega
  | @reads offset gap lexeme rest token tokens failure hgap hne hstart hstop hrest ih =>
    by_cases hbefore : byteCount read < byteCount gap
    · obtain ⟨front, body, rfl, hbody, hfront⟩ :=
        hgap.comment_within htext hbefore hblank hhash
      have hlt : offset + byteCount front < token.span.start := by omega
      have hgap' := hrest.inGap_of_lt (hlt.trans_le (by omega))
      exact .inr (.inr ⟨front, body, rfl, hbody, hgap'.cons (.inr hlt)⟩)
    · by_cases hinside : byteCount read < byteCount gap + byteCount lexeme
      · exact .inr (.inl ⟨token, List.mem_cons_self, by omega, by omega⟩)
      · rw [← List.append_assoc] at htext
        obtain ⟨read, rfl, htail⟩ := exists_append_of_byteCount_le htext
          (by rw [byteCount_append]; omega)
        have hbehind (s : List Char) : offset + byteCount (gap ++ lexeme ++ s) =
            token.span.stop + byteCount s := by
          simp only [byteCount_append]
          omega
        rw [hbehind]
        rcases ih htail with herror | ⟨other, hother, hin⟩ | ⟨front, body, rfl, hbody, hgap'⟩
        · exact .inl herror
        · exact .inr (.inl ⟨other, List.mem_cons_of_mem _ hother, hin⟩)
        · refine .inr (.inr ⟨gap ++ lexeme ++ front, body, by simp, hbody, ?_⟩)
          rw [hbehind]
          exact hgap'.cons (.inl (by omega))

end

section

variable {source read more : List Char} {mark : Char}

/-- A backslash before the mark of an escape is what a lexer stops at, at the latest, unless it is
in a comment or escaped by another one in a string. -/
theorem Lexer.slash_reported (hsource : source = read ++ '\\' :: mark :: more)
    (hmark : mark = 'u' ∨ mark = 'U')
    (hcomment : ¬ InComment (Lexer.ofChars source).run.1 (Lexer.ofChars source).run.2 read) :
    (∃ e, (Lexer.ofChars source).run.2 = some e ∧ e.position ≤ byteCount read) ↔
      ¬ EscapedInString (Lexer.ofChars source).run.1 read := by
  have hready : (Lexer.ofChars source).finished = false := rfl
  have htiling : Tiling 0 source (Lexer.ofChars source).run.1 (Lexer.ofChars source).run.2 :=
    Lexer.tiling_run hready
  constructor
  · rintro ⟨e, he, hle⟩ ⟨-, token, htoken, -, -, hlt⟩
    have hstop := htiling.stop_le_position token htoken e he
    omega
  · intro hescaped
    have hplace := htiling.place hsource (by decide) (by decide)
    simp only [Nat.zero_add] at hplace
    rcases hplace with ⟨e, he, hle⟩ | ⟨token, htoken, hstart, hlt⟩ | hbody
    · exact ⟨e, he, hle⟩
    · refine absurd ?_ hescaped
      obtain ⟨fresh, front, lexeme, rest, happ, hfront, hstop, hscan⟩ := run_placed htoken
      rw [hsource] at happ
      have hle : byteCount front ≤ byteCount read := by omega
      obtain ⟨inner, rfl, htail⟩ := exists_append_of_byteCount_le happ.symm hle
      have hinner : byteCount inner < byteCount lexeme := by
        rw [byteCount_append] at hlt
        omega
      obtain ⟨tail, rfl, hnext⟩ := exists_cons_of_byteCount_lt htail hinner
      obtain ⟨hsplit, -, -⟩ := scanLexeme_eq_some_iff.mp hscan
      obtain ⟨hkind, hodd⟩ := Kind.slash_of_split hsplit rfl hnext.symm hmark
      exact ⟨hodd front, token, htoken, hkind, hstart, hlt⟩
    · exact absurd hbody hcomment

theorem not_seamInEscape_slash (s t : List Char) : ¬ SeamInEscape s ('\\' :: t) := by
  rintro ⟨front, inner, outer, back, -, ht, hinner, houter, mark, digits, hmark, hall, happ⟩
  obtain ⟨c, inner, rfl⟩ := List.exists_cons_of_ne_nil hinner
  obtain ⟨d, outer, rfl⟩ := List.exists_cons_of_ne_nil houter
  obtain rfl := (List.cons.inj ht).1
  have hmem : '\\' ∈ mark :: digits := by
    rw [← (List.cons.inj happ).2]
    simp
  rcases List.mem_cons.mp hmem with hslash | hdigit
  · rcases hmark with ⟨rfl, -⟩ | ⟨rfl, -⟩ <;> cases hslash
  · exact absurd (hall _ hdigit) (by decide)

theorem charOfCode?_eq_none {n : Nat} (h : 0xD800 ≤ n ∧ n ≤ 0xDFFF ∨ 0x10FFFF < n) :
    charOfCode? n = none := by
  have hnot : ¬ (n < 0xD800 ∨ 0xDFFF < n ∧ n < 0x110000) := by omega
  exact if_neg hnot

/-- An escape that names no character is kept where it stands. -/
theorem decodeEscapes_namesNothing {pattern : List Char} (h : NamesNothing pattern)
    (before after : List Char) :
    decodeEscapes (before ++ (pattern ++ after)) =
      decodeEscapes before ++ (pattern ++ decodeEscapes after) := by
  obtain ⟨mark, digits, n, hmark, hdigits, hn, rfl⟩ := h
  have hescape := escapeDigits?_of_escape hmark hdigits.isHexDigit after
  have hunit := decodeUnit_escape hescape
  rw [hdigits.hexValue_eq, charOfCode?_eq_none hn] at hunit
  rw [List.cons_append, List.cons_append, decodeEscapes_seam (not_seamInEscape_slash _ _),
    decodeEscapes_escape hescape, hunit]
  rfl

end

/-- An escape that names no character, outside of comments, is what lexing stops at, at the latest,
but for one thing: in a string, its backslash may be escaped by another one, and is then a
character of the string like the letters behind it. -/
theorem undecodableEscape_reported {text : String} {before pattern after : List Char}
    (htext : text.toList = before ++ (pattern ++ after)) (hpattern : NamesNothing pattern)
    (hcomment : ¬ InComment (Lexer.ofText text).run.1 (Lexer.ofText text).run.2
      (decodeEscapes before)) :
    decodeEscapes text.toList = decodeEscapes before ++ (pattern ++ decodeEscapes after) ∧
    ((∃ e, tokenize text = .error e ∧ e.position ≤ byteCount (decodeEscapes before)) ↔
      ¬ EscapedInString (Lexer.ofText text).run.1 (decodeEscapes before)) := by
  have hdecoded := decodeEscapes_namesNothing hpattern before after
  rw [← htext] at hdecoded
  refine ⟨hdecoded, ?_⟩
  obtain ⟨mark, digits, n, hmark, -, -, rfl⟩ := hpattern
  have hletter : mark = 'u' ∨ mark = 'U' := hmark.imp And.left And.left
  simp only [tokenize_eq_error_iff]
  exact Lexer.slash_reported hdecoded hletter hcomment

theorem not_inComment {tokens : List Token} {failure : Option LexError} {read : List Char}
    (h : '#' ∉ read) : ¬ InComment tokens failure read := by
  rintro ⟨front, body, rfl, -⟩
  simp at h

theorem surrogate_namesNothing : NamesNothing ['\\', 'u', 'D', '8', '0', '0'] :=
  ⟨'u', ['D', '8', '0', '0'], 0xD800, .inl ⟨rfl, rfl⟩,
    ⟨[13, 8, 0, 0], .cons (by decide) (.cons (by decide) (.cons (by decide)
      (.cons (by decide) .nil))), by decide⟩, by decide, rfl⟩

/-- Behind two backslashes, a surrogate is reported. -/
theorem thirdBackslash_reported : ∃ e, tokenize "\"\\\\\\uD800\"" = .error e ∧ e.position ≤ 3 := by
  have htext : "\"\\\\\\uD800\"".toList =
      ['"', '\\', '\\'] ++ (['\\', 'u', 'D', '8', '0', '0'] ++ ['"']) := by decide
  have hread : decodeEscapes ['"', '\\', '\\'] = ['"', '\\', '\\'] := by decide +kernel
  have hhash : '#' ∉ decodeEscapes ['"', '\\', '\\'] := by
    rw [hread]
    decide
  obtain ⟨-, hreported⟩ :=
    undecodableEscape_reported htext surrogate_namesNothing (not_inComment hhash)
  rw [hread] at hreported
  refine hreported.mpr fun hescaped => ?_
  exact absurd hescaped.1 (by decide)

/-- Behind one, it is what the string is made of. -/
theorem secondBackslash_lexed :
    NamesNothing ['\\', 'u', 'D', '8', '0', '0'] ∧
      "\"\\\\uD800\"".toList = ['"', '\\'] ++ (['\\', 'u', 'D', '8', '0', '0'] ++ ['"']) ∧
      (∀ tokens failure, ¬ InComment tokens failure (decodeEscapes ['"', '\\'])) ∧
      tokenize "\"\\\\uD800\"" = .ok [⟨.stringLiteral, .string "\\uD800", ⟨0, 9⟩⟩] := by
  have hread : '#' ∉ decodeEscapes ['"', '\\'] := by decide +kernel
  exact ⟨surrogate_namesNothing, by decide, fun _ _ => not_inComment hread, by decide +kernel⟩

end SparqlQuery
