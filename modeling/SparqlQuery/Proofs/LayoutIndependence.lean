import SparqlQuery.Proofs.ScanInsert

namespace SparqlQuery

namespace Token

/-- The same token, further on in the text. -/
def shift (bytes : Nat) (token : Token) : Token :=
  { token with span := ⟨token.span.start + bytes, token.span.stop + bytes⟩ }

/-- What becomes of a token when bytes are put into the text at an offset. -/
def shiftFrom (offset bytes : Nat) (token : Token) : Token :=
  if offset ≤ token.span.start then token.shift bytes else token

end Token

section

variable {w gap rest rest' text : List Char} {offset : Nat} {fresh : UInt32} {tokens : List Token}

theorem Gap.congr_head (h : Gap gap rest) (hhead : rest.head? = rest'.head?) : Gap gap rest' := by
  induction h with
  | done => exact .done rest'
  | blank hc _ ih => exact .blank hc (ih hhead)
  | @comment body gap rest hbody hstop _ ih =>
    refine .comment hbody ?_ (ih hhead)
    cases gap with
    | nil => rwa [List.nil_append, ← hhead]
    | cons => exact hstop

theorem Gap.blanks_append (hw : Blanks w) (h : Gap gap rest) : Gap (w ++ gap) rest := by
  induction w with
  | nil => exact h
  | cons c w ih =>
    obtain ⟨hc, hw⟩ := List.forall_mem_cons.mp hw
    exact .blank hc (ih hw)

/-- A comment in front of a token has come to the end of its line. -/
theorem Gap.append_blanks (hw : Blanks w) {c : Char} (hc : isLineBreak c = false)
    (hhead : rest.head? = some c) (h : Gap gap rest) : Gap (gap ++ w) rest := by
  induction h with
  | done rest =>
    have hall := Gap.blanks_append hw (.done rest)
    rwa [List.append_nil] at hall
  | blank hd _ ih => exact .blank hd (ih hhead)
  | @comment body gap rest hbody hstop _ ih =>
    rw [List.cons_append, List.append_assoc]
    refine .comment hbody ?_ (ih hhead)
    cases gap with
    | cons => exact hstop
    | nil =>
      have hbreak := hstop c hhead
      rw [hc] at hbreak
      cases hbreak

theorem Reads.shift (bytes : Nat) (h : Reads offset fresh text tokens) :
    Reads (offset + bytes) fresh text (tokens.map (Token.shift bytes)) := by
  induction h with
  | ends hgap => exact .ends hgap
  | token hgap hscan hstart hstop _ ih =>
    refine .token hgap hscan ?_ ?_ ih
    · simp only [Token.shift, hstart]
      omega
    · simp only [Token.shift, hstop]
      omega

/-- White space in front of a text moves all its tokens. -/
theorem Reads.blanks_append (hw : Blanks w) (h : Reads offset fresh text tokens) :
    Reads offset fresh (w ++ text) (tokens.map (Token.shift (byteCount w))) := by
  cases h with
  | ends hgap => exact .ends (hgap.blanks_append hw)
  | token hgap hscan hstart hstop hrest =>
    rw [← List.append_assoc]
    refine .token (hgap.blanks_append hw) hscan ?_ ?_ (hrest.shift (byteCount w))
    · simp only [Token.shift, hstart, byteCount_append]
      omega
    · simp only [Token.shift, hstop]
      omega

theorem Reads.behind (h : Reads offset fresh text tokens) :
    ∀ token ∈ tokens, offset ≤ token.span.start ∧ token.span.start < token.span.stop := by
  induction h with
  | ends => simp
  | token _ hscan hstart hstop _ ih =>
    have hpos := byteCount_pos (scanLexeme_append hscan).2
    refine List.forall_mem_cons.mpr ⟨by omega, fun other hother => ?_⟩
    have hlater := ih other hother
    omega

theorem Reads.map_shiftFrom {place : Nat} (h : Reads offset fresh text tokens)
    (hplace : place ≤ offset) (bytes : Nat) :
    tokens.map (Token.shiftFrom place bytes) = tokens.map (Token.shift bytes) := by
  refine List.map_congr_left fun token htoken => ?_
  have hbehind := (h.behind token htoken).1
  exact if_pos (by omega)

theorem isLineBreak_of_leading {kind : Kind} {c : Char} (h : kind ∈ leading c) :
    isLineBreak c = false := by
  by_contra hbreak
  simp only [isLineBreak, Bool.not_eq_false, Bool.or_eq_true, beq_iff_eq] at hbreak
  rcases hbreak with rfl | rfl <;> exact absurd h (by cases kind <;> decide)

/-- White space can be put in where a token begins or ends, and all that it does is to move the
tokens behind it. -/
theorem Reads.insert (hw : Blanks w) (hne : w ≠ []) {place : Nat}
    (h : Reads offset fresh text tokens)
    (hplace : ∃ token ∈ tokens, token.span.start = place ∨ token.span.stop = place) :
    ∃ front back, text = front ++ back ∧ place = offset + byteCount front ∧
      Reads offset fresh (front ++ (w ++ back))
        (tokens.map (Token.shiftFrom place (byteCount w))) := by
  induction h with
  | ends => simp at hplace
  | @token offset fresh gap lexeme rest token tokens hgap hscan hstart hstop hrest ih =>
    obtain ⟨c, more, rfl⟩ := List.exists_cons_of_ne_nil (scanLexeme_append hscan).2
    have hpos := byteCount_pos (scanLexeme_append hscan).2
    have hgap' {s : List Char} : Gap gap (c :: more ++ s) := hgap.congr_head rfl
    by_cases hfront : token.span.start = place
    · have hbreak := isLineBreak_of_leading (mem_leading (scanLexeme_eq_some_iff.mp hscan).1)
      have hhead : token.shiftFrom place (byteCount w) = token.shift (byteCount w) :=
        if_pos (by omega)
      have htail : tokens.map (Token.shiftFrom place (byteCount w)) = _ :=
        hrest.map_shiftFrom (by omega) (byteCount w)
      refine ⟨gap, _, rfl, by omega, ?_⟩
      rw [List.map_cons, hhead, htail, ← List.append_assoc]
      refine .token (hgap.append_blanks hw hbreak rfl) hscan ?_ ?_ (hrest.shift (byteCount w))
      · simp only [Token.shift, hstart, byteCount_append]
        omega
      · simp only [Token.shift, hstop]
        omega
    · by_cases hback : token.span.stop = place
      · have hhead : token.shiftFrom place (byteCount w) = token := if_neg (by omega)
        have htail : tokens.map (Token.shiftFrom place (byteCount w)) = _ :=
          hrest.map_shiftFrom (by omega) (byteCount w)
        refine ⟨gap ++ (c :: more), rest, by simp, by rw [byteCount_append]; omega, ?_⟩
        rw [List.map_cons, hhead, htail, List.append_assoc]
        exact .token hgap' (scanLexeme_insert hw hne [] rest hscan hrest) hstart hstop
          (hrest.blanks_append hw)
      · have hlater : ∃ token ∈ tokens, token.span.start = place ∨ token.span.stop = place := by
          obtain ⟨other, hother, hplace⟩ := hplace
          rcases List.mem_cons.mp hother with rfl | hother
          · exact absurd hplace (by omega)
          · exact ⟨other, hother, hplace⟩
        obtain ⟨front, back, rfl, hbytes, hreads⟩ := ih hlater
        have hhead : token.shiftFrom place (byteCount w) = token := if_neg (by omega)
        refine ⟨gap ++ (c :: more ++ front), back, by simp, ?_, ?_⟩
        · rw [byteCount_append, byteCount_append]
          omega
        · have happ : gap ++ (c :: more ++ front) ++ (w ++ back) =
              gap ++ (c :: more ++ (front ++ (w ++ back))) := by simp
          rw [List.map_cons, hhead, happ]
          exact .token hgap' (scanLexeme_insert hw hne front back hscan hrest) hstart hstop hreads

theorem EscapeFree.blanks_append (hw : Blanks w) (h : EscapeFree text) :
    EscapeFree (w ++ text) := by
  induction w with
  | nil => exact h
  | cons c w ih =>
    obtain ⟨hc, hw⟩ := List.forall_mem_cons.mp hw
    have hnone : escapeDigits? (c :: (w ++ text)) = none := by
      rcases eq_of_isBlank hc with rfl | rfl | rfl | rfl <;> rfl
    exact .cons hnone (ih hw)

theorem EscapeFree.insert (hw : Blanks w) (hne : w ≠ []) {front back : List Char}
    (h : EscapeFree (front ++ back)) : EscapeFree (front ++ (w ++ back)) :=
  h.append_cut (cut_insert hw hne [] back) (h.of_append.blanks_append hw)

end

/-- Layout is free where tokens begin and end: white space put into a text there leaves every
token in front of it as it is and moves every token behind it. -/
theorem tokenize_insert {text w : String} {tokens : List Token} {place : Nat}
    (hescape : hasEscape text.toList = false) (htokens : tokenize text = .ok tokens)
    (hplace : ∃ token ∈ tokens, token.span.start = place ∨ token.span.stop = place)
    (hne : w ≠ "") (hw : ∀ c ∈ w.toList, isBlank c = true) :
    ∃ front back, text = front ++ back ∧ byteCount front.toList = place ∧
      tokenize (front ++ w ++ back) =
        .ok (tokens.map (Token.shiftFrom place (byteCount w.toList))) := by
  have hfree := hasEscape_eq_false_iff.mp hescape
  have hreads := tokenize_eq_ok_iff.mp htokens
  rw [hfree.decodeEscapes] at hreads
  have hne' : w.toList ≠ [] := by simpa using hne
  obtain ⟨front, back, htext, hbytes, hmoved⟩ := hreads.insert hw hne' hplace
  refine ⟨String.ofList front, String.ofList back, ?_, by simp [hbytes], ?_⟩
  · rw [← String.ofList_append, ← htext, String.ofList_toList]
  · rw [htext] at hfree
    have hchars : (String.ofList front ++ w ++ String.ofList back).toList =
        front ++ (w.toList ++ back) := by simp
    rw [tokenize_eq_ok_iff, hchars, (hfree.insert hw hne').decodeEscapes]
    exact hmoved

/-- A line break goes between a namespace and an empty string that touch. -/
theorem namespaceString_spread : ∃ front back, "a:\"\"." = front ++ back ∧
    byteCount front.toList = 2 ∧ tokenize (front ++ "\n" ++ back) =
      .ok ([⟨.prefixedNameNamespace, .prefixedName (some "a") none, ⟨0, 2⟩⟩,
        ⟨.stringLiteral, .string "", ⟨2, 4⟩⟩, ⟨.delimiter, .text ".", ⟨4, 5⟩⟩].map
          (Token.shiftFrom 2 1)) :=
  tokenize_insert (by decide_cbv) (by decide +kernel) ⟨_, List.mem_cons_self, .inr rfl⟩
    (by decide) (List.all_eq_true.mp (by decide))

end SparqlQuery
