import SparqlQuery.Proofs.CommentScan
import SparqlQuery.Proofs.LayoutIndependence

namespace SparqlQuery

/-- What a token says, wherever it stands. -/
def Token.meaning (token : Token) : Kind × Value :=
  (token.kind, token.value)

/-- A text is read to its end as tokens that say this. -/
def Means (fresh : UInt32) (text : List Char) (meanings : List (Kind × Value)) : Prop :=
  ∃ tokens, Reads 0 fresh text tokens ∧ tokens.map Token.meaning = meanings

section

variable {x g s text body after lexeme rest gap : List Char} {fresh : UInt32} {kind : Kind}
  {value : Value} {meanings : List (Kind × Value)}

/-- Where a text stands does not matter to what its tokens say. -/
theorem Reads.moved {offset : Nat} {tokens : List Token} (h : Reads offset fresh text tokens)
    (offset' : Nat) : ∃ moved, Reads offset' fresh text moved ∧
      moved.map Token.meaning = tokens.map Token.meaning := by
  induction h generalizing offset' with
  | ends hgap => exact ⟨[], .ends hgap, rfl⟩
  | @token offset fresh gap lexeme rest token tokens hgap hscan hstart hstop _ ih =>
    obtain ⟨moved, hmoved, hmeaning⟩ := ih (offset' + byteCount gap + byteCount lexeme)
    let again : Token := ⟨token.kind, token.value, ⟨offset' + byteCount gap,
      offset' + byteCount gap + byteCount lexeme⟩⟩
    refine ⟨again :: moved, .token hgap hscan rfl rfl hmoved, ?_⟩
    rw [List.map_cons, List.map_cons, hmeaning]
    rfl

theorem Reads.means {offset : Nat} {tokens : List Token} (h : Reads offset fresh text tokens) :
    Means fresh text (tokens.map Token.meaning) :=
  h.moved 0

theorem Means.cons (hgap : Gap gap (lexeme ++ rest))
    (hscan : scanLexeme fresh (lexeme ++ rest) = some (kind, value, lexeme, rest))
    (h : Means (value.freshAfter fresh) rest meanings) :
    Means fresh (gap ++ (lexeme ++ rest)) ((kind, value) :: meanings) := by
  obtain ⟨tokens, hreads, rfl⟩ := h
  obtain ⟨moved, hmoved, hmeaning⟩ := hreads.moved (0 + byteCount gap + byteCount lexeme)
  let token : Token := ⟨kind, value, ⟨0 + byteCount gap, 0 + byteCount gap + byteCount lexeme⟩⟩
  have hreads' : Reads 0 fresh (gap ++ (lexeme ++ rest)) (token :: moved) :=
    .token hgap hscan rfl rfl hmoved
  refine ⟨token :: moved, hreads', ?_⟩
  rw [List.map_cons, hmeaning]
  rfl

/-- The first thing that a text says is what is scanned behind its first gap. -/
theorem Means.scan (hgap : Gap gap s) (hunit : gapUnit s = 0)
    (h : Means fresh (gap ++ s) ((kind, value) :: meanings)) : ∃ lexeme rest,
      scanLexeme fresh s = some (kind, value, lexeme, rest) ∧
      Means (value.freshAfter fresh) rest meanings := by
  obtain ⟨tokens, hreads, hmeaning⟩ := h
  obtain ⟨token, tail, rfl, htoken, rfl⟩ := List.map_eq_cons_iff.mp hmeaning
  cases htoken
  generalize htext : gap ++ s = text at hreads
  cases hreads with
  | @token _ _ gap' lexeme rest _ _ hgap' hscan _ _ hrest =>
    have hsplit := splitGap_of_gap hgap hunit
    rw [htext, splitGap_of_gap hgap' (gapUnit_of_scan hscan), Prod.mk.injEq] at hsplit
    obtain ⟨rfl, rfl⟩ := hsplit
    exact ⟨lexeme, rest, hscan, hrest.means⟩

/-- The comment that a number sign begins, or goes on with, ends inside the gap, and what is left
is a gap with a space in its place. -/
theorem Gap.space (h : Gap (x ++ '#' :: g) rest) : ∃ body gap, g = body ++ gap ∧
    (∀ c ∈ body, isLineBreak c = false) ∧ (∀ c ∈ (gap ++ rest).head?, isLineBreak c = true) ∧
    Gap (x ++ ' ' :: gap) rest := by
  generalize hfront : x ++ '#' :: g = front at h
  induction h generalizing x with
  | done => cases x <;> cases hfront
  | @blank c gap rest hc _ ih =>
    cases x with
    | nil =>
      obtain ⟨rfl, -⟩ := List.cons.inj hfront
      cases hc
    | cons d x =>
      obtain ⟨rfl, htail⟩ := List.cons.inj hfront
      obtain ⟨body, gap', hg, hbody, hstop, hgap⟩ := ih htail
      exact ⟨body, gap', hg, hbody, hstop, .blank hc hgap⟩
  | @comment line gap rest hline hstop hgap ih =>
    cases x with
    | nil =>
      obtain ⟨-, rfl⟩ := List.cons.inj hfront
      exact ⟨line, gap, rfl, hline, hstop, .blank rfl hgap⟩
    | cons d x =>
      obtain ⟨rfl, htail⟩ := List.cons.inj hfront
      have hnot {s : List Char} : gap ≠ '#' :: s := by
        rintro rfl
        have hbreak := hstop '#' rfl
        cases hbreak
      rcases List.append_eq_append_iff.mp htail with ⟨more, rfl, hmore⟩ | ⟨more, rfl, hmore⟩
      · cases more with
        | nil => exact absurd hmore.symm hnot
        | cons c more =>
          obtain ⟨rfl, rfl⟩ := List.cons.inj hmore
          refine ⟨more, gap, rfl, ?_, hstop, ?_⟩
          · exact fun c hc => hline c (by simp [hc])
          · have hline' : ∀ c ∈ x ++ [' '], isLineBreak c = false := by
              refine List.forall_mem_append.mpr ⟨fun c hc => hline c (by simp [hc]), ?_⟩
              simp [isLineBreak]
            have hcomment := Gap.comment hline' hstop hgap
            rwa [List.append_assoc, List.singleton_append] at hcomment
      · cases more with
        | nil => exact absurd hmore hnot
        | cons c more =>
          obtain ⟨body, gap', hg, hbody, hstop', hgap'⟩ := ih (x := c :: more) hmore.symm
          refine ⟨body, gap', hg, hbody, hstop', ?_⟩
          rw [hmore] at hstop
          have hnext : ∀ d ∈ (c :: more ++ ' ' :: gap' ++ rest).head?, isLineBreak d = true := hstop
          have hcomment := Gap.comment hline hnext hgap'
          rwa [← List.append_assoc] at hcomment

/-- The gap holds the comment as far as its line goes. -/
theorem Gap.replace_comment (h : Gap (x ++ '#' :: g) rest) (htext : body ++ after = g ++ rest)
    (hbody : ∀ c ∈ body, isLineBreak c = false)
    (hafter : ∀ c ∈ after.head?, isLineBreak c = true) :
    ∃ gap, after = gap ++ rest ∧ Gap (x ++ ' ' :: gap) rest := by
  obtain ⟨body', gap, rfl, hbody', hstop, hgap⟩ := h.space
  refine ⟨gap, ?_, hgap⟩
  have hdrop {u v : List Char} (hu : ∀ c ∈ u, isLineBreak c = false)
      (hv : ∀ c ∈ v.head?, isLineBreak c = true) : (u ++ v).dropWhile (!isLineBreak ·) = v := by
    have hstops : StopsAt (!isLineBreak ·) v := by
      intro c hc
      simpa using hv c hc
    exact hstops.dropWhile_append fun c hc => by simpa using hu c hc
  rw [← hdrop hbody hafter, htext, List.append_assoc, hdrop hbody' hstop]

end

/-- A token in front of a comment is still read once the comment has become a space, unless it
takes the space in. -/
theorem means_token_space_iff {front gap lexeme x z after : List Char} {offset : Nat}
    {fresh fresh' : UInt32} {token : Token} {tokens : List Token}
    {meanings : List (Kind × Value)} (hgap : Gap gap (lexeme ++ (x ++ '#' :: z)))
    (hscan : scanLexeme fresh (lexeme ++ (x ++ '#' :: z)) =
      some (token.kind, token.value, lexeme, x ++ '#' :: z))
    (hstart : token.span.start = byteCount front)
    (hstop : token.span.stop = token.span.start + byteCount lexeme)
    (hrest : Reads offset fresh' (x ++ '#' :: z) tokens) :
    Means fresh (gap ++ (lexeme ++ (x ++ ' ' :: after))) (token.meaning :: meanings) ↔
      ¬ token.RunsOn (front ++ (lexeme ++ x)) after ∧
        Means (token.value.freshAfter fresh) (x ++ ' ' :: after) meanings := by
  obtain ⟨c, more, rfl⟩ := List.exists_cons_of_ne_nil (scanLexeme_append hscan).2
  have hgap' : Gap gap (c :: more ++ (x ++ ' ' :: after)) := hgap.congr_head rfl
  have hleading := mem_leading (scanLexeme_eq_some_iff.mp hscan).1
  have hunit : gapUnit (c :: more ++ (x ++ ' ' :: after)) = 0 := gapUnit_of_leading hleading _
  constructor
  · intro hmeans
    obtain ⟨lexeme, rest, hscan', hmeans'⟩ := hmeans.scan hgap' hunit
    have hnot : ¬ token.RunsOn (front ++ (c :: more ++ x)) after := by
      intro hruns
      rw [← List.append_assoc] at hscan hscan'
      exact hruns.ne_scan hscan hstart hstop hscan' rfl
    rw [scanLexeme_space hscan hrest hstart hstop hnot] at hscan'
    cases hscan'
    exact ⟨hnot, hmeans'⟩
  · rintro ⟨hnot, hmeans⟩
    exact Means.cons hgap' (scanLexeme_space hscan hrest hstart hstop hnot) hmeans

/-- What stands behind a comment does not take in a space in its place. -/
theorem Reads.not_runsOn {before text : List Char} {offset : Nat} {fresh : UInt32}
    {tokens : List Token} (h : Reads offset fresh text tokens) (hlt : byteCount before < offset)
    (after : List Char) : ∀ token ∈ tokens, ¬ token.RunsOn before after := by
  intro token htoken hruns
  have hbehind := (h.behind token htoken).1
  have hle := hruns.start_le
  omega

/-- Once a comment between tokens has become a space, a text says what it said before, unless
one of its tokens takes the space in. -/
theorem Reads.means_space_iff {front x body after : List Char} {offset : Nat} {fresh : UInt32}
    {tokens : List Token} (h : Reads offset fresh (x ++ '#' :: (body ++ after)) tokens)
    (hoffset : offset = byteCount front)
    (hplace : ∀ token ∈ tokens, token.span.stop ≤ byteCount (front ++ x) ∨
      byteCount (front ++ x) < token.span.start)
    (hbody : ∀ c ∈ body, isLineBreak c = false)
    (hafter : ∀ c ∈ after.head?, isLineBreak c = true) :
    Means fresh (x ++ ' ' :: after) (tokens.map Token.meaning) ↔
      ∀ token ∈ tokens, ¬ token.RunsOn (front ++ x) after := by
  generalize htext : x ++ '#' :: (body ++ after) = text at h
  induction h generalizing front x with
  | @ends offset fresh gap hgap =>
    subst htext
    obtain ⟨gap, rfl, hgap'⟩ := hgap.replace_comment (List.append_nil _).symm hbody hafter
    rw [List.append_nil]
    have hends : Reads 0 fresh (x ++ ' ' :: gap) [] := .ends hgap'
    exact iff_of_true hends.means (List.forall_mem_nil _)
  | @token offset fresh gap lexeme rest token tokens hgap hscan hstart hstop hrest ih =>
    rw [byteCount_append] at hplace
    obtain ⟨hhead, htail⟩ := List.forall_mem_cons.mp hplace
    have hbytes : token.span.stop = byteCount (front ++ (gap ++ lexeme)) := by
      rw [hstop, hstart, hoffset, byteCount_append, byteCount_append, Nat.add_assoc]
    rw [List.map_cons, List.forall_mem_cons]
    rcases hhead with hhead | hhead
    · rw [← List.append_assoc] at htext
      have hle : byteCount (gap ++ lexeme) ≤ byteCount x := by
        rw [hbytes, byteCount_append] at hhead
        omega
      obtain ⟨x, rfl, rfl⟩ := exists_append_of_byteCount_le htext.symm hle
      have hstart' : token.span.start = byteCount (front ++ gap) := by
        rw [hstart, hoffset, byteCount_append]
      have hfront : front ++ (gap ++ lexeme ++ x) = front ++ (gap ++ lexeme) ++ x := by simp
      have hfront' : front ++ (gap ++ lexeme) ++ x = front ++ gap ++ (lexeme ++ x) := by simp
      have htext' : gap ++ lexeme ++ x ++ ' ' :: after =
          gap ++ (lexeme ++ (x ++ ' ' :: after)) := by simp
      rw [← byteCount_append, hfront] at htail
      rw [hfront, htext', means_token_space_iff hgap hscan hstart' hstop hrest, ← hfront',
        ih hbytes htail rfl]
    · have hlt : byteCount x < byteCount gap := by omega
      obtain ⟨more, rfl, hmore⟩ := exists_append_of_byteCount_le htext (by omega)
      cases more with
      | nil => simp at hlt
      | cons c g =>
        obtain ⟨rfl, hbehind⟩ := List.cons.inj hmore
        obtain ⟨gap, rfl, hgap'⟩ := hgap.replace_comment hbehind hbody hafter
        have hmeans := Means.cons hgap' hscan hrest.means
        rw [List.append_assoc, List.cons_append] at hmeans
        rw [← byteCount_append] at hhead
        have hnot : ¬ token.RunsOn (front ++ x) (gap ++ (lexeme ++ rest)) := by
          intro hruns
          have hle := hruns.start_le
          omega
        have hlater : byteCount (front ++ x) < token.span.stop := by omega
        exact iff_of_true hmeans ⟨hnot, hrest.not_runsOn hlater _⟩

theorem EscapeFree.space {x body after : List Char}
    (h : EscapeFree (x ++ '#' :: (body ++ after))) : EscapeFree (x ++ ' ' :: after) := by
  have htail : EscapeFree after := by
    have hcomment : EscapeFree ('#' :: (body ++ after)) := h.of_append
    cases hcomment with
    | cons _ hbody => exact hbody.of_append
  exact h.append_cut (cut_space [] (body ++ after) after) (.cons rfl htail)

/-- A comment between tokens counts as white space but for two things: brackets close up over
white space alone, and a string in triple quotes may reach over the space where the comment
stopped it. -/
theorem tokenize_comment_iff {before body after : String} {tokens : List Token}
    (hescape : hasEscape (before ++ "#" ++ body ++ after).toList = false)
    (htokens : tokenize (before ++ "#" ++ body ++ after) = .ok tokens)
    (hplace : ∀ token ∈ tokens, token.span.stop ≤ byteCount before.toList ∨
      byteCount before.toList < token.span.start)
    (hbody : ∀ c ∈ body.toList, isLineBreak c = false)
    (hafter : ∀ c ∈ after.toList.head?, isLineBreak c = true) :
    (∃ again, tokenize (before ++ " " ++ after) = .ok again ∧
      again.map Token.meaning = tokens.map Token.meaning) ↔
    ∀ token ∈ tokens, ¬ token.RunsOn before.toList after.toList := by
  have hchars : (before ++ "#" ++ body ++ after).toList =
      before.toList ++ '#' :: (body.toList ++ after.toList) := by simp
  have hchars' : (before ++ " " ++ after).toList = before.toList ++ ' ' :: after.toList := by simp
  have hfree := hasEscape_eq_false_iff.mp hescape
  have hreads := tokenize_eq_ok_iff.mp htokens
  rw [hfree.decodeEscapes, hchars] at hreads
  rw [hchars] at hfree
  simp only [tokenize_eq_ok_iff, hchars', hfree.space.decodeEscapes]
  have hfront : 0 = byteCount [] := rfl
  exact hreads.means_space_iff hfront hplace hbody hafter

/-- A comment between two variables. -/
theorem variablesComment_blank : ∃ again, tokenize ("?x" ++ " " ++ "\r?y") = .ok again ∧
    again.map Token.meaning = [(.variableName, .text "x"), (.variableName, .text "y")] := by
  have htokens : tokenize ("?x" ++ "#" ++ "(" ++ "\r?y") =
      .ok [⟨.variableName, .text "x", ⟨0, 2⟩⟩, ⟨.variableName, .text "y", ⟨5, 7⟩⟩] := by
    decide +kernel
  refine (tokenize_comment_iff (by decide_cbv) htokens (by decide) ?_ ?_).mpr ?_
  · exact List.forall_mem_singleton.mpr rfl
  · rintro c ⟨⟩
    rfl
  · intro token htoken hruns
    have hkind : token.kind = .variableName := by
      simp only [List.mem_cons, List.not_mem_nil, or_false] at htoken
      rcases htoken with rfl | rfl <;> rfl
    cases hruns with
    | bracket _ hdelimiter => cases hkind.symm.trans hdelimiter
    | string _ hstring => cases hkind.symm.trans hstring

/-- Brackets around a comment alone are two tokens, around white space they are one. And where a
comment has a backslash in it, no string in triple quotes reaches over it; over a space one does. -/
theorem comments_not_blank :
    (hasEscape "(#c\n)".toList = false ∧
      tokenize "(#c\n)" =
        .ok [⟨.delimiter, .text "(", ⟨0, 1⟩⟩, ⟨.delimiter, .text ")", ⟨4, 5⟩⟩] ∧
      tokenize "( \n)" = .ok [⟨.nil, .text "()", ⟨0, 4⟩⟩]) ∧
    hasEscape "\"\"\"a\"#\\\n\"\"\"b\"".toList = false ∧
      tokenize "\"\"\"a\"#\\\n\"\"\"b\"" =
        .ok [⟨.stringLiteral, .string "", ⟨0, 2⟩⟩, ⟨.stringLiteral, .string "a", ⟨2, 5⟩⟩,
          ⟨.stringLiteral, .string "", ⟨8, 10⟩⟩, ⟨.stringLiteral, .string "b", ⟨10, 13⟩⟩] ∧
      (tokenize "\"\"\"a\" \n\"\"\"b\"").toOption = none := by
  decide +kernel

end SparqlQuery
