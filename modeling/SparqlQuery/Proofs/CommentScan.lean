import SparqlQuery.Proofs.ScanInsert
import SparqlQuery.Proofs.StringText

namespace SparqlQuery

/-- A token takes in the space that stands where a comment stood between `before` and `after`. -/
inductive Token.RunsOn (before after : List Char) (token : Token) : Prop
  /-- An opening bracket with nothing but white space and the comment up to the closing one. -/
  | bracket {front back w w' : List Char} {opening closing : Char}
      (hpair : (opening, closing) ∈ [('(', ')'), ('[', ']')]) (hkind : token.kind = .delimiter)
      (hstart : token.span.start = byteCount front) (hbefore : before = front ++ opening :: w)
      (hafter : after = w' ++ closing :: back) (hw : Blanks w) (hw' : Blanks w')
  /-- Two quotes that now begin a string in triple quotes. -/
  | string {front text : List Char} {quote : Char} (hquote : quote ∈ ['"', '\''])
      (hkind : token.kind = .stringLiteral)
      (hspan : token.span = ⟨byteCount front, byteCount front + 2⟩)
      (hbefore : before = front ++ text) (hlong : splitLong quote (text ++ ' ' :: after) ≠ none)

theorem Token.RunsOn.start_le {before after : List Char} {token : Token}
    (h : token.RunsOn before after) : token.span.start ≤ byteCount before := by
  cases h with
  | bracket _ _ hstart hbefore =>
    rw [hbefore, byteCount_append]
    omega
  | string _ _ hspan hbefore =>
    rw [hbefore, byteCount_append, hspan]
    exact Nat.le_add_right _ _

section

variable {quote : Char} {s t lexeme rest : List Char}

theorem blankFree_quote (hquote : quote ∈ ['"', '\'']) : quote ≠ '\\' ∧ isBlank quote = false := by
  rcases quote_cases hquote with rfl | rfl <;> decide

theorem utf8Size_quote (hquote : quote ∈ ['"', '\'']) : quote.utf8Size = 1 := by
  rcases quote_cases hquote with rfl | rfl <;> rfl

theorem splitLong_eq_some_iff : splitLong quote s = some (lexeme, rest) ↔ ∃ content,
    UnitRun (longUnit quote) content (List.replicate 3 quote ++ rest) ∧
      lexeme = List.replicate 3 quote ++ content ++ List.replicate 3 quote ∧ s = lexeme ++ rest :=
  splitFenced_eq_some_iff (fits_longUnit quote)

theorem two_lt_byteCount (hquote : quote ∈ ['"', '\''])
    (h : splitLong quote s = some (lexeme, rest)) : 2 < byteCount lexeme := by
  obtain ⟨content, -, rfl, -⟩ := splitLong_eq_some_iff.mp h
  simp only [byteCount_append, List.replicate, byteCount_cons, byteCount_nil,
    utf8Size_quote hquote]
  omega

/-- Where a string of two bytes is read, no string in triple quotes begins. -/
theorem splitLong_of_byteCount (h : splitString s = some (lexeme, rest))
    (hbytes : byteCount lexeme = 2) (hquote : quote ∈ ['"', '\'']) : splitLong quote s = none := by
  by_contra hsome
  obtain ⟨⟨lexeme', rest'⟩, hlong⟩ := Option.ne_none_iff_exists'.mp hsome
  have hsame := splitString_of_long hquote hlong
  rw [h] at hsame
  cases hsame
  have hlt := two_lt_byteCount hquote hlong
  omega

/-- A string of two bytes is two quotes and says nothing. -/
theorem stringContent_of_byteCount (h : splitString s = some (lexeme, rest))
    (hbytes : byteCount lexeme = 2) : stringContent lexeme = [] := by
  have hlong {quote : Char} (hquote : quote ∈ ['"', '\'']) : splitLong quote s = none :=
    splitLong_of_byteCount h hbytes hquote
  have hshort {quote : Char} (hquote : quote ∈ ['"', '\''])
      (h : splitShort quote s = some (lexeme, rest)) : lexeme = [quote, quote] := by
    obtain ⟨content, -, rfl, -⟩ := (splitFenced_eq_some_iff (fits_shortUnit quote)).mp h
    simp only [byteCount_append, byteCount_cons, byteCount_nil, utf8Size_quote hquote] at hbytes
    obtain rfl := eq_nil_of_byteCount (s := content) (by omega)
    rfl
  rw [splitString_eq, hlong (by decide), hlong (by decide)] at h
  have hshorts : (splitShort '"' s <|> splitShort '\'' s) = some (lexeme, rest) := h
  rcases orElse_eq_some_iff.mp hshorts with h | ⟨-, h⟩
  · simp [hshort (by decide) h, stringContent, stringBody]
  · simp [hshort (by decide) h, stringContent, stringBody]

/-- Where a string that is in no triple quotes begins with three quotes, it is the first two. -/
theorem lexeme_of_fence (hquote : quote ∈ ['"', '\''])
    (h : splitString (List.replicate 3 quote ++ s) = some (lexeme, rest))
    (hnone : splitLong quote (List.replicate 3 quote ++ s) = none) : lexeme = [quote, quote] := by
  have hshort : splitShort quote (List.replicate 3 quote ++ s) =
      some ([quote, quote], quote :: s) := by
    refine (splitFenced_eq_some_iff (fits_shortUnit quote)).mpr ⟨[], .stop ?_, rfl, rfl⟩
    exact shortUnit_quote (blankFree_quote hquote).1 _
  rw [splitString_eq] at h
  rcases quote_cases hquote with rfl | rfl
  · have hother : splitLong '\'' (List.replicate 3 '"' ++ s) = none :=
      splitFenced_of_ne (by decide) _ _ _
    rw [hnone, hother, hshort] at h
    cases h
    rfl
  · have hother : splitLong '"' (List.replicate 3 '\'' ++ s) = none :=
      splitFenced_of_ne (by decide) _ _ _
    have hother' : splitShort '"' (List.replicate 3 '\'' ++ s) = none :=
      splitFenced_of_ne (by decide) _ _ _
    rw [hother, hnone, hother', hshort] at h
    cases h
    rfl

end

section

variable {token : Token} {tokens : List Token} {offset : Nat} {fresh fresh' : UInt32}
  {front lexeme rest x z after : List Char}

/-- The text behind a token is cut where the comment becomes a space. -/
theorem cut_space (x z after : List Char) : Cut (x ++ '#' :: z) (x ++ ' ' :: after) := by
  refine Cut.append x (.here ?_)
  rintro c ⟨⟩
  rfl

section

variable {opening closing : Char} {gap w w' : List Char}

theorem pair_cases (h : (opening, closing) ∈ [('(', ')'), ('[', ']')]) :
    opening = '(' ∧ closing = ')' ∨ opening = '[' ∧ closing = ']' := by
  simpa using h

theorem isBlank_closing (h : (opening, closing) ∈ [('(', ')'), ('[', ']')]) :
    isBlank closing = false := by
  rcases pair_cases h with ⟨-, rfl⟩ | ⟨-, rfl⟩ <;> rfl

theorem splitEmpty_blanks (hclosing : isBlank closing = false) (hgap : Blanks gap)
    (opening : Char) (s : List Char) :
    splitEmpty opening closing (opening :: (gap ++ closing :: s)) ≠ none := by
  have htext : opening :: (gap ++ closing :: s) = opening :: (gap ++ [closing]) ++ s := by simp
  rw [(splitEmpty_eq_some_iff hclosing).mpr ⟨gap, hgap, rfl, htext⟩]
  exact Option.some_ne_none _

theorem splitEmpty_over_space (hpair : (opening, closing) ∈ [('(', ')'), ('[', ']')])
    (hw : Blanks w) (hw' : Blanks w') (back : List Char) :
    splitEmpty opening closing (opening :: w ++ ' ' :: (w' ++ closing :: back)) ≠ none := by
  have hgap : Blanks (w ++ ' ' :: w') :=
    List.forall_mem_append.mpr ⟨hw, List.forall_mem_cons.mpr ⟨rfl, hw'⟩⟩
  have hblanks := splitEmpty_blanks (isBlank_closing hpair) hgap opening back
  rwa [List.append_assoc, List.cons_append] at hblanks

end

/-- Brackets that close up over the space take it in. -/
theorem runsOn_of_splitEmpty {opening closing : Char}
    (hpair : (opening, closing) ∈ [('(', ')'), ('[', ']')]) (hkind : token.kind = .delimiter)
    (hstart : token.span.start = byteCount front)
    (hnone : splitEmpty opening closing (x ++ '#' :: z) = none) (hne : x ≠ [])
    (hsome : splitEmpty opening closing (x ++ ' ' :: after) ≠ none) :
    token.RunsOn (front ++ x) after := by
  have hclosing := isBlank_closing hpair
  obtain ⟨⟨lexeme, rest⟩, hsplit⟩ := Option.ne_none_iff_exists'.mp hsome
  obtain ⟨gap, hgap, rfl, htext⟩ := (splitEmpty_eq_some_iff hclosing).mp hsplit
  obtain ⟨c, w, rfl⟩ := List.exists_cons_of_ne_nil hne
  obtain rfl := (List.cons.inj htext).1
  have htail : w ++ ' ' :: after = gap ++ closing :: rest := by simpa using htext
  rcases List.append_eq_append_iff.mp htail with ⟨more, rfl, hmore⟩ | ⟨more, rfl, hmore⟩
  · cases more with
    | nil =>
      obtain ⟨rfl, -⟩ := List.cons.inj hmore
      cases hclosing
    | cons d w' =>
      obtain ⟨-, rfl⟩ := List.cons.inj hmore
      obtain ⟨hw, hw'⟩ := List.forall_mem_append.mp hgap
      exact .bracket hpair hkind hstart rfl rfl hw (List.forall_mem_cons.mp hw').2
  · cases more with
    | nil =>
      obtain ⟨rfl, -⟩ := List.cons.inj hmore
      cases hclosing
    | cons d more =>
      obtain ⟨rfl, -⟩ := List.cons.inj hmore
      have hbefore := splitEmpty_blanks hclosing hgap c (more ++ '#' :: z)
      simp only [List.cons_append, List.append_assoc] at hnone
      exact absurd hnone hbefore

/-- Two quotes that begin a string in triple quotes over the space take it in. -/
theorem runsOn_of_splitLong {quote : Char} (hquote : quote ∈ ['"', '\''])
    (hkind : token.kind = .stringLiteral) (hstart : token.span.start = byteCount front)
    (hstop : token.span.stop = token.span.start + byteCount lexeme)
    (hsplit : splitString (x ++ '#' :: z) = some (lexeme, rest))
    (hnone : splitLong quote (x ++ '#' :: z) = none)
    (hsome : splitLong quote (x ++ ' ' :: after) ≠ none) : token.RunsOn (front ++ x) after := by
  obtain ⟨hslash, hblank⟩ := blankFree_quote hquote
  obtain ⟨t, ht, -⟩ := (splitLong_ne_none_iff hslash).mp hsome
  have hcut := cut_space x z after
  rw [ht] at hcut
  obtain ⟨u, hu, -⟩ := Cut.of_append (blankFree_fence hblank) hcut
  have hlexeme : lexeme = [quote, quote] := by
    rw [hu] at hsplit hnone
    exact lexeme_of_fence hquote hsplit hnone
  have hbytes : byteCount lexeme = 2 := by
    simp [hlexeme, utf8Size_quote hquote]
  refine .string hquote hkind ?_ rfl hsome
  rw [← hstart, ← hbytes, ← hstop]

/-- A token that does not run on over the space is read as it was. -/
theorem scanLexeme_space
    (hscan : scanLexeme fresh (lexeme ++ (x ++ '#' :: z)) =
      some (token.kind, token.value, lexeme, x ++ '#' :: z))
    (hrest : Reads offset fresh' (x ++ '#' :: z) tokens)
    (hstart : token.span.start = byteCount front)
    (hstop : token.span.stop = token.span.start + byteCount lexeme)
    (hruns : ¬ token.RunsOn (front ++ (lexeme ++ x)) after) :
    scanLexeme fresh (lexeme ++ (x ++ ' ' :: after)) =
      some (token.kind, token.value, lexeme, x ++ ' ' :: after) := by
  have hne : lexeme ++ x ≠ [] := by
    simp [(scanLexeme_append hscan).2]
  have hcut := cut_space x z after
  refine scanLexeme_cut hcut ?_ hscan
  generalize hkind : token.kind = kind at hscan
  cases kind with
  | prefixedNameNamespace => exact splitPrefixedName_of_scan hcut hscan hrest
  | stringLiteral =>
    intro quote hquote hnone
    have hsplit := (scanLexeme_eq_some_iff.mp hscan).1
    by_contra hsome
    rw [← List.append_assoc] at hsplit hnone hsome
    exact hruns (runsOn_of_splitLong hquote hkind hstart hstop hsplit hnone hsome)
  | delimiter =>
    obtain ⟨hbrackets, hparens⟩ := splitEmpty_of_scan hscan
    rw [← List.append_assoc] at hbrackets hparens
    constructor
    · by_contra hsome
      rw [← List.append_assoc] at hsome
      exact hruns (runsOn_of_splitEmpty (by decide) hkind hstart hbrackets hne hsome)
    · by_contra hsome
      rw [← List.append_assoc] at hsome
      exact hruns (runsOn_of_splitEmpty (by decide) hkind hstart hparens hne hsome)
  | _ => trivial

/-- A string in triple quotes that reaches over the space has something in it. -/
theorem stringContent_ne_nil {quote : Char} (hquote : quote ∈ ['"', '\''])
    (hnone : splitLong quote (x ++ '#' :: z) = none)
    (hsome : splitLong quote (x ++ ' ' :: after) = some (lexeme, rest)) :
    stringContent lexeme ≠ [] := by
  intro hnil
  obtain ⟨hslash, hblank⟩ := blankFree_quote hquote
  obtain ⟨content, -, rfl, htext⟩ := splitLong_eq_some_iff.mp hsome
  obtain rfl := eq_nil_of_stringContent hnil
  have hfree : ∀ c ∈ List.replicate 3 quote ++ List.replicate 3 quote, isBlank c = false :=
    List.forall_mem_append.mpr ⟨blankFree_fence hblank, blankFree_fence hblank⟩
  have hcut := cut_space x z after
  rw [htext, List.append_nil] at hcut
  obtain ⟨t, ht, -⟩ := Cut.of_append hfree hcut
  rw [List.append_assoc] at ht
  have hreach : ReachesFence quote (List.replicate 3 quote ++ t) :=
    .fence (List.prefix_append _ t)
  exact (splitLong_ne_none_iff hslash).mpr ⟨_, ht, hreach⟩ hnone

/-- What is read in place of a token that runs on over the space is of another kind or says
something else. -/
theorem Token.RunsOn.ne_scan {kind : Kind} {value : Value} {lexeme' rest' : List Char}
    (hruns : token.RunsOn (front ++ x) after)
    (hscan : scanLexeme fresh (x ++ '#' :: z) = some (token.kind, token.value, lexeme, rest))
    (hstart : token.span.start = byteCount front)
    (hstop : token.span.stop = token.span.start + byteCount lexeme)
    (hscan' : scanLexeme fresh' (x ++ ' ' :: after) = some (kind, value, lexeme', rest')) :
    (kind, value) ≠ (token.kind, token.value) := by
  intro hsame
  rw [Prod.mk.injEq] at hsame
  obtain ⟨rfl, rfl⟩ := hsame
  cases hruns with
  | @bracket front' back w w' opening closing hpair hkind hstart' hbefore hafter hw hw' =>
    obtain ⟨-, rfl⟩ := append_inj_of_byteCount hbefore (hstart.symm.trans hstart')
    rw [hkind] at hscan'
    obtain ⟨hbrackets, hparens⟩ := splitEmpty_of_scan hscan'
    have hcloses := splitEmpty_over_space hpair hw hw' back
    rw [← hafter] at hcloses
    rcases pair_cases hpair with ⟨rfl, rfl⟩ | ⟨rfl, rfl⟩
    · exact hcloses hparens
    · exact hcloses hbrackets
  | @string front' text quote hquote hkind hspan hbefore hlong =>
    have hstart' : token.span.start = byteCount front' := by rw [hspan]
    have hstop' : token.span.stop = byteCount front' + 2 := by rw [hspan]
    have hbytes : byteCount lexeme = 2 := by omega
    obtain ⟨-, rfl⟩ := append_inj_of_byteCount hbefore (hstart.symm.trans hstart')
    rw [hkind] at hscan hscan'
    obtain ⟨hsplit, hvalue, -⟩ := scanLexeme_eq_some_iff.mp hscan
    obtain ⟨hsplit', hvalue', -⟩ := scanLexeme_eq_some_iff.mp hscan'
    have hnothing := stringContent_of_byteCount hsplit hbytes
    have hnone := splitLong_of_byteCount hsplit hbytes hquote
    obtain ⟨⟨lexeme'', rest''⟩, hsome⟩ := Option.ne_none_iff_exists'.mp hlong
    have hstring := (splitString_of_long hquote hsome).symm.trans hsplit'
    rw [Option.some.injEq, Prod.mk.injEq] at hstring
    obtain ⟨rfl, rfl⟩ := hstring
    have hsomething := stringContent_ne_nil hquote hnone hsome
    apply hsomething
    simp only [Kind.value?, Option.some.injEq] at hvalue hvalue'
    rw [← hvalue, hnothing] at hvalue'
    simpa using hvalue'

end

end SparqlQuery
