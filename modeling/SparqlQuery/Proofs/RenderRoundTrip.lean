import SparqlQuery.Proofs.EscapeFree
import SparqlQuery.Proofs.RenderScan
import SparqlQuery.Proofs.SpoiledName
import Mathlib.Data.List.Chain
import Mathlib.Data.List.Forall2

namespace SparqlQuery

/-- No backslash stands in front of a letter that would make it the escape of a code point. -/
def UnmarkedSlashes (s : List Char) : Prop :=
  s.IsChain fun c d => c = '\\' → d ≠ 'u' ∧ d ≠ 'U'

section

variable {s t : List Char}

theorem UnmarkedSlashes.cons {c : Char} (hc : c ≠ '\\') (h : UnmarkedSlashes s) :
    UnmarkedSlashes (c :: s) :=
  List.isChain_cons.mpr ⟨fun _ _ hslash => absurd hslash hc, h⟩

theorem unmarkedSlashes_of_not_mem (h : '\\' ∉ s) : UnmarkedSlashes s := by
  induction s with
  | nil => exact List.IsChain.nil
  | cons c s ih =>
    rw [List.mem_cons, not_or] at h
    exact .cons (Ne.symm h.1) (ih h.2)

theorem UnmarkedSlashes.append (hs : UnmarkedSlashes s) (ht : UnmarkedSlashes t)
    (hnext : BlankNext t) : UnmarkedSlashes (s ++ t) := by
  refine List.isChain_append.mpr ⟨hs, ht, fun c _ d hd _ => ?_⟩
  rcases eq_of_isBlank (hnext d hd) with rfl | rfl | rfl | rfl <;> decide

/-- The escapes in a quoted string are all of one letter, and of another one. -/
theorem unmarkedSlashes_quotedChars (h : '\\' ∉ s) : UnmarkedSlashes (quotedChars s) := by
  rw [quotedChars_eq]
  refine .cons (by decide) ?_
  induction s with
  | nil => exact .cons (by decide) List.IsChain.nil
  | cons c s ih =>
    rw [List.mem_cons, not_or] at h
    rw [List.flatMap_cons]
    rcases quotedUnit_cases c with ⟨letter, hletter, hunit, hu, hU⟩ | ⟨hunit, -, hslash, -⟩
    · have hne : letter ≠ '\\' := by
        rintro rfl
        cases hletter
        exact h.1 rfl
      rw [hunit]
      refine List.isChain_cons.mpr ⟨?_, UnmarkedSlashes.cons hne (ih h.2)⟩
      rintro d ⟨⟩ -
      exact ⟨hu, hU⟩
    · rw [hunit]
      exact .cons hslash (ih h.2)

theorem UnmarkedSlashes.escapeFree (h : UnmarkedSlashes s) : EscapeFree s := by
  induction s with
  | nil => exact .nil
  | cons c s ih =>
    obtain ⟨hhead, hs⟩ := List.isChain_cons.mp h
    refine .cons ?_ (ih hs)
    by_contra hsome
    obtain ⟨digits, hdigits⟩ := Option.ne_none_iff_exists'.mp hsome
    obtain ⟨mark, t, hmark, -, happ⟩ := escapeDigits?_eq_some_iff.mp hdigits
    obtain ⟨rfl, rfl⟩ := List.cons.inj happ
    obtain ⟨hu, hU⟩ := hhead mark rfl rfl
    rcases hmark with ⟨rfl, -⟩ | ⟨rfl, -⟩
    · exact hu rfl
    · exact hU rfl

end

namespace Token

def chars (token : Token) : List Char :=
  token.kind.chars token.value

/-- A token that was read somewhere without a backslash; if it is a double, one that can be read
back. -/
def Writable (fresh : UInt32) (token : Token) : Prop :=
  ∃ lexeme rest,
    scanLexeme fresh (lexeme ++ rest) = some (token.kind, token.value, lexeme, rest) ∧
      '\\' ∉ lexeme ∧ ∀ d, token.value = .double d → d.ReadsBack

def IsDelimiter (symbol : String) (token : Token) : Prop :=
  token.kind = .delimiter ∧ token.value = .text symbol

/-- Two brackets that are one token when nothing but white space stands between them. -/
def ClosesUp (opening closing : Token) : Prop :=
  opening.IsDelimiter "(" ∧ closing.IsDelimiter ")" ∨
    opening.IsDelimiter "[" ∧ closing.IsDelimiter "]"

section

variable {fresh : UInt32} {token : Token}

theorem Writable.leading (h : token.Writable fresh) :
    ∃ c more, token.chars = c :: more ∧ token.kind ∈ SparqlQuery.leading c := by
  obtain ⟨lexeme, rest, hscan, hslash, hdouble⟩ := h
  exact rendered_leading hslash hdouble hscan

theorem Writable.delimiter (h : token.Writable fresh) (hkind : token.kind = .delimiter) :
    token.chars ∈ delimiters ∧ token.value = .text (String.ofList token.chars) := by
  obtain ⟨lexeme, rest, hscan, -⟩ := h
  obtain ⟨kind, value, span⟩ := token
  obtain rfl : kind = .delimiter := hkind
  obtain ⟨hsplit, hvalue, -⟩ := scanLexeme_eq_some_iff.mp hscan
  cases hvalue
  have hchars : (String.ofList lexeme).toList = lexeme := String.toList_ofList
  have hmem := splitSymbol_mem hsplit
  simp [chars, Kind.chars, Value.chars, hmem]

/-- A delimiter that begins with a bracket is that bracket. -/
theorem Writable.isDelimiter {c : Char} (hc : ∀ symbol ∈ delimiters, symbol.head? = some c →
      symbol = [c]) (h : token.Writable fresh) (hkind : token.kind = .delimiter)
    (hhead : token.chars.head? = some c) : token.IsDelimiter (String.ofList [c]) := by
  obtain ⟨hmem, hvalue⟩ := h.delimiter hkind
  rw [hc _ hmem hhead] at hvalue
  exact ⟨hkind, hvalue⟩

theorem Writable.unmarkedSlashes (h : token.Writable fresh) : UnmarkedSlashes token.chars := by
  obtain ⟨lexeme, rest, hscan, hslash, hdouble⟩ := h
  obtain ⟨kind, value, span⟩ := token
  obtain ⟨hsplit, hvalue, -⟩ := scanLexeme_eq_some_iff.mp hscan
  simp only at hscan hsplit hvalue hdouble
  unfold chars
  by_cases hverbatim : kind ∈ verbatimKinds
  · simp only [chars_eq_lexeme hverbatim hsplit hvalue hslash]
    exact unmarkedSlashes_of_not_mem hslash
  by_cases hstring : kind = .stringLiteral
  · subst hstring
    cases hvalue
    have hplain := unmarkedSlashes_quotedChars (stringContent_plain hslash)
    simpa [Kind.chars, Value.chars] using hplain
  · have hagain := split_rendered hverbatim hslash hdouble hscan
    have hiri : kind ≠ .iriRef := by
      rintro rfl
      exact absurd (by decide) hverbatim
    have hname : kind ≠ .prefixedNameWithLocal := by
      rintro rfl
      exact absurd (by decide) hverbatim
    have hmarks := Kind.split_markFree hiri hname hstring hagain
    exact unmarkedSlashes_of_not_mem fun hmem => absurd (hmarks _ hmem) (by decide)

end

end Token

/-- Tokens that were read one after the other, each of them writable. -/
inductive AllWritable : UInt32 → List Token → Prop
  | nil (fresh : UInt32) : AllWritable fresh []
  | cons {fresh : UInt32} {token : Token} {tokens : List Token} (h : token.Writable fresh)
      (hrest : AllWritable (token.value.freshAfter fresh) tokens) :
      AllWritable fresh (token :: tokens)

/-- Tokens written out with a space between any two, after something in front of the first. -/
def renderedAfter (front : List Char) : List Token → List Char
  | [] => []
  | token :: tokens => front ++ (token.chars ++ renderedAfter [' '] tokens)

theorem toList_intercalate_render (tokens : List Token) :
    (" ".intercalate (tokens.map Token.render)).toList = renderedAfter [] tokens := by
  have hrender (token : Token) : token.render.toList = token.chars := String.toList_ofList
  induction tokens with
  | nil => rfl
  | cons token tokens ih =>
    cases tokens with
    | nil => simp [renderedAfter, hrender]
    | cons other tokens =>
      simp only [List.map_cons] at ih ⊢
      rw [String.intercalate_cons_cons, String.toList_append, String.toList_append, ih, hrender]
      simp [renderedAfter]

theorem blankNext_renderedAfter (tokens : List Token) : BlankNext (renderedAfter [' '] tokens) := by
  cases tokens with
  | nil => exact blankNext_nil
  | cons token tokens =>
    rintro c ⟨⟩
    rfl

section

variable {fresh : UInt32} {token : Token} {tokens : List Token}

/-- Two brackets that are apart and stay two tokens. -/
theorem splitEmpty_rendered {opening closing : Char}
    (hopening : ∀ symbol ∈ delimiters, symbol.head? = some opening → symbol = [opening])
    (hclosing : ∀ symbol ∈ delimiters, symbol.head? = some closing → symbol = [closing])
    (hleading : leading closing = [.delimiter])
    (h : token.Writable fresh) (hkind : token.kind = .delimiter)
    (hrest : AllWritable (token.value.freshAfter fresh) tokens)
    (hapart : ∀ other ∈ tokens.head?, ¬ (token.IsDelimiter (String.ofList [opening]) ∧
      other.IsDelimiter (String.ofList [closing]))) :
    splitEmpty opening closing (token.chars ++ renderedAfter [' '] tokens) = none := by
  obtain ⟨c, more, hchars, -⟩ := h.leading
  rw [hchars, List.cons_append, splitEmpty_eq_none_iff]
  rintro ⟨rfl, hclose⟩
  have hhead : token.chars.head? = some c := by rw [hchars]; rfl
  have hthis := h.isDelimiter hopening hkind hhead
  obtain rfl : more = [] := by
    have hsymbol := hopening _ (h.delimiter hkind).1 hhead
    rw [hchars] at hsymbol
    exact (List.cons.inj hsymbol).2
  cases hrest with
  | nil => cases hclose
  | @cons _ other tokens hother _ =>
    obtain ⟨d, more, hchars', hlead⟩ := hother.leading
    have hd : isBlank d = false := by
      by_contra hblank
      rw [leading_of_gap (.inl (by simpa using hblank))] at hlead
      cases hlead
    simp only [renderedAfter, hchars', List.cons_append, List.nil_append] at hclose
    rw [List.dropWhile_cons_of_pos (by decide), List.dropWhile_cons_of_neg (by simp [hd])] at hclose
    cases hclose
    rw [hleading, List.mem_singleton] at hlead
    exact hapart other rfl ⟨hthis, hother.isDelimiter hclosing hlead (by rw [hchars']; rfl)⟩

/-- What tokens are written as is read as tokens of the same kinds with values that agree. -/
theorem AllWritable.reads (h : AllWritable fresh tokens)
    (hapart : tokens.IsChain fun a b => ¬ a.ClosesUp b) {front : List Char}
    (hfront : ∀ rest, Gap front rest) (offset : Nat) : ∃ again,
    Reads offset fresh (renderedAfter front tokens) again ∧
      List.Forall₂ (fun a b => a.kind = b.kind ∧ a.value.agrees b.value = true) tokens again := by
  induction h generalizing front offset with
  | nil fresh => exact ⟨[], .ends (.done []), .nil⟩
  | @cons fresh token tokens hwritable hrest ih =>
    obtain ⟨hnext, hapart'⟩ := List.isChain_cons.mp hapart
    have hopen (hkind : token.kind = .delimiter) :
        splitEmpty '[' ']' (token.chars ++ renderedAfter [' '] tokens) = none ∧
          splitEmpty '(' ')' (token.chars ++ renderedAfter [' '] tokens) = none :=
      ⟨splitEmpty_rendered (by decide) (by decide) (by decide) hwritable hkind hrest
          fun other hother hboth => hnext other hother (.inr hboth),
        splitEmpty_rendered (by decide) (by decide) (by decide) hwritable hkind hrest
          fun other hother hboth => hnext other hother (.inl hboth)⟩
    obtain ⟨lexeme, rest, hscan, hslash, hdouble⟩ := hwritable
    obtain ⟨value, hagain, hagrees⟩ :=
      scan_rendered (blankNext_renderedAfter tokens) hslash hdouble hopen hscan
    have hfresh : value.freshAfter fresh = token.value.freshAfter fresh := by
      unfold Value.freshAfter
      rw [Value.isAnonymousBlank_of_agrees hagrees]
    let again : Token := ⟨token.kind, value, ⟨offset + byteCount front,
      offset + byteCount front + byteCount token.chars⟩⟩
    have hspace (rest : List Char) : Gap [' '] rest := .blank rfl (.done rest)
    obtain ⟨others, hothers, hall⟩ := ih hapart' hspace again.span.stop
    rw [← hfresh] at hothers
    exact ⟨again :: others, Reads.token (hfront _) hagain rfl rfl hothers,
      .cons ⟨rfl, hagrees⟩ hall⟩

theorem AllWritable.unmarkedSlashes (h : AllWritable fresh tokens) :
    UnmarkedSlashes (renderedAfter [' '] tokens) := by
  induction h with
  | nil => exact List.IsChain.nil
  | cons hwritable _ ih =>
    exact UnmarkedSlashes.cons (by decide)
      (hwritable.unmarkedSlashes.append ih (blankNext_renderedAfter _))

theorem Reads.allWritable {offset : Nat} (before : List Char) {text : List Char}
    (h : Reads offset fresh text tokens) (hoffset : offset = byteCount before)
    (hslash : ∀ token ∈ tokens, '\\' ∉ token.span.slice (before ++ text))
    (hdouble : ∀ token ∈ tokens, ∀ d, token.value = .double d → d.ReadsBack) :
    AllWritable fresh tokens := by
  induction h generalizing before with
  | ends => exact .nil _
  | @token offset fresh gap lexeme rest token tokens hgap hscan hstart hstop _ ih =>
    have hbefore : token.span.start = byteCount (before ++ gap) := by
      rw [byteCount_append]
      omega
    have hslice := Span.slice_of_append rest hbefore hstop
    have happ : before ++ (gap ++ (lexeme ++ rest)) = before ++ gap ++ (lexeme ++ rest) := by simp
    rw [happ] at hslash
    have hplain := hslash token List.mem_cons_self
    rw [hslice] at hplain
    refine .cons ⟨lexeme, rest, hscan, hplain, hdouble token List.mem_cons_self⟩ ?_
    refine ih (before ++ gap ++ lexeme) ?_ ?_ ?_
    · rw [byteCount_append]
      omega
    · intro other hother
      rw [List.append_assoc]
      exact hslash other (List.mem_cons_of_mem _ hother)
    · exact fun other hother => hdouble other (List.mem_cons_of_mem _ hother)

end

/-- Tokens that are written out with a space between any two are read back: as many tokens, of the
same kinds and with values that agree. Tokens written with backslashes are left out, since the
escapes are decoded in what is written, and so are two brackets that would close up over the
space. -/
theorem tokenize_render {text : String} {tokens : List Token} (htokens : tokenize text = .ok tokens)
    (hslash : ∀ token ∈ tokens, '\\' ∉ token.span.slice (decodeEscapes text.toList))
    (hapart : tokens.IsChain fun a b => ¬ a.ClosesUp b)
    (hdouble : ∀ token ∈ tokens, ∀ d, token.value = .double d → d.ReadsBack) : ∃ again,
    tokenize (" ".intercalate (tokens.map Token.render)) = .ok again ∧
      List.Forall₂ (fun a b => a.kind = b.kind ∧ a.value.agrees b.value = true) tokens again := by
  have hall : AllWritable 0 tokens :=
    (tokenize_eq_ok_iff.mp htokens).allWritable [] rfl hslash hdouble
  obtain ⟨again, hreads, hagain⟩ := hall.reads hapart (fun rest => .done rest) 0
  have hunmarked : UnmarkedSlashes (renderedAfter [] tokens) := by
    cases tokens with
    | nil => exact List.IsChain.nil
    | cons token tokens => exact (List.isChain_cons.mp hall.unmarkedSlashes).2
  refine ⟨again, ?_, hagain⟩
  rw [tokenize_eq_ok_iff, toList_intercalate_render, hunmarked.escapeFree.decodeEscapes]
  exact hreads

/-- Ten in scientific notation is a double and is read back as the same one. -/
theorem Double.readsBack_ten : Double.ReadsBack ⟨0x4024000000000000⟩ :=
  ⟨⟨0x4024000000000000⟩, by decide +kernel, by decide +kernel⟩

/-- A variable, a double and an anonymous node. -/
theorem variableTenNode_rendered : ∃ again,
    tokenize (" ".intercalate ([⟨.variableName, .text "x", ⟨0, 2⟩⟩,
        ⟨.numericLiteral, .double ⟨0x4024000000000000⟩, ⟨3, 6⟩⟩,
        ⟨.blankNode, .ofAnonymous 0, ⟨6, 9⟩⟩].map Token.render)) = .ok again ∧
      List.Forall₂ (fun a b : Token => a.kind = b.kind ∧ a.value.agrees b.value = true)
        [⟨.variableName, .text "x", ⟨0, 2⟩⟩,
          ⟨.numericLiteral, .double ⟨0x4024000000000000⟩, ⟨3, 6⟩⟩,
          ⟨.blankNode, .ofAnonymous 0, ⟨6, 9⟩⟩] again := by
  have htokens : tokenize "$x 1e1[ ]" = .ok [⟨.variableName, .text "x", ⟨0, 2⟩⟩,
      ⟨.numericLiteral, .double ⟨0x4024000000000000⟩, ⟨3, 6⟩⟩,
      ⟨.blankNode, .ofAnonymous 0, ⟨6, 9⟩⟩] := by decide +kernel
  refine tokenize_render htokens (by decide +kernel) ?_ ?_
  · simp [Token.ClosesUp, Token.IsDelimiter]
  · intro token htoken d hd
    simp only [List.mem_cons, List.not_mem_nil, or_false] at htoken
    rcases htoken with rfl | rfl | rfl
    · cases hd
    · cases hd
      exact Double.readsBack_ten
    · cases hd

end SparqlQuery
