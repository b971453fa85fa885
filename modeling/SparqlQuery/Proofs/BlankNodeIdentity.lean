import SparqlQuery.Proofs.TokenShape

namespace SparqlQuery

/-- Brackets with nothing but white space between them. -/
def isEmptyBrackets : List Char → Bool
  | '[' :: s => s.dropWhile isBlank == [']']
  | _ => false

theorem isEmptyBrackets_of_blanks {gap : List Char} (hgap : ∀ c ∈ gap, isBlank c = true) :
    isEmptyBrackets ('[' :: (gap ++ [']'])) = true := by
  have hstops : StopsAt isBlank [']'] := stopsAt_cons (by decide) []
  simp [isEmptyBrackets, hstops.dropWhile_append hgap]

/-- The identifier of an anonymous node is no label, since it begins with a bracket. -/
theorem IsDottedName.not_anonymous {label : List Char} (h : IsDottedName isVariableStart label) :
    (Value.blankNode (String.ofList label)).isAnonymousBlank = false := by
  obtain ⟨c, name, rfl, hc, -⟩ := h
  have hne : c ≠ '[' := ne_of_class hc (by decide)
  simp [Value.isAnonymousBlank, Value.anonymousMark, List.isPrefixOf, hne.symm]

theorem Value.ofAnonymous_inj {m n : UInt32} (h : Value.ofAnonymous m = Value.ofAnonymous n) :
    m = n := by
  have hid : anonymousMark ++ m.toNat.repr = anonymousMark ++ n.toNat.repr := Value.blankNode.inj h
  have hchars := congrArg String.toList hid
  rw [String.toList_append, String.toList_append, List.append_cancel_left_eq] at hchars
  have hdigits : natChars m.toNat = natChars n.toNat := hchars
  have hvalue := congrArg digitsValue hdigits
  rw [digitsValue_natChars, digitsValue_natChars] at hvalue
  exact UInt32.toNat_inj.mp hvalue

theorem Value.agrees_blankNode_iff {id : String} {value : Value} :
    (Value.blankNode id).agrees value = true ↔ value = .blankNode id := by
  have hsame : (Value.blankNode id).agrees value = (Value.blankNode id == value) := by
    cases value <;> rfl
  rw [hsame, beq_iff_eq]
  exact eq_comm

section

variable {fresh : UInt32} {value : Value} {lexeme rest : List Char}

/-- A blank node is written with its label, or as empty brackets and then has the next number. -/
theorem blankNode_of_scan
    (h : scanLexeme fresh (lexeme ++ rest) = some (.blankNode, value, lexeme, rest)) :
    (∃ label, lexeme = '_' :: ':' :: label ∧ IsDottedName isVariableStart label ∧
      value = .blankNode (String.ofList label)) ∨
    (isEmptyBrackets lexeme = true ∧ value = .ofAnonymous fresh) := by
  obtain ⟨hsplit, hvalue, -⟩ := scanLexeme_eq_some_iff.mp h
  rcases orElse_eq_some_iff.mp hsplit with hlabel | ⟨-, hempty⟩
  · obtain ⟨c, run, hc, hrun, rfl, -⟩ := splitBlankLabel_eq_some_iff.mp hlabel
    cases hvalue
    exact .inl ⟨c :: run, rfl, isDottedName_of_run hc hrun, rfl⟩
  · obtain ⟨gap, hgap, rfl, -⟩ := (splitEmpty_eq_some_iff (by decide)).mp hempty
    cases hvalue
    exact .inr ⟨isEmptyBrackets_of_blanks hgap, rfl⟩

/-- No token of another kind has the value of a blank node. -/
theorem kind_of_isAnonymousBlank {kind : Kind}
    (h : scanLexeme fresh (lexeme ++ rest) = some (kind, value, lexeme, rest))
    (hmark : value.isAnonymousBlank = true) : kind = .blankNode := by
  have hadmits := Kind.admits_of_scan h
  cases value with
  | blankNode id => cases kind <;> first | rfl | exact hadmits.elim
  | _ => cases hmark

theorem isAnonymousBlank_iff {kind : Kind}
    (h : scanLexeme fresh (lexeme ++ rest) = some (kind, value, lexeme, rest)) :
    value.isAnonymousBlank = true ↔ kind = .blankNode ∧ isEmptyBrackets lexeme = true := by
  constructor
  · intro hmark
    obtain rfl := kind_of_isAnonymousBlank h hmark
    rcases blankNode_of_scan h with ⟨label, -, hlabel, rfl⟩ | ⟨hempty, -⟩
    · rw [hlabel.not_anonymous] at hmark
      cases hmark
    · exact ⟨rfl, hempty⟩
  · rintro ⟨rfl, hempty⟩
    rcases blankNode_of_scan h with ⟨label, rfl, -⟩ | ⟨-, rfl⟩
    · cases hempty
    · exact isAnonymousBlank_ofAnonymous fresh

theorem ofAnonymous_of_scan {kind : Kind}
    (h : scanLexeme fresh (lexeme ++ rest) = some (kind, value, lexeme, rest))
    (hmark : value.isAnonymousBlank = true) : value = .ofAnonymous fresh := by
  obtain ⟨rfl, hempty⟩ := (isAnonymousBlank_iff h).mp hmark
  rcases blankNode_of_scan h with ⟨label, rfl, -⟩ | ⟨-, hvalue⟩
  · cases hempty
  · exact hvalue

/-- A lexeme that begins as a labelled node does is one with that label. -/
theorem label_of_scan {label : List Char}
    (h : scanLexeme fresh ('_' :: ':' :: label ++ rest) =
      some (.blankNode, value, '_' :: ':' :: label, rest)) :
    value = .blankNode (String.ofList label) := by
  rcases blankNode_of_scan h with ⟨label', hlabel, -, hvalue⟩ | ⟨hempty, -⟩
  · cases hlabel
    exact hvalue
  · cases hempty

theorem sameBlankNode_iff {fresh' : UInt32} {value' : Value} {lexeme' rest' : List Char}
    (h : scanLexeme fresh (lexeme ++ rest) = some (.blankNode, value, lexeme, rest))
    (h' : scanLexeme fresh' (lexeme' ++ rest') = some (.blankNode, value', lexeme', rest'))
    (hdistinct : value.isAnonymousBlank = true → value'.isAnonymousBlank = true →
      value ≠ value') :
    value.agrees value' = true ↔
      ∃ label, lexeme = '_' :: ':' :: label ∧ lexeme' = '_' :: ':' :: label := by
  have hagrees : value.agrees value' = true ↔ value' = value := by
    rcases blankNode_of_scan h with ⟨_, -, -, rfl⟩ | ⟨-, rfl⟩ <;>
      exact Value.agrees_blankNode_iff
  rw [hagrees]
  constructor
  · rintro rfl
    rcases blankNode_of_scan h with ⟨label, hlabel, hname, rfl⟩ | ⟨-, rfl⟩
    · rcases blankNode_of_scan h' with ⟨label', hlabel', -, hvalue⟩ | ⟨-, hvalue⟩
      · rw [Value.blankNode.injEq, String.ofList_inj] at hvalue
        exact ⟨label, hlabel, hvalue ▸ hlabel'⟩
      · have hmark := hname.not_anonymous
        rw [hvalue, isAnonymousBlank_ofAnonymous] at hmark
        cases hmark
    · have hmark := isAnonymousBlank_ofAnonymous fresh
      exact absurd rfl (hdistinct hmark hmark)
  · rintro ⟨label, rfl, rfl⟩
    rw [label_of_scan h, label_of_scan h']

end

section

variable {offset : Nat} {fresh : UInt32} {text : List Char} {tokens : List Token}

/-- The slice that a token covers is the lexeme it was scanned from. -/
theorem BeginsWith.sliced (before : List Char) (h : BeginsWith offset fresh text tokens)
    (hoffset : offset = byteCount before) : ∀ token ∈ tokens, ∃ fresh' rest,
      scanLexeme fresh' (token.span.slice (before ++ text) ++ rest) =
        some (token.kind, token.value, token.span.slice (before ++ text), rest) := by
  intro token htoken
  obtain ⟨fresh', front, lexeme, rest, happ, hstart, hstop, hscan⟩ :=
    h.placed before hoffset token htoken
  rw [happ, Span.slice_of_append rest hstart hstop]
  exact ⟨fresh', rest, hscan⟩

/-- Anonymous nodes are numbered one after the other, whatever tokens stand between them. -/
theorem BeginsWith.numbered (h : BeginsWith offset fresh text tokens) (k : Nat) (token : Token)
    (htoken : (tokens.filter (·.value.isAnonymousBlank))[k]? = some token) :
    token.value = .ofAnonymous (fresh + UInt32.ofNat k) := by
  induction h generalizing k with
  | done => simp at htoken
  | @token offset fresh gap lexeme rest first tokens hgap hscan hstart hstop _ ih =>
    by_cases hmark : first.value.isAnonymousBlank = true
    · rw [List.filter_cons, if_pos hmark] at htoken
      have hfresh : first.value.freshAfter fresh = fresh + 1 := by
        simp [Value.freshAfter, hmark]
      cases k with
      | zero =>
        obtain rfl : first = token := by simpa using htoken
        simpa using ofAnonymous_of_scan hscan hmark
      | succ k =>
        rw [List.getElem?_cons_succ] at htoken
        have hnumber : fresh + 1 + UInt32.ofNat k = fresh + UInt32.ofNat (k + 1) := by
          rw [UInt32.ofNat_add, UInt32.add_assoc, UInt32.add_comm 1]
          rfl
        rw [ih k htoken, hfresh, hnumber]
    · rw [List.filter_cons, if_neg hmark] at htoken
      have hfresh : first.value.freshAfter fresh = fresh := by
        simp [Value.freshAfter, hmark]
      rw [ih k htoken, hfresh]

/-- Every token takes at least one byte, so there are no more tokens than bytes. -/
theorem BeginsWith.length_le (h : BeginsWith offset fresh text tokens) :
    tokens.length ≤ byteCount text := by
  induction h with
  | done => exact Nat.zero_le _
  | token _ hscan _ _ _ ih =>
    have hpos := byteCount_pos (scanLexeme_append hscan).2
    simp only [List.length_cons, byteCount_append]
    omega

end

/-- An anonymous node, as it is written in its text. -/
def Token.isAnonymousIn (source : List Char) (token : Token) : Bool :=
  token.kind == .blankNode && isEmptyBrackets (token.span.slice source)

/-- Which blank nodes among tokens of a text are the same: those with the same label, while every
anonymous one has an identifier of its own, made from its number among them. -/
structure IdentifiesBlankNodes (source : List Char) (tokens : List Token) : Prop where
  same_iff : tokens.Pairwise fun a b => a.kind = .blankNode → b.kind = .blankNode →
    (a.value.agrees b.value = true ↔ ∃ label, a.span.slice source = '_' :: ':' :: label ∧
      b.span.slice source = '_' :: ':' :: label)
  numbered : ∀ (k : Nat) (token : Token),
    (tokens.filter (Token.isAnonymousIn source))[k]? = some token →
      token.value = .blankNode ("[]" ++ k.repr)
  marked_iff : ∀ token ∈ tokens, token.value.isAnonymousBlank = token.isAnonymousIn source

section

variable {source : List Char} {tokens : List Token}

/-- There are fewer anonymous nodes than numbers, so none comes twice. -/
theorem BeginsWith.distinct (h : BeginsWith 0 0 source tokens)
    (hsize : byteCount source < 4294967296) :
    tokens.Pairwise fun a b => a.value.isAnonymousBlank = true →
      b.value.isAnonymousBlank = true → a.value ≠ b.value := by
  have hlength : (tokens.filter (·.value.isAnonymousBlank)).length < 4294967296 :=
    ((List.length_filter_le _ tokens).trans h.length_le).trans_lt hsize
  rw [← List.pairwise_filter, List.pairwise_iff_getElem]
  intro i j hi hj hij heq
  rw [h.numbered i _ (List.getElem?_eq_getElem hi), h.numbered j _ (List.getElem?_eq_getElem hj),
    UInt32.zero_add, UInt32.zero_add] at heq
  have hnumber := congrArg UInt32.toNat (Value.ofAnonymous_inj heq)
  rw [UInt32.toNat_ofNat_of_lt' (hi.trans hlength), UInt32.toNat_ofNat_of_lt' (hj.trans hlength)]
    at hnumber
  omega

theorem BeginsWith.identifies (h : BeginsWith 0 0 source tokens)
    (hsize : byteCount source < 4294967296) : IdentifiesBlankNodes source tokens := by
  have hscan := h.sliced [] rfl
  rw [List.nil_append] at hscan
  have hmarked : ∀ token ∈ tokens, token.value.isAnonymousBlank = token.isAnonymousIn source := by
    intro token htoken
    obtain ⟨fresh, rest, hthis⟩ := hscan token htoken
    rw [Bool.eq_iff_iff, isAnonymousBlank_iff hthis]
    simp [Token.isAnonymousIn]
  refine ⟨?_, ?_, hmarked⟩
  · refine (h.distinct hsize).imp_of_mem ?_
    rintro ⟨_, a, aSpan⟩ ⟨_, b, bSpan⟩ ha hb hdistinct rfl rfl
    obtain ⟨_, _, hscanA⟩ := hscan _ ha
    obtain ⟨_, _, hscanB⟩ := hscan _ hb
    exact sameBlankNode_iff hscanA hscanB hdistinct
  · intro k token htoken
    rw [← List.filter_congr hmarked] at htoken
    have hk : k < 4294967296 := by
      have hlt := (List.getElem?_eq_some_iff.mp htoken).1
      exact hlt.trans_le ((List.length_filter_le _ tokens).trans h.length_le) |>.trans hsize
    rw [h.numbered k token htoken, UInt32.zero_add, Value.ofAnonymous,
      UInt32.toNat_ofNat_of_lt' hk]
    rfl

end

/-- Blank nodes of a run are the same if and only if they are written with the same label. The
anonymous ones are numbered from zero as they come, and they are just those that are marked as
such. -/
theorem run_identifiesBlankNodes {text : String}
    (hsize : byteCount (decodeEscapes text.toList) < 4294967296) :
    IdentifiesBlankNodes (decodeEscapes text.toList) (Lexer.ofText text).run.1 := by
  have hready : (Lexer.ofText text).finished = false := rfl
  have hbegins : BeginsWith 0 0 (decodeEscapes text.toList) (Lexer.ofText text).run.1 :=
    Lexer.beginsWith_run hready
  exact hbegins.identifies hsize

/-- Two labelled nodes that are the same and two anonymous ones that are not, with an empty list, a
bracket and a comment between them, in front of an error. -/
theorem fourNodes_identified :
    let nodes : List Token := [⟨.blankNode, .blankNode "b", ⟨0, 3⟩⟩,
      ⟨.blankNode, .blankNode "[]0", ⟨4, 7⟩⟩, ⟨.nil, .text "()", ⟨8, 10⟩⟩,
      ⟨.delimiter, .text "[", ⟨11, 12⟩⟩, ⟨.blankNode, .blankNode "[]1", ⟨16, 18⟩⟩,
      ⟨.blankNode, .blankNode "b", ⟨19, 22⟩⟩]
    byteCount (decodeEscapes "_:b [ ] () [#]\n [] _:b ~".toList) < 4294967296 ∧
      (Lexer.ofText "_:b [ ] () [#]\n [] _:b ~").run.1 = nodes ∧
      IdentifiesBlankNodes (decodeEscapes "_:b [ ] () [#]\n [] _:b ~".toList) nodes := by
  intro nodes
  have hsize : byteCount (decodeEscapes "_:b [ ] () [#]\n [] _:b ~".toList) < 4294967296 := by
    decide +kernel
  have hrun : (Lexer.ofText "_:b [ ] () [#]\n [] _:b ~").run.1 = nodes := by decide +kernel
  exact ⟨hsize, hrun, hrun ▸ run_identifiesBlankNodes hsize⟩

end SparqlQuery
