import SparqlQuery.Proofs.LexerPartition
import SparqlQuery.Proofs.ScanCut

namespace SparqlQuery

/-- The number of the next anonymous node once a value has been read. -/
def Value.freshAfter (value : Value) (fresh : UInt32) : UInt32 :=
  if value.isAnonymousBlank then fresh + 1 else fresh

/-- A text from a byte offset on is read to its end as these tokens. -/
inductive Reads : Nat → UInt32 → List Char → List Token → Prop
  | ends {offset : Nat} {fresh : UInt32} {gap : List Char} (hgap : Gap gap []) :
      Reads offset fresh gap []
  | token {offset : Nat} {fresh : UInt32} {gap lexeme rest : List Char} {token : Token}
      {tokens : List Token} (hgap : Gap gap (lexeme ++ rest))
      (hscan : scanLexeme fresh (lexeme ++ rest) = some (token.kind, token.value, lexeme, rest))
      (hstart : token.span.start = offset + byteCount gap)
      (hstop : token.span.stop = token.span.start + byteCount lexeme)
      (hrest : Reads token.span.stop (token.value.freshAfter fresh) rest tokens) :
      Reads offset fresh (gap ++ (lexeme ++ rest)) (token :: tokens)

/-- A text from a byte offset on begins with these tokens, however it goes on behind them. -/
inductive BeginsWith : Nat → UInt32 → List Char → List Token → Prop
  | done {offset : Nat} {fresh : UInt32} {text : List Char} : BeginsWith offset fresh text []
  | token {offset : Nat} {fresh : UInt32} {gap lexeme rest : List Char} {token : Token}
      {tokens : List Token} (hgap : Gap gap (lexeme ++ rest))
      (hscan : scanLexeme fresh (lexeme ++ rest) = some (token.kind, token.value, lexeme, rest))
      (hstart : token.span.start = offset + byteCount gap)
      (hstop : token.span.stop = token.span.start + byteCount lexeme)
      (hrest : BeginsWith token.span.stop (token.value.freshAfter fresh) rest tokens) :
      BeginsWith offset fresh (gap ++ (lexeme ++ rest)) (token :: tokens)

/-- Nothing that stands between tokens begins a token. -/
theorem leading_of_gap {c : Char} (h : isBlank c = true ∨ c = '#') : leading c = [] := by
  rcases h with h | rfl
  · rcases eq_of_isBlank h with rfl | rfl | rfl | rfl <;> decide
  · decide

theorem gapUnit_of_leading {kind : Kind} {c : Char} (h : kind ∈ leading c) (s : List Char) :
    gapUnit (c :: s) = 0 := by
  have hgap : ¬ (isBlank c = true ∨ c = '#') := by
    intro hgap
    rw [leading_of_gap hgap] at h
    cases h
  simp only [not_or] at hgap
  simp [gapUnit, hgap]

theorem gapUnit_of_scan {fresh : UInt32} {kind : Kind} {value : Value} {s lexeme rest : List Char}
    (h : scanLexeme fresh s = some (kind, value, lexeme, rest)) : gapUnit s = 0 := by
  obtain ⟨hsplit, -, -⟩ := scanLexeme_eq_some_iff.mp h
  obtain ⟨rfl, hne⟩ := kind.splits _ _ _ hsplit
  obtain ⟨c, more, rfl⟩ := List.exists_cons_of_ne_nil hne
  exact gapUnit_of_leading (mem_leading hsplit) (more ++ rest)

theorem splitGap_of_gap {gap rest : List Char} (h : Gap gap rest) (hstop : gapUnit rest = 0) :
    splitGap (gap ++ rest) = (gap, rest) := by
  unfold splitGap
  induction h with
  | done => exact splitRun_stop hstop
  | @blank c gap rest hc _ ih =>
    have hunit : gapUnit (c :: (gap ++ rest)) = 0 + 1 := by simp [gapUnit, hc]
    rw [List.cons_append, splitRun_step hunit, List.drop_zero, ih hstop]
    rfl
  | @comment body gap rest hbody hnext _ ih =>
    have hstops : StopsAt (!isLineBreak ·) (gap ++ rest) := by
      intro c hc
      simpa using hnext c hc
    have hall : ∀ c ∈ body, (!isLineBreak c) = true := by
      intro c hc
      simpa using hbody c hc
    have hunits := splitUnits_comment (body ++ (gap ++ rest))
    rw [hstops.takeWhile_append hall, hstops.dropWhile_append hall] at hunits
    have hsplit := ih hstop
    simp only [splitRun, Prod.mk.injEq] at hsplit
    simp [splitRun, hunits, hsplit]

theorem fits_gapUnit : FitsText gapUnit := by
  intro s
  fun_cases gapUnit s with
  | case1 => exact le_rfl
  | case2 => simp
  | case3 s _ =>
    have hle := (List.takeWhile_prefix (!isLineBreak ·) (l := s)).length_le
    simpa using hle
  | case4 => exact Nat.zero_le _

/-- No more of a gap stands behind the one that is split off. -/
theorem gapUnit_splitGap {s gap rest : List Char} (h : splitGap s = (gap, rest)) :
    gapUnit rest = 0 := by
  have hrun := unitRun_splitRun fits_gapUnit s
  rw [splitGap] at h
  rw [h] at hrun
  exact hrun.size_rest

namespace Lexer

variable {lexer : Lexer} {tokens : List Token}

/-- The lexer after a token. -/
def past (lexer : Lexer) (token : Token) (rest : List Char) : Lexer :=
  { lexer with rest, offset := token.span.stop, fresh := token.value.freshAfter lexer.fresh }

theorem next_of_scan {gap lexeme rest : List Char} {token : Token}
    (hready : lexer.finished = false) (hrest : lexer.rest = gap ++ (lexeme ++ rest))
    (hgap : Gap gap (lexeme ++ rest))
    (hscan : scanLexeme lexer.fresh (lexeme ++ rest) =
      some (token.kind, token.value, lexeme, rest))
    (hstart : token.span.start = lexer.offset + byteCount gap)
    (hstop : token.span.stop = token.span.start + byteCount lexeme) :
    lexer.next = (some (.ok token), lexer.past token rest) := by
  obtain ⟨kind, value, start, stop⟩ := token
  simp only at hscan hstart hstop
  subst hstop hstart
  have hsplit := splitGap_of_gap hgap (gapUnit_of_scan hscan)
  obtain ⟨c, more, hcons⟩ := List.exists_cons_of_ne_nil (scanLexeme_append hscan).2
  rw [hcons] at hsplit hscan
  simp only [next, hready, hrest, hcons, List.cons_append] at hsplit hscan ⊢
  simp [hsplit, hscan, hready, past, Value.freshAfter]

theorem run_of_reads (hready : lexer.finished = false)
    (h : Reads lexer.offset lexer.fresh lexer.rest tokens) : lexer.run = (tokens, none) := by
  generalize hoffset : lexer.offset = offset at h
  generalize hfresh : lexer.fresh = fresh at h
  generalize htext : lexer.rest = text at h
  induction h generalizing lexer with
  | @ends offset fresh gap hgap =>
    have hsplit := splitGap_of_gap hgap rfl
    rw [List.append_nil] at hsplit
    exact run_of_none (by simp only [next, hready, htext, hsplit]; rfl)
  | @token offset fresh gap lexeme rest token tokens hgap hscan hstart hstop _ ih =>
    subst hoffset hfresh
    have hafter : (lexer.past token rest).run = (tokens, none) := ih hready rfl rfl rfl
    rw [run_of_ok (next_of_scan hready htext hgap hscan hstart hstop), hafter]

/-- What a lexer that is not finished does: it comes to an end, fails or reads a token. -/
theorem next_cases (hready : lexer.finished = false) :
    (lexer.next = (none, { lexer with finished := true }) ∧ Gap lexer.rest []) ∨
      (∃ gap rest, lexer.rest = gap ++ rest ∧ Gap gap rest ∧ rest ≠ [] ∧ gapUnit rest = 0 ∧
        scanLexeme lexer.fresh rest = none ∧
        lexer.next =
          (some (.error (.atPosition lexer.source (lexer.offset + byteCount gap) rest)),
            { lexer with finished := true })) ∨
      ∃ gap lexeme rest token, lexer.rest = gap ++ (lexeme ++ rest) ∧ Gap gap (lexeme ++ rest) ∧
        scanLexeme lexer.fresh (lexeme ++ rest) = some (token.kind, token.value, lexeme, rest) ∧
        token.span.start = lexer.offset + byteCount gap ∧
        token.span.stop = token.span.start + byteCount lexeme ∧
        lexer.next = (some (.ok token), lexer.past token rest) := by
  cases hsplit : splitGap lexer.rest with
  | mk gap tail =>
    obtain ⟨happ, hgap⟩ := splitGap_spec hsplit
    cases tail with
    | nil =>
      rw [List.append_nil] at happ
      exact .inl ⟨by simp [next, hready, hsplit], happ ▸ hgap⟩
    | cons c s =>
      cases hscan : scanLexeme lexer.fresh (c :: s) with
      | none =>
        exact .inr (.inl ⟨gap, c :: s, happ.symm, hgap, List.cons_ne_nil c s,
          gapUnit_splitGap hsplit, hscan, by simp [next, hready, hsplit, hscan]⟩)
      | some found =>
        obtain ⟨kind, value, lexeme, rest⟩ := found
        obtain ⟨hlexeme, -⟩ := scanLexeme_append hscan
        rw [← hlexeme] at happ hgap hscan
        let token : Token := ⟨kind, value, ⟨lexer.offset + byteCount gap,
          lexer.offset + byteCount gap + byteCount lexeme⟩⟩
        exact .inr (.inr ⟨gap, lexeme, rest, token, happ.symm, hgap, hscan, rfl, rfl,
          next_of_scan hready happ.symm hgap hscan rfl rfl⟩)

theorem reads_of_run (hready : lexer.finished = false) (h : lexer.run = (tokens, none)) :
    Reads lexer.offset lexer.fresh lexer.rest tokens := by
  induction hlength : lexer.rest.length using Nat.strongRecOn generalizing lexer tokens with
  | ind n ih =>
    subst hlength
    rcases next_cases hready with ⟨hnext, hgap⟩ | ⟨_, _, -, -, -, -, -, hnext⟩ |
      ⟨gap, lexeme, rest, token, hrest, hgap, hscan, hstart, hstop, hnext⟩
    · rw [run_of_none hnext, Prod.mk.injEq] at h
      obtain ⟨rfl, -⟩ := h
      exact .ends hgap
    · rw [run_of_error hnext] at h
      cases h
    · rw [run_of_ok hnext, Prod.mk.injEq] at h
      obtain ⟨rfl, hnone⟩ := h
      have hready' : (lexer.past token rest).finished = false := hready
      have hafter : (lexer.past token rest).run = (_, none) := Prod.ext rfl hnone
      rw [hrest]
      exact .token hgap hscan hstart hstop (ih _ (next_rest_lt hnext) hready' hafter rfl)

/-- What a lexer yields stands at the beginning of its text, also when an error follows. -/
theorem beginsWith_run (hready : lexer.finished = false) :
    BeginsWith lexer.offset lexer.fresh lexer.rest lexer.run.1 := by
  induction hlength : lexer.rest.length using Nat.strongRecOn generalizing lexer with
  | ind n ih =>
    subst hlength
    rcases next_cases hready with ⟨hnext, -⟩ | ⟨_, _, -, -, -, -, -, hnext⟩ |
      ⟨gap, lexeme, rest, token, hrest, hgap, hscan, hstart, hstop, hnext⟩
    · rw [run_of_none hnext]
      exact .done
    · rw [run_of_error hnext]
      exact .done
    · have hready' : (lexer.past token rest).finished = false := hready
      have htail := ih _ (next_rest_lt hnext) hready' rfl
      rw [run_of_ok hnext, hrest]
      exact .token hgap hscan hstart hstop htail

end Lexer

/-- A token stands where its span says, and was scanned there. -/
theorem BeginsWith.placed {offset : Nat} {fresh : UInt32} {text : List Char}
    {tokens : List Token} (before : List Char) (h : BeginsWith offset fresh text tokens)
    (hoffset : offset = byteCount before) : ∀ token ∈ tokens, ∃ fresh' front lexeme rest,
      before ++ text = front ++ (lexeme ++ rest) ∧ token.span.start = byteCount front ∧
      token.span.stop = token.span.start + byteCount lexeme ∧
      scanLexeme fresh' (lexeme ++ rest) = some (token.kind, token.value, lexeme, rest) := by
  induction h generalizing before with
  | done => simp
  | @token offset fresh gap lexeme rest token tokens hgap hscan hstart hstop _ ih =>
    have hfront : token.span.start = byteCount (before ++ gap) := by
      rw [byteCount_append]
      omega
    have hnext : token.span.stop = byteCount (before ++ gap ++ lexeme) := by
      rw [byteCount_append]
      omega
    have happ : before ++ (gap ++ (lexeme ++ rest)) = before ++ gap ++ lexeme ++ rest := by simp
    rw [happ]
    exact List.forall_mem_cons.mpr
      ⟨⟨fresh, before ++ gap, lexeme, rest, by simp, hfront, hstop, hscan⟩, ih _ hnext⟩

theorem Lexer.run_placed {source : List Char} {token : Token}
    (htoken : token ∈ (Lexer.ofChars source).run.1) : ∃ fresh front lexeme rest,
      source = front ++ (lexeme ++ rest) ∧ token.span.start = byteCount front ∧
      token.span.stop = token.span.start + byteCount lexeme ∧
      scanLexeme fresh (lexeme ++ rest) = some (token.kind, token.value, lexeme, rest) := by
  have hready : (Lexer.ofChars source).finished = false := rfl
  have hbegins : BeginsWith 0 0 source (Lexer.ofChars source).run.1 :=
    Lexer.beginsWith_run hready
  exact hbegins.placed [] rfl token htoken

theorem tokenize_eq_ok_iff {text : String} {tokens : List Token} :
    tokenize text = .ok tokens ↔ Reads 0 0 (decodeEscapes text.toList) tokens := by
  have hready : (Lexer.ofText text).finished = false := rfl
  constructor
  · intro h
    refine Lexer.reads_of_run hready ?_
    unfold tokenize at h
    split at h
    next hrun =>
      cases h
      exact hrun
    next => cases h
  · intro h
    have hrun := Lexer.run_of_reads hready h
    simp [tokenize, hrun]

theorem tokenize_eq_error_iff {text : String} {e : LexError} :
    tokenize text = .error e ↔ (Lexer.ofText text).run.2 = some e := by
  unfold tokenize
  split
  next hrun => simp [hrun]
  next hrun => simp [hrun]

theorem eq_nil_of_gapUnit {gap rest : List Char} (h : Gap gap rest)
    (hunit : gapUnit (gap ++ rest) = 0) : gap = [] := by
  cases h with
  | done => rfl
  | blank hc => simp [gapUnit, hc] at hunit
  | comment => simp [gapUnit, isBlank] at hunit

/-- The first token of a text that begins with no gap is the one in front of it. -/
theorem Reads.scan_front {offset : Nat} {fresh : UInt32} {text : List Char} {token : Token}
    {tokens : List Token} (h : Reads offset fresh text (token :: tokens))
    (hunit : gapUnit text = 0) : ∃ lexeme rest, text = lexeme ++ rest ∧
      scanLexeme fresh text = some (token.kind, token.value, lexeme, rest) := by
  cases h with
  | @token _ _ gap lexeme rest _ _ hgap hscan =>
    have hnil := eq_nil_of_gapUnit hgap hunit
    subst hnil
    exact ⟨lexeme, rest, rfl, hscan⟩

/-- Every token is what the scan of some part of the text yields. -/
theorem Reads.scanned {offset : Nat} {fresh : UInt32} {text : List Char} {tokens : List Token}
    (h : Reads offset fresh text tokens) : ∀ token ∈ tokens, ∃ fresh' lexeme rest,
      scanLexeme fresh' (lexeme ++ rest) = some (token.kind, token.value, lexeme, rest) := by
  induction h with
  | ends => simp
  | token _ hscan _ _ _ ih => exact List.forall_mem_cons.mpr ⟨⟨_, _, _, hscan⟩, ih⟩

/-- A text that is one lexeme is read as one token. -/
theorem reads_of_scan {fresh : UInt32} {lexeme : List Char} {kind : Kind} {value : Value}
    (hscan : scanLexeme fresh lexeme = some (kind, value, lexeme, [])) :
    Reads 0 fresh lexeme [⟨kind, value, ⟨0, byteCount lexeme⟩⟩] := by
  have hscan' : scanLexeme fresh (lexeme ++ []) = some (kind, value, lexeme, []) := by
    rwa [List.append_nil]
  have hreads := @Reads.token 0 fresh [] lexeme [] ⟨kind, value, ⟨0, byteCount lexeme⟩⟩ []
    (.done _) hscan' rfl (Nat.zero_add _).symm (.ends (.done []))
  rwa [List.append_nil, List.nil_append] at hreads

theorem tokenize_of_scan {text : String} {lexeme : List Char} {kind : Kind} {value : Value}
    (htext : decodeEscapes text.toList = lexeme)
    (hscan : scanLexeme 0 lexeme = some (kind, value, lexeme, [])) :
    tokenize text = .ok [⟨kind, value, ⟨0, byteCount lexeme⟩⟩] := by
  rw [tokenize_eq_ok_iff, htext]
  exact reads_of_scan hscan

end SparqlQuery
