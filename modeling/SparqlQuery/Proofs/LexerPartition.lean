import SparqlQuery.Proofs.LexerGaps
import Mathlib.Logic.Function.Iterate

namespace SparqlQuery

/-- A text from a byte offset on, as gaps and lexemes in turn: the tokens in it, and the error
where it goes on without one. -/
inductive Tiling : Nat → List Char → List Token → Option LexError → Prop
  | ends {offset : Nat} {gap : List Char} (hgap : Gap gap []) : Tiling offset gap [] none
  | fails {offset : Nat} {gap rest : List Char} {e : LexError} (hgap : Gap gap rest)
      (hne : rest ≠ []) (hposition : e.position = offset + byteCount gap)
      (hremainder : e.remainder = String.ofList rest) : Tiling offset (gap ++ rest) [] (some e)
  | reads {offset : Nat} {gap lexeme rest : List Char} {token : Token} {tokens : List Token}
      {failure : Option LexError} (hgap : Gap gap (lexeme ++ rest)) (hne : lexeme ≠ [])
      (hstart : token.span.start = offset + byteCount gap)
      (hstop : token.span.stop = token.span.start + byteCount lexeme)
      (hrest : Tiling token.span.stop rest tokens failure) :
      Tiling offset (gap ++ (lexeme ++ rest)) (token :: tokens) failure

namespace Lexer

/-- What a lexer that is not finished yields, and the lexer after it. -/
inductive Advances (lexer : Lexer) : Option (Except LexError Token) → Lexer → Prop
  | ends (hgap : Gap lexer.rest []) : Advances lexer none { lexer with finished := true }
  | fails {gap rest : List Char} {e : LexError} (hrest : lexer.rest = gap ++ rest)
      (hgap : Gap gap rest) (hne : rest ≠ [])
      (hposition : e.position = lexer.offset + byteCount gap)
      (hremainder : e.remainder = String.ofList rest) :
      Advances lexer (some (.error e)) { lexer with finished := true }
  | reads {gap lexeme rest : List Char} {token : Token} {fresh : UInt32}
      (hrest : lexer.rest = gap ++ (lexeme ++ rest)) (hgap : Gap gap (lexeme ++ rest))
      (hne : lexeme ≠ []) (hstart : token.span.start = lexer.offset + byteCount gap)
      (hstop : token.span.stop = token.span.start + byteCount lexeme) :
      Advances lexer (some (.ok token)) { lexer with rest, offset := token.span.stop, fresh }

variable {lexer after : Lexer}

theorem advances_next (h : lexer.finished = false) :
    lexer.Advances lexer.next.1 lexer.next.2 := by
  unfold next
  rw [if_neg (by simp [h])]
  split
  next gap hsplit =>
    obtain ⟨happ, hgap⟩ := splitGap_spec hsplit
    rw [List.append_nil] at happ
    exact .ends (happ ▸ hgap)
  next gap c s hsplit =>
    obtain ⟨happ, hgap⟩ := splitGap_spec hsplit
    split
    next => exact .fails happ.symm hgap (List.cons_ne_nil c s) rfl rfl
    next kind value lexeme rest hscan =>
      obtain ⟨hlexeme, hne⟩ := scanLexeme_append hscan
      rw [← hlexeme] at happ hgap
      exact .reads happ.symm hgap hne rfl rfl

theorem next_of_finished (h : lexer.finished = true) : lexer.next = (none, lexer) := by
  unfold next
  rw [if_pos h]

theorem runAfter_eq (before : List Token) (lexer : Lexer) :
    runAfter before lexer = (before.reverse ++ lexer.run.1, lexer.run.2) := by
  unfold run
  induction h : lexer.rest.length using Nat.strongRecOn generalizing before lexer with
  | ind n ih =>
    subst h
    rw [runAfter, runAfter]
    split
    next => simp
    next => simp
    next token after hnext =>
      have hlt := next_rest_lt hnext
      rw [ih _ hlt _ _ rfl, ih _ hlt [token] _ rfl]
      simp

theorem run_of_none (h : lexer.next = (none, after)) : lexer.run = ([], none) := by
  rw [run, runAfter]
  split <;> simp_all

theorem run_of_error {e : LexError} (h : lexer.next = (some (.error e), after)) :
    lexer.run = ([], some e) := by
  rw [run, runAfter]
  split <;> simp_all

theorem run_of_ok {token : Token} (h : lexer.next = (some (.ok token), after)) :
    lexer.run = (token :: after.run.1, after.run.2) := by
  rw [run, runAfter]
  split
  next hnext => simp [h] at hnext
  next hnext => simp [h] at hnext
  next hnext =>
    rw [h] at hnext
    simp only [Prod.mk.injEq, Option.some.injEq, Except.ok.injEq] at hnext
    obtain ⟨rfl, rfl⟩ := hnext
    rw [runAfter_eq]
    rfl

theorem tiling_run (h : lexer.finished = false) :
    Tiling lexer.offset lexer.rest lexer.run.1 lexer.run.2 := by
  induction hlength : lexer.rest.length using Nat.strongRecOn generalizing lexer with
  | ind n ih =>
    subst hlength
    have hadvances := advances_next h
    generalize hnext : lexer.next = result at hadvances
    obtain ⟨item, after⟩ := result
    cases hadvances with
    | ends hgap =>
      rw [run_of_none hnext]
      exact .ends hgap
    | fails hrest hgap hne hposition hremainder =>
      rw [run_of_error hnext, hrest]
      exact .fails hgap hne hposition hremainder
    | @reads gap lexeme rest token fresh hrest hgap hne hstart hstop =>
      have hlt := next_rest_lt hnext
      have hafter : ({ lexer with rest, offset := token.span.stop, fresh } : Lexer).finished =
        false := h
      have htail := ih _ hlt hafter rfl
      rw [run_of_ok hnext, hrest]
      exact .reads hgap hne hstart hstop htail

/-- What the lexer yields when it is asked for the item with this number, from zero. -/
def item (lexer : Lexer) (n : Nat) : Option (Except LexError Token) :=
  ((fun lexer => lexer.next.2)^[n] lexer).next.1

theorem item_succ (lexer : Lexer) (n : Nat) : lexer.item (n + 1) = lexer.next.2.item n := by
  unfold item
  rw [Function.iterate_succ_apply]

theorem item_of_finished (h : lexer.finished = true) (n : Nat) : lexer.item n = none := by
  induction n with
  | zero => exact congrArg Prod.fst (next_of_finished h)
  | succ n ih => rw [item_succ, next_of_finished h, ih]

/-- Asked again and again, a lexer yields its tokens, then its error if there is one, and then
nothing any more. -/
theorem item_run (h : lexer.finished = false) (n : Nat) :
    lexer.item n = (lexer.run.1.map .ok ++ lexer.run.2.toList.map .error)[n]? := by
  induction n generalizing lexer with
  | zero =>
    have hadvances := advances_next h
    have hitem : lexer.item 0 = lexer.next.1 := rfl
    rw [hitem]
    generalize hnext : lexer.next = result at hadvances
    obtain ⟨item, after⟩ := result
    cases hadvances with
    | ends => rw [run_of_none hnext]; rfl
    | fails => rw [run_of_error hnext]; rfl
    | reads => rw [run_of_ok hnext]; rfl
  | succ n ih =>
    have hadvances := advances_next h
    rw [item_succ]
    generalize hnext : lexer.next = result at hadvances
    obtain ⟨item, after⟩ := result
    cases hadvances with
    | ends =>
      rw [run_of_none hnext, item_of_finished rfl]
      rfl
    | fails =>
      rw [run_of_error hnext, item_of_finished rfl]
      rfl
    | @reads gap lexeme rest token fresh =>
      have hafter : ({ lexer with rest, offset := token.span.stop, fresh } : Lexer).finished =
        false := h
      rw [run_of_ok hnext]
      exact ih hafter

end Lexer

/-- The text between two byte offsets, and what stands behind the second, are as between
tokens. -/
def GapBetween (source : List Char) (start stop : Nat) : Prop :=
  ∃ gap rest, dropBytes? start source = some (gap ++ rest) ∧ dropBytes? stop source = some rest ∧
    stop = start + byteCount gap ∧ Gap gap rest

/-- Tokens and the error behind them as a partition of a text from a byte offset on. -/
structure Partition (source : List Char) (offset : Nat) (tokens : List Token)
    (failure : Option LexError) : Prop where
  boundaries : ∀ token ∈ tokens, (dropBytes? token.span.start source).isSome ∧
    (dropBytes? token.span.stop source).isSome
  nonempty : ∀ token ∈ tokens, token.span.start < token.span.stop
  behind : ∀ token ∈ tokens, offset ≤ token.span.start
  ordered : tokens.Pairwise fun a b => a.span.stop ≤ b.span.start
  gaps : ∀ bounds ∈ (offset :: tokens.map (·.span.stop)).zip
      (tokens.map (·.span.start) ++ [failure.elim (byteCount source) LexError.position]),
    GapBetween source bounds.1 bounds.2
  error : ∀ e ∈ failure, e.position < byteCount source ∧
    dropBytes? e.position source = some e.remainder.toList

theorem gapBetween_of_append (before gap rest : List Char) (h : Gap gap rest) :
    GapBetween (before ++ (gap ++ rest)) (byteCount before) (byteCount before + byteCount gap) := by
  refine ⟨gap, rest, dropBytes?_byteCount before _, ?_, rfl, h⟩
  have hdrop := dropBytes?_byteCount (before ++ gap) rest
  rwa [byteCount_append, List.append_assoc] at hdrop

theorem Partition.cons {source : List Char} {offset : Nat} {token : Token} {tokens : List Token}
    {failure : Option LexError} (hgap : GapBetween source offset token.span.start)
    (hstop : (dropBytes? token.span.stop source).isSome)
    (hne : token.span.start < token.span.stop)
    (hrest : Partition source token.span.stop tokens failure) :
    Partition source offset (token :: tokens) failure := by
  have ⟨gap, rest, _, hstart, hbytes, _⟩ := hgap
  refine ⟨?_, ?_, ?_, ?_, ?_, hrest.error⟩
  · intro other hother
    rcases List.mem_cons.mp hother with rfl | hother
    · exact ⟨by rw [hstart]; rfl, hstop⟩
    · exact hrest.boundaries other hother
  · intro other hother
    rcases List.mem_cons.mp hother with rfl | hother
    · exact hne
    · exact hrest.nonempty other hother
  · intro other hother
    rcases List.mem_cons.mp hother with rfl | hother
    · omega
    · have hbehind := hrest.behind other hother
      omega
  · exact List.pairwise_cons.mpr ⟨hrest.behind, hrest.ordered⟩
  · intro bounds hbounds
    rw [List.map_cons, List.map_cons, List.cons_append, List.zip_cons_cons] at hbounds
    rcases List.mem_cons.mp hbounds with rfl | hbounds
    · exact hgap
    · exact hrest.gaps bounds hbounds

theorem Tiling.partition (before : List Char) {text : List Char} {tokens : List Token}
    {failure : Option LexError} (h : Tiling (byteCount before) text tokens failure) :
    Partition (before ++ text) (byteCount before) tokens failure := by
  generalize hoffset : byteCount before = offset at h
  induction h generalizing before with
  | @ends offset gap hgap =>
    subst hoffset
    have hlast := gapBetween_of_append before gap [] hgap
    rw [List.append_nil] at hlast
    refine ⟨by simp, by simp, by simp, .nil, ?_, by simp⟩
    simpa using hlast
  | @fails offset gap rest e hgap hne hposition hremainder =>
    subst hoffset
    have hlast := gapBetween_of_append before gap rest hgap
    have hdrop := dropBytes?_byteCount (before ++ gap) rest
    rw [byteCount_append, List.append_assoc, ← hposition] at hdrop
    rw [← hposition] at hlast
    refine ⟨by simp, by simp, by simp, .nil, by simpa using hlast, ?_⟩
    rintro _ ⟨⟩
    have hpos := byteCount_pos hne
    refine ⟨?_, ?_⟩
    · rw [byteCount_append, byteCount_append]
      omega
    · rw [hdrop, hremainder, String.toList_ofList]
  | @reads offset gap lexeme rest token tokens failure hgap hne hstart hstop hrest ih =>
    subst hoffset
    have hfirst := gapBetween_of_append before gap (lexeme ++ rest) hgap
    rw [← hstart] at hfirst
    have hbefore : byteCount (before ++ (gap ++ lexeme)) = token.span.stop := by
      rw [byteCount_append, byteCount_append]
      omega
    have hdrop := dropBytes?_byteCount (before ++ (gap ++ lexeme)) rest
    rw [hbefore, List.append_assoc, List.append_assoc] at hdrop
    have hpartition := ih _ hbefore
    rw [List.append_assoc, List.append_assoc] at hpartition
    have hpos := byteCount_pos hne
    exact .cons hfirst (by rw [hdrop]; rfl) (by omega) hpartition

/-- Every text is partitioned by what its lexer yields: tokens, gaps around them, and at most one
error behind them. -/
theorem lexer_partitions (text : String) : ∃ tokens failure,
    (∀ n, (Lexer.ofText text).item n = (tokens.map .ok ++ failure.toList.map .error)[n]?) ∧
      Partition (decodeEscapes text.toList) 0 tokens failure ∧
      tokenize text = failure.elim (.ok tokens) .error := by
  have hready : (Lexer.ofText text).finished = false := rfl
  have htiling := Lexer.tiling_run hready
  refine ⟨_, _, Lexer.item_run hready, Tiling.partition [] htiling, ?_⟩
  unfold tokenize
  cases (Lexer.ofText text).run with
  | mk tokens failure => cases failure <;> rfl

end SparqlQuery
