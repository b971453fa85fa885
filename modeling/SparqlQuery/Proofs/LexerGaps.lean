import SparqlQuery.Lexer
import Mathlib.Data.List.TakeWhile

namespace SparqlQuery

theorem foldl_utf8Size (n : Nat) (s : List Char) :
    s.foldl (fun n c => n + c.utf8Size) n = n + byteCount s := by
  unfold byteCount
  induction s generalizing n with
  | nil => rfl
  | cons c s ih =>
    rw [List.foldl_cons, List.foldl_cons, ih, ih (0 + c.utf8Size)]
    omega

@[simp] theorem byteCount_nil : byteCount [] = 0 :=
  rfl

@[simp] theorem byteCount_cons (c : Char) (s : List Char) :
    byteCount (c :: s) = c.utf8Size + byteCount s := by
  have h := foldl_utf8Size (0 + c.utf8Size) s
  rw [Nat.zero_add] at h
  rw [← h, byteCount, List.foldl_cons, Nat.zero_add]

@[simp] theorem byteCount_append (s t : List Char) :
    byteCount (s ++ t) = byteCount s + byteCount t := by
  induction s with
  | nil => simp
  | cons c s ih =>
    rw [List.cons_append, byteCount_cons, byteCount_cons, ih]
    omega

theorem byteCount_pos {s : List Char} (h : s ≠ []) : 0 < byteCount s := by
  cases s with
  | nil => exact absurd rfl h
  | cons c s =>
    have hc := c.utf8Size_pos
    rw [byteCount_cons]
    omega

theorem eq_nil_of_byteCount {s : List Char} (h : byteCount s = 0) : s = [] := by
  by_contra hne
  have hpos := byteCount_pos hne
  omega

/-- Of two ways to part a text, the one with fewer bytes in front parts the front of the other. -/
theorem exists_append_of_byteCount_le {s t u v : List Char} (h : s ++ t = u ++ v)
    (hle : byteCount s ≤ byteCount u) : ∃ more, u = s ++ more ∧ t = more ++ v := by
  rcases List.append_eq_append_iff.mp h with ⟨more, hu, ht⟩ | ⟨more, rfl, rfl⟩
  · exact ⟨more, hu, ht⟩
  · rw [byteCount_append] at hle
    obtain rfl := eq_nil_of_byteCount (s := more) (by omega)
    exact ⟨[], by simp, by simp⟩

/-- A character that stands before the end of the first part of a text is in that part. -/
theorem exists_cons_of_byteCount_lt {s t u v : List Char} {c : Char} (h : s ++ t = u ++ c :: v)
    (hlt : byteCount u < byteCount s) : ∃ more, s = u ++ c :: more ∧ v = more ++ t := by
  obtain ⟨more, rfl, hmore⟩ := exists_append_of_byteCount_le h.symm hlt.le
  cases more with
  | nil => simp at hlt
  | cons d more =>
    obtain ⟨rfl, hv⟩ := List.cons.inj hmore
    exact ⟨more, rfl, hv⟩

theorem append_inj_of_byteCount {s t u v : List Char} (h : s ++ t = u ++ v)
    (hbytes : byteCount s = byteCount u) : s = u ∧ t = v := by
  obtain ⟨more, rfl, rfl⟩ := exists_append_of_byteCount_le h (by omega)
  rw [byteCount_append] at hbytes
  obtain rfl := eq_nil_of_byteCount (s := more) (by omega)
  exact ⟨by simp, by simp⟩

theorem dropBytes?_byteCount (s t : List Char) : dropBytes? (byteCount s) (s ++ t) = some t := by
  induction s with
  | nil => cases t <;> simp [dropBytes?]
  | cons c s ih =>
    have hc := c.utf8Size_pos
    have hne : c.utf8Size + byteCount s ≠ 0 := by omega
    have hsub : c.utf8Size + byteCount s - c.utf8Size = byteCount s := by omega
    rw [List.cons_append, byteCount_cons, dropBytes?, if_neg hne, if_pos (by omega), hsub, ih]

theorem Span.slice_of_append {span : Span} {before lexeme : List Char} (rest : List Char)
    (hstart : span.start = byteCount before) (hstop : span.stop = span.start + byteCount lexeme) :
    span.slice (before ++ (lexeme ++ rest)) = lexeme := by
  have hlength : span.length = byteCount lexeme := by
    unfold length
    omega
  unfold slice
  rw [if_pos (by omega), hstart, dropBytes?_byteCount, hlength]
  simp [takeBytes?, dropBytes?_byteCount]

/-- What may stand around tokens: white space and comments. A comment goes on up to a line
break or the end of the text, so it matters what follows. -/
inductive Gap : List Char → List Char → Prop
  | done (rest : List Char) : Gap [] rest
  | blank {c : Char} {gap rest : List Char} (hc : isBlank c = true) (hgap : Gap gap rest) :
      Gap (c :: gap) rest
  | comment {body gap rest : List Char} (hbody : ∀ c ∈ body, isLineBreak c = false)
      (hstop : ∀ c ∈ (gap ++ rest).head?, isLineBreak c = true) (hgap : Gap gap rest) :
      Gap ('#' :: (body ++ gap)) rest

/-- The piece of a gap that begins with a hash is its line. -/
theorem splitUnits_comment (s : List Char) :
    splitUnits gapUnit ('#' :: s) =
      (('#' :: s.takeWhile (!isLineBreak ·)) ::
          (splitUnits gapUnit (s.dropWhile (!isLineBreak ·))).1,
        (splitUnits gapUnit (s.dropWhile (!isLineBreak ·))).2) := by
  have hunit : gapUnit ('#' :: s) = (s.takeWhile (!isLineBreak ·)).length + 1 := rfl
  have hparts := List.takeWhile_append_dropWhile (p := (!isLineBreak ·)) (l := s)
  have htake : s.take (s.takeWhile (!isLineBreak ·)).length = s.takeWhile (!isLineBreak ·) :=
    (congrArg (List.take _) hparts).symm.trans List.take_left
  have hdrop : s.drop (s.takeWhile (!isLineBreak ·)).length = s.dropWhile (!isLineBreak ·) :=
    (congrArg (List.drop _) hparts).symm.trans List.drop_left
  rw [splitUnits_step hunit, htake, hdrop]

theorem gap_splitUnits (s : List Char) :
    Gap (splitUnits gapUnit s).1.flatten (splitUnits gapUnit s).2 := by
  induction h : s.length using Nat.strongRecOn generalizing s with
  | ind n ih =>
    subst h
    match s with
    | [] =>
      rw [splitUnits_nil]
      exact .done []
    | c :: s =>
      by_cases hblank : isBlank c = true
      · have hunit : gapUnit (c :: s) = 0 + 1 := by simp [gapUnit, hblank]
        have hrest := ih s.length (by simp) s rfl
        rw [splitUnits_step hunit]
        exact .blank hblank (by simpa using hrest)
      · by_cases hhash : c = '#'
        · subst hhash
          have hlt : (s.dropWhile (!isLineBreak ·)).length < ('#' :: s).length :=
            Nat.lt_succ_of_le (List.length_dropWhile_le _ s)
          have hrest := ih _ hlt (s.dropWhile (!isLineBreak ·)) rfl
          rw [splitUnits_comment, List.flatten_cons]
          refine .comment ?_ ?_ hrest
          · intro c hc
            simpa using List.mem_takeWhile_imp hc
          · rw [flatten_splitUnits_append]
            intro c hc
            have hhead := List.head?_dropWhile_not (!isLineBreak ·) s
            rw [hc] at hhead
            simpa using hhead
        · have hunit : gapUnit (c :: s) = 0 := by simp [gapUnit, hblank, hhash]
          rw [splitUnits_stop hunit]
          exact .done (c :: s)

theorem splitGap_spec {s gap rest : List Char} (h : splitGap s = (gap, rest)) :
    gap ++ rest = s ∧ Gap gap rest := by
  have happ := splitRun_append gapUnit s
  have hgap := gap_splitUnits s
  obtain ⟨rfl, rfl⟩ := Prod.mk.inj h
  exact ⟨happ, hgap⟩

end SparqlQuery
