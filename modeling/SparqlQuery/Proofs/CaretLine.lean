import SparqlQuery.Proofs.LineColumn
import SparqlQuery.Proofs.NumberText

namespace SparqlQuery

/-- The last two lines of an error's detail: the line of the source that the error is on, behind a
gutter, and a caret. The indices are what stands in front of the failing character in the first, its
gutter included, and in front of the caret in the second. -/
inductive EndsInCaret (source : List Char) (e : LexError) : List Char → List Char → Prop
  | intro {heading gutter read after pointer : List Char} {failing : Char}
      (hdetail : e.detail.toList = heading ++ '\n' :: (gutter ++ (read ++ failing :: after)) ++
        '\n' :: (pointer ++ ['^']))
      (hgutter : '\n' ∉ gutter) (hpointer : '\n' ∉ pointer)
      (hline : lineText source e.line = read ++ failing :: after)
      (hbreak : '\n' ∉ lineText source e.line)
      (hcolumn : e.column.toNat = read.length + 1)
      (hfailing : e.remainder.toList.head? = some failing) :
      EndsInCaret source e (gutter ++ read) pointer

section

variable {source text last : List Char} {lines : List (List Char)} {e : LexError} {c : Char}
  {s t : List Char}

/-- A text has one last line. -/
theorem append_break_inj {s t s' t' : List Char} (h : s ++ '\n' :: t = s' ++ '\n' :: t')
    (ht : '\n' ∉ t) (ht' : '\n' ∉ t') : s = s' ∧ t = t' := by
  rcases List.append_eq_append_iff.mp h with ⟨more, rfl, hmore⟩ | ⟨more, rfl, hmore⟩
  · cases more with
    | nil => exact ⟨(List.append_nil s).symm, (List.cons.inj hmore).2⟩
    | cons d more =>
      rw [(List.cons.inj hmore).2] at ht
      simp at ht
  · cases more with
    | nil => exact ⟨List.append_nil s', (List.cons.inj hmore).2.symm⟩
    | cons d more =>
      rw [(List.cons.inj hmore).2] at ht'
      simp at ht'

theorem EndsInCaret.unique {front pointer front' pointer' : List Char}
    (h : EndsInCaret source e front pointer) (h' : EndsInCaret source e front' pointer') :
    front = front' ∧ pointer = pointer' := by
  obtain ⟨hdetail, hgutter, hpointer, hline, hbreak, hcolumn, -⟩ := h
  obtain ⟨hdetail', hgutter', hpointer', hline', -, hcolumn', -⟩ := h'
  rw [hdetail, ← hline, ← hline'] at hdetail'
  obtain ⟨hshown, hcaret⟩ := append_break_inj hdetail' (by simp [hpointer]) (by simp [hpointer'])
  obtain ⟨-, hgutters⟩ := append_break_inj hshown (by simp [hgutter, hbreak])
    (by simp [hgutter', hbreak])
  rw [hline] at hline'
  obtain ⟨rfl, -⟩ := List.append_inj hline' (by omega)
  exact ⟨by rw [List.append_cancel_right hgutters], List.append_cancel_right hcaret⟩

/-- White space at the end of a line is not cut off in front of a character of another kind. -/
theorem exists_rdropWhile_append_cons {p : Char → Bool} (hc : p c = false) (s t : List Char) :
    ∃ after, (s ++ c :: t).rdropWhile p = s ++ c :: after ∧ after ⊆ t := by
  induction t using List.reverseRecOn with
  | nil => exact ⟨[], List.rdropWhile_concat_neg p s c (by simp [hc]), List.Subset.refl _⟩
  | append_singleton t d ih =>
    rw [← List.cons_append, ← List.append_assoc, List.rdropWhile_concat]
    split
    · obtain ⟨after, hafter, hsub⟩ := ih
      exact ⟨after, hafter, List.subset_append_of_subset_left _ hsub⟩
    · exact ⟨t ++ [d], by simp, List.Subset.refl _⟩

/-- The line of a character that is not white space holds it, behind what stands before it. -/
theorem EndsIn.exists_lineText_eq (h : EndsIn text lines last)
    (hsize : byteCount text < countableBytes) (hblank : isBlank c = false) (s : List Char) :
    ∃ after, lineText (text ++ c :: s) (locate (text ++ c :: s) (byteCount text)).line =
      last ++ c :: after ∧ '\n' ∉ last ++ c :: after := by
  have hbreak : c ≠ '\n' := (ne_of_class (p := isBlank) rfl hblank).symm
  have hreturn : c ≠ '\r' := (ne_of_class (p := isBlank) rfl hblank).symm
  have hfailing : isLineBreak c = false := by simp [isLineBreak, hbreak, hreturn]
  rw [h.lineText_last hsize, List.takeWhile_cons_of_pos (by simpa using hbreak)]
  obtain ⟨after, hafter, hsub⟩ :=
    exists_rdropWhile_append_cons hfailing last (s.takeWhile (· != '\n'))
  refine ⟨after, hafter, ?_⟩
  have hnone : '\n' ∉ after := fun hmem => break_not_mem_takeWhile s (hsub hmem)
  simp [h.last_free, hnone, hbreak.symm]

theorem newline_not_mem_natChars (n : Nat) : '\n' ∉ natChars n := by
  intro hmem
  have hdigit := isDigit_of_mem_natChars _ hmem
  cases hdigit

theorem length_natChars_eq_one_iff (n : Nat) : (natChars n).length = 1 ↔ n < 10 := by
  have hle : (natChars n).length ≤ 1 ↔ n < 10 := Nat.length_repr_le_iff (k := 1) Nat.one_pos
  have hpos := List.length_pos_iff.mpr (natChars_ne_nil n)
  omega

/-- The gutter is the number of the line and a bar; below it stands a bar for a number of one
digit. -/
theorem endsInCaret_atPosition (hsize : byteCount text < countableBytes)
    (hblank : isBlank c = false) :
    ∃ front pointer, EndsInCaret (text ++ c :: s)
        (.atPosition (text ++ c :: s) (byteCount text) (c :: s)) front pointer ∧
      pointer.length + (natChars (locate (text ++ c :: s) (byteCount text)).line.toNat).length =
        front.length + 1 := by
  obtain ⟨lines, last, hends⟩ := exists_endsIn text
  obtain ⟨after, hline, hbreak⟩ := hends.exists_lineText_eq hsize hblank s
  have hcolumn := hends.column_eq hsize (c :: s)
  generalize hplace : locate (text ++ c :: s) (byteCount text) = place at hline hcolumn ⊢
  refine ⟨natChars place.line.toNat ++ " | ".toList ++ last,
    "  | ".toList ++ List.replicate (place.column.toNat - 1) ' ', ?_, ?_⟩
  · refine @EndsInCaret.intro _ _ ((complaint c).toList ++ (" at line ".toList ++
      (natChars place.line.toNat ++ (", column ".toList ++ (natChars place.column.toNat ++
        "\n  |".toList))))) _ last after _ c ?_ ?_ ?_ ?_ ?_ ?_ ?_
    · simp [LexError.atPosition, hplace, hline, natChars]
    · simp [newline_not_mem_natChars]
    · simp [List.mem_replicate]
    · simpa [LexError.atPosition, hplace] using hline
    · simpa [LexError.atPosition, hplace, hline] using hbreak
    · simpa [LexError.atPosition, hplace] using hcolumn
    · simp [LexError.atPosition]
  · simp [hcolumn]
    omega

theorem endsInCaret_of_run {text : String}
    (hsize : byteCount (decodeEscapes text.toList) < countableBytes)
    (h : (Lexer.ofText text).run.2 = some e) :
    ∃ front pointer, EndsInCaret (decodeEscapes text.toList) e front pointer ∧
      pointer.length + (natChars e.line.toNat).length = front.length + 1 := by
  obtain ⟨fresh, front, c, s, hsource, hunit, -, rfl⟩ := Lexer.failure_placed rfl h
  have hdecoded : decodeEscapes text.toList = front ++ c :: s := hsource
  have hblank : isBlank c = false := by
    cases hblank : isBlank c with
    | false => rfl
    | true => simp [gapUnit, hblank] at hunit
  rw [hdecoded, byteCount_append] at hsize
  have hoffset : (Lexer.ofText text).offset + byteCount front = byteCount front := Nat.zero_add _
  have hlexer : (Lexer.ofText text).source = front ++ c :: s := hdecoded
  rw [hdecoded, hoffset, hlexer]
  exact endsInCaret_atPosition (by omega) hblank

end

/-- An error's detail ends with its line and a caret, and the caret stands below the failing
character on the lines up to the ninth. From the tenth on it stands too far to the left, by the
further digits of the number in front of the line. -/
theorem caret_below_iff {text : String} {e : LexError}
    (hsize : byteCount (decodeEscapes text.toList) < countableBytes)
    (h : (Lexer.ofText text).run.2 = some e) :
    (∃ front pointer, EndsInCaret (decodeEscapes text.toList) e front pointer) ∧
    ∀ front pointer, EndsInCaret (decodeEscapes text.toList) e front pointer →
      pointer.length + (natChars e.line.toNat).length = front.length + 1 ∧
      (pointer.length = front.length ↔ e.line.toNat < 10) := by
  obtain ⟨front, pointer, hends, hlength⟩ := endsInCaret_of_run hsize h
  refine ⟨⟨front, pointer, hends⟩, fun front' pointer' hends' => ?_⟩
  obtain ⟨rfl, rfl⟩ := hends.unique hends'
  have hdigits := length_natChars_eq_one_iff e.line.toNat
  exact ⟨hlength, by omega⟩

theorem ninthLine_aligned :
    ∃ e front pointer, (Lexer.ofText "\n\n\n\n\n\n\n\né~").run.2 = some e ∧
      EndsInCaret (decodeEscapes "\n\n\n\n\n\n\n\né~".toList) e front pointer ∧
      pointer.length = front.length := by
  have hsize : byteCount (decodeEscapes "\n\n\n\n\n\n\n\né~".toList) < countableBytes := by
    decide +kernel
  have hline : (Lexer.ofText "\n\n\n\n\n\n\n\né~").run.2.map (·.line.toNat) = some 9 := by
    decide +kernel
  obtain ⟨e, he, hnine⟩ := Option.map_eq_some_iff.mp hline
  obtain ⟨⟨front, pointer, hends⟩, hall⟩ := caret_below_iff hsize he
  exact ⟨e, front, pointer, he, hends, (hall front pointer hends).2.mpr (by omega)⟩

theorem tenthLine_misaligned :
    ∃ e, (Lexer.ofText "\n\n\n\n\n\n\n\n\n~").run.2 = some e ∧
      e.detail = "unexpected character '~' at line 10, column 1\n  |\n10 | ~\n  | ^" ∧
      ∀ front pointer,
        EndsInCaret (decodeEscapes "\n\n\n\n\n\n\n\n\n~".toList) e front pointer →
        pointer.length ≠ front.length := by
  have hsize : byteCount (decodeEscapes "\n\n\n\n\n\n\n\n\n~".toList) < countableBytes := by
    decide +kernel
  have hrun : (Lexer.ofText "\n\n\n\n\n\n\n\n\n~").run.2.map (fun e => (e.line.toNat, e.detail)) =
      some (10, "unexpected character '~' at line 10, column 1\n  |\n10 | ~\n  | ^") := by
    decide +kernel
  obtain ⟨e, he, hten⟩ := Option.map_eq_some_iff.mp hrun
  obtain ⟨hline, hdetail⟩ := Prod.mk.inj hten
  obtain ⟨front, pointer, hends, hlength⟩ := endsInCaret_of_run hsize he
  refine ⟨e, he, hdetail, fun front' pointer' hends' => ?_⟩
  obtain ⟨rfl, rfl⟩ := hends.unique hends'
  have hdigits := length_natChars_eq_one_iff e.line.toNat
  omega

end SparqlQuery
