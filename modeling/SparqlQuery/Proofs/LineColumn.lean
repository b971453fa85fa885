import SparqlQuery.Proofs.LineStarts
import SparqlQuery.Proofs.ScanFailure

namespace SparqlQuery

/-- Texts with fewer bytes have lines and columns that can be counted. -/
def countableBytes : Nat :=
  0xFFFFFFFF

/-- What follows the last line break of a text. -/
def lastLine (text : List Char) : List Char :=
  text.rtakeWhile (· != '\n')

/-- Earlier lines come first, and of one line the earlier columns. -/
def Position.Before (p q : Position) : Prop :=
  p.line < q.line ∨ p.line = q.line ∧ p.column < q.column

/-- The text in front of a place, put together from the lines that can be asked for. -/
def textUpTo (source : List Char) (place : Position) : List Char :=
  ((List.range' 1 (place.line.toNat - 1)).map fun line =>
    lineText source line.toUInt32).flatMap (· ++ ['\n']) ++
    (lineText source place.line).take (place.column.toNat - 1)

/-- What the line and the column of a place say, in one text. -/
structure CountsLines (source : List Char) : Prop where
  line : ∀ before, before <+: source →
    (locate source (byteCount before)).line.toNat = before.count '\n' + 1
  column : ∀ before, before <+: source →
    (locate source (byteCount before)).column.toNat = (lastLine before).length + 1
  past : ∀ offset, byteCount source ≤ offset →
    locate source offset = locate source (byteCount source)
  increasing : ∀ start stop, start <+: source → stop <+: source →
    byteCount start < byteCount stop →
    (locate source (byteCount start)).Before (locate source (byteCount stop))
  determines : '\r' ∉ source → ∀ before, before <+: source →
    textUpTo source (locate source (byteCount before)) = before

section

variable {text last : List Char} {lines : List (List Char)}

theorem EndsIn.count (h : EndsIn text lines last) : text.count '\n' = lines.length := by
  obtain ⟨rfl, hlines, hlast⟩ := h
  rw [List.count_append, List.count_eq_zero_of_not_mem hlast, Nat.add_zero]
  induction lines with
  | nil => rfl
  | cons line lines ih =>
    obtain ⟨hline, hlines⟩ := List.forall_mem_cons.mp hlines
    rw [List.flatMap_cons, List.count_append, List.count_append,
      List.count_eq_zero_of_not_mem hline, ih hlines]
    simp [Nat.add_comm]

theorem EndsIn.lastLine_eq (h : EndsIn text lines last) : lastLine text = last := by
  obtain ⟨rfl, -, hlast⟩ := h
  have hall : ∀ c ∈ last.reverse, (c != '\n') = true := by
    intro c hc
    simpa using ne_of_mem_of_not_mem (List.mem_reverse.mp hc) hlast
  have hstops : StopsAt (· != '\n') (lines.flatMap (· ++ ['\n'])).reverse := by
    cases lines using List.reverseRecOn with
    | nil => exact stopsAt_nil _
    | append_singleton lines line => simp [StopsAt]
  rw [lastLine, List.rtakeWhile, List.reverse_append, hstops.takeWhile_append hall,
    List.reverse_reverse]

theorem length_le_byteCount (s : List Char) : s.length ≤ byteCount s := by
  induction s with
  | nil => exact le_rfl
  | cons c s ih =>
    have hpos := c.utf8Size_pos
    rw [List.length_cons, byteCount_cons]
    omega

theorem EndsIn.lines_le (h : EndsIn text lines last) : lines.length ≤ byteCount text := by
  rw [← h.count]
  exact List.count_le_length.trans (length_le_byteCount text)

theorem EndsIn.last_le (h : EndsIn text lines last) : last.length ≤ byteCount text := by
  refine le_trans ?_ (length_le_byteCount text)
  rw [h.text_eq, List.length_append]
  omega

theorem toNat_toUInt32_succ {n : Nat} (h : n < countableBytes) : (n + 1).toUInt32.toNat = n + 1 :=
  Nat.mod_eq_of_lt (Nat.succ_lt_succ h)

theorem EndsIn.line_eq (h : EndsIn text lines last) (hsize : byteCount text < countableBytes)
    (s : List Char) : (locate (text ++ s) (byteCount text)).line.toNat = lines.length + 1 := by
  rw [h.locate_eq]
  exact toNat_toUInt32_succ (h.lines_le.trans_lt hsize)

theorem EndsIn.column_eq (h : EndsIn text lines last) (hsize : byteCount text < countableBytes)
    (s : List Char) : (locate (text ++ s) (byteCount text)).column.toNat = last.length + 1 := by
  rw [h.locate_eq]
  exact toNat_toUInt32_succ (h.last_le.trans_lt hsize)

/-- The line of a place is what stands before it on the line and what follows up to the break. -/
theorem EndsIn.lineText_last (h : EndsIn text lines last) (hsize : byteCount text < countableBytes)
    (s : List Char) : lineText (text ++ s) (locate (text ++ s) (byteCount text)).line =
      (last ++ s.takeWhile (· != '\n')).rdropWhile isLineBreak := by
  have hrest : s.dropWhile (· != '\n') = [] ∨ ∃ t, s.dropWhile (· != '\n') = '\n' :: t := by
    cases hrest : s.dropWhile (· != '\n') with
    | nil => exact .inl rfl
    | cons c t =>
      have hbreak := stopsAt_dropWhile (· != '\n') s c (by simp [hrest])
      exact .inr ⟨t, by rw [show c = '\n' by simpa using hbreak]⟩
  have hends := h.append_of_not_mem (break_not_mem_takeWhile s)
  have hline := hends.lineText_eq (h.line_eq hsize s) hrest
  rwa [List.append_assoc, List.takeWhile_append_dropWhile] at hline

/-- The lines before it are those that ended in front of the place. -/
theorem EndsIn.lineText_earlier (h : EndsIn text lines last)
    (hsize : byteCount text < countableBytes) (s : List Char) {n : Nat} (hn : n < lines.length) :
    lineText (text ++ s) (n + 1).toUInt32 = lines[n].rdropWhile isLineBreak := by
  have hle := h.lines_le
  obtain ⟨front, rest, hfront, rfl⟩ := h.take hn
  have hnumber : (n + 1).toUInt32.toNat = (lines.take n).length + 1 := by
    rw [toNat_toUInt32_succ (by omega), List.length_take, Nat.min_eq_left hn.le]
  rw [List.append_assoc]
  exact hfront.lineText_eq hnumber (.inr ⟨rest ++ s, rfl⟩)

theorem EndsIn.subset_text (h : EndsIn text lines last) {line : List Char} (hline : line ∈ lines) :
    line ⊆ text := by
  intro c hc
  have hmem : c ∈ lines.flatMap (· ++ ['\n']) :=
    List.mem_flatMap.mpr ⟨line, hline, List.mem_append_left _ hc⟩
  rw [h.text_eq]
  exact List.mem_append_left _ hmem

theorem EndsIn.textUpTo_eq (h : EndsIn text lines last) (hsize : byteCount text < countableBytes)
    {s : List Char} (hreturn : '\r' ∉ text ++ s) :
    textUpTo (text ++ s) (locate (text ++ s) (byteCount text)) = text := by
  have hfree : ∀ line, line ⊆ text ++ s → '\n' ∉ line → line.rdropWhile isLineBreak = line := by
    intro line hline hnone
    refine rdropWhile_of_free fun c hc => ?_
    simp [isLineBreak, ne_of_mem_of_not_mem hc hnone,
      ne_of_mem_of_not_mem (hline hc) hreturn]
  have hlines : (List.range' 1 lines.length).map (fun line => lineText (text ++ s) line.toUInt32) =
      lines := by
    refine List.ext_getElem (by simp) ?_
    intro n hn hn'
    have hsub : lines[n] ⊆ text ++ s :=
      List.subset_append_of_subset_left s (h.subset_text (List.getElem_mem hn'))
    rw [List.getElem_map, List.getElem_range', Nat.one_mul, Nat.add_comm 1,
      h.lineText_earlier hsize s hn', hfree _ hsub (h.lines_free _ (List.getElem_mem hn'))]
  have hsub : last ++ s.takeWhile (· != '\n') ⊆ text ++ s := by
    rw [h.text_eq, List.append_assoc]
    have hrest := (List.Sublist.refl last).append (List.takeWhile_sublist (· != '\n') (l := s))
    exact (hrest.trans (List.sublist_append_right _ _)).subset
  have hnone : '\n' ∉ last ++ s.takeWhile (· != '\n') :=
    (h.append_of_not_mem (break_not_mem_takeWhile s)).last_free
  rw [textUpTo, h.line_eq hsize, h.column_eq hsize, h.lineText_last hsize, hfree _ hsub hnone,
    Nat.add_sub_cancel, Nat.add_sub_cancel, List.take_left, hlines, ← h.text_eq]

/-- A later place is on a later line or, with no line break between them, in a later column. -/
theorem locate_before {start more rest : List Char} (hmore : more ≠ [])
    (hsize : byteCount (start ++ more) < countableBytes) :
    (locate (start ++ (more ++ rest)) (byteCount start)).Before
      (locate (start ++ (more ++ rest)) (byteCount (start ++ more))) := by
  obtain ⟨lines, last, hstart⟩ := exists_endsIn start
  have hsize' : byteCount start < countableBytes := by
    rw [byteCount_append] at hsize
    omega
  have hline := hstart.line_eq hsize' (more ++ rest)
  by_cases hbreak : '\n' ∈ more
  · left
    obtain ⟨lines', last', hstop⟩ := exists_endsIn (start ++ more)
    have hline' := hstop.line_eq hsize rest
    have hcount := hstop.count
    have hpos := List.count_pos_iff.mpr hbreak
    rw [List.count_append, hstart.count] at hcount
    rw [List.append_assoc] at hline'
    rw [UInt32.lt_iff_toNat_lt, hline, hline']
    omega
  · right
    have hstop := hstart.append_of_not_mem hbreak
    have hcolumn := hstart.column_eq hsize' (more ++ rest)
    have hline' := hstop.line_eq hsize rest
    have hcolumn' := hstop.column_eq hsize rest
    have hlength := List.length_pos_iff.mpr hmore
    rw [List.append_assoc] at hline' hcolumn'
    rw [List.length_append] at hcolumn'
    refine ⟨UInt32.toNat_inj.mp (hline.trans hline'.symm), ?_⟩
    rw [UInt32.lt_iff_toNat_lt, hcolumn, hcolumn']
    omega

end

theorem countsLines {source : List Char} (hsize : byteCount source < countableBytes) :
    CountsLines source := by
  have hfront (before rest : List Char) (h : before ++ rest = source) :
      byteCount before < countableBytes := by
    rw [← h, byteCount_append] at hsize
    omega
  refine ⟨?_, ?_, fun offset hoffset => locate_past hoffset, ?_, ?_⟩
  · rintro before ⟨rest, rfl⟩
    obtain ⟨lines, last, hends⟩ := exists_endsIn before
    rw [hends.line_eq (hfront before rest rfl), hends.count]
  · rintro before ⟨rest, rfl⟩
    obtain ⟨lines, last, hends⟩ := exists_endsIn before
    rw [hends.column_eq (hfront before rest rfl), hends.lastLine_eq]
  · rintro start stop ⟨tail, htail⟩ ⟨rest, rfl⟩ hlt
    obtain ⟨more, rfl, rfl⟩ := exists_append_of_byteCount_le htail hlt.le
    have hmore : more ≠ [] := by
      rintro rfl
      simp at hlt
    rw [List.append_assoc]
    exact locate_before hmore (hfront _ rest rfl)
  · rintro hreturn before ⟨rest, rfl⟩
    obtain ⟨lines, last, hends⟩ := exists_endsIn before
    exact hends.textUpTo_eq (hfront before rest rfl) hreturn

/-- The line and the column of a place count what stands before it, grow with it, and are enough to
read the text in front of it from the lines. Those of an error belong to its position, which no
character stands across. -/
theorem locate_determines_offset :
    (∀ source, byteCount source < countableBytes → CountsLines source) ∧
    ∀ text e, (Lexer.ofText text).run.2 = some e →
      (∃ before, before <+: decodeEscapes text.toList ∧ e.position = byteCount before) ∧
      ⟨e.line, e.column⟩ = locate (decodeEscapes text.toList) e.position := by
  refine ⟨fun _ => countsLines, fun text e h => ?_⟩
  obtain ⟨fresh, front, c, s, hsource, -, -, rfl⟩ := Lexer.failure_placed rfl h
  exact ⟨⟨front, ⟨c :: s, hsource.symm⟩, Nat.zero_add _⟩, rfl⟩

/-- The second column of a second line, behind a character of two bytes. -/
theorem tilde_located :
    byteCount "?é\né~".toList < countableBytes ∧ "?é\né".toList <+: "?é\né~".toList ∧
      (locate "?é\né~".toList 6).line.toNat = 2 ∧ (locate "?é\né~".toList 6).column.toNat = 2 ∧
      textUpTo "?é\né~".toList (locate "?é\né~".toList 6) = "?é\né".toList ∧
      ∃ e, (Lexer.ofText "?é\n ~").run.2 = some e ∧
        ⟨e.line, e.column⟩ = locate "?é\n ~".toList e.position := by
  have hsize : byteCount "?é\né~".toList < countableBytes := by decide
  have hfront : "?é\né".toList <+: "?é\né~".toList := ⟨['~'], by decide⟩
  have hcounts := locate_determines_offset.1 _ hsize
  have hbytes : byteCount "?é\né".toList = 6 := by decide
  have hline := hcounts.line _ hfront
  have hcolumn := hcounts.column _ hfront
  have hread := hcounts.determines (by decide) _ hfront
  rw [hbytes] at hline hcolumn hread
  obtain ⟨e, he⟩ : ∃ e, (Lexer.ofText "?é\n ~").run.2 = some e :=
    Option.isSome_iff_exists.mp (by decide +kernel)
  have hdecoded : decodeEscapes "?é\n ~".toList = "?é\n ~".toList := by decide +kernel
  have hplace := (locate_determines_offset.2 _ e he).2
  rw [hdecoded] at hplace
  exact ⟨hsize, hfront, hline.trans (by decide), hcolumn.trans (by decide), hread, e, he, hplace⟩

end SparqlQuery
