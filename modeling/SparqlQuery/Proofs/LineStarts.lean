import SparqlQuery.Proofs.LexerGaps
import SparqlQuery.Position
import Mathlib.Data.List.DropRight

namespace SparqlQuery

/-- A text as the lines that end in it and the one that it breaks off in. -/
structure EndsIn (text : List Char) (lines : List (List Char)) (last : List Char) : Prop where
  text_eq : text = lines.flatMap (· ++ ['\n']) ++ last
  lines_free : ∀ line ∈ lines, '\n' ∉ line
  last_free : '\n' ∉ last

/-- Where the lines behind the breaks of a text begin, with `offset` bytes in front of it. -/
def startsBehind (offset : Nat) : List Char → List Nat
  | [] => []
  | c :: s =>
    if c = '\n' then (offset + 1) :: startsBehind (offset + 1) s
    else startsBehind (offset + c.utf8Size) s

/-- The search finds where a table passes a bound. -/
theorem countUpTo_eq {table : Array Nat} {front back : List Nat} {bound low high : Nat}
    (htable : table.toList = front ++ back) (hfront : ∀ entry ∈ front, entry ≤ bound)
    (hback : ∀ entry ∈ back, bound < entry) (hlow : low ≤ front.length)
    (hhigh : front.length ≤ high) (hsize : high ≤ table.size) :
    countUpTo table bound low high = front.length := by
  have hlength : table.size = front.length + back.length := by
    rw [← Array.length_toList, htable, List.length_append]
  induction hdistance : high - low using Nat.strongRecOn generalizing low high with
  | ind n ih =>
    subst hdistance
    rw [countUpTo]
    split
    next hlt =>
      rw [← Array.getElem?_toList, htable]
      by_cases hside : (low + high) / 2 < front.length
      · rw [List.getElem?_append_left hside, List.getElem?_eq_getElem hside]
        simp only [if_pos (hfront _ (List.getElem_mem hside))]
        exact ih _ (by omega) hside hhigh hsize rfl
      · have hindex : (low + high) / 2 - front.length < back.length := by omega
        have hgt := hback _ (List.getElem_mem hindex)
        rw [List.getElem?_append_right (by omega), List.getElem?_eq_getElem hindex]
        simp only [if_neg (Nat.not_le.mpr hgt)]
        exact ih _ (by omega) hlow (by omega) (by omega) rfl
    next => omega

section

variable {text last : List Char} {lines : List (List Char)}

theorem exists_endsIn (text : List Char) : ∃ lines last, EndsIn text lines last := by
  induction text using List.reverseRecOn with
  | nil => exact ⟨[], [], rfl, by simp, by simp⟩
  | append_singleton text c ih =>
    obtain ⟨lines, last, rfl, hlines, hlast⟩ := ih
    by_cases hc : c = '\n'
    · subst hc
      refine ⟨lines ++ [last], [], by simp, ?_, by simp⟩
      intro line hline
      rcases List.mem_append.mp hline with hold | hnew
      · exact hlines line hold
      · rw [List.mem_singleton.mp hnew]
        exact hlast
    · exact ⟨lines, last ++ [c], by simp, hlines, by simp [hlast, Ne.symm hc]⟩

theorem EndsIn.append_of_not_mem (h : EndsIn text lines last) {more : List Char}
    (hmore : '\n' ∉ more) : EndsIn (text ++ more) lines (last ++ more) := by
  refine ⟨?_, h.lines_free, by simp [h.last_free, hmore]⟩
  rw [h.text_eq, List.append_assoc]

/-- The lines that end in a text, without the one that it breaks off in. -/
theorem EndsIn.take (h : EndsIn text lines last) {n : Nat} (hn : n < lines.length) :
    ∃ front rest, EndsIn front (lines.take n) lines[n] ∧ text = front ++ '\n' :: rest := by
  refine ⟨(lines.take n).flatMap (· ++ ['\n']) ++ lines[n],
    (lines.drop (n + 1)).flatMap (· ++ ['\n']) ++ last, ⟨rfl, ?_, ?_⟩, ?_⟩
  · exact fun line hline => h.lines_free line (List.mem_of_mem_take hline)
  · exact h.lines_free _ (List.getElem_mem hn)
  · have hparts : lines = lines.take n ++ lines[n] :: lines.drop (n + 1) := by
      rw [← List.drop_eq_getElem_cons hn, List.take_append_drop]
    have hjoined := congrArg (List.flatMap (· ++ ['\n'])) hparts
    rw [List.flatMap_append, List.flatMap_cons] at hjoined
    rw [h.text_eq, hjoined]
    simp only [List.append_assoc, List.cons_append, List.nil_append]

theorem foldl_countLine (starts : Array Nat) (bytes : Nat) (s : List Char) :
    (s.foldl countLine (starts, bytes)).1.toList = starts.toList ++ startsBehind bytes s := by
  induction s generalizing starts bytes with
  | nil => simp [startsBehind]
  | cons c s ih =>
    rw [List.foldl_cons, countLine, ih, startsBehind]
    by_cases hc : c = '\n'
    · subst hc
      simp [Char.utf8Size]
    · simp [hc]

theorem toList_lineStarts (s : List Char) : (lineStarts s).toList = 0 :: startsBehind 0 s :=
  foldl_countLine #[0] 0 s

theorem startsBehind_append (offset : Nat) (s t : List Char) :
    startsBehind offset (s ++ t) =
      startsBehind offset s ++ startsBehind (offset + byteCount s) t := by
  induction s generalizing offset with
  | nil => simp [startsBehind]
  | cons c s ih =>
    rw [List.cons_append, startsBehind, startsBehind, byteCount_cons, ih, ih, ← Nat.add_assoc]
    by_cases hc : c = '\n'
    · subst hc
      simp [Char.utf8Size]
    · simp [hc]

theorem startsBehind_of_not_mem {s : List Char} (h : '\n' ∉ s) (offset : Nat) :
    startsBehind offset s = [] := by
  induction s generalizing offset with
  | nil => rfl
  | cons c s ih =>
    rw [List.mem_cons, not_or] at h
    rw [startsBehind, if_neg (Ne.symm h.1), ih h.2]

theorem lt_of_mem_startsBehind {s : List Char} {offset start : Nat}
    (h : start ∈ startsBehind offset s) : offset < start := by
  induction s generalizing offset with
  | nil => cases h
  | cons c s ih =>
    rw [startsBehind] at h
    split at h
    · rcases List.mem_cons.mp h with rfl | h
      · exact Nat.lt_succ_self offset
      · exact Nat.lt_of_succ_lt (ih h)
    · exact Nat.lt_of_le_of_lt (Nat.le_add_right offset _) (ih h)

/-- The line that a text breaks off in begins behind all others, and is followed by the lines that
begin behind the text. -/
theorem EndsIn.lineStarts_append (h : EndsIn text lines last) (s : List Char) :
    ∃ earlier : List Nat, earlier.length = lines.length ∧
      (∀ start ∈ earlier, start ≤ byteCount (lines.flatMap (· ++ ['\n']))) ∧
      (lineStarts (text ++ s)).toList =
        earlier ++ byteCount (lines.flatMap (· ++ ['\n'])) :: startsBehind (byteCount text) s := by
  obtain ⟨rfl, hlines, hlast⟩ := h
  rw [toList_lineStarts, startsBehind_append, startsBehind_append, Nat.zero_add, Nat.zero_add,
    startsBehind_of_not_mem hlast, List.append_nil, ← List.cons_append]
  suffices hstarts : ∃ earlier : List Nat, earlier.length = lines.length ∧
      (∀ start ∈ earlier, start ≤ byteCount (lines.flatMap (· ++ ['\n']))) ∧
      0 :: startsBehind 0 (lines.flatMap (· ++ ['\n'])) =
        earlier ++ [byteCount (lines.flatMap (· ++ ['\n']))] by
    obtain ⟨earlier, hlength, hle, hstarts⟩ := hstarts
    exact ⟨earlier, hlength, hle, by rw [hstarts, List.append_assoc, List.singleton_append]⟩
  induction lines using List.reverseRecOn with
  | nil => exact ⟨[], rfl, by simp, rfl⟩
  | append_singleton lines line ih =>
    rw [List.forall_mem_append, List.forall_mem_singleton] at hlines
    obtain ⟨earlier, hlength, hle, hstarts⟩ := ih hlines.1
    refine ⟨earlier ++ [byteCount (lines.flatMap (· ++ ['\n']))], by simp [hlength], ?_, ?_⟩
    · intro start hstart
      rw [List.flatMap_append, byteCount_append]
      rcases List.mem_append.mp hstart with hold | hnew
      · exact (hle start hold).trans (Nat.le_add_right _ _)
      · rw [List.mem_singleton.mp hnew]
        exact Nat.le_add_right _ _
    · rw [List.flatMap_append, List.flatMap_singleton, startsBehind_append, ← List.cons_append,
        hstarts, Nat.zero_add, startsBehind_append, startsBehind_of_not_mem hlines.2]
      simp [startsBehind, Char.utf8Size, Nat.add_assoc]

theorem EndsIn.getElem?_lineStarts (h : EndsIn text lines last) (s : List Char) :
    (lineStarts (text ++ s))[lines.length]? = some (byteCount (lines.flatMap (· ++ ['\n']))) ∧
      (lineStarts (text ++ s))[lines.length + 1]? = (startsBehind (byteCount text) s).head? := by
  obtain ⟨earlier, hlength, -, hstarts⟩ := h.lineStarts_append s
  rw [← Array.getElem?_toList, ← Array.getElem?_toList, hstarts, ← hlength]
  constructor
  · simp
  · rw [List.getElem?_append_right (by omega), Nat.add_sub_cancel_left, List.getElem?_cons_succ,
      List.head?_eq_getElem?]

/-- From where a line begins up to somewhere in it. -/
theorem EndsIn.slice_eq (h : EndsIn text lines last) (more s : List Char) :
    Span.slice ⟨byteCount (lines.flatMap (· ++ ['\n'])), byteCount (text ++ more)⟩
      (text ++ (more ++ s)) = last ++ more := by
  have hstop : byteCount (text ++ more) =
      byteCount (lines.flatMap (· ++ ['\n'])) + byteCount (last ++ more) := by
    rw [h.text_eq, List.append_assoc, byteCount_append]
  have htext : text ++ (more ++ s) =
      lines.flatMap (· ++ ['\n']) ++ ((last ++ more) ++ s) := by
    rw [h.text_eq]
    simp only [List.append_assoc]
  rw [htext]
  exact Span.slice_of_append s rfl hstop

theorem EndsIn.locate_eq (h : EndsIn text lines last) (s : List Char) :
    locate (text ++ s) (byteCount text) =
      ⟨(lines.length + 1).toUInt32, (last.length + 1).toUInt32⟩ := by
  have hoffset : min (byteCount text) (byteCount (text ++ s)) = byteCount text := by
    rw [byteCount_append]
    omega
  have hcount : countUpTo (lineStarts (text ++ s)) (byteCount text) 0
      (lineStarts (text ++ s)).size = lines.length + 1 := by
    obtain ⟨earlier, hlength, hle, hstarts⟩ := h.lineStarts_append s
    have hjoined : byteCount (lines.flatMap (· ++ ['\n'])) ≤ byteCount text := by
      rw [h.text_eq, byteCount_append]
      exact Nat.le_add_right _ _
    have hsize : (lineStarts (text ++ s)).size =
        lines.length + 1 + (startsBehind (byteCount text) s).length := by
      rw [← Array.length_toList, hstarts, List.length_append, List.length_cons, hlength]
      omega
    rw [List.append_cons] at hstarts
    have hfront : (earlier ++ [byteCount (lines.flatMap (· ++ ['\n']))]).length =
        lines.length + 1 := by simp [hlength]
    rw [← hfront]
    refine countUpTo_eq hstarts ?_ (fun _ hmem => lt_of_mem_startsBehind hmem) (Nat.zero_le _)
      (by omega) le_rfl
    intro start hstart
    rcases List.mem_append.mp hstart with hold | hnew
    · exact (hle start hold).trans hjoined
    · rw [List.mem_singleton.mp hnew]
      exact hjoined
  have hslice := h.slice_eq [] s
  simp only [List.append_nil, List.nil_append] at hslice
  simp only [locate, hoffset, hcount, Nat.add_sub_cancel, (h.getElem?_lineStarts s).1,
    Option.getD_some, hslice]

/-- An offset past the end of a text is located as its end. -/
theorem locate_past {source : List Char} {offset : Nat} (h : byteCount source ≤ offset) :
    locate source offset = locate source (byteCount source) := by
  simp only [locate, Nat.min_eq_right h, Nat.min_self]

theorem break_not_mem_takeWhile (s : List Char) : '\n' ∉ s.takeWhile (· != '\n') := by
  intro hmem
  have hne := List.mem_takeWhile_imp hmem
  simp at hne

theorem rdropWhile_of_free {s : List Char} (h : ∀ c ∈ s, isLineBreak c = false) :
    s.rdropWhile isLineBreak = s := by
  rw [List.rdropWhile_eq_self_iff]
  intro hne hbreak
  rw [h _ (List.getLast_mem hne)] at hbreak
  cases hbreak

/-- A line goes up to the next break or the end of the text, and what ends it is cut off. -/
theorem EndsIn.lineText_eq (h : EndsIn text lines last) {number : UInt32}
    (hnumber : number.toNat = lines.length + 1) {s : List Char}
    (hs : s = [] ∨ ∃ t, s = '\n' :: t) :
    lineText (text ++ s) number = last.rdropWhile isLineBreak := by
  obtain ⟨hstart, hstop⟩ := h.getElem?_lineStarts s
  rw [lineText, hnumber, Nat.add_sub_cancel]
  simp only [hstart, hstop]
  rcases hs with rfl | ⟨t, rfl⟩
  · have hslice := h.slice_eq [] []
    simp only [List.append_nil] at hslice
    rw [List.append_nil, startsBehind, List.head?_nil, Option.getD_none, hslice]
    rfl
  · have hslice := h.slice_eq ['\n'] t
    have hbytes : byteCount (text ++ ['\n']) = byteCount text + 1 := by
      simp [Char.utf8Size]
    rw [hbytes, List.singleton_append] at hslice
    rw [startsBehind, if_pos rfl, List.head?_cons, Option.getD_some, hslice]
    exact List.rdropWhile_concat_pos isLineBreak last '\n' rfl

end

end SparqlQuery
