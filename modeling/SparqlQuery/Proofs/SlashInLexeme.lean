import SparqlQuery.Proofs.NameRoundTrip

namespace SparqlQuery

/-- The number of backslashes that a text ends in. -/
def endSlashes (s : List Char) : Nat :=
  (s.reverse.takeWhile (· == '\\')).length

section

variable {s t u v : List Char}

theorem endSlashes_append_cons {c : Char} (hc : c ≠ '\\') (s t : List Char) :
    endSlashes (s ++ c :: t) = endSlashes t := by
  have hreverse : (s ++ c :: t).reverse = t.reverse ++ c :: s.reverse := by simp
  rw [endSlashes, endSlashes, hreverse, List.takeWhile_append]
  split
  next hall => simp [hc, hall]
  next => rfl

theorem endSlashes_append (hs : '\\' ∉ s) (hne : s ≠ []) (front t : List Char) :
    endSlashes (front ++ (s ++ t)) = endSlashes t := by
  obtain ⟨more, c, rfl⟩ := List.eq_nil_or_concat s |>.resolve_left hne
  have hc : c ≠ '\\' := by
    rintro rfl
    simp at hs
  have happ : front ++ (more.concat c ++ t) = (front ++ more) ++ c :: t := by simp
  rw [happ, endSlashes_append_cons hc]

/-- Two more backslashes in front leave the number odd or even. -/
theorem endSlashes_pair (s : List Char) :
    endSlashes ('\\' :: '\\' :: s) % 2 = endSlashes s % 2 := by
  have hreverse : ('\\' :: '\\' :: s).reverse = s.reverse ++ ['\\', '\\'] := by simp
  rw [endSlashes, endSlashes, hreverse, List.takeWhile_append]
  split
  next hall => simp [hall]
  next => rfl

/-- A backslash is behind a part of a text that has none. -/
theorem slash_behind (hs : '\\' ∉ s) (h : s ++ t = u ++ '\\' :: v) :
    ∃ w, u = s ++ w ∧ t = w ++ '\\' :: v := by
  rcases List.append_eq_append_iff.mp h with ⟨w, hu, ht⟩ | ⟨w, rfl, hw⟩
  · exact ⟨w, hu, ht⟩
  · cases w with
    | nil => exact ⟨[], by simp, hw.symm⟩
    | cons c w =>
      obtain ⟨rfl, -⟩ := List.cons.inj hw
      simp at hs

/-- A backslash is in front of a part of a text that has none. -/
theorem slash_before (ht : '\\' ∉ t) (h : s ++ t = u ++ '\\' :: v) :
    ∃ w, s = u ++ '\\' :: w ∧ v = w ++ t := by
  rcases List.append_eq_append_iff.mp h with ⟨w, -, rfl⟩ | ⟨w, hs, hw⟩
  · simp at ht
  · cases w with
    | nil =>
      rw [List.nil_append] at hw
      rw [← hw] at ht
      simp at ht
    | cons c w =>
      obtain ⟨rfl, hv⟩ := List.cons.inj hw
      exact ⟨w, hs, hv⟩

end

section

variable {size : List Char → Nat} {u v run rest lexeme more : List Char} {mark : Char}

/-- In a string, a backslash that begins no escape comes behind an odd number of backslashes: it is
the second one of an escape. -/
theorem UnitRun.endSlashes_odd (hescape : TakesEscapes size)
    (hplain : ∀ c s, c ≠ '\\' → size (c :: s) ≤ 1) (h : UnitRun size run rest)
    (hrun : run = u ++ '\\' :: v) (hnext : v ++ rest = mark :: more)
    (hmark : escapedChar? mark = none) : endSlashes u % 2 = 1 := by
  induction h generalizing u with
  | stop => simp at hrun
  | @unit c unit run rest hsize _ ih =>
    by_cases hslash : c = '\\'
    · subst hslash
      obtain ⟨d, hd, rfl⟩ := hescape.eq_letter hsize
      match u with
      | [] =>
        obtain ⟨-, rfl⟩ := List.cons.inj hrun
        obtain ⟨rfl, -⟩ := List.cons.inj hnext
        rw [hmark] at hd
        cases hd
      | [e] =>
        obtain ⟨rfl, -⟩ := List.cons.inj hrun
        decide
      | e :: f :: u =>
        simp only [List.cons_append, List.nil_append, List.cons.injEq] at hrun
        obtain ⟨rfl, rfl, hrun⟩ := hrun
        have hodd := ih hrun hnext
        by_cases hd : d = '\\'
        · rwa [hd, endSlashes_pair]
        · exact (congrArg (· % 2) (endSlashes_append_cons hd ['\\'] u)).trans hodd
    · have hle := hplain c (unit ++ (run ++ rest)) hslash
      obtain rfl : unit = [] := List.eq_nil_of_length_eq_zero (by omega)
      cases u with
      | nil => exact absurd (List.cons.inj hrun).1 hslash
      | cons e u =>
        simp only [List.cons_append, List.nil_append, List.cons.injEq] at hrun
        obtain ⟨rfl, hrun⟩ := hrun
        have hodd := ih hrun hnext
        exact (congrArg (· % 2) (endSlashes_append_cons hslash [] u)).trans hodd

theorem splitFenced_slash {fence : List Char} (hfit : FitsText size)
    (hescape : TakesEscapes size) (hplain : ∀ c s, c ≠ '\\' → size (c :: s) ≤ 1)
    (hfence : '\\' ∉ fence) (hne : fence ≠ [])
    (h : splitFenced fence size (lexeme ++ rest) = some (lexeme, rest))
    (hlexeme : lexeme = u ++ '\\' :: v) (hnext : v ++ rest = mark :: more)
    (hmark : escapedChar? mark = none) (front : List Char) :
    endSlashes (front ++ u) % 2 = 1 := by
  obtain ⟨content, hrun, hparts, -⟩ := (splitFenced_eq_some_iff hfit).mp h
  have happ : fence ++ (content ++ fence) = u ++ '\\' :: v := by
    rw [← hlexeme, hparts, List.append_assoc]
  obtain ⟨w, rfl, htail⟩ := slash_behind hfence happ
  obtain ⟨x, hcontent, rfl⟩ := slash_before hfence htail
  rw [List.append_assoc] at hnext
  rw [endSlashes_append hfence hne]
  exact hrun.endSlashes_odd hescape hplain hcontent hnext hmark

theorem splitString_slash (h : splitString (lexeme ++ rest) = some (lexeme, rest))
    (hlexeme : lexeme = u ++ '\\' :: v) (hnext : v ++ rest = mark :: more)
    (hmark : escapedChar? mark = none) (front : List Char) :
    endSlashes (front ++ u) % 2 = 1 := by
  have hlong (quote : Char) (hquote : quote ≠ '\\')
      (hsplit : splitLong quote (lexeme ++ rest) = some (lexeme, rest)) :
      endSlashes (front ++ u) % 2 = 1 := by
    refine splitFenced_slash (fits_longUnit quote) (takesEscapes_long quote) ?_ ?_ (by simp) hsplit
      hlexeme hnext hmark front
    · intro c s hc
      rw [longUnit_plain hc]
      split <;> omega
    · simpa using hquote.symm
  have hshort (quote : Char) (hquote : quote ≠ '\\')
      (hsplit : splitShort quote (lexeme ++ rest) = some (lexeme, rest)) :
      endSlashes (front ++ u) % 2 = 1 := by
    refine splitFenced_slash (fits_shortUnit quote) (takesEscapes_short quote) ?_ ?_ (by simp)
      hsplit hlexeme hnext hmark front
    · intro c s hc
      rw [shortUnit_plain hc]
      split <;> omega
    · simpa using hquote.symm
  simp only [splitString_eq, orElse_eq_some_iff] at h
  rcases h with h | ⟨-, h | ⟨-, h | ⟨-, h⟩⟩⟩
  · exact hlong '"' (by decide) h
  · exact hlong '\'' (by decide) h
  · exact hshort '"' (by decide) h
  · exact hshort '\'' (by decide) h

/-- Behind its first character, a piece of a local name has no backslash. -/
theorem slash_not_mem_localUnit {c : Char} {unit s : List Char}
    (h : localUnit (c :: (unit ++ s)) = unit.length + 1) : '\\' ∉ unit := by
  by_cases hpercent : c = '%'
  · subst hpercent
    obtain ⟨high, low, rfl, hhigh, hlow⟩ := localUnit_percent h
    intro hmem
    have hall : ∀ d ∈ [high, low], isHexDigit d = true := by simp [hhigh, hlow]
    exact absurd (hall _ hmem) (by decide)
  · by_cases hslash : c = '\\'
    · subst hslash
      obtain ⟨d, rfl, hd⟩ := localUnit_slash h
      intro hmem
      obtain rfl := List.mem_singleton.mp hmem
      exact absurd hd (by decide)
    · have hmark : isEscapeMark c = false := by simp [isEscapeMark, hpercent, hslash]
      obtain ⟨rfl, -⟩ := unit_unmarked hmark h
      exact List.not_mem_nil

/-- A backslash in a local name has a character behind it that may be escaped there. -/
theorem UnitRun.local_slash (h : UnitRun localUnit run rest) (hrun : run = u ++ '\\' :: v)
    (hnext : v ++ rest = mark :: more) : mark ∈ localEscapable := by
  induction h generalizing u with
  | stop => simp at hrun
  | @unit c unit run rest hsize _ ih =>
    cases u with
    | nil =>
      obtain ⟨rfl, rfl⟩ := List.cons.inj hrun
      obtain ⟨d, rfl, hd⟩ := localUnit_slash hsize
      obtain ⟨rfl, -⟩ := List.cons.inj hnext
      exact hd
    | cons e u =>
      obtain ⟨-, htail⟩ := List.cons.inj hrun
      obtain ⟨w, -, hrest⟩ := slash_behind (slash_not_mem_localUnit hsize) htail
      exact ih hrest hnext

theorem slash_not_mem_of_markFree {s : List Char} (h : MarkFree s) : '\\' ∉ s :=
  fun hmem => absurd (h _ hmem) (by decide)

/-- The only lexeme with a backslash in it that stands before the mark of an escape is that of a
string, and there another backslash escapes it. -/
theorem Kind.slash_of_split {kind : Kind}
    (h : kind.split (lexeme ++ rest) = some (lexeme, rest)) (hlexeme : lexeme = u ++ '\\' :: v)
    (hnext : v ++ rest = mark :: more) (hmark : mark = 'u' ∨ mark = 'U') :
    kind = .stringLiteral ∧ ∀ front, endSlashes (front ++ u) % 2 = 1 := by
  have hmem : '\\' ∈ lexeme := by simp [hlexeme]
  by_cases hstring : kind = .stringLiteral
  · subst hstring
    have hletter : escapedChar? mark = none := by rcases hmark with rfl | rfl <;> rfl
    exact ⟨rfl, splitString_slash h hlexeme hnext hletter⟩
  by_cases hiri : kind = .iriRef
  · subst hiri
    obtain ⟨content, hcontent, rfl, -⟩ := splitIri_eq_some_iff.mp h
    simp only [List.mem_cons, List.mem_append, List.not_mem_nil, or_false] at hmem
    rcases hmem with hfirst | hinner | hlast
    · cases hfirst
    · exact absurd (hcontent _ hinner) (by decide)
    · cases hlast
  by_cases hname : kind = .prefixedNameWithLocal
  · subst hname
    obtain ⟨label, run, hlabel, hlocal, hparts, -⟩ := splitPrefixedName_eq_some_iff.mp h
    obtain ⟨hrun, -⟩ := splitLocal_eq_some_iff.mp hlocal
    have hfront : '\\' ∉ label ++ [':'] :=
      slash_not_mem_of_markFree (hlabel.markFree.append (.cons rfl markFree_nil))
    have happ : label ++ [':'] ++ run = u ++ '\\' :: v := by rw [← hlexeme, hparts]; simp
    obtain ⟨w, -, htail⟩ := slash_behind hfront happ
    have hescapable := hrun.local_slash htail hnext
    rcases hmark with rfl | rfl
    · exact absurd hescapable (by decide)
    · exact absurd hescapable (by decide)
  · exact absurd hmem (slash_not_mem_of_markFree (Kind.split_markFree hiri hname hstring h))

end

end SparqlQuery
