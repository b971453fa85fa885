import SparqlQuery.Proofs.TextCut

namespace SparqlQuery

section

variable {accept : Char → Bool} {run rest rest' : List Char}

theorem dottedUnit_of_ne_dot {c : Char} (hc : c ≠ '.') (s : List Char) :
    dottedUnit accept (c :: s) = if accept c then 1 else 0 := by
  unfold dottedUnit
  split
  next h => cases h
  next h =>
    cases h
    exact absurd rfl hc
  next h =>
    cases h
    rfl

/-- A dot before more text says nothing of its own. -/
theorem dottedUnit_dot (accept : Char → Bool) (s : List Char) :
    dottedUnit accept ('.' :: s) = dottedUnit accept s := by
  cases s with
  | nil => rfl
  | cons c s =>
    by_cases hc : c = '.'
    · subst hc
      simp [dottedUnit]
    · rw [dottedUnit_of_ne_dot hc]
      simp [dottedUnit, hc]

theorem dottedUnit_cut (ha : BlankFree accept) (h : Cut rest rest')
    (hrest : dottedUnit accept rest = 0) : dottedUnit accept rest' = 0 := by
  induction h with
  | @here _ t ht =>
    cases t with
    | nil => rfl
    | cons c t =>
      have hblank := ht c rfl
      rw [dottedUnit_of_ne_dot (ne_of_class hblank (by decide)), ha c hblank]
      rfl
  | cons c _ ih =>
    by_cases hdot : c = '.'
    · subst hdot
      rw [dottedUnit_dot] at hrest ⊢
      exact ih hrest
    · rw [dottedUnit_of_ne_dot hdot] at hrest ⊢
      exact hrest

theorem eq_nil_of_dottedUnit {c : Char} {unit s : List Char}
    (h : dottedUnit accept (c :: (unit ++ s)) = unit.length + 1) : unit = [] := by
  have hle := dottedUnit_le_one accept (c :: (unit ++ s))
  exact List.eq_nil_of_length_eq_zero (by omega)

/-- A run with dots does not depend on how the text goes on behind it, as long as no unit begins
there: the characters that its dots lead up to are its own. -/
theorem UnitRun.dotted_stop (h : UnitRun (dottedUnit accept) run rest)
    (hstop' : dottedUnit accept rest' = 0) : UnitRun (dottedUnit accept) run rest' := by
  induction h with
  | stop => exact .stop hstop'
  | @unit c unit run rest hsize hrun ih =>
    obtain rfl := eq_nil_of_dottedUnit hsize
    refine .unit ?_ ih
    by_cases hdot : c = '.'
    · subst hdot
      rw [List.nil_append, dottedUnit_dot] at hsize ⊢
      cases ih with
      | stop =>
        cases hrun with
        | stop hstop =>
          rw [List.nil_append, hstop] at hsize
          cases hsize
      | @unit d more run _ hsize' _ =>
        have hle := dottedUnit_le_one accept (d :: (more ++ (run ++ rest')))
        have happ : d :: (more ++ run) ++ rest' = d :: (more ++ (run ++ rest')) := by simp
        rw [happ, hsize']
        rw [List.length_nil]
        omega
    · rw [dottedUnit_of_ne_dot hdot] at hsize ⊢
      exact hsize

theorem UnitRun.dotted_chars (h : UnitRun (dottedUnit accept) run rest) :
    ∀ c ∈ run, accept c = true ∨ c = '.' := by
  induction h with
  | stop => simp
  | @unit c unit run rest hsize _ ih =>
    obtain rfl := eq_nil_of_dottedUnit hsize
    refine List.forall_mem_cons.mpr ⟨?_, ih⟩
    by_cases hdot : c = '.'
    · exact .inr hdot
    · rw [dottedUnit_of_ne_dot hdot] at hsize
      split at hsize
      next hc => exact .inl hc
      next => cases hsize

theorem UnitRun.dotted_cut (ha : BlankFree accept) (h : UnitRun (dottedUnit accept) run rest)
    (hcut : Cut rest rest') : UnitRun (dottedUnit accept) run rest' :=
  h.dotted_stop (dottedUnit_cut ha hcut h.size_rest)

end

section

variable {run rest rest' : List Char}

theorem localUnit_plain {c : Char} (hpercent : c ≠ '%') (hslash : c ≠ '\\') (hdot : c ≠ '.')
    (s : List Char) : localUnit (c :: s) = if isLocalChar c then 1 else 0 := by
  unfold localUnit
  split
  next h =>
    cases h
    exact absurd rfl hpercent
  next h =>
    cases h
    exact absurd rfl hslash
  next h =>
    cases h
    exact absurd rfl hdot
  next h =>
    cases h
    rfl
  next h => cases h

/-- A unit that begins with no dot is not affected by what comes after it. -/
theorem localUnit_self {c : Char} {s : List Char} {n : Nat} (hdot : c ≠ '.')
    (h : localUnit (c :: s) = n + 1) (t : List Char) :
    localUnit (c :: (s.take n ++ t)) = n + 1 := by
  by_cases hpercent : c = '%'
  · subst hpercent
    match s with
    | [] => cases h
    | [_] => cases h
    | high :: low :: s =>
      simp only [localUnit] at h
      split at h
      next hhex =>
        obtain rfl : n = 2 := by omega
        simp [localUnit, hhex]
      next => cases h
  · by_cases hslash : c = '\\'
    · subst hslash
      match s with
      | [] => cases h
      | d :: s =>
        simp only [localUnit] at h
        split at h
        next hescapable =>
          obtain rfl : n = 1 := by omega
          simpa [localUnit] using hescapable
        next => cases h
    · rw [localUnit_plain hpercent hslash hdot] at h ⊢
      exact h

theorem localUnit_dot_le_one (s : List Char) : localUnit ('.' :: s) ≤ 1 := by
  simp only [localUnit]
  split
  · exact Nat.zero_le 1
  · split <;> omega

theorem localUnit_dot_dot (s : List Char) : localUnit ('.' :: '.' :: s) = localUnit ('.' :: s) := by
  simp [localUnit]

theorem localUnit_dot_of_ne {c : Char} (hc : c ≠ '.') (s : List Char) :
    localUnit ('.' :: c :: s) = if isLocalChar c || c == '%' || c == '\\' then 1 else 0 := by
  simp [localUnit, hc]

/-- The characters that escapes in a local name begin with. -/
def isEscapeMark (c : Char) : Bool :=
  c == '%' || c == '\\'

theorem localUnit_unmarked {c : Char} (hmark : isEscapeMark c = false) (hdot : c ≠ '.')
    (s : List Char) : localUnit (c :: s) = if isLocalChar c then 1 else 0 := by
  simp only [isEscapeMark, Bool.or_eq_false_iff, beq_eq_false_iff_ne] at hmark
  exact localUnit_plain hmark.1 hmark.2 hdot s

/-- No escape comes next, well formed or not. -/
def NoLocalEscape (s : List Char) : Prop :=
  StopsAt isEscapeMark s

theorem localUnit_dot_cut (h : Cut rest rest') (hrest : localUnit ('.' :: rest) = 0) :
    localUnit ('.' :: rest') = 0 := by
  induction h with
  | @here _ t ht =>
    cases t with
    | nil => rfl
    | cons c t =>
      rcases eq_of_isBlank (ht c rfl) with rfl | rfl | rfl | rfl <;> rfl
  | cons c _ ih =>
    by_cases hdot : c = '.'
    · subst hdot
      rw [localUnit_dot_dot] at hrest ⊢
      exact ih hrest
    · rw [localUnit_dot_of_ne hdot] at hrest ⊢
      exact hrest

theorem localUnit_cut (h : Cut rest rest') (hescape : NoLocalEscape rest)
    (hrest : localUnit rest = 0) : localUnit rest' = 0 := by
  cases h with
  | here ht =>
    cases rest' with
    | nil => rfl
    | cons c t =>
      rcases eq_of_isBlank (ht c rfl) with rfl | rfl | rfl | rfl <;> rfl
  | cons c h =>
    by_cases hdot : c = '.'
    · subst hdot
      exact localUnit_dot_cut h hrest
    · rw [localUnit_unmarked (hescape c rfl) hdot] at hrest ⊢
      exact hrest

/-- No dot belongs to a name where no unit begins behind it, and no escape either. -/
theorem localUnit_dot_of_stop (hescape : NoLocalEscape rest) (hstop : localUnit rest = 0) :
    localUnit ('.' :: rest) = 0 := by
  cases rest with
  | nil => rfl
  | cons c s =>
    have hc := hescape c rfl
    by_cases hdot : c = '.'
    · subst hdot
      rw [localUnit_dot_dot, hstop]
    · rw [localUnit_unmarked hc hdot] at hstop
      rw [localUnit_dot_of_ne hdot, Bool.or_assoc]
      simp_all [isEscapeMark]

/-- A dot that belongs to a run of a local name is followed, after more dots, by what belongs to
it too. -/
theorem UnitRun.localUnit_dot (hescape : NoLocalEscape rest) (h : UnitRun localUnit run rest)
    (h' : UnitRun localUnit run rest') (hdot : localUnit ('.' :: (run ++ rest)) = 1) :
    localUnit ('.' :: (run ++ rest')) = 1 := by
  cases h with
  | stop hzero =>
    rw [List.nil_append, localUnit_dot_of_stop hescape hzero] at hdot
    cases hdot
  | @unit c unit more _ hsize _ =>
    by_cases hcdot : c = '.'
    · subst hcdot
      generalize hrun : '.' :: (unit ++ more) = run at h'
      cases h' with
      | stop => cases hrun
      | @unit d unit' more' _ hsize' _ =>
        obtain rfl := (List.cons.inj hrun).1
        have hle := localUnit_dot_le_one (unit' ++ (more' ++ rest'))
        have happ : '.' :: (unit' ++ more') ++ rest' = '.' :: (unit' ++ (more' ++ rest')) := by
          simp
        rw [happ, localUnit_dot_dot]
        omega
    · rw [List.cons_append, localUnit_dot_of_ne hcdot] at hdot ⊢
      exact hdot

theorem UnitRun.local_stop (hescape : NoLocalEscape rest) (h : UnitRun localUnit run rest)
    (hstop' : localUnit rest' = 0) : UnitRun localUnit run rest' := by
  induction h with
  | stop => exact .stop hstop'
  | @unit c unit run rest hsize hrun ih =>
    have hafter := ih hescape
    refine .unit ?_ hafter
    by_cases hdot : c = '.'
    · subst hdot
      have hle := localUnit_dot_le_one (unit ++ (run ++ rest))
      obtain rfl : unit = [] := List.eq_nil_of_length_eq_zero (by omega)
      rw [List.nil_append] at hsize ⊢
      exact hrun.localUnit_dot hescape hafter hsize
    · have hself := localUnit_self hdot hsize (run ++ rest')
      rwa [List.take_left] at hself

theorem UnitRun.local_cut (hescape : NoLocalEscape rest) (h : UnitRun localUnit run rest)
    (hcut : Cut rest rest') : UnitRun localUnit run rest' :=
  h.local_stop hescape (localUnit_cut hcut hescape h.size_rest)

end

section

variable {run rest rest' : List Char}

theorem subtagUnit_cut (h : Cut rest rest') (hrest : subtagUnit rest = 0) :
    subtagUnit rest' = 0 := by
  cases h with
  | here ht =>
    cases rest' with
    | nil => rfl
    | cons c t =>
      rcases eq_of_isBlank (ht c rfl) with rfl | rfl | rfl | rfl <;> rfl
  | @cons c s t h =>
    by_cases hdash : c = '-'
    · subst hdash
      cases h with
      | here ht =>
        cases t with
        | nil => rfl
        | cons d t => simp [subtagUnit, blankFree_alphanum d (ht d rfl)]
      | cons d _ =>
        simp only [subtagUnit] at hrest ⊢
        split at hrest
        next => omega
        next hd => rw [if_neg hd]
    · simp [subtagUnit, hdash]

theorem subtagUnit_of_pos {c : Char} {s : List Char} {n : Nat}
    (h : subtagUnit (c :: s) = n + 1) :
    ∃ d u, c = '-' ∧ s = d :: u ∧ d.isAlphanum = true ∧
      n = (u.takeWhile Char.isAlphanum).length + 1 := by
  by_cases hdash : c = '-'
  · subst hdash
    cases s with
    | nil => cases h
    | cons d u =>
      simp only [subtagUnit] at h
      split at h
      next hd => exact ⟨d, u, rfl, rfl, hd, by omega⟩
      next => cases h
  · simp [subtagUnit, hdash] at h

/-- A subtag takes all the letters and digits there are behind its dash. -/
theorem subtagUnit_eq_iff {c : Char} {unit s : List Char} :
    subtagUnit (c :: (unit ++ s)) = unit.length + 1 ↔ c = '-' ∧ unit ≠ [] ∧
      (∀ d ∈ unit, d.isAlphanum = true) ∧ StopsAt Char.isAlphanum s := by
  constructor
  · intro h
    obtain ⟨d, u, rfl, hafter, hd, hlength⟩ := subtagUnit_of_pos h
    have hunit : unit = d :: u.takeWhile Char.isAlphanum ∧ s = u.dropWhile Char.isAlphanum := by
      refine List.append_inj (hafter.trans ?_) hlength
      rw [List.cons_append, List.takeWhile_append_dropWhile]
    obtain ⟨rfl, rfl⟩ := hunit
    refine ⟨rfl, List.cons_ne_nil _ _, ?_, stopsAt_dropWhile _ u⟩
    exact List.forall_mem_cons.mpr ⟨hd, fun e he => List.mem_takeWhile_imp he⟩
  · rintro ⟨rfl, hne, hall, hstops⟩
    obtain ⟨d, letters, rfl⟩ := List.exists_cons_of_ne_nil hne
    obtain ⟨hd, hletters⟩ := List.forall_mem_cons.mp hall
    simp [subtagUnit, hd, hstops.takeWhile_append hletters]

theorem UnitRun.subtag_chars (h : UnitRun subtagUnit run rest) :
    ∀ c ∈ run, c = '-' ∨ c.isAlphanum = true := by
  induction h with
  | stop => simp
  | unit hsize _ ih =>
    obtain ⟨hdash, -, hall, -⟩ := subtagUnit_eq_iff.mp hsize
    refine List.forall_mem_cons.mpr ⟨.inl hdash, ?_⟩
    exact List.forall_mem_append.mpr ⟨fun d hd => .inr (hall d hd), ih⟩

theorem UnitRun.subtag_cut (h : UnitRun subtagUnit run rest) (hcut : Cut rest rest') :
    UnitRun subtagUnit run rest' := by
  induction h with
  | stop hstop => exact .stop (subtagUnit_cut hcut hstop)
  | @unit c unit run rest hsize _ ih =>
    obtain ⟨hdash, hne, hall, hstops⟩ := subtagUnit_eq_iff.mp hsize
    exact .unit (subtagUnit_eq_iff.mpr
      ⟨hdash, hne, hall, hstops.cut blankFree_alphanum (hcut.append run)⟩) (ih hcut)

end

section

variable {quote : Char} {run rest : List Char}

/-- A backslash begins a unit only with the letter of an escape behind it. -/
def TakesEscapes (size : List Char → Nat) : Prop :=
  size ['\\'] = 0 ∧
    ∀ c s, size ('\\' :: c :: s) = if (escapedChar? c).isSome then 2 else 0

theorem TakesEscapes.eq_letter {size : List Char → Nat} (h : TakesEscapes size)
    {unit s : List Char} (hsize : size ('\\' :: (unit ++ s)) = unit.length + 1) :
    ∃ c, (escapedChar? c).isSome = true ∧ unit = [c] := by
  cases unit with
  | nil =>
    rw [List.nil_append] at hsize
    cases s with
    | nil =>
      rw [h.1] at hsize
      cases hsize
    | cons c s =>
      rw [h.2] at hsize
      split at hsize <;> cases hsize
  | cons c unit =>
    rw [List.cons_append, h.2] at hsize
    split at hsize
    next hc => exact ⟨c, hc, by simpa using hsize.symm⟩
    next => cases hsize

/-- An escape is the same whatever comes after it. -/
theorem TakesEscapes.append {size : List Char → Nat} (h : TakesEscapes size) {unit s : List Char}
    (hsize : size ('\\' :: (unit ++ s)) = unit.length + 1) (t : List Char) :
    size ('\\' :: (unit ++ t)) = unit.length + 1 := by
  obtain ⟨c, hc, rfl⟩ := h.eq_letter hsize
  rw [List.singleton_append, h.2, if_pos hc, List.length_singleton]

theorem shortUnit_plain {c : Char} (hslash : c ≠ '\\') (s : List Char) :
    shortUnit quote (c :: s) = if c == quote || isLineBreak c then 0 else 1 := by
  simp [shortUnit, hslash]

theorem takesEscapes_short (quote : Char) : TakesEscapes (shortUnit quote) :=
  ⟨by simp [shortUnit], fun _ _ => rfl⟩

theorem shortUnit_quote (hquote : quote ≠ '\\') (s : List Char) :
    shortUnit quote (quote :: s) = 0 := by
  simp [shortUnit_plain hquote]

/-- The content of a string on one line is the same whatever comes after its quote. -/
theorem UnitRun.short_quote (hquote : quote ≠ '\\')
    (h : UnitRun (shortUnit quote) run (quote :: rest)) (rest' : List Char) :
    UnitRun (shortUnit quote) run (quote :: rest') := by
  generalize htail : quote :: rest = tail at h
  induction h with
  | stop => exact .stop (shortUnit_quote hquote rest')
  | @unit c unit run tail hsize _ ih =>
    refine .unit ?_ (ih htail)
    by_cases hslash : c = '\\'
    · subst hslash
      exact (takesEscapes_short quote).append hsize _
    · rw [shortUnit_plain hslash] at hsize ⊢
      exact hsize

theorem longUnit_plain {c : Char} (hslash : c ≠ '\\') (s : List Char) :
    longUnit quote (c :: s) = if (List.replicate 3 quote).isPrefixOf (c :: s) then 0 else 1 := by
  simp [longUnit, hslash]

theorem takesEscapes_long (quote : Char) : TakesEscapes (longUnit quote) :=
  ⟨by simp [longUnit], fun _ _ => rfl⟩

theorem longUnit_fence (hquote : quote ≠ '\\') (s : List Char) :
    longUnit quote (List.replicate 3 quote ++ s) = 0 := by
  have hfence : List.replicate 3 quote ++ s = quote :: (List.replicate 2 quote ++ s) := rfl
  rw [hfence, longUnit_plain hquote, ← hfence, if_pos]
  exact List.isPrefixOf_iff_prefix.mpr (List.prefix_append _ s)

theorem isPrefixOf_append_of_le {u s : List Char} (h : u.length ≤ s.length) (t : List Char) :
    u.isPrefixOf (s ++ t) = u.isPrefixOf s := by
  rw [Bool.eq_iff_iff, List.isPrefixOf_iff_prefix, List.isPrefixOf_iff_prefix]
  exact ⟨fun hu => List.prefix_of_prefix_length_le hu (List.prefix_append s t) h,
    fun hu => hu.trans (List.prefix_append s t)⟩

/-- The content of a string in triple quotes is the same whatever comes after them: whether
three quotes begin within it shows by the time that they end. -/
theorem UnitRun.long_fence (hquote : quote ≠ '\\')
    (h : UnitRun (longUnit quote) run (List.replicate 3 quote ++ rest)) (rest' : List Char) :
    UnitRun (longUnit quote) run (List.replicate 3 quote ++ rest') := by
  generalize htail : List.replicate 3 quote ++ rest = tail at h
  induction h with
  | stop => exact .stop (longUnit_fence hquote rest')
  | @unit c unit run tail hsize _ ih =>
    subst htail
    refine .unit ?_ (ih rfl)
    by_cases hslash : c = '\\'
    · subst hslash
      exact (takesEscapes_long quote).append hsize _
    · have hlong : (List.replicate 3 quote).length ≤
          (c :: (unit ++ (run ++ List.replicate 3 quote))).length := by
        simp only [List.length_cons, List.length_append, List.length_replicate]
        omega
      have hreach (t : List Char) : longUnit quote
          (c :: (unit ++ (run ++ (List.replicate 3 quote ++ t)))) =
          longUnit quote (c :: (unit ++ (run ++ List.replicate 3 quote))) := by
        rw [longUnit_plain hslash, longUnit_plain hslash, ← isPrefixOf_append_of_le hlong t]
        simp
      rw [hreach] at hsize ⊢
      exact hsize

end

end SparqlQuery
