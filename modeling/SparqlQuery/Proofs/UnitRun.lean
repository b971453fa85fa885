import SparqlQuery.QuotedLexeme

namespace SparqlQuery

/-- Units that make up a run, and a rest in front of which none begins. The size of a unit may
depend on all that comes after it. -/
inductive UnitRun (size : List Char → Nat) : List Char → List Char → Prop
  | stop {rest : List Char} (hstop : size rest = 0) : UnitRun size [] rest
  | unit {c : Char} {unit run rest : List Char}
      (hsize : size (c :: (unit ++ (run ++ rest))) = unit.length + 1)
      (hrun : UnitRun size run rest) : UnitRun size (c :: (unit ++ run)) rest

/-- No unit reaches beyond the end of the text. -/
def FitsText (size : List Char → Nat) : Prop :=
  ∀ s, size s ≤ s.length

section

variable {size : List Char → Nat}

theorem splitRun_nil (size : List Char → Nat) : splitRun size [] = ([], []) := by
  simp [splitRun]

theorem splitRun_stop {s : List Char} (h : size s = 0) : splitRun size s = ([], s) := by
  simp [splitRun, splitUnits_stop h]

theorem splitRun_step {c : Char} {s : List Char} {n : Nat} (h : size (c :: s) = n + 1) :
    splitRun size (c :: s) =
      (c :: (s.take n ++ (splitRun size (s.drop n)).1), (splitRun size (s.drop n)).2) := by
  simp [splitRun, splitUnits_step h]

theorem UnitRun.size_rest {run rest : List Char} (h : UnitRun size run rest) : size rest = 0 := by
  induction h with
  | stop hstop => exact hstop
  | unit _ _ ih => exact ih

/-- A run takes the unit that a text begins with. -/
theorem UnitRun.of_unit {piece t run rest : List Char} (h : UnitRun size run rest)
    (hne : piece ≠ []) (hsize : size (piece ++ t) = piece.length) (happ : run ++ rest = piece ++ t) :
    ∃ more, run = piece ++ more ∧ UnitRun size more rest ∧ more ++ rest = t := by
  cases h with
  | stop hstop =>
    rw [List.nil_append] at happ
    rw [← happ, hstop] at hsize
    exact absurd (List.eq_nil_of_length_eq_zero hsize.symm) hne
  | @unit c unit run _ hunit hrun =>
    have hsame : c :: unit ++ (run ++ rest) = piece ++ t := by simpa using happ
    have hlength : (c :: unit).length = piece.length := by
      rw [← hsize, ← hsame, List.cons_append, hunit, List.length_cons]
    obtain ⟨rfl, hrest⟩ := List.append_inj hsame hlength
    exact ⟨run, rfl, hrun, hrest⟩

theorem UnitRun.splitRun_eq {run rest : List Char} (h : UnitRun size run rest) :
    splitRun size (run ++ rest) = (run, rest) := by
  induction h with
  | stop hstop => exact splitRun_stop hstop
  | @unit c unit run rest hsize _ ih =>
    have hsplit := splitRun_step hsize
    rw [List.take_left, List.drop_left, ih] at hsplit
    rw [List.cons_append, List.append_assoc]
    exact hsplit

theorem unitRun_splitRun (hfit : FitsText size) (s : List Char) :
    UnitRun size (splitRun size s).1 (splitRun size s).2 := by
  induction h : s.length using Nat.strongRecOn generalizing s with
  | ind n ih =>
    subst h
    cases s with
    | nil =>
      rw [splitRun_nil]
      exact .stop (Nat.le_zero.mp (hfit []))
    | cons c s =>
      cases hn : size (c :: s) with
      | zero =>
        rw [splitRun_stop hn]
        exact .stop hn
      | succ n =>
        have hlt : (s.drop n).length < (c :: s).length := by
          simp only [List.length_drop, List.length_cons]
          omega
        have hlen : (s.take n).length = n := by
          have hle := hfit (c :: s)
          rw [hn, List.length_cons] at hle
          rw [List.length_take]
          omega
        rw [splitRun_step hn]
        refine .unit ?_ (ih _ hlt _ rfl)
        rw [splitRun_append, List.take_append_drop, hn, hlen]

theorem splitRun_eq_iff (hfit : FitsText size) {s run rest : List Char} :
    splitRun size s = (run, rest) ↔ run ++ rest = s ∧ UnitRun size run rest := by
  constructor
  · intro h
    have happ := splitRun_append size s
    have hrun := unitRun_splitRun hfit s
    rw [h] at happ hrun
    exact ⟨happ, hrun⟩
  · rintro ⟨rfl, hrun⟩
    exact hrun.splitRun_eq

end

theorem dottedUnit_le_one (accept : Char → Bool) (s : List Char) : dottedUnit accept s ≤ 1 := by
  fun_cases dottedUnit accept s <;> simp

theorem fits_dottedUnit (accept : Char → Bool) : FitsText (dottedUnit accept) := by
  intro s
  fun_cases dottedUnit accept s <;> simp

theorem fits_localUnit : FitsText localUnit := by
  intro s
  fun_cases localUnit s <;> simp

theorem fits_subtagUnit : FitsText subtagUnit := by
  intro s
  fun_cases subtagUnit s with
  | case1 d s hd =>
    have hle := (List.takeWhile_prefix Char.isAlphanum (l := s)).length_le
    simp only [List.length_cons]
    omega
  | case2 => exact Nat.zero_le _
  | case3 => exact Nat.zero_le _

theorem fits_shortUnit (quote : Char) : FitsText (shortUnit quote) := by
  intro s
  fun_cases shortUnit quote s <;> simp

theorem fits_longUnit (quote : Char) : FitsText (longUnit quote) := by
  intro s
  fun_cases longUnit quote s <;> simp

end SparqlQuery
