import SparqlQuery.Proofs.UnitRun
import SparqlQuery.SymbolLexeme
import Mathlib.Data.List.TakeWhile

namespace SparqlQuery

/-- The text is at its end or goes on with white space. -/
def BlankNext (s : List Char) : Prop :=
  ∀ c ∈ s.head?, isBlank c = true

theorem blankNext_nil : BlankNext [] := by
  rintro c ⟨⟩

/-- Two texts that agree up to a place where the second ends or goes on with white space. -/
inductive Cut : List Char → List Char → Prop
  | here {s t : List Char} (ht : BlankNext t) : Cut s t
  | cons (c : Char) {s t : List Char} (h : Cut s t) : Cut (c :: s) (c :: t)

theorem eq_of_isBlank {c : Char} (h : isBlank c = true) :
    c = ' ' ∨ c = '\t' ∨ c = '\r' ∨ c = '\n' := by
  simpa [isBlank, or_assoc] using h

/-- Two characters that a class tells apart. -/
theorem ne_of_class {p : Char → Bool} {c d : Char} (hc : p c = true) (hd : p d = false) :
    c ≠ d := by
  rintro rfl
  rw [hd] at hc
  cases hc

/-- A class that holds no white space. -/
def BlankFree (p : Char → Bool) : Prop :=
  ∀ c, isBlank c = true → p c = false

theorem BlankFree.isBlank_false {p : Char → Bool} (hp : BlankFree p) {c : Char} (hc : p c = true) :
    isBlank c = false := by
  by_contra hblank
  have hfalse := hp c (by simpa using hblank)
  rw [hc] at hfalse
  cases hfalse

theorem blankFree_of {p : Char → Bool} (hspace : p ' ' = false) (htab : p '\t' = false)
    (hreturn : p '\r' = false) (hfeed : p '\n' = false) : BlankFree p := by
  intro c hc
  rcases eq_of_isBlank hc with rfl | rfl | rfl | rfl <;> assumption

theorem blankFree_variableChar : BlankFree isVariableChar :=
  blankFree_of (by decide) (by decide) (by decide) (by decide)

theorem blankFree_variableStart : BlankFree isVariableStart :=
  blankFree_of (by decide) (by decide) (by decide) (by decide)

theorem blankFree_nameChar : BlankFree isNameChar :=
  blankFree_of (by decide) (by decide) (by decide) (by decide)

theorem blankFree_iriChar : BlankFree isIriChar :=
  blankFree_of (by decide) (by decide) (by decide) (by decide)

theorem blankFree_digit : BlankFree Char.isDigit :=
  blankFree_of rfl rfl rfl rfl

theorem blankFree_alpha : BlankFree Char.isAlpha :=
  blankFree_of rfl rfl rfl rfl

theorem blankFree_alphanum : BlankFree Char.isAlphanum :=
  blankFree_of rfl rfl rfl rfl

/-- A class has no character in front of this text. -/
def StopsAt (p : Char → Bool) (s : List Char) : Prop :=
  ∀ c ∈ s.head?, p c = false

section

variable {p : Char → Bool} {s t u : List Char}

theorem stopsAt_nil (p : Char → Bool) : StopsAt p [] := by
  rintro c ⟨⟩

theorem stopsAt_cons {c : Char} (hc : p c = false) (s : List Char) : StopsAt p (c :: s) := by
  rintro d ⟨⟩
  exact hc

theorem BlankNext.stopsAt (h : BlankNext s) (hp : BlankFree p) : StopsAt p s :=
  fun c hc => hp c (h c hc)

theorem stopsAt_dropWhile (p : Char → Bool) (s : List Char) : StopsAt p (s.dropWhile p) := by
  intro c hc
  have hhead := List.head?_dropWhile_not p s
  rw [Option.mem_def.mp hc] at hhead
  simpa using hhead

/-- A text is a run of a class and what stops it. -/
theorem exists_run_stopsAt (p : Char → Bool) (t : List Char) :
    ∃ run tail, t = run ++ tail ∧ (∀ c ∈ run, p c = true) ∧ StopsAt p tail :=
  ⟨t.takeWhile p, t.dropWhile p, List.takeWhile_append_dropWhile.symm,
    fun _ hc => List.mem_takeWhile_imp hc, stopsAt_dropWhile p t⟩

theorem StopsAt.takeWhile_append (hu : ∀ c ∈ u, p c = true) (h : StopsAt p s) :
    (u ++ s).takeWhile p = u := by
  rw [List.takeWhile_append_of_pos hu]
  cases s with
  | nil => simp
  | cons c s => simp [h c rfl]

theorem StopsAt.dropWhile_append (hu : ∀ c ∈ u, p c = true) (h : StopsAt p s) :
    (u ++ s).dropWhile p = s := by
  rw [List.dropWhile_append_of_pos hu]
  cases s with
  | nil => rfl
  | cons c s => simp [h c rfl]

theorem StopsAt.cut (hp : BlankFree p) (hs : StopsAt p s) (h : Cut s t) : StopsAt p t := by
  cases h with
  | here ht => exact ht.stopsAt hp
  | cons c _ => exact hs

theorem Cut.append (u : List Char) (h : Cut s t) : Cut (u ++ s) (u ++ t) := by
  induction u with
  | nil => exact h
  | cons c u ih => exact .cons c ih

/-- What the second text reads before white space stands in the first as well. -/
theorem Cut.of_append (hu : ∀ c ∈ u, isBlank c = false) (h : Cut s (u ++ t)) :
    ∃ rest, s = u ++ rest ∧ Cut rest t := by
  induction u generalizing s with
  | nil => exact ⟨s, rfl, h⟩
  | cons c u ih =>
    obtain ⟨hc, hu⟩ := List.forall_mem_cons.mp hu
    cases h with
    | here ht => simp [ht c rfl] at hc
    | cons _ h =>
      obtain ⟨rest, rfl, hrest⟩ := ih hu h
      exact ⟨rest, rfl, hrest⟩

end

end SparqlQuery
