namespace SparqlQuery

/-- Splits off units in front of a text, the ones split off before coming in reverse order. -/
def splitUnitsAfter (size : List Char → Nat) (before : List (List Char)) :
    List Char → List (List Char) × List Char
  | [] => (before.reverse, [])
  | c :: s =>
    match size (c :: s) with
    | 0 => (before.reverse, c :: s)
    | n + 1 => splitUnitsAfter size ((c :: s.take n) :: before) (s.drop n)
termination_by s => s.length
decreasing_by simp only [List.length_drop, List.length_cons]; omega

/-- The units in front of a text, and what is left where no unit begins. The size of a unit
is its number of characters; size zero says that none begins. -/
def splitUnits (size : List Char → Nat) (s : List Char) : List (List Char) × List Char :=
  splitUnitsAfter size [] s

theorem splitUnitsAfter_eq (size : List Char → Nat) (before : List (List Char))
    (s : List Char) :
    splitUnitsAfter size before s =
      (before.reverse ++ (splitUnits size s).1, (splitUnits size s).2) := by
  induction h : s.length using Nat.strongRecOn generalizing s before with
  | ind n ih =>
    subst h
    unfold splitUnits
    cases s with
    | nil => simp [splitUnitsAfter]
    | cons c s =>
      rw [splitUnitsAfter, splitUnitsAfter]
      cases hn : size (c :: s) with
      | zero => simp
      | succ n =>
        have hlt : (s.drop n).length < (c :: s).length := by
          simp only [List.length_drop, List.length_cons]
          omega
        simp only
        rw [ih _ hlt _ _ rfl, ih _ hlt [c :: s.take n] _ rfl]
        simp

@[simp] theorem splitUnits_nil (size : List Char → Nat) : splitUnits size [] = ([], []) := by
  simp [splitUnits, splitUnitsAfter]

theorem splitUnits_stop {size : List Char → Nat} {s : List Char} (h : size s = 0) :
    splitUnits size s = ([], s) := by
  cases s with
  | nil => simp
  | cons c s => simp [splitUnits, splitUnitsAfter, h]

theorem splitUnits_step {size : List Char → Nat} {c : Char} {s : List Char} {n : Nat}
    (h : size (c :: s) = n + 1) :
    splitUnits size (c :: s) =
      ((c :: s.take n) :: (splitUnits size (s.drop n)).1, (splitUnits size (s.drop n)).2) := by
  rw [splitUnits, splitUnitsAfter, h]
  simp [splitUnitsAfter_eq]

theorem flatten_splitUnits_append (size : List Char → Nat) (s : List Char) :
    (splitUnits size s).1.flatten ++ (splitUnits size s).2 = s := by
  induction h : s.length using Nat.strongRecOn generalizing s with
  | ind n ih =>
    subst h
    cases s with
    | nil => simp
    | cons c s =>
      cases hn : size (c :: s) with
      | zero => simp [splitUnits_stop hn]
      | succ n =>
        have hlt : (s.drop n).length < (c :: s).length := by
          simp only [List.length_drop, List.length_cons]
          omega
        rw [splitUnits_step hn]
        simp [ih _ hlt _ rfl]

def splitRun (size : List Char → Nat) (s : List Char) : List Char × List Char :=
  let (units, rest) := splitUnits size s
  (units.flatten, rest)

@[simp] theorem splitRun_append (size : List Char → Nat) (s : List Char) :
    (splitRun size s).1 ++ (splitRun size s).2 = s :=
  flatten_splitUnits_append size s

/-- A run of accepted characters and dots is taken one character at a time; a dot belongs to it
only when an accepted character follows the dots. -/
def dottedUnit (accept : Char → Bool) : List Char → Nat
  | [] => 0
  | '.' :: s =>
    match s.dropWhile (· == '.') with
    | [] => 0
    | c :: _ => if accept c then 1 else 0
  | c :: _ => if accept c then 1 else 0

end SparqlQuery
