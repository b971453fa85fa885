import SparqlQuery.ParseStep

namespace SparqlQuery

theorem Dictionary.mem_values_of_get? {α : Type} {d : Dictionary α} {key : String} {item : α}
    (h : d.get? key = some item) : item ∈ d.values := by
  obtain ⟨before, after, heq, _⟩ := List.lookup_eq_some_iff.mp h
  simp [values, heq]

namespace Table

def width (t : Table) : Nat :=
  (t.expansions.map List.length).max?.getD 0

theorem length_le_width {t : Table} {production key : String} {terms : List Term}
    (h : t.expansion? production key = some terms) : terms.length ≤ t.width := by
  obtain ⟨branches, hbranches, hterms⟩ := Option.bind_eq_some_iff.mp h
  have hmem : terms.length ∈ t.expansions.map List.length :=
    List.mem_map_of_mem (List.mem_flatMap.mpr
      ⟨branches, Dictionary.mem_values_of_get? hbranches, Dictionary.mem_values_of_get? hterms⟩)
  unfold width
  cases hmax : (t.expansions.map List.length).max? with
  | none => simp [List.max?_eq_none_iff.mp hmax] at hmem
  | some n => exact (List.max?_eq_some_iff.mp hmax).2 _ hmem

/-- A bound on the steps for a term of a production that is nested so deep, with so many tokens
still to come. -/
def termCost (t : Table) (tokens depth : Nat) : Nat :=
  Nat.pow (t.width + 3) ((t.size + 2) * (tokens + 1) - min depth (t.size + 1))

/-- A bound on the steps for a stack whose innermost production is nested so deep. -/
def stackCost (t : Table) (tokens : Nat) : Nat → List Frame → Nat
  | _, [] => 0
  | depth, ⟨_, none⟩ :: below => t.termCost tokens depth - 1 + stackCost t tokens depth below
  | depth, ⟨_, some terms⟩ :: below =>
    1 + terms.length * t.termCost tokens depth + stackCost t tokens (depth - 1) below

theorem termCost_pos (t : Table) (tokens depth : Nat) : 0 < t.termCost tokens depth :=
  Nat.pow_pos (by omega)

/-- A term nested deeper costs less, even as often as an expansion can hold it. -/
theorem termCost_succ (t : Table) (tokens : Nat) {depth : Nat} (h : depth ≤ t.size) :
    t.width * t.termCost tokens (depth + 1) + 3 ≤ t.termCost tokens depth := by
  have hexp : (t.size + 2) * (tokens + 1) - min depth (t.size + 1) =
      (t.size + 2) * (tokens + 1) - min (depth + 1) (t.size + 1) + 1 := by
    have : t.size + 2 ≤ (t.size + 2) * (tokens + 1) := Nat.le_mul_of_pos_right _ (by omega)
    omega
  have hpos := t.termCost_pos tokens (depth + 1)
  have hpow (n : Nat) : Nat.pow (t.width + 3) (n + 1) = Nat.pow (t.width + 3) n * (t.width + 3) :=
    rfl
  unfold termCost at hpos ⊢
  rw [hexp, hpow]
  generalize Nat.pow (t.width + 3)
    ((t.size + 2) * (tokens + 1) - min (depth + 1) (t.size + 1)) = cost at hpos ⊢
  rw [Nat.mul_add, Nat.mul_comm cost]
  omega

/-- Once a token is read no term costs more than before, however deep it was. -/
theorem termCost_read (t : Table) (tokens depth : Nat) :
    t.termCost tokens 0 ≤ t.termCost (tokens + 1) depth := by
  unfold termCost
  apply Nat.pow_le_pow_right (by omega)
  have : (t.size + 2) * (tokens + 1 + 1) = (t.size + 2) * (tokens + 1) + (t.size + 2) := by
    rw [Nat.mul_add _ (tokens + 1) 1, Nat.mul_one]
  omega

theorem stackCost_read (t : Table) (tokens depth : Nat) (stack : List Frame) :
    t.stackCost tokens 0 stack ≤ t.stackCost (tokens + 1) depth stack := by
  induction stack generalizing depth with
  | nil => simp [stackCost]
  | cons frame below ih =>
    obtain ⟨production, pending⟩ := frame
    have hterm := t.termCost_read tokens depth
    cases pending with
    | none =>
      have := ih depth
      simp only [stackCost]
      omega
    | some terms =>
      have := ih (depth - 1)
      have := Nat.mul_le_mul_left terms.length hterm
      simp only [stackCost, Nat.zero_sub]
      omega

variable {σ : Type} [Sink σ]

def stateCost (t : Table) (state : ParseState σ) : Nat :=
  t.stackCost state.tokens.length state.nested state.stack

theorem step_cost {t : Table} {start : String} {state after : ParseState σ}
    (h : t.step start state = .more after) : t.stateCost after < t.stateCost state := by
  obtain ⟨stack, tokens, sink, nested⟩ := state
  unfold step at h
  split at h
  next => split at h <;> cases h
  next production below heq =>
    cases heq
    split at h
    next => cases h
    next hsize =>
      split at h
      next => cases h
      next terms hterms =>
        cases h
        have hsucc : t.width * t.termCost tokens.length (nested + 1) + 3 ≤
            t.termCost tokens.length nested :=
          t.termCost_succ tokens.length (Nat.not_lt.mp hsize)
        have hle := Nat.mul_le_mul_right (t.termCost tokens.length (nested + 1))
          (length_le_width hterms)
        simp only [stateCost, stackCost, Nat.add_sub_cancel]
        omega
  next production below heq =>
    cases heq
    cases h
    simp only [stateCost, stackCost, List.length_nil, Nat.zero_mul]
    omega
  next production name terms below heq =>
    cases heq
    cases h
    have hpos := t.termCost_pos tokens.length nested
    simp only [stateCost, stackCost, List.length_cons, Nat.succ_mul]
    omega
  next production key terms below heq =>
    cases heq
    split at h
    next => cases h
    next token rest heq =>
      cases heq
      split at h
      next =>
        cases h
        have hpos := t.termCost_pos (rest.length + 1) nested
        have hbelow := t.stackCost_read rest.length (nested - 1) below
        have hterms := Nat.mul_le_mul_left terms.length (t.termCost_read rest.length nested)
        simp only [stateCost, stackCost, List.length_cons, Nat.succ_mul, Nat.zero_sub]
        omega
      next => cases h

end Table

end SparqlQuery
