import SparqlQuery.Proofs.PrefixedNameGrammar
import SparqlQuery.Proofs.TokenShape

open scoped Computability

namespace SparqlQuery

/-- One character of a class or more. -/
def many (p : Char → Bool) : Language Char :=
  charIn p * (charIn p)∗

section

variable {p : Char → Bool} {s t run rest : List Char}

theorem mem_kstar_charIn_iff : s ∈ (charIn p)∗ ↔ ∀ c ∈ s, p c = true := by
  rw [Language.mem_kstar]
  constructor
  · rintro ⟨pieces, rfl, hpieces⟩ c hc
    obtain ⟨piece, hpiece, hmem⟩ := List.mem_flatten.mp hc
    obtain ⟨d, hd, rfl⟩ := hpieces piece hpiece
    rwa [List.mem_singleton.mp hmem]
  · intro h
    refine ⟨s.map fun c => [c], by simp [← List.flatMap_def], ?_⟩
    intro piece hpiece
    obtain ⟨c, hc, rfl⟩ := List.mem_map.mp hpiece
    exact ⟨c, h c hc, rfl⟩

theorem mem_many_iff : s ∈ many p ↔ s ≠ [] ∧ ∀ c ∈ s, p c = true := by
  rw [many, Language.mem_mul]
  constructor
  · rintro ⟨_, ⟨c, hc, rfl⟩, more, hmore, rfl⟩
    exact ⟨List.cons_ne_nil c more,
      List.forall_mem_cons.mpr ⟨hc, mem_kstar_charIn_iff.mp hmore⟩⟩
  · rintro ⟨hne, hall⟩
    obtain ⟨c, more, rfl⟩ := List.exists_cons_of_ne_nil hne
    obtain ⟨hc, hmore⟩ := List.forall_mem_cons.mp hall
    exact ⟨[c], ⟨c, hc, rfl⟩, more, mem_kstar_charIn_iff.mpr hmore, rfl⟩

end

end SparqlQuery
