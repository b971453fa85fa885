import SparqlQuery.Proofs.UndefinedProductions
import Mathlib.Data.List.Nodup

namespace SparqlQuery

namespace Dictionary

variable {α : Type} {d : Dictionary α} {entries : List (String × α)} {key : String}

theorem nodup_keys (d : Dictionary α) : d.keys.Nodup := by
  refine d.sorted_keys.imp ?_
  rintro a b hlt rfl
  exact String.lt_irrefl _ hlt

theorem nodup_entries (d : Dictionary α) : d.entries.Nodup :=
  List.Nodup.of_map Prod.fst d.nodup_keys

/-- A map is what it leads to, since its entries stand in the order of their keys. -/
theorem ext_get? {d d' : Dictionary α} (h : ∀ key, d.get? key = d'.get? key) : d = d' := by
  have hperm : d.entries.Perm d'.entries := by
    rw [List.perm_ext_iff_of_nodup d.nodup_entries d'.nodup_entries]
    rintro ⟨key, item⟩
    rw [← get?_eq_some_iff, ← get?_eq_some_iff, h key]
  have hentries : d.entries = d'.entries := by
    refine hperm.eq_of_pairwise ?_ d.sorted d'.sorted
    intro a b _ _ hab hba
    exact absurd hba (String.lt_asymm hab)
  cases d
  cases d'
  cases hentries
  rfl

theorem ofList_append (earlier entries : List (String × α)) :
    ofList (earlier ++ entries) =
      entries.foldl (fun d entry => d.insert entry.1 entry.2) (ofList earlier) :=
  List.foldl_append

/-- The last entry of a key counts. -/
theorem get?_ofList (entries : List (String × α)) (key : String) :
    (ofList entries).get? key = entries.reverse.lookup key := by
  induction entries using List.reverseRecOn with
  | nil => rfl
  | append_singleton entries entry ih =>
    rw [ofList_append, List.foldl_cons, List.foldl_nil, get?_insert, ih, List.reverse_append,
      List.reverse_singleton, List.singleton_append, lookup_cons_eq]

/-- Where no key comes twice, an entry is found by its key. -/
theorem lookup_eq_some_iff_mem (h : (entries.map Prod.fst).Nodup) {item : α} :
    entries.lookup key = some item ↔ (key, item) ∈ entries := by
  induction entries with
  | nil => simp
  | cons entry entries ih =>
    obtain ⟨k, x⟩ := entry
    obtain ⟨hk, hentries⟩ := List.nodup_cons.mp h
    rw [lookup_cons_eq, List.mem_cons]
    split
    next heq =>
      subst heq
      have hnot : (key, item) ∉ entries := fun hmem => hk (List.mem_map.mpr ⟨_, hmem, rfl⟩)
      simp [hnot, eq_comm]
    next hne => simp [ih hentries, hne]

theorem lookup_eq_none_iff_notMem :
    entries.lookup key = none ↔ key ∉ entries.map Prod.fst := by
  rw [List.lookup_eq_none_iff]
  simp only [List.mem_map, bne_iff_ne, not_exists, not_and]
  exact forall₂_congr fun _ _ => ne_comm

/-- The entries of a map make up the map in any order, also behind earlier ones with keys of its
own. -/
theorem ofList_append_perm {earlier : List (String × α)} (hperm : entries.Perm d.entries)
    (hearlier : ∀ entry ∈ earlier, entry.1 ∈ d.keys) : ofList (earlier ++ entries) = d := by
  have hreverse : (entries.reverse.map Prod.fst).Perm d.keys :=
    ((List.reverse_perm entries).trans hperm).map Prod.fst
  refine ext_get? fun key => ?_
  rw [get?_ofList, List.reverse_append, List.lookup_append]
  cases hget : d.get? key with
  | some item =>
    have hmem : (key, item) ∈ entries.reverse :=
      List.mem_reverse.mpr (hperm.mem_iff.mpr (get?_eq_some_iff.mp hget))
    have hkeys := hreverse.nodup_iff.mpr d.nodup_keys
    rw [(lookup_eq_some_iff_mem hkeys).mpr hmem, Option.some_or]
  | none =>
    have hkey : key ∉ d.keys := by
      rw [mem_keys_iff, hget]
      exact Bool.false_ne_true
    have hown : key ∉ entries.reverse.map Prod.fst := fun h => hkey (hreverse.mem_iff.mp h)
    have hbefore : key ∉ earlier.reverse.map Prod.fst := by
      intro h
      obtain ⟨entry, hentry, rfl⟩ := List.mem_map.mp h
      exact hkey (hearlier entry (List.mem_reverse.mp hentry))
    rw [lookup_eq_none_iff_notMem.mpr hown, lookup_eq_none_iff_notMem.mpr hbefore, Option.none_or]

end Dictionary

end SparqlQuery
