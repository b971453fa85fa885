namespace SparqlQuery

/-- A finite map from names, its entries in increasing order of their keys, so that maps with
the same entries are equal. -/
structure Dictionary (α : Type) where
  entries : List (String × α)
  sorted : entries.Pairwise fun a b => a.1 < b.1
deriving DecidableEq

namespace Dictionary

variable {α : Type}

def empty : Dictionary α :=
  ⟨[], .nil⟩

def get? (d : Dictionary α) (key : String) : Option α :=
  d.entries.lookup key

def keys (d : Dictionary α) : List String :=
  d.entries.map (·.1)

def values (d : Dictionary α) : List α :=
  d.entries.map (·.2)

def size (d : Dictionary α) : Nat :=
  d.entries.length

def contains (d : Dictionary α) (key : String) : Bool :=
  (d.get? key).isSome

/-- Puts an entry at its place, instead of one with the same key. -/
def insertEntry (key : String) (item : α) : List (String × α) → List (String × α)
  | [] => [(key, item)]
  | (k, x) :: rest =>
    if key < k then (key, item) :: (k, x) :: rest
    else if key = k then (key, item) :: rest
    else (k, x) :: insertEntry key item rest

theorem mem_insertEntry {key : String} {item : α} {entry : String × α}
    {entries : List (String × α)} (h : entry ∈ insertEntry key item entries) :
    entry = (key, item) ∨ entry ∈ entries := by
  induction entries with
  | nil => simpa [insertEntry] using h
  | cons head rest ih =>
    obtain ⟨k, x⟩ := head
    rw [insertEntry] at h
    split at h
    · simpa using h
    · split at h
      · rcases List.mem_cons.mp h with rfl | h
        · exact .inl rfl
        · exact .inr (List.mem_cons_of_mem _ h)
      · rcases List.mem_cons.mp h with rfl | h
        · exact .inr List.mem_cons_self
        · exact (ih h).imp id (List.mem_cons_of_mem _)

theorem sorted_insertEntry (key : String) (item : α) {entries : List (String × α)}
    (h : entries.Pairwise fun a b => a.1 < b.1) :
    (insertEntry key item entries).Pairwise fun a b => a.1 < b.1 := by
  induction entries with
  | nil => simp [insertEntry]
  | cons head rest ih =>
    obtain ⟨k, x⟩ := head
    obtain ⟨hhead, hrest⟩ := List.pairwise_cons.mp h
    rw [insertEntry]
    split
    next hlt =>
      refine List.pairwise_cons.mpr ⟨?_, h⟩
      intro entry hmem
      rcases List.mem_cons.mp hmem with rfl | hmem
      · exact hlt
      · exact String.lt_trans hlt (hhead _ hmem)
    next hlt =>
      split
      next heq =>
        subst heq
        exact List.pairwise_cons.mpr ⟨hhead, hrest⟩
      next hne =>
        refine List.pairwise_cons.mpr ⟨?_, ih hrest⟩
        intro entry hmem
        rcases mem_insertEntry hmem with rfl | hmem
        · exact Std.lt_of_le_of_ne (String.not_lt.mp hlt) (Ne.symm hne)
        · exact hhead _ hmem

def insert (d : Dictionary α) (key : String) (item : α) : Dictionary α :=
  ⟨insertEntry key item d.entries, sorted_insertEntry key item d.sorted⟩

/-- The map with these entries, the last one of each key counting. -/
def ofList (entries : List (String × α)) : Dictionary α :=
  entries.foldl (fun d (key, item) => d.insert key item) empty

end Dictionary

def sortedNames (names : List String) : List String :=
  (Dictionary.ofList (names.map fun name => (name, ()))).keys

end SparqlQuery
