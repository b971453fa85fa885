import SparqlQuery.Proofs.DictionaryEntries
import SparqlQuery.Proofs.JsonReading
import SparqlQuery.GrammarJson

namespace SparqlQuery

/-- Productions with their branches, as they stand in a file one after the other. -/
abbrev Listing :=
  List (String × List (String × List Term))

def branchesJson (branches : List (String × List Term)) : Json :=
  .object (branches.map fun (key, terms) => (some key, expansionToJson terms))

def Listing.toJson (listing : Listing) : Json :=
  .object (listing.map fun (name, branches) => (some name, branchesJson branches))

namespace Table

/-- A listing gives each production of a table once and each of its branches once, in any order. -/
def ListedAs (t : Table) (listing : Listing) : Prop :=
  ∃ entries : List (String × Branches), entries.Perm t.productions.entries ∧
    List.Forall₂ (fun entry listed => listed.1 = entry.1 ∧ listed.2.Perm entry.2.entries)
      entries listing

/-- The listing in the order of the names. -/
def listing (t : Table) : Listing :=
  t.productions.entries.map fun (name, branches) => (name, branches.entries)

end Table

section

theorem mapM_map_eq_some {α β γ : Type} {write : α → β} {read : β → Option γ} (value : α → γ)
    (h : ∀ x, read (write x) = some (value x)) (xs : List α) :
    (xs.map write).mapM read = some (xs.map value) := by
  induction xs with
  | nil => rfl
  | cons x xs ih => simp [List.mapM_cons, h, ih]

theorem Term.ofJson?_toJson (term : Term) : Term.ofJson? term.toJson = some term := by
  cases term <;> rfl

theorem expansionOfJson?_toJson (terms : List Term) :
    expansionOfJson? (expansionToJson terms) = some terms := by
  rw [expansionToJson, expansionOfJson?, mapM_map_eq_some id Term.ofJson?_toJson, List.map_id]

theorem Dictionary.ofJson?_object {α β : Type} {item? : Json → Option β} {write : α → Json}
    {value : α → β} (h : ∀ x, item? (write x) = some (value x)) (items : List (String × α)) :
    Dictionary.ofJson? item? (.object (items.map fun (key, x) => (some key, write x))) =
      some (.ofList (items.map fun (key, x) => (key, value x))) := by
  rw [Dictionary.ofJson?, mapM_map_eq_some (fun item => (item.1, value item.2)) ?_]
  · rfl
  · rintro ⟨key, x⟩
    simp [h]

/-- What is read from a listing: of each name and of each key the last. -/
theorem Table.ofJson?_listing (listing : Listing) :
    Table.ofJson? listing.toJson =
      some ⟨.ofList (listing.map fun (name, branches) => (name, .ofList branches))⟩ := by
  have hbranches (branches : List (String × List Term)) :
      Dictionary.ofJson? expansionOfJson? (branchesJson branches) = some (.ofList branches) := by
    have h := Dictionary.ofJson?_object expansionOfJson?_toJson branches
    simpa [branchesJson] using h
  rw [Table.ofJson?, Listing.toJson, Dictionary.ofJson?_object hbranches, Option.map_some]

end

section

variable {t : Table} {own earlier : Listing}

theorem listed_eq {entries : List (String × Branches)}
    (h : List.Forall₂ (fun entry listed => listed.1 = entry.1 ∧ listed.2.Perm entry.2.entries)
      entries own) :
    own.map (fun (name, branches) => (name, Dictionary.ofList branches)) = entries := by
  induction h with
  | nil => rfl
  | @cons entry listed _ _ hentry _ ih =>
    obtain ⟨_, d⟩ := entry
    obtain ⟨name, branches⟩ := listed
    obtain ⟨rfl, hperm⟩ := hentry
    have hbranches : Dictionary.ofList ([] ++ branches) = d :=
      Dictionary.ofList_append_perm hperm (by simp)
    rw [List.nil_append] at hbranches
    rw [List.map_cons, ih]
    exact congrArg (fun branches => (name, branches) :: _) hbranches

/-- Whatever stands in front of a listing for productions of the table, the listing replaces. -/
theorem Table.ListedAs.ofJson?_eq (h : t.ListedAs own)
    (hearlier : ∀ entry ∈ earlier, t.contains entry.1 = true) :
    Table.ofJson? (Listing.toJson (earlier ++ own)) = some t := by
  obtain ⟨entries, hperm, hlisted⟩ := h
  have hkeys : ∀ entry ∈ earlier.map (fun (name, branches) => (name, Dictionary.ofList branches)),
      entry.1 ∈ t.productions.keys := by
    intro entry hentry
    obtain ⟨listed, hmem, rfl⟩ := List.mem_map.mp hentry
    exact Dictionary.mem_keys_iff.mpr (hearlier listed hmem)
  rw [Table.ofJson?_listing, List.map_append, listed_eq hlisted,
    Dictionary.ofList_append_perm hperm hkeys]

theorem Table.ListedAs.ofText?_eq (h : t.ListedAs own)
    (hearlier : ∀ entry ∈ earlier, t.contains entry.1 = true) {text : String}
    (htext : (Listing.toJson (earlier ++ own)).WrittenAs text) :
    Table.ofText? text = some t ∧ Table.ofBytes? text.toUTF8 = some t := by
  have hread : Table.ofText? text = some t := by
    rw [Table.ofText?, Json.ofText?_eq_of_writtenAs htext]
    exact h.ofJson?_eq hearlier
  have hbytes : String.fromUTF8? text.toUTF8 = some text :=
    dif_pos text.isValidUTF8
  exact ⟨hread, by rw [Table.ofBytes?, hbytes]; exact hread⟩

theorem Table.listedAs_listing (t : Table) : t.ListedAs t.listing := by
  refine ⟨t.productions.entries, .refl _, ?_⟩
  rw [Table.listing, List.forall₂_map_right_iff, List.forall₂_same]
  exact fun _ _ => ⟨rfl, .refl _⟩

theorem Table.toJson_eq (t : Table) : t.toJson = t.listing.toJson := by
  simp [Table.toJson, Dictionary.toJson, Listing.toJson, Table.listing, branchesJson]

theorem Term.writable_toJson (term : Term) : term.toJson.Writable := by
  have hfield (key text : String) : (Json.object [(some key, .text (some text))]).Writable := by
    refine Json.writable_object (List.forall_mem_singleton.mpr ?_)
    exact .of_writable key (Json.writable_text text)
  cases term with
  | terminal key => exact hfield "terminal" key
  | production name => exact hfield "production" name

theorem writable_expansionToJson (terms : List Term) : (expansionToJson terms).Writable := by
  refine Json.writable_array (List.forall_mem_map.mpr ?_)
  exact fun term _ => term.writable_toJson

theorem writable_branchesJson (branches : List (String × List Term)) :
    (branchesJson branches).Writable := by
  refine Json.writable_object (List.forall_mem_map.mpr ?_)
  exact fun branch _ => .of_writable branch.1 (writable_expansionToJson branch.2)

theorem Listing.writable_toJson (listing : Listing) : listing.toJson.Writable := by
  refine Json.writable_object (List.forall_mem_map.mpr ?_)
  exact fun production _ => .of_writable production.1 (writable_branchesJson production.2)

end

namespace Table

/-- A table is read back from what is written for it: from its own text, and from any other way of
writing its productions and their branches, whatever their order, their white space and their
escapes. Entries that stand in front of a production with the same name do not count. -/
theorem written_readBack :
    (∀ t : Table, ofText? t.toText = some t ∧ ofBytes? t.toText.toUTF8 = some t) ∧
    ∀ (t : Table) (earlier own : Listing) (text : String), t.ListedAs own →
      (∀ entry ∈ earlier, t.contains entry.1 = true) →
      (Listing.toJson (earlier ++ own)).WrittenAs text →
      ofText? text = some t ∧ ofBytes? text.toUTF8 = some t := by
  refine ⟨fun t => ?_, fun t earlier own text h hearlier => h.ofText?_eq hearlier⟩
  have htext : (Listing.toJson ([] ++ t.listing)).WrittenAs t.toText := by
    rw [List.nil_append, toText, toJson_eq]
    exact t.listing.writable_toJson.writtenAs_toText
  exact t.listedAs_listing.ofText?_eq (by simp) htext

def quotedTable : Table :=
  ⟨.ofList [("\"", .ofList [("\n", [.production "😀"])])]⟩

/-- Another branch of the same production, in an entry of its own. -/
def replacedBranch : Listing :=
  [("\"", [("$", [])])]

def quotedText : String :=
  "\x7b\"\\\"\":\x7b\"$\":[]\x7d, \"\\\"\":\x7b\"\\u000A\":[\x7b\"production\":" ++
    "\"\\uD83D\\uDE00\"\x7d]\x7d\x7d"

/-- Names that need escapes; the branch in front is gone. -/
theorem quotedTable_readBack :
    ofText? quotedTable.toText = some quotedTable ∧ ofText? quotedText = some quotedTable ∧
      quotedTable.expansion? "\"" "$" = none := by
  let own : Listing := [("\"", [("\n", [.production "😀"])])]
  have hlisted : quotedTable.ListedAs own := quotedTable.listedAs_listing
  have hearlier : ∀ entry ∈ replacedBranch, quotedTable.contains entry.1 = true := by decide
  have hquote : JsonChars ['\\', '"'] ['"'] := .cons (.letter (by decide)) .nil
  have hbreak : IsCode ['0', '0', '0', 'A'] '\n'.toNat :=
    ⟨rfl, [0, 0, 0, 10], by decide, by decide⟩
  have hhigh : IsCode ['D', '8', '3', 'D'] (0xD800 + 0x3D) :=
    ⟨rfl, [13, 8, 3, 13], by decide, by decide⟩
  have hlow : IsCode ['D', 'E', '0', '0'] (0xDC00 + 0x200) :=
    ⟨rfl, [13, 14, 0, 0], by decide, by decide⟩
  have hpair : JsonChars "\\uD83D\\uDE00".toList ['😀'] :=
    .cons (.pair (by decide) (by decide) hhigh hlow (by decide)) .nil
  have hword (s : String) := jsonChars_jsonCharOf s.toList
  have htext : (Listing.toJson (replacedBranch ++ own)).WrittenAs quotedText :=
    .token .beginObject <| .token (.text hquote) <| .token .colon <| .token .beginObject <|
      .token (.text (hword "$")) <| .token .colon <| .token .beginArray <| .token .endArray <|
      .token .endObject <| .token .comma <| .blank rfl <|
      .token (.text hquote) <| .token .colon <| .token .beginObject <|
      .token (.text (.cons (.code hbreak) .nil)) <| .token .colon <| .token .beginArray <|
      .token .beginObject <| .token (.text (hword "production")) <| .token .colon <|
      .token (.text hpair) <|
      .token .endObject <| .token .endArray <| .token .endObject <| .token .endObject .nil
  exact ⟨(written_readBack.1 quotedTable).1,
    (written_readBack.2 _ _ _ _ hlisted hearlier htext).1, by decide⟩

end Table

end SparqlQuery
