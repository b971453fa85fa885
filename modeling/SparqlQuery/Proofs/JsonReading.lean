import SparqlQuery.Proofs.JsonText

namespace SparqlQuery

/-- What may be written for a token; a value that is neither a text nor a container is not in
question here. -/
inductive JsonToken.WrittenAs : JsonToken → List Char → Prop
  | beginArray : WrittenAs .beginArray ['[']
  | endArray : WrittenAs .endArray [']']
  | beginObject : WrittenAs .beginObject ['\x7b']
  | endObject : WrittenAs .endObject ['\x7d']
  | comma : WrittenAs .comma [',']
  | colon : WrittenAs .colon [':']
  | text {content text : List Char} (h : JsonChars content text) :
      WrittenAs (.text (some (String.ofList text))) ('"' :: (content ++ ['"']))

/-- Tokens as they are written, with white space anywhere around them. -/
inductive WritesTokens : List Char → List JsonToken → Prop
  | nil : WritesTokens [] []
  | blank {c : Char} {s : List Char} {tokens : List JsonToken} (hc : isBlank c = true)
      (h : WritesTokens s tokens) : WritesTokens (c :: s) tokens
  | token {piece s : List Char} {token : JsonToken} {tokens : List JsonToken}
      (htoken : token.WrittenAs piece) (h : WritesTokens s tokens) :
      WritesTokens (piece ++ s) (token :: tokens)

/-- A text that writes a value. -/
def Json.WrittenAs (json : Json) (text : String) : Prop :=
  WritesTokens text.toList json.tokens

section

variable {piece s : List Char} {token : JsonToken} {tokens : List JsonToken}

theorem JsonToken.WrittenAs.ne_nil (h : token.WrittenAs piece) : piece ≠ [] := by
  cases h <;> simp

theorem JsonToken.WrittenAs.size_eq (h : token.WrittenAs piece) (s : List Char) :
    jsonTokenSize (piece ++ s) = piece.length := by
  cases h with
  | text h => exact h.tokenSize_eq s
  | _ => rfl

theorem JsonToken.WrittenAs.token_eq (h : token.WrittenAs piece) :
    jsonToken? piece = some token := by
  cases h with
  | text h =>
    rw [← h.jsonTextOf_eq]
    rfl
  | _ => rfl

theorem jsonToken?_blank {c : Char} (hc : isBlank c = true) : jsonToken? [c] = none := by
  rcases eq_of_isBlank hc with rfl | rfl | rfl | rfl <;> rfl

theorem WritesTokens.splitUnits_eq (h : WritesTokens s tokens) :
    ∃ units, splitUnits jsonTokenSize s = (units, []) ∧ units.filterMap jsonToken? = tokens := by
  induction h with
  | nil => exact ⟨[], splitUnits_nil _, rfl⟩
  | @blank c s tokens hc _ ih =>
    obtain ⟨units, hunits, htokens⟩ := ih
    have hsize : jsonTokenSize ([c] ++ s) = [c].length := by simp [jsonTokenSize, hc]
    have hsplit := splitUnits_of_unit (List.cons_ne_nil c []) hsize
    rw [hunits] at hsplit
    exact ⟨[c] :: units, hsplit, by rw [List.filterMap_cons, jsonToken?_blank hc, htokens]⟩
  | @token piece s token tokens htoken _ ih =>
    obtain ⟨units, hunits, htokens⟩ := ih
    have hsplit := splitUnits_of_unit htoken.ne_nil (htoken.size_eq s)
    rw [hunits] at hsplit
    exact ⟨piece :: units, hsplit, by rw [List.filterMap_cons, htoken.token_eq, htokens]⟩

end

namespace Json

variable {context : List OpenJson} {value : Json} {rest : List JsonToken}

/-- A value does not begin with the end of an array. -/
theorem tokens_ne_endArray (json : Json) (more : List JsonToken) :
    json.tokens ++ rest ≠ .endArray :: more := by
  cases json with
  | array items => cases items <;> simp [tokens]
  | object fields => cases fields <;> simp [tokens]
  | _ => simp [tokens]

/-- No colon comes behind the first text of a value. -/
theorem tokens_ne_key (json : Json) (items : List Json) (key : Option String)
    (more : List JsonToken) :
    json.tokens ++ (laterItems items ++ rest) ≠ .text key :: .colon :: more := by
  cases json with
  | array items => cases items <;> simp [tokens]
  | object fields => cases fields <;> simp [tokens]
  | text s => cases items <;> simp [tokens, laterItems]
  | _ => simp [tokens]

mutual

theorem readValue_tokens (json : Json) (context : List OpenJson) (rest : List JsonToken) :
    readValue context (json.tokens ++ rest) = readAfter context json rest := by
  cases json with
  | array items =>
    cases items with
    | nil => simp [tokens, readValue]
    | cons item items =>
      rw [tokens, List.cons_append, List.append_assoc, readValue, readValue_tokens item,
        readAfter_laterItems items]
      · rfl
      · exact fun more h => tokens_ne_endArray item more h
  | object fields =>
    cases fields with
    | nil => simp [tokens, readValue]
    | cons field fields =>
      obtain ⟨key, item⟩ := field
      rw [tokens, List.cons_append, List.cons_append, List.cons_append, List.append_assoc,
        readValue, readValue_tokens item, readAfter_laterFields fields]
      rfl
  | text s => simp [tokens, readValue]
  | null => simp [tokens, readValue]
  | boolean b => simp [tokens, readValue]
  | number literal => simp [tokens, readValue]

theorem readAfter_laterItems (items : List Json) (before : List Json) (value : Json)
    (context : List OpenJson) (rest : List JsonToken) :
    readAfter (.array before :: context) value (laterItems items ++ rest) =
      readAfter context (.array (before.reverse ++ value :: items)) rest := by
  cases items with
  | nil => simp [laterItems, readAfter]
  | cons item items =>
    rw [laterItems, List.cons_append, List.append_assoc, readAfter, readValue_tokens item,
      readAfter_laterItems items]
    · simp
    · exact fun key more h => tokens_ne_key item items key more h

theorem readAfter_laterFields (fields : List (Option String × Json))
    (before : List (Option String × Json)) (last : Option String) (value : Json)
    (context : List OpenJson) (rest : List JsonToken) :
    readAfter (.object before last :: context) value (laterFields fields ++ rest) =
      readAfter context (.object (before.reverse ++ (last, value) :: fields)) rest := by
  cases fields with
  | nil => simp [laterFields, readAfter]
  | cons field fields =>
    obtain ⟨key, item⟩ := field
    rw [laterFields, List.cons_append, List.cons_append, List.cons_append, List.append_assoc,
      readAfter, readValue_tokens item, readAfter_laterFields fields]
    simp

end

/-- What is written for a value is read as that value. -/
theorem ofText?_eq_of_writtenAs {json : Json} {text : String} (h : json.WrittenAs text) :
    ofText? text = some json := by
  obtain ⟨units, hunits, htokens⟩ := WritesTokens.splitUnits_eq h
  have hread := readValue_tokens json [] []
  rw [List.append_nil] at hread
  rw [ofText?, hunits]
  simp only [htokens, hread]
  rfl

/-- All that a value holds can be written. -/
def Writable (json : Json) : Prop :=
  ∀ token ∈ json.tokens, token.WrittenAs token.chars

theorem writable_text (s : String) : (text (some s)).Writable := by
  intro token htoken
  obtain rfl := List.mem_singleton.mp htoken
  have h := JsonToken.WrittenAs.text (jsonChars_jsonCharOf s.toList)
  rwa [String.ofList_toList] at h

theorem writable_laterItems {items : List Json} (h : ∀ item ∈ items, item.Writable) :
    ∀ token ∈ laterItems items, token.WrittenAs token.chars := by
  induction items with
  | nil =>
    intro token htoken
    obtain rfl := List.mem_singleton.mp htoken
    exact .endArray
  | cons item items ih =>
    obtain ⟨hitem, hitems⟩ := List.forall_mem_cons.mp h
    exact List.forall_mem_cons.mpr ⟨.comma, List.forall_mem_append.mpr ⟨hitem, ih hitems⟩⟩

theorem writable_array {items : List Json} (h : ∀ item ∈ items, item.Writable) :
    (array items).Writable := by
  cases items with
  | nil => exact List.forall_mem_cons.mpr ⟨.beginArray, writable_laterItems h⟩
  | cons item items =>
    obtain ⟨hitem, hitems⟩ := List.forall_mem_cons.mp h
    exact List.forall_mem_cons.mpr
      ⟨.beginArray, List.forall_mem_append.mpr ⟨hitem, writable_laterItems hitems⟩⟩

/-- The name and the value of a field can be written. -/
def WritableField (field : Option String × Json) : Prop :=
  (text field.1).Writable ∧ field.2.Writable

theorem WritableField.of_writable (key : String) {json : Json} (h : json.Writable) :
    WritableField (some key, json) :=
  ⟨writable_text key, h⟩

theorem WritableField.tokens {field : Option String × Json} (h : WritableField field) :
    ∀ token ∈ JsonToken.text field.1 :: .colon :: field.2.tokens, token.WrittenAs token.chars :=
  List.forall_mem_cons.mpr ⟨h.1 _ (List.mem_singleton.mpr rfl),
    List.forall_mem_cons.mpr ⟨.colon, h.2⟩⟩

theorem writable_laterFields {fields : List (Option String × Json)}
    (h : ∀ field ∈ fields, WritableField field) :
    ∀ token ∈ laterFields fields, token.WrittenAs token.chars := by
  induction fields with
  | nil =>
    intro token htoken
    obtain rfl := List.mem_singleton.mp htoken
    exact .endObject
  | cons field fields ih =>
    obtain ⟨hfield, hfields⟩ := List.forall_mem_cons.mp h
    exact List.forall_mem_cons.mpr
      ⟨.comma, List.forall_mem_append.mpr ⟨hfield.tokens, ih hfields⟩⟩

theorem writable_object {fields : List (Option String × Json)}
    (h : ∀ field ∈ fields, WritableField field) : (object fields).Writable := by
  cases fields with
  | nil => exact List.forall_mem_cons.mpr ⟨.beginObject, writable_laterFields h⟩
  | cons field fields =>
    obtain ⟨hfield, hfields⟩ := List.forall_mem_cons.mp h
    exact List.forall_mem_cons.mpr
      ⟨.beginObject, List.forall_mem_append.mpr ⟨hfield.tokens, writable_laterFields hfields⟩⟩

theorem writesTokens_chars {tokens : List JsonToken}
    (h : ∀ token ∈ tokens, token.WrittenAs token.chars) :
    WritesTokens (tokens.flatMap JsonToken.chars) tokens := by
  induction tokens with
  | nil => exact .nil
  | cons token tokens ih =>
    obtain ⟨htoken, htokens⟩ := List.forall_mem_cons.mp h
    exact .token htoken (ih htokens)

theorem Writable.writtenAs_toText {json : Json} (h : json.Writable) :
    json.WrittenAs json.toText := by
  unfold WrittenAs toText
  rw [String.toList_ofList]
  exact writesTokens_chars h

end Json

end SparqlQuery
