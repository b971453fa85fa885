import SparqlQuery.JsonRendering
import SparqlQuery.Proofs.EscapeSpelling
import SparqlQuery.Proofs.UnitRun

namespace SparqlQuery

/-- The letters that a backslash may stand in front of in JSON, each with the character that it
names. -/
def jsonEscapes : List (Char × Char) :=
  [('"', '"'), ('\\', '\\'), ('/', '/'), ('b', '\x08'), ('f', '\x0c'), ('n', '\n'), ('r', '\r'),
    ('t', '\t')]

/-- Four digits with the code of sixteen bits that they name. -/
def IsCode (digits : List Char) (n : Nat) : Prop :=
  digits.length = 4 ∧ Denotes 16 digits n

/-- A character in a JSON text as it may be written: as itself, by a letter, by its code, or by the
two codes of a surrogate pair. -/
inductive JsonChar : List Char → Char → Prop
  | plain {c : Char} (hquote : c ≠ '"') (hslash : c ≠ '\\') (hcontrol : 0x20 ≤ c.toNat) :
      JsonChar [c] c
  | letter {letter c : Char} (h : (letter, c) ∈ jsonEscapes) : JsonChar ['\\', letter] c
  | code {digits : List Char} {c : Char} (h : IsCode digits c.toNat) :
      JsonChar ('\\' :: 'u' :: digits) c
  | pair {high low : List Char} {m n : Nat} {c : Char} (hm : m < 0x400) (hn : n < 0x400)
      (hhigh : IsCode high (0xD800 + m)) (hlow : IsCode low (0xDC00 + n))
      (hc : c.toNat = 0x10000 + m * 0x400 + n) :
      JsonChar ('\\' :: 'u' :: (high ++ '\\' :: 'u' :: low)) c

/-- What may be written for a text in JSON, between its quotes. -/
inductive JsonChars : List Char → List Char → Prop
  | nil : JsonChars [] []
  | cons {piece content text : List Char} {c : Char} (hc : JsonChar piece c)
      (h : JsonChars content text) : JsonChars (piece ++ content) (c :: text)

section

variable {digits piece content text s t : List Char} {c letter : Char} {n : Nat}

theorem jsonEscape?_eq_some_iff : jsonEscape? letter = some c ↔ (letter, c) ∈ jsonEscapes := by
  constructor
  · intro h
    fun_cases jsonEscape? letter <;> simp_all [jsonEscape?, jsonEscapes, eq_comm]
  · intro h
    simp only [jsonEscapes, List.mem_cons, Prod.mk.injEq, List.not_mem_nil, or_false] at h
    rcases h with ⟨rfl, rfl⟩ | ⟨rfl, rfl⟩ | ⟨rfl, rfl⟩ | ⟨rfl, rfl⟩ | ⟨rfl, rfl⟩ | ⟨rfl, rfl⟩ |
      ⟨rfl, rfl⟩ | ⟨rfl, rfl⟩ <;> rfl

theorem jsonCode?_of_ne (hc : c ≠ '\\') (s : List Char) : jsonCode? (c :: s) = none := by
  unfold jsonCode?
  split
  next h => exact absurd (List.cons.inj h).1 hc
  next => rfl

theorem jsonCode?_letter (h : (letter, c) ∈ jsonEscapes) (s : List Char) :
    jsonCode? ('\\' :: letter :: s) = none := by
  have hletter : letter ≠ 'u' := by
    rintro rfl
    simp [jsonEscapes] at h
  unfold jsonCode?
  split
  next happ => exact absurd (List.cons.inj (List.cons.inj happ).2).1 hletter
  next => rfl

theorem IsCode.jsonCode?_eq (h : IsCode digits n) (s : List Char) :
    jsonCode? ('\\' :: 'u' :: (digits ++ s)) = some n := by
  have hdigits : hexDigits? 4 (digits ++ s) = some digits :=
    hexDigits?_eq_some_iff.mpr ⟨h.1, h.2.isHexDigit, List.prefix_append digits s⟩
  rw [jsonCode?, hdigits, Option.map_some, h.2.hexValue_eq]

/-- A surrogate is the code of no character. -/
theorem isHighSurrogate_toNat (c : Char) : isHighSurrogate c.toNat = false := by
  have hvalid : c.toNat.isValidChar := c.valid
  have hcases : c.toNat < 0xD800 ∨ 0xDFFF < c.toNat ∧ c.toNat < 0x110000 := hvalid
  simp only [isHighSurrogate, Bool.and_eq_false_iff, decide_eq_false_iff_not]
  omega

theorem IsCode.jsonTextUnit_eq (h : IsCode digits n) (s : List Char) :
    jsonTextUnit ('\\' :: 'u' :: (digits ++ s)) =
      if isHighSurrogate n && (jsonCode? s).any isLowSurrogate then 12 else 6 := by
  have hdrop : ('u' :: (digits ++ s)).drop 5 = s := by
    rw [List.drop_succ_cons, ← h.1, List.drop_left]
  rw [jsonTextUnit, h.jsonCode?_eq]
  simp only [hdrop]
  cases jsonCode? s with
  | none => simp
  | some next => simp

theorem JsonChar.unit_eq (h : JsonChar piece c) (s : List Char) :
    jsonTextUnit (piece ++ s) = piece.length := by
  cases h with
  | plain hquote hslash hcontrol =>
    have hlt : ¬ c.toNat < 0x20 := by omega
    simp [jsonTextUnit, jsonCode?_of_ne hslash, hquote, hslash, hlt]
  | letter h => simp [jsonTextUnit, jsonCode?_letter h, jsonEscape?_eq_some_iff.mpr h]
  | code h =>
    rw [List.cons_append, List.cons_append, h.jsonTextUnit_eq, isHighSurrogate_toNat]
    simp [h.1]
  | @pair high low m n _ hm hn hhigh hlow _ =>
    have hnext := hlow.jsonCode?_eq s
    have hfirst : isHighSurrogate (0xD800 + m) = true := by
      simp only [isHighSurrogate, Bool.and_eq_true, decide_eq_true_eq]
      omega
    have hsecond : isLowSurrogate (0xDC00 + n) = true := by
      simp only [isLowSurrogate, Bool.and_eq_true, decide_eq_true_eq]
      omega
    rw [List.cons_append, List.cons_append, List.append_assoc, List.cons_append, List.cons_append,
      hhigh.jsonTextUnit_eq, hnext]
    simp [hfirst, hsecond, hhigh.1, hlow.1]

/-- Its unit stands for the character. -/
theorem JsonChar.char_eq (h : JsonChar piece c) : jsonTextChar? piece = some c := by
  cases h with
  | plain hquote hslash hcontrol =>
    simp [jsonTextChar?, jsonCode?_of_ne hslash]
  | letter h =>
    simp [jsonTextChar?, jsonCode?_letter h, jsonEscape?_eq_some_iff.mpr h]
  | @code digits _ h =>
    have hcode := h.jsonCode?_eq []
    have hdrop : ('\\' :: 'u' :: digits).drop 6 = [] := by simp [h.1]
    rw [List.append_nil] at hcode
    unfold jsonTextChar?
    rw [hcode, hdrop]
    exact charOfCode?_toNat c
  | @pair high low m n _ hm hn hhigh hlow hc =>
    have hcode := hhigh.jsonCode?_eq ('\\' :: 'u' :: low)
    have hnext := hlow.jsonCode?_eq []
    have hdrop : ('\\' :: 'u' :: (high ++ '\\' :: 'u' :: low)).drop 6 = '\\' :: 'u' :: low := by
      rw [List.drop_succ_cons, List.drop_succ_cons, ← hhigh.1, List.drop_left]
    rw [List.append_nil] at hnext
    unfold jsonTextChar?
    rw [hcode, hdrop, hnext]
    simp only [Nat.add_sub_cancel_left]
    rw [← hc]
    exact charOfCode?_toNat c

theorem JsonChar.ne_nil (h : JsonChar piece c) : piece ≠ [] := by
  cases h <;> simp

/-- A unit in front of a text is split off. -/
theorem splitUnits_of_unit {size : List Char → Nat} (hne : piece ≠ [])
    (hsize : size (piece ++ s) = piece.length) :
    splitUnits size (piece ++ s) = (piece :: (splitUnits size s).1, (splitUnits size s).2) := by
  obtain ⟨c, more, rfl⟩ := List.exists_cons_of_ne_nil hne
  have hsplit := splitUnits_step (s := more ++ s) hsize
  rwa [List.take_left, List.drop_left] at hsplit

theorem JsonChars.splitUnits_eq (h : JsonChars content text) {rest : List Char}
    (hstop : jsonTextUnit rest = 0) :
    ∃ pieces, splitUnits jsonTextUnit (content ++ rest) = (pieces, rest) ∧
      pieces.flatten = content ∧ pieces.mapM jsonTextChar? = some text := by
  induction h with
  | nil => exact ⟨[], splitUnits_stop hstop, rfl, rfl⟩
  | @cons piece content text c hc _ ih =>
    obtain ⟨pieces, hpieces, hflatten, hchars⟩ := ih
    refine ⟨piece :: pieces, ?_, by rw [List.flatten_cons, hflatten], ?_⟩
    · rw [List.append_assoc, splitUnits_of_unit hc.ne_nil (hc.unit_eq _), hpieces]
    · simp [List.mapM_cons, hc.char_eq, hchars]

theorem jsonTextUnit_quote (s : List Char) : jsonTextUnit ('"' :: s) = 0 := by
  simp [jsonTextUnit, jsonCode?_of_ne]

/-- A text in quotes is one token, which ends at the second quote. -/
theorem JsonChars.tokenSize_eq (h : JsonChars content text) (s : List Char) :
    jsonTokenSize ('"' :: (content ++ ['"']) ++ s) = ('"' :: (content ++ ['"'])).length := by
  obtain ⟨pieces, hpieces, hflatten, -⟩ := h.splitUnits_eq (jsonTextUnit_quote s)
  have hrun : splitRun jsonTextUnit (content ++ '"' :: s) = (content, '"' :: s) := by
    simp only [splitRun, hpieces, hflatten]
  have happ : '"' :: (content ++ ['"']) ++ s = '"' :: (content ++ '"' :: s) := by simp
  rw [happ, jsonTokenSize]
  simp [hrun, isBlank]

theorem JsonChars.jsonTextOf_eq (h : JsonChars content text) :
    jsonTextOf ('"' :: (content ++ ['"'])) = some (String.ofList text) := by
  have hstop : jsonTextUnit [] = 0 := rfl
  obtain ⟨pieces, hpieces, -, hchars⟩ := h.splitUnits_eq hstop
  rw [List.append_nil] at hpieces
  rw [jsonTextOf, List.drop_succ_cons, List.drop_zero, List.dropLast_concat, hpieces, hchars,
    Option.map_some]

theorem escapeLetter?_mem (h : escapeLetter? c = some letter) : (letter, c) ∈ jsonEscapes := by
  fun_cases escapeLetter? c <;> simp_all [escapeLetter?, jsonEscapes, eq_comm]

theorem isCode_control (hc : c.toNat < 0x20) :
    IsCode ['0', '0', (c.toNat / 16).digitChar, (c.toNat % 16).digitChar] c.toNat := by
  have hdigit (v : Nat) (hv : v < 16) : IsDigitOf 16 v v.digitChar := ⟨hv, .inl rfl⟩
  have hhigh : c.toNat / 16 < 16 := by omega
  have hlow : c.toNat % 16 < 16 := by omega
  refine ⟨rfl, [0, 0, c.toNat / 16, c.toNat % 16], ?_, ?_⟩
  · exact .cons (hdigit 0 (by decide)) (.cons (hdigit 0 (by decide)) (.cons (hdigit _ hhigh)
      (.cons (hdigit _ hlow) .nil)))
  · simp [Nat.ofDigits]
    omega

theorem jsonChar_jsonCharOf (c : Char) : JsonChar (jsonCharOf c) c := by
  unfold jsonCharOf
  split
  next letter hletter => exact .letter (escapeLetter?_mem hletter)
  next hnone =>
    split
    next hcontrol => exact .code (isCode_control hcontrol)
    next hplain =>
      refine .plain ?_ ?_ (by omega)
      · rintro rfl
        cases hnone
      · rintro rfl
        cases hnone

theorem jsonChars_jsonCharOf (s : List Char) : JsonChars (s.flatMap jsonCharOf) s := by
  induction s with
  | nil => exact .nil
  | cons c s ih => exact .cons (jsonChar_jsonCharOf c) ih

end

end SparqlQuery
