import SparqlQuery.Lexer
import SparqlQuery.Proofs.EscapeDecoding
import SparqlQuery.Proofs.PositionalNotation

namespace SparqlQuery

/-- The length of an escape goes with its mark: four digits after a small u, eight after a
capital. -/
def EscapeMark (mark : Char) (digits : List Char) : Prop :=
  mark = 'u' ∧ digits.length = 4 ∨ mark = 'U' ∧ digits.length = 8

/-- An escape with all its digits, whether they name a character or not. -/
def IsEscape (s : List Char) : Prop :=
  ∃ mark digits, EscapeMark mark digits ∧ (∀ d ∈ digits, isHexDigit d = true) ∧
    s = '\\' :: mark :: digits

/-- The seam of two texts lies inside an escape of the whole. -/
def SeamInEscape (s t : List Char) : Prop :=
  ∃ front inner outer back, s = front ++ inner ∧ t = outer ++ back ∧ inner ≠ [] ∧ outer ≠ [] ∧
    IsEscape (inner ++ outer)

/-- What is written for a text when some of its characters, every backslash among them, are
written as escapes. -/
inductive WrittenFor : List Char → List Char → Prop
  | nil : WrittenFor [] []
  | plain {c : Char} {s t : List Char} (hc : c ≠ '\\') (h : WrittenFor s t) :
      WrittenFor (c :: s) (c :: t)
  | escape {mark c : Char} {digits s t : List Char} (hmark : EscapeMark mark digits)
      (hdigits : Denotes 16 digits c.toNat) (h : WrittenFor s t) :
      WrittenFor ('\\' :: mark :: (digits ++ s)) (c :: t)

section

variable {s t digits : List Char} {c mark : Char}

theorem escapeDigits?_of_escape (hmark : EscapeMark mark digits)
    (hdigits : ∀ d ∈ digits, isHexDigit d = true) (s : List Char) :
    escapeDigits? ('\\' :: mark :: (digits ++ s)) = some digits :=
  escapeDigits?_eq_some_iff.mpr ⟨mark, s, hmark, hdigits, rfl⟩

/-- No escape begins in front of a text that would not begin there if the text went on. -/
theorem escapeDigits?_of_append (h : escapeDigits? (s ++ t) = none) : escapeDigits? s = none := by
  by_contra hsome
  obtain ⟨digits, hdigits⟩ := Option.ne_none_iff_exists'.mp hsome
  obtain ⟨mark, u, hmark, hall, rfl⟩ := escapeDigits?_eq_some_iff.mp hdigits
  have hsame := escapeDigits?_of_escape hmark hall (u ++ t)
  rw [List.cons_append, List.cons_append, List.append_assoc, hsame] at h
  cases h

theorem SeamInEscape.append_left (u : List Char) (h : SeamInEscape s t) :
    SeamInEscape (u ++ s) t := by
  obtain ⟨front, inner, outer, back, rfl, ht, hescape⟩ := h
  exact ⟨u ++ front, inner, outer, back, (List.append_assoc u front inner).symm, ht, hescape⟩

/-- An escape in front of a text ends in its first part or reaches over the seam. -/
theorem escape_front (hne : s ≠ []) (hseam : ¬ SeamInEscape s t)
    (h : escapeDigits? (s ++ t) = some digits) :
    ∃ mark u, s = '\\' :: mark :: (digits ++ u) ∧ EscapeMark mark digits ∧
      ∀ d ∈ digits, isHexDigit d = true := by
  obtain ⟨mark, u, hmark, hall, happ⟩ := escapeDigits?_eq_some_iff.mp h
  have happ' : s ++ t = ('\\' :: mark :: digits) ++ u := by simpa using happ
  rcases List.append_eq_append_iff.mp happ' with ⟨outer, hwhole, hback⟩ | ⟨u', hs, -⟩
  · have houter : outer = [] := by
      by_contra houter
      exact hseam ⟨[], s, outer, u, rfl, hback, hne, houter, mark, digits, hmark, hall,
        hwhole.symm⟩
    rw [houter, List.append_nil] at hwhole
    exact ⟨mark, [], by simp [← hwhole], hmark, hall⟩
  · exact ⟨mark, u', by simpa using hs, hmark, hall⟩

theorem decodeEscapes_seam (h : ¬ SeamInEscape s t) :
    decodeEscapes (s ++ t) = decodeEscapes s ++ decodeEscapes t := by
  induction hlength : s.length using Nat.strongRecOn generalizing s with
  | ind n ih =>
    subst hlength
    cases s with
    | nil => rw [decodeEscapes_nil, List.nil_append, List.nil_append]
    | cons c s =>
      cases hfront : escapeDigits? (c :: s ++ t) with
      | none =>
        have hrest := ih s.length (by simp) (fun hseam => h (hseam.append_left [c])) rfl
        have hpart := escapeDigits?_of_append hfront
        rw [List.cons_append] at hfront
        rw [decodeEscapes_cons hpart, List.cons_append, decodeEscapes_cons hfront, hrest,
          List.cons_append]
      | some digits =>
        obtain ⟨mark, u, hs, hmark, hall⟩ := escape_front (List.cons_ne_nil c s) h hfront
        have hlt : u.length < (c :: s).length := by
          rw [hs]
          simp only [List.length_cons, List.length_append]
          omega
        rw [hs] at h ⊢
        have hrest := ih u.length hlt
          (fun hseam => h (hseam.append_left ('\\' :: mark :: digits))) rfl
        rw [List.cons_append, List.cons_append, List.append_assoc,
          decodeEscapes_escape (escapeDigits?_of_escape hmark hall (u ++ t)),
          decodeEscapes_escape (escapeDigits?_of_escape hmark hall u), hrest, List.append_assoc]

theorem charOfCode?_toNat (c : Char) : charOfCode? c.toNat = some c := by
  have hvalid : c.toNat.isValidChar := c.valid
  rw [charOfCode?, if_pos hvalid, Char.ofNat_toNat]

theorem WrittenFor.decodeEscapes_eq (h : WrittenFor s t) : decodeEscapes s = t := by
  induction h with
  | nil => exact decodeEscapes_nil
  | plain hc _ ih => rw [decodeEscapes_cons (escapeDigits?_of_ne hc _), ih]
  | @escape mark c digits s t hmark hdigits _ ih =>
    have hescape := escapeDigits?_of_escape hmark hdigits.isHexDigit s
    rw [decodeEscapes_escape hescape, decodeUnit_escape hescape, hdigits.hexValue_eq,
      charOfCode?_toNat, ih]
    rfl

end

/-- Each escape is decoded by itself. A text may be taken apart anywhere but inside an escape, and
its parts are decoded as they are in the whole. A text of which some characters are written as
escapes, among them every backslash, is decoded to itself, and it is what the lexer then reads. -/
theorem decodeEscapes_eachOnce :
    (∀ s t, ¬ SeamInEscape s t → decodeEscapes (s ++ t) = decodeEscapes s ++ decodeEscapes t) ∧
    ∀ written text, WrittenFor written text → decodeEscapes written = text ∧
      Lexer.ofText (String.ofList written) = Lexer.ofChars text := by
  refine ⟨fun s t h => decodeEscapes_seam h, fun written text h => ?_⟩
  have hdecoded := h.decodeEscapes_eq
  refine ⟨hdecoded, ?_⟩
  rw [Lexer.ofText, String.toList_ofList, hdecoded]

/-- An escape for a backslash and the letters of another escape: what is decoded is not decoded
again. -/
theorem escapedBackslash_decodedOnce :
    ¬ SeamInEscape ['\\', 'u', '0', '0', '5', 'C'] ['u', '0', '0', '4', '1'] ∧
      decodeEscapes (['\\', 'u', '0', '0', '5', 'C'] ++ ['u', '0', '0', '4', '1']) =
        decodeEscapes ['\\', 'u', '0', '0', '5', 'C'] ++ decodeEscapes ['u', '0', '0', '4', '1'] ∧
      WrittenFor ['\\', 'u', '0', '0', '5', 'C', 'u', '0', '0', '4', '1']
        ['\\', 'u', '0', '0', '4', '1'] ∧
      decodeEscapes ['\\', 'u', '0', '0', '5', 'C', 'u', '0', '0', '4', '1'] =
        ['\\', 'u', '0', '0', '4', '1'] := by
  have hseam : ¬ SeamInEscape ['\\', 'u', '0', '0', '5', 'C'] ['u', '0', '0', '4', '1'] := by
    rintro ⟨front, inner, outer, back, hs, -, hinner, houter, mark, digits, hmark, -, hescape⟩
    obtain ⟨d, inner, rfl⟩ := List.exists_cons_of_ne_nil hinner
    obtain ⟨rfl, hmore⟩ := List.cons.inj hescape
    cases front with
    | nil =>
      obtain rfl := (List.cons.inj hs).2
      obtain ⟨rfl, rfl⟩ := List.cons.inj hmore
      rcases hmark with ⟨-, hlength⟩ | ⟨hcapital, -⟩
      · exact houter (by simpa using hlength)
      · exact absurd hcapital (by decide)
    | cons e front =>
      have hmem : '\\' ∈ ['u', '0', '0', '5', 'C'] := by
        rw [(List.cons.inj hs).2]
        simp
      exact absurd hmem (by decide)
  have hdigits : Denotes 16 ['0', '0', '5', 'C'] '\\'.toNat :=
    ⟨[0, 0, 5, 12], .cons (by decide) (.cons (by decide) (.cons (by decide)
      (.cons (by decide) .nil))), by decide⟩
  have hwritten : WrittenFor ['\\', 'u', '0', '0', '5', 'C', 'u', '0', '0', '4', '1']
      ['\\', 'u', '0', '0', '4', '1'] :=
    .escape (.inl ⟨rfl, rfl⟩) hdigits <| .plain (by decide) <| .plain (by decide) <|
      .plain (by decide) <| .plain (by decide) <| .plain (by decide) .nil
  exact ⟨hseam, decodeEscapes_eachOnce.1 _ _ hseam, hwritten,
    (decodeEscapes_eachOnce.2 _ _ hwritten).1⟩

end SparqlQuery
