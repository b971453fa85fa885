import SparqlQuery.Proofs.EscapeFree

namespace SparqlQuery

/-- The character of the escape in front of a text, if there is one that names a character. -/
def escapedFront? (s : List Char) : Option Char :=
  (escapeDigits? s).bind fun digits => charOfCode? (hexValue digits)

/-- A text and what it is decoded to, from the front to the end: one character stands for each
escape that names one, and all else stands for itself. -/
inductive Decodes : List Char → List Char → Prop
  | nil : Decodes [] []
  | plain {c : Char} {s t : List Char} (hc : escapedFront? (c :: s) = none) (hs : Decodes s t) :
      Decodes (c :: s) (c :: t)
  | escape {mark c : Char} {digits s t : List Char}
      (hdigits : escapeDigits? ('\\' :: mark :: (digits ++ s)) = some digits)
      (hc : charOfCode? (hexValue digits) = some c) (hs : Decodes s t) :
      Decodes ('\\' :: mark :: (digits ++ s)) (c :: t)

section

variable {s t digits : List Char} {c mark : Char}

theorem escapeDigits?_of_ne (hc : c ≠ '\\') (s : List Char) : escapeDigits? (c :: s) = none := by
  unfold escapeDigits?
  split
  next h => exact absurd (List.cons.inj h).1 hc
  next h => exact absurd (List.cons.inj h).1 hc
  next => rfl

theorem escapedFront?_of_none (h : escapeDigits? s = none) : escapedFront? s = none := by
  simp [escapedFront?, h]

theorem decodeEscapes_nil : decodeEscapes [] = [] := by
  simp [decodeEscapes_eq]

theorem decodeEscapes_cons (h : escapeDigits? (c :: s) = none) :
    decodeEscapes (c :: s) = c :: decodeEscapes s := by
  rw [decodeEscapes_eq, decodeEscapes_eq, splitUnits_step (escapeUnit_of_none h), List.drop_zero,
    List.take_zero, List.flatMap_cons, decodeUnit_singleton, List.singleton_append]

theorem decodeEscapes_escape (h : escapeDigits? ('\\' :: mark :: (digits ++ s)) = some digits) :
    decodeEscapes ('\\' :: mark :: (digits ++ s)) =
      decodeUnit ('\\' :: mark :: digits) ++ decodeEscapes s := by
  rw [decodeEscapes_eq, decodeEscapes_eq, splitUnits_escape h, List.flatMap_cons]

theorem decodeUnit_escape (h : escapeDigits? ('\\' :: mark :: (digits ++ s)) = some digits) :
    decodeUnit ('\\' :: mark :: digits) =
      ((charOfCode? (hexValue digits)).map ([·])).getD ('\\' :: mark :: digits) := by
  have hself := escapeDigits?_append h []
  rw [List.append_nil] at hself
  unfold decodeUnit
  rw [hself, Option.bind_some]
  cases charOfCode? (hexValue digits) with
  | none => rfl
  | some c => rfl

/-- What holds no backslash is decoded to itself, whatever follows it. -/
theorem decodeEscapes_append (h : '\\' ∉ s) (t : List Char) :
    decodeEscapes (s ++ t) = s ++ decodeEscapes t := by
  induction s with
  | nil => rfl
  | cons c s ih =>
    rw [List.mem_cons, not_or] at h
    have hnone := escapeDigits?_of_ne (Ne.symm h.1) (s ++ t)
    rw [List.cons_append, decodeEscapes_cons hnone, ih h.2]
    rfl

/-- A character stands for itself unless an escape begins with it that names another. -/
theorem decodeEscapes_plain (h : escapedFront? (c :: s) = none) :
    decodeEscapes (c :: s) = c :: decodeEscapes s := by
  cases hdigits : escapeDigits? (c :: s) with
  | none => exact decodeEscapes_cons hdigits
  | some digits =>
    obtain ⟨mark, t, happ, hnot⟩ := exists_of_escapeDigits? hdigits
    obtain ⟨rfl, rfl⟩ := List.cons.inj happ
    have hcode : charOfCode? (hexValue digits) = none := by
      simpa [escapedFront?, hdigits] using h
    have hunit := decodeUnit_escape hdigits
    rw [hcode] at hunit
    have hrest := decodeEscapes_append hnot t
    have hkept : decodeEscapes (mark :: (digits ++ t)) = mark :: digits ++ decodeEscapes t := hrest
    rw [decodeEscapes_escape hdigits, hunit, hkept]
    rfl

theorem Decodes.eq (h : Decodes s t) : decodeEscapes s = t := by
  induction h with
  | nil => exact decodeEscapes_nil
  | plain hc _ ih => rw [decodeEscapes_plain hc, ih]
  | escape hdigits hc _ ih =>
    rw [decodeEscapes_escape hdigits, decodeUnit_escape hdigits, hc, ih]
    rfl

theorem decodes_decodeEscapes (s : List Char) : Decodes s (decodeEscapes s) := by
  suffices hex : ∃ t, Decodes s t by
    obtain ⟨t, ht⟩ := hex
    rwa [ht.eq]
  induction hlength : s.length using Nat.strongRecOn generalizing s with
  | ind n ih =>
    subst hlength
    cases s with
    | nil => exact ⟨[], .nil⟩
    | cons c s =>
      cases hfront : escapedFront? (c :: s) with
      | none =>
        obtain ⟨t, ht⟩ := ih s.length (by simp) s rfl
        exact ⟨c :: t, .plain hfront ht⟩
      | some d =>
        obtain ⟨digits, hdigits, hd⟩ := Option.bind_eq_some_iff.mp hfront
        obtain ⟨mark, t, happ, -⟩ := exists_of_escapeDigits? hdigits
        have hlt : t.length < (c :: s).length := by
          rw [happ]
          simp only [List.length_cons, List.length_append]
          omega
        obtain ⟨u, hu⟩ := ih t.length hlt t rfl
        rw [happ] at hdigits ⊢
        exact ⟨d :: u, .escape hdigits hd hu⟩

theorem Decodes.length_le (h : Decodes s t) : t.length ≤ s.length := by
  induction h with
  | nil => exact le_rfl
  | plain _ _ ih =>
    simp only [List.length_cons]
    omega
  | escape _ _ _ ih =>
    simp only [List.length_cons, List.length_append]
    omega

/-- Decoding an escape makes a text shorter, so a text that keeps its length is kept as it is. -/
theorem Decodes.eq_of_length (h : Decodes s t) (hlength : t.length = s.length) : t = s := by
  induction h with
  | nil => rfl
  | plain _ _ ih =>
    simp only [List.length_cons, Nat.add_right_cancel_iff] at hlength
    rw [ih hlength]
  | escape _ _ hs _ =>
    have hle := hs.length_le
    simp only [List.length_cons, List.length_append] at hlength
    omega

end

end SparqlQuery
