import SparqlQuery.Proofs.EscapeFree
import SparqlQuery.Proofs.SpoiledName

namespace SparqlQuery

/-- White space and nothing else. -/
def Blanks (w : List Char) : Prop :=
  ∀ c ∈ w, isBlank c = true

section

variable {w : List Char}

theorem cut_insert (hw : Blanks w) (hne : w ≠ []) (front back : List Char) :
    Cut (front ++ back) (front ++ (w ++ back)) := by
  refine Cut.append front (.here ?_)
  obtain ⟨d, more, rfl⟩ := List.exists_cons_of_ne_nil hne
  rintro c ⟨⟩
  exact hw d List.mem_cons_self

/-- Two brackets close up over white space whether there is more of it or less. -/
theorem head?_dropWhile_insert (hw : Blanks w) (front back : List Char) :
    ((front ++ (w ++ back)).dropWhile isBlank).head? =
      ((front ++ back).dropWhile isBlank).head? := by
  induction front with
  | nil => rw [List.nil_append, List.dropWhile_append_of_pos hw, List.nil_append]
  | cons c front ih =>
    cases hc : isBlank c with
    | true => simpa [hc] using ih
    | false => simp [hc]

theorem splitEmpty_insert (hw : Blanks w) {opening closing : Char} {lexeme : List Char}
    (hne : lexeme ≠ []) (front back : List Char)
    (h : splitEmpty opening closing (lexeme ++ (front ++ back)) = none) :
    splitEmpty opening closing (lexeme ++ (front ++ (w ++ back))) = none := by
  obtain ⟨c, more, rfl⟩ := List.exists_cons_of_ne_nil hne
  have hhead := head?_dropWhile_insert hw (more ++ front) back
  rw [List.cons_append, splitEmpty_eq_none_iff] at h ⊢
  rwa [← List.append_assoc, hhead, List.append_assoc]

/-- What holds no white space cannot lie across a place where some is put in. -/
theorem prefix_of_insert (hw : Blanks w) (hne : w ≠ []) {u front back t : List Char}
    (hu : ∀ c ∈ u, isBlank c = false) (h : front ++ (w ++ back) = u ++ t) :
    ∃ more, front = u ++ more ∧ t = more ++ (w ++ back) := by
  rcases List.append_eq_append_iff.mp h with ⟨middle, rfl, hmiddle⟩ | ⟨more, rfl, rfl⟩
  · cases middle with
    | nil => exact ⟨[], by simp, by simpa using hmiddle.symm⟩
    | cons c middle =>
      obtain ⟨d, w, rfl⟩ := List.exists_cons_of_ne_nil hne
      obtain rfl := (List.cons.inj hmiddle).1
      have hblank := hw d List.mem_cons_self
      rw [hu d (by simp)] at hblank
      cases hblank
  · exact ⟨more, rfl, rfl⟩

theorem blankFree_fence {quote : Char} (hquote : isBlank quote = false) :
    ∀ c ∈ List.replicate 3 quote, isBlank c = false := by
  intro c hc
  rwa [List.eq_of_mem_replicate hc]

theorem ReachesFence.of_insert {quote : Char} (hquote : isBlank quote = false) {text : List Char}
    (h : ReachesFence quote text) (hw : Blanks w) {front back : List Char}
    (htext : text = front ++ (w ++ back)) : ReachesFence quote (front ++ back) := by
  induction h generalizing front w with
  | @fence text hfence =>
    subst htext
    by_cases hne : w = []
    · subst hne
      exact .fence hfence
    · obtain ⟨t, ht⟩ := hfence
      obtain ⟨more, rfl, -⟩ := prefix_of_insert hw hne (blankFree_fence hquote) ht.symm
      rw [List.append_assoc]
      exact .fence (List.prefix_append _ _)
  | @plain c text hc h ih =>
    cases front with
    | cons d front =>
      obtain ⟨rfl, htail⟩ := List.cons.inj htext
      exact .plain hc (ih hw htail)
    | nil =>
      cases w with
      | nil => exact htext ▸ ReachesFence.plain hc h
      | cons d w =>
        obtain ⟨rfl, htail⟩ := List.cons.inj htext
        have hback : ReachesFence quote ([] ++ back) :=
          ih (List.forall_mem_cons.mp hw).2 htail
        exact hback
  | @escape c text hc h ih =>
    cases front with
    | nil =>
      cases w with
      | nil => exact htext ▸ ReachesFence.escape hc h
      | cons d w =>
        obtain ⟨rfl, -⟩ := List.cons.inj htext
        exact absurd (hw _ List.mem_cons_self) (by decide)
    | cons d front =>
      obtain ⟨rfl, htail⟩ := List.cons.inj htext
      cases front with
      | cons e front =>
        obtain ⟨rfl, hmore⟩ := List.cons.inj htail
        exact .escape hc (ih hw hmore)
      | nil =>
        cases w with
        | nil =>
          have hback : back = c :: text := htail.symm
          rw [hback]
          exact .escape hc h
        | cons e w =>
          obtain ⟨rfl, -⟩ := List.cons.inj htail
          rcases eq_of_isBlank (hw _ List.mem_cons_self) with rfl | rfl | rfl | rfl <;> cases hc

theorem splitLong_insert {quote : Char} (hquote : quote ≠ '\\') (hblank : isBlank quote = false)
    (hw : Blanks w) (hne : w ≠ []) (front back : List Char)
    (h : splitLong quote (front ++ back) = none) :
    splitLong quote (front ++ (w ++ back)) = none := by
  by_contra hsome
  obtain ⟨t, ht, hreach⟩ := (splitLong_ne_none_iff hquote).mp hsome
  obtain ⟨more, rfl, htail⟩ := prefix_of_insert hw hne (blankFree_fence hblank) ht
  refine (splitLong_ne_none_iff hquote).mpr ⟨more ++ back, by simp, ?_⟩ h
  exact hreach.of_insert hblank hw htail

/-- A namespace stays one when the text behind it is cut: what is read there begins no local
name. -/
theorem splitPrefixedName_of_scan {rest rest' : List Char} {offset : Nat} {fresh fresh' : UInt32}
    {value : Value} {lexeme : List Char} {tokens : List Token} (hcut : Cut rest rest')
    (h : scanLexeme fresh (lexeme ++ rest) = some (.prefixedNameNamespace, value, lexeme, rest))
    (hrest : Reads offset fresh' rest tokens) : splitPrefixedName (lexeme ++ rest') = none := by
  obtain ⟨hsplit, -, hrivals⟩ := scanLexeme_eq_some_iff.mp h
  have hname := keepsLexeme_namespace hcut hsplit
  have hlocal : splitLocal rest = none := by
    have hprefixed := hrivals .prefixedNameWithLocal (by decide)
    simp only [Kind.split] at hsplit hprefixed
    simp only [splitPrefixedName, hsplit] at hprefixed
    split at hprefixed
    next hnone => exact hnone
    next => cases hprefixed
  have hlead : StopsAt isLocalLead rest' :=
    (hrest.stopsAt_localLead hlocal).cut blankFree_localLead hcut
  exact splitPrefixedName_of_stopsAt hname hlead

/-- No brackets close up where a delimiter is read. -/
theorem splitEmpty_of_scan {fresh : UInt32} {value : Value} {s lexeme rest : List Char}
    (h : scanLexeme fresh s = some (.delimiter, value, lexeme, rest)) :
    splitEmpty '[' ']' s = none ∧ splitEmpty '(' ')' s = none := by
  obtain ⟨-, -, hrivals⟩ := scanLexeme_eq_some_iff.mp h
  have hblank := hrivals .blankNode (by decide)
  refine ⟨?_, hrivals .nil (by decide)⟩
  simp only [Kind.split, splitBlankNode] at hblank
  cases hlabel : splitBlankLabel s with
  | none => simpa [hlabel] using hblank
  | some found => simp [hlabel] at hblank

/-- White space behind a token does not let a pattern take what it did not take before. -/
theorem Kind.staysShort_insert (hw : Blanks w) (hne : w ≠ []) {kind : Kind} {offset : Nat}
    {fresh fresh' : UInt32} {value : Value} {lexeme : List Char} {tokens : List Token}
    (front back : List Char)
    (h : scanLexeme fresh (lexeme ++ (front ++ back)) = some (kind, value, lexeme, front ++ back))
    (hrest : Reads offset fresh' (front ++ back) tokens) :
    kind.StaysShort (lexeme ++ (front ++ back)) (lexeme ++ (front ++ (w ++ back))) := by
  have hlexeme := (scanLexeme_append h).2
  cases kind with
  | prefixedNameNamespace =>
    exact splitPrefixedName_of_scan (cut_insert hw hne front back) h hrest
  | stringLiteral =>
    intro quote hquote hnone
    rw [← List.append_assoc] at hnone ⊢
    rcases quote_cases hquote with rfl | rfl
    · exact splitLong_insert (by decide) (by decide) hw hne _ back hnone
    · exact splitLong_insert (by decide) (by decide) hw hne _ back hnone
  | delimiter =>
    obtain ⟨hbrackets, hparens⟩ := splitEmpty_of_scan h
    exact ⟨splitEmpty_insert hw hlexeme front back hbrackets,
      splitEmpty_insert hw hlexeme front back hparens⟩
  | _ => trivial

theorem scanLexeme_insert (hw : Blanks w) (hne : w ≠ []) {kind : Kind} {offset : Nat}
    {fresh fresh' : UInt32} {value : Value} {lexeme : List Char} {tokens : List Token}
    (front back : List Char)
    (h : scanLexeme fresh (lexeme ++ (front ++ back)) = some (kind, value, lexeme, front ++ back))
    (hrest : Reads offset fresh' (front ++ back) tokens) :
    scanLexeme fresh (lexeme ++ (front ++ (w ++ back))) =
      some (kind, value, lexeme, front ++ (w ++ back)) :=
  scanLexeme_cut (cut_insert hw hne front back) (Kind.staysShort_insert hw hne front back h hrest) h

end

end SparqlQuery
