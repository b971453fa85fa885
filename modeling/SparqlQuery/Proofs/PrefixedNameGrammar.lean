import SparqlQuery.Proofs.LongestMatch
import SparqlQuery.Proofs.NameRoundTrip
import Mathlib.Computability.Language

open scoped Computability

namespace SparqlQuery

/-- The texts of one character from a class. -/
def charIn (p : Char → Bool) : Language Char :=
  {s | ∃ c, p c = true ∧ s = [c]}

/-- A percent sign with two hexadecimal digits, or a backslash with punctuation. -/
def localEscape : Language Char :=
  {s | (∃ high low, isHexDigit high = true ∧ isHexDigit low = true ∧ s = ['%', high, low]) ∨
    ∃ c ∈ localEscapable, s = ['\\', c]}

/-- `((piece | '.')* piece)?` -/
def dotted (piece : Language Char) : Language Char :=
  1 + (piece + charIn (· == '.'))∗ * piece

/-- `PN_CHARS_BASE ((PN_CHARS | '.')* PN_CHARS)?` -/
def labelName : Language Char :=
  charIn isNameBase * dotted (charIn isNameChar)

/-- `PN_CHARS | ':' | PLX` -/
def localPiece : Language Char :=
  charIn (fun c => isNameChar c || c == ':') + localEscape

/-- `(PN_CHARS_U | ':' | [0-9] | PLX) ((PN_CHARS | '.' | ':' | PLX)* (PN_CHARS | ':' | PLX))?` -/
def localName : Language Char :=
  (charIn (fun c => isNameStart c || c == ':' || c.isDigit) + localEscape) * dotted localPiece

/-- `PN_PREFIX? ':' PN_LOCAL` -/
def prefixedName : Language Char :=
  (1 + labelName) * charIn (· == ':') * localName

/-- What a dotted name is made of behind its first piece: pieces and dots, each dot with something
behind it. -/
inductive DottedRun (piece : Language Char) : List Char → Prop
  | nil : DottedRun piece []
  | piece {front s : List Char} (hfront : front ∈ piece) (h : DottedRun piece s) :
      DottedRun piece (front ++ s)
  | dot {s : List Char} (hne : s ≠ []) (h : DottedRun piece s) : DottedRun piece ('.' :: s)

section

variable {piece : Language Char} {front s t run rest : List Char}

theorem mem_charIn_iff {p : Char → Bool} : s ∈ charIn p ↔ ∃ c, p c = true ∧ s = [c] :=
  Iff.rfl

theorem DottedRun.append (h : DottedRun piece s) (ht : DottedRun piece t) :
    DottedRun piece (s ++ t) := by
  induction h with
  | nil => exact ht
  | piece hfront _ ih =>
    rw [List.append_assoc]
    exact .piece hfront ih
  | dot hne _ ih => exact .dot (by simp [hne]) ih

theorem DottedRun.of_flatten {pieces : List (List Char)} (hne : [] ∉ piece)
    (hpieces : ∀ front ∈ pieces, front ∈ piece + charIn (· == '.')) (hlast : t ∈ piece) :
    DottedRun piece (pieces.flatten ++ t) := by
  induction pieces with
  | nil =>
    have hone := DottedRun.piece hlast .nil
    rwa [List.append_nil] at hone
  | cons front pieces ih =>
    obtain ⟨hfront, hmore⟩ := List.forall_mem_cons.mp hpieces
    rw [List.flatten_cons, List.append_assoc]
    rcases (Language.mem_add ..).mp hfront with hpiece | ⟨c, hc, rfl⟩
    · exact .piece hpiece (ih hmore)
    · obtain rfl := eq_of_beq hc
      have hback : pieces.flatten ++ t ≠ [] := by
        intro hnil
        obtain ⟨-, rfl⟩ := List.append_eq_nil_iff.mp hnil
        exact hne hlast
      exact .dot hback (ih hmore)

theorem mem_dotted_iff (hne : [] ∉ piece) : s ∈ dotted piece ↔ DottedRun piece s := by
  rw [dotted, Language.mem_add, Language.mem_one, Language.mem_mul]
  constructor
  · rintro (rfl | ⟨_, ⟨pieces, rfl, hpieces⟩, last, hlast, rfl⟩)
    · exact .nil
    · exact .of_flatten hne hpieces hlast
  · intro h
    induction h with
    | nil => exact .inl rfl
    | @piece front s hfront _ ih =>
      right
      rcases ih with rfl | ⟨_, ⟨pieces, rfl, hpieces⟩, last, hlast, rfl⟩
      · exact ⟨[], Language.nil_mem_kstar _, front, hfront, by simp⟩
      · refine ⟨_, ⟨front :: pieces, rfl, ?_⟩, last, hlast, by simp⟩
        exact List.forall_mem_cons.mpr ⟨.inl hfront, hpieces⟩
    | @dot s hs _ ih =>
      right
      rcases ih with rfl | ⟨_, ⟨pieces, rfl, hpieces⟩, last, hlast, rfl⟩
      · exact absurd rfl hs
      · refine ⟨_, ⟨['.'] :: pieces, rfl, ?_⟩, last, hlast, by simp⟩
        exact List.forall_mem_cons.mpr ⟨.inr ⟨'.', rfl, rfl⟩, hpieces⟩

theorem UnitRun.dottedRun {accept : Char → Bool} (h : UnitRun (dottedUnit accept) run rest) :
    DottedRun (charIn accept) run := by
  induction h with
  | stop => exact .nil
  | @unit c unit run rest hsize hrun ih =>
    obtain rfl := eq_nil_of_dottedUnit hsize
    by_cases hdot : c = '.'
    · subst hdot
      refine .dot ?_ ih
      rintro rfl
      rw [List.nil_append, dottedUnit_dot, List.nil_append, hrun.size_rest] at hsize
      cases hsize
    · rw [dottedUnit_of_ne_dot hdot] at hsize
      split at hsize
      next hc => exact .piece (mem_charIn_iff.mpr ⟨c, hc, rfl⟩) ih
      next => cases hsize

theorem DottedRun.unitRun {accept : Char → Bool} (hdot : accept '.' = false)
    (h : DottedRun (charIn accept) run) (hstop : dottedUnit accept rest = 0) :
    UnitRun (dottedUnit accept) run rest := by
  induction h with
  | nil => exact .stop hstop
  | @piece front s hfront _ ih =>
    obtain ⟨c, hc, rfl⟩ := hfront
    refine @UnitRun.unit _ c [] s rest ?_ ih
    rw [dottedUnit_of_ne_dot (ne_of_class hc hdot), if_pos hc]
    rfl
  | @dot s hne _ ih =>
    refine @UnitRun.unit _ '.' [] s rest ?_ ih
    rw [List.nil_append, dottedUnit_dot]
    cases ih with
    | stop => exact absurd rfl hne
    | @unit c unit run _ hsize _ =>
      obtain rfl := eq_nil_of_dottedUnit hsize
      exact hsize

theorem isLabel_iff {label : List Char} : IsLabel label ↔ label ∈ 1 + labelName := by
  have hne : ([] : List Char) ∉ charIn isNameChar := by
    rintro ⟨c, -, hc⟩
    cases hc
  rw [Language.mem_add, Language.mem_one, labelName, Language.mem_mul]
  constructor
  · intro h
    cases label with
    | nil => exact .inl rfl
    | cons c name =>
      obtain ⟨hc, hname⟩ := h c name rfl
      exact .inr ⟨[c], ⟨c, hc, rfl⟩, name, (mem_dotted_iff hne).mpr hname.dottedRun, rfl⟩
  · rintro (rfl | ⟨_, ⟨c, hc, rfl⟩, name, hname, rfl⟩)
    · rintro c name ⟨⟩
    · rintro d more heq
      obtain ⟨rfl, rfl⟩ := List.cons.inj heq
      exact ⟨hc, ((mem_dotted_iff hne).mp hname).unitRun (by decide) (dottedUnit_colon [])⟩

theorem localUnit_piece (h : front ∈ localPiece) (t : List Char) :
    localUnit (front ++ t) = front.length := by
  rcases h with ⟨c, hc, rfl⟩ | ⟨high, low, hhigh, hlow, rfl⟩ | ⟨c, hc, rfl⟩
  · exact localUnit_of_localChar hc t
  · simp [localUnit, hhigh, hlow]
  · simp [localUnit, hc]

theorem mem_localPiece_of_unit {c : Char} {unit : List Char} (hdot : c ≠ '.')
    (h : localUnit (c :: (unit ++ s)) = unit.length + 1) : c :: unit ∈ localPiece := by
  by_cases hpercent : c = '%'
  · subst hpercent
    obtain ⟨high, low, rfl, hhigh, hlow⟩ := localUnit_percent h
    exact .inr (.inl ⟨high, low, hhigh, hlow, rfl⟩)
  · by_cases hslash : c = '\\'
    · subst hslash
      obtain ⟨d, rfl, hd⟩ := localUnit_slash h
      exact .inr (.inr ⟨d, hd, rfl⟩)
    · have hmark : isEscapeMark c = false := by simp [isEscapeMark, hpercent, hslash]
      obtain ⟨rfl, hc⟩ := unit_unmarked hmark h
      exact .inl ⟨c, hc.resolve_right hdot, rfl⟩

/-- A piece begins with a character that a dot may stand in front of. -/
theorem localPiece_head (h : front ∈ localPiece) : ∃ c more, front = c :: more ∧ c ≠ '.' ∧
    (isLocalChar c || c == '%' || c == '\\') = true := by
  rcases h with ⟨c, hc, rfl⟩ | ⟨high, low, -, -, rfl⟩ | ⟨c, -, rfl⟩
  · have hlocal : isLocalChar c = true := hc
    exact ⟨c, [], rfl, ne_of_class hlocal (by decide), by simp [hlocal]⟩
  · exact ⟨'%', _, rfl, by decide, by decide⟩
  · exact ⟨'\\', _, rfl, by decide, by decide⟩

theorem nil_not_mem_localPiece : ([] : List Char) ∉ localPiece := by
  intro h
  obtain ⟨c, more, hnil, -⟩ := localPiece_head h
  cases hnil

theorem DottedRun.localUnit_dot (h : DottedRun localPiece s) (hne : s ≠ []) (t : List Char) :
    localUnit ('.' :: (s ++ t)) = 1 := by
  induction h with
  | nil => exact absurd rfl hne
  | piece hfront _ _ =>
    obtain ⟨c, more, rfl, hdot, hc⟩ := localPiece_head hfront
    rw [List.cons_append, List.cons_append, localUnit_dot_of_ne hdot, if_pos hc]
  | dot hs _ ih =>
    rw [List.cons_append, localUnit_dot_dot]
    exact ih hs

theorem mem_localName_iff : s ∈ localName ↔
    DottedRun localPiece s ∧ ∃ c ∈ s.head?, isLocalLead c = true := by
  rw [localName, Language.mem_mul]
  constructor
  · rintro ⟨front, hfront, more, hmore, rfl⟩
    have hrun := (mem_dotted_iff nil_not_mem_localPiece).mp hmore
    rcases hfront with ⟨c, hc, rfl⟩ | hescape
    · have hstart : isLocalStart c = true := hc
      have hlocal : isLocalChar c = true := isLocalChar_of_start hstart
      exact ⟨.piece (.inl ⟨c, hlocal, rfl⟩) hrun, c, rfl, by simp [isLocalLead, hstart]⟩
    · refine ⟨.piece (.inr hescape) hrun, ?_⟩
      rcases hescape with ⟨high, low, -, -, rfl⟩ | ⟨c, -, rfl⟩
      · exact ⟨'%', rfl, by decide⟩
      · exact ⟨'\\', rfl, by decide⟩
  · rintro ⟨hrun, c, hc, hlead⟩
    cases hrun with
    | nil => cases hc
    | dot =>
      cases hc
      exact absurd hlead (by decide)
    | @piece front s hfront hs =>
      refine ⟨front, ?_, s, (mem_dotted_iff nil_not_mem_localPiece).mpr hs, rfl⟩
      rcases hfront with ⟨d, hd, rfl⟩ | hescape
      · obtain rfl : d = c := by simpa using hc
        have hmark : isEscapeMark d = false :=
          not_isEscapeMark_of (p := isLocalChar) (by decide) (by decide) hd
        simp only [isLocalLead, hmark, Bool.or_false] at hlead
        exact .inl ⟨d, hlead, rfl⟩
      · exact .inr hescape

/-- A run of units is a dotted run, except for dots at its end in front of an escape that is no
unit. -/
theorem UnitRun.local_front (h : UnitRun localUnit run rest) : ∃ front n,
    run = front ++ List.replicate n '.' ∧ DottedRun localPiece front ∧
      (n ≠ 0 → ¬ NoLocalEscape rest) := by
  induction h with
  | stop => exact ⟨[], 0, rfl, .nil, fun h => absurd rfl h⟩
  | @unit c unit run rest hsize hrun ih =>
    obtain ⟨front, n, rfl, hfront, hmark⟩ := ih
    by_cases hdot : c = '.'
    · subst hdot
      have hle := localUnit_dot_le_one (unit ++ ((front ++ List.replicate n '.') ++ rest))
      obtain rfl : unit = [] := List.eq_nil_of_length_eq_zero (by omega)
      by_cases hnil : front = []
      · subst hnil
        refine ⟨[], n + 1, rfl, .nil, fun _ hescape => ?_⟩
        obtain rfl : n = 0 := by
          by_contra hn
          exact hmark hn hescape
        have hstop := localUnit_dot_of_stop hescape hrun.size_rest
        rw [List.nil_append] at hsize
        exact absurd (hstop.symm.trans hsize) (by simp)
      · exact ⟨'.' :: front, n, rfl, .dot hnil hfront, hmark⟩
    · have hpiece := mem_localPiece_of_unit hdot hsize
      exact ⟨c :: unit ++ front, n, by simp, .piece hpiece hfront, hmark⟩

end

section

variable {t run rest : List Char}

/-- A run of units goes at least as far as any dotted run from the same place, if each piece is a
unit and so is each dot with something behind it. -/
theorem DottedRun.front {size : List Char → Nat} {piece : Language Char} {s : List Char}
    (hpiece : ∀ front ∈ piece, front ≠ [] ∧ ∀ t, size (front ++ t) = front.length)
    (hdot : ∀ s, DottedRun piece s → s ≠ [] → ∀ t, size ('.' :: (s ++ t)) = 1)
    (h : DottedRun piece s) (hrun : UnitRun size run rest) (happ : run ++ rest = s ++ t) :
    ∃ more, run = s ++ more ∧ UnitRun size more rest ∧ more ++ rest = t := by
  induction h generalizing run with
  | nil => exact ⟨run, rfl, hrun, happ⟩
  | @piece front s hfront _ ih =>
    obtain ⟨hne, hunit⟩ := hpiece front hfront
    rw [List.append_assoc] at happ
    obtain ⟨more, rfl, hmore, hback⟩ := hrun.of_unit hne (hunit _) happ
    obtain ⟨last, rfl, hlast, hrest⟩ := ih hmore hback
    exact ⟨last, by simp, hlast, hrest⟩
  | @dot s hs h ih =>
    have hone : size (['.'] ++ (s ++ t)) = ['.'].length := hdot s h hs t
    obtain ⟨more, rfl, hmore, hback⟩ := hrun.of_unit (by simp) hone happ
    obtain ⟨last, rfl, hlast, hrest⟩ := ih hmore hback
    exact ⟨last, rfl, hlast, hrest⟩

theorem DottedRun.front_of_run {s : List Char} (h : DottedRun localPiece s)
    (hrun : UnitRun localUnit run rest) (happ : run ++ rest = s ++ t) :
    ∃ more, run = s ++ more ∧ UnitRun localUnit more rest ∧ more ++ rest = t := by
  refine h.front (fun front hfront => ?_) (fun s hs hne t => hs.localUnit_dot hne t) hrun happ
  exact ⟨ne_of_mem_of_not_mem hfront nil_not_mem_localPiece, localUnit_piece hfront⟩

end

section

variable {s lexeme rest label localPart : List Char}

theorem mem_prefixedName_iff : s ∈ prefixedName ↔ ∃ label localPart, IsLabel label ∧
    localPart ∈ localName ∧ s = label ++ ':' :: localPart := by
  rw [prefixedName, Language.mem_mul]
  constructor
  · rintro ⟨front, hfront, localPart, hlocal, rfl⟩
    obtain ⟨label, hlabel, _, ⟨c, hc, rfl⟩, rfl⟩ := (Language.mem_mul ..).mp hfront
    obtain rfl := eq_of_beq hc
    exact ⟨label, localPart, isLabel_iff.mpr hlabel, hlocal, by simp⟩
  · rintro ⟨label, localPart, hlabel, hlocal, rfl⟩
    refine ⟨label ++ [':'], ?_, localPart, hlocal, by simp⟩
    exact ⟨label, isLabel_iff.mp hlabel, [':'], ⟨':', rfl, rfl⟩, rfl⟩

/-- The first colon ends the label. -/
theorem IsLabel.append_inj {label' t t' : List Char} (h : IsLabel label) (h' : IsLabel label')
    (happ : label ++ ':' :: t = label' ++ ':' :: t') : label = label' ∧ t = t' := by
  have hparts := congrArg (fun s => (nameParts s).1) happ
  simp only [nameParts_of_label h, nameParts_of_label h'] at hparts
  subst hparts
  exact ⟨rfl, (List.cons.inj (List.append_cancel_left happ)).2⟩

theorem splitLocal_mem (h : splitLocal s = some (localPart, rest)) : localPart ∈ localName := by
  obtain ⟨hrun, hescape, hlead, -⟩ := splitLocal_eq_some_iff.mp h
  obtain ⟨front, n, rfl, hfront, hmark⟩ := hrun.local_front
  obtain rfl : n = 0 := by
    by_contra hn
    exact hmark hn hescape
  rw [List.replicate_zero, List.append_nil] at hlead ⊢
  exact mem_localName_iff.mpr ⟨hfront, hlead⟩

theorem NoLocalEscape.of_dropWhile (h : NoLocalEscape (s.dropWhile (· == '.'))) :
    NoLocalEscape s := by
  cases s with
  | nil => exact stopsAt_nil _
  | cons c s =>
    by_cases hdot : c = '.'
    · subst hdot
      exact stopsAt_cons (by decide) s
    · rwa [List.dropWhile_cons_of_neg (by simpa using hdot)] at h

/-- Where a local name ends, no escape comes up behind dots either. -/
theorem NoLocalEscape.dropWhile (h : NoLocalEscape s) (hstop : localUnit s = 0) :
    NoLocalEscape (s.dropWhile (· == '.')) := by
  cases s with
  | nil => exact h
  | cons c s =>
    by_cases hdot : c = '.'
    · subst hdot
      rw [List.dropWhile_cons_of_pos (by simp)]
      intro d hd
      simp only [localUnit] at hstop
      split at hstop
      next hnil =>
        rw [hnil] at hd
        cases hd
      next e t hcons =>
        rw [hcons] at hd
        cases hd
        split at hstop
        next => cases hstop
        next hno =>
          simp only [Bool.not_eq_true, Bool.or_eq_false_iff] at hno
          simp [isEscapeMark, hno]
    · rwa [List.dropWhile_cons_of_neg (by simpa using hdot)]

theorem isLongest_of_split (h : splitPrefixedName s = some (lexeme, rest)) :
    IsLongest (· ∈ prefixedName) s lexeme rest := by
  obtain ⟨label, run, hlabel, hlocal, rfl, rfl⟩ := splitPrefixedName_eq_some_iff.mp h
  obtain ⟨hrun, -, -, -⟩ := splitLocal_eq_some_iff.mp hlocal
  refine ⟨mem_prefixedName_iff.mpr ⟨label, run, hlabel, splitLocal_mem hlocal, rfl⟩, rfl, ?_⟩
  rintro other hother ⟨t, happ⟩
  obtain ⟨label', name, hlabel', hname, rfl⟩ := mem_prefixedName_iff.mp hother
  obtain ⟨rfl, hback⟩ := hlabel'.append_inj hlabel (by simpa using happ)
  obtain ⟨more, rfl, -⟩ := (mem_localName_iff.mp hname).1.front_of_run hrun hback.symm
  simp

/-- Behind the longest name the run of units goes on only with dots in front of an escape. -/
theorem split_of_isLongest (h : IsLongest (· ∈ prefixedName) s lexeme rest)
    (hescape : NoLocalEscape (rest.dropWhile (· == '.'))) :
    splitPrefixedName s = some (lexeme, rest) := by
  obtain ⟨hmem, rfl, hle⟩ := h
  obtain ⟨label, name, hlabel, hname, rfl⟩ := mem_prefixedName_iff.mp hmem
  obtain ⟨hdotted, c, hc, hlead⟩ := mem_localName_iff.mp hname
  have hrun := unitRun_splitRun fits_localUnit (name ++ rest)
  have happ := splitRun_append localUnit (name ++ rest)
  obtain ⟨more, hsplit, hmore, hrest⟩ := hdotted.front_of_run hrun happ
  obtain ⟨front, n, rfl, hfront, hmark⟩ := hmore.local_front
  generalize (splitRun localUnit (name ++ rest)).2 = tail at hrun hmore hrest hmark
  have hlonger : name ++ front ∈ localName := by
    refine mem_localName_iff.mpr ⟨hdotted.append hfront, c, ?_, hlead⟩
    rw [List.head?_append, hc]
    rfl
  have hnil : front = [] := by
    have hlength := hle (label ++ ':' :: (name ++ front))
      (mem_prefixedName_iff.mpr ⟨label, _, hlabel, hlonger, rfl⟩)
      ⟨List.replicate n '.' ++ tail, by simp [← hrest]⟩
    simp only [List.length_append, List.length_cons] at hlength
    exact List.eq_nil_of_length_eq_zero (by omega)
  subst hnil
  have htail : NoLocalEscape tail := by
    rw [← hrest, List.nil_append, List.dropWhile_append_of_pos (by simp)] at hescape
    exact hescape.of_dropWhile
  obtain rfl : n = 0 := by
    by_contra hn
    exact hmark hn htail
  obtain rfl : tail = rest := by simpa using hrest
  rw [hsplit, List.replicate_zero, List.append_nil, List.append_nil] at hrun
  refine splitPrefixedName_eq_some_iff.mpr ⟨label, name, hlabel, ?_, rfl, rfl⟩
  exact splitLocal_eq_some_iff.mpr ⟨hrun, htail, ⟨c, hc, hlead⟩, rfl⟩

theorem splitPrefixedName_eq_some_iff_isLongest : splitPrefixedName s = some (lexeme, rest) ↔
    IsLongest (· ∈ prefixedName) s lexeme rest ∧ NoLocalEscape (rest.dropWhile (· == '.')) := by
  refine ⟨fun h => ⟨isLongest_of_split h, ?_⟩, fun h => split_of_isLongest h.1 h.2⟩
  obtain ⟨label, run, -, hlocal, -, -⟩ := splitPrefixedName_eq_some_iff.mp h
  obtain ⟨hrun, hescape, -, -⟩ := splitLocal_eq_some_iff.mp hlocal
  exact hescape.dropWhile hrun.size_rest

/-- The scanner takes a prefixed name with a local part if and only if one stands in front of the
text and no percent sign or backslash comes behind the longest one, not even after dots: there it
would begin an escape that is none, and that spoils the name. What it takes is the longest name.
Of the local part the backslashes are dropped. -/
theorem scan_prefixedName (fresh : UInt32) (s : List Char) :
    ((Kind.prefixedNameWithLocal.scan fresh s).isSome = true ↔ ∃ lexeme rest,
      IsLongest (· ∈ prefixedName) s lexeme rest ∧ NoLocalEscape (rest.dropWhile (· == '.'))) ∧
    ∀ value lexeme rest,
      Kind.prefixedNameWithLocal.scan fresh s = some (value, lexeme, rest) ↔
        IsLongest (· ∈ prefixedName) s lexeme rest ∧ NoLocalEscape (rest.dropWhile (· == '.')) ∧
          ∃ label localPart, label ∈ 1 + labelName ∧ localPart ∈ localName ∧
            lexeme = label ++ ':' :: localPart ∧
            value = .prefixedName (Value.nonEmpty (String.ofList label))
              (some (String.ofList (localPart.filter (· != '\\')))) := by
  have hscan {value : Value} {lexeme rest : List Char} :
      Kind.prefixedNameWithLocal.scan fresh s = some (value, lexeme, rest) ↔
        splitPrefixedName s = some (lexeme, rest) ∧
          Kind.prefixedNameWithLocal.value? fresh lexeme = some value := Kind.scan_eq_some_iff
  refine ⟨?_, fun value lexeme rest => ⟨?_, ?_⟩⟩
  · rw [Option.isSome_iff_exists]
    constructor
    · rintro ⟨⟨value, lexeme, rest⟩, h⟩
      exact ⟨lexeme, rest, splitPrefixedName_eq_some_iff_isLongest.mp (hscan.mp h).1⟩
    · rintro ⟨lexeme, rest, h⟩
      exact ⟨_, hscan.mpr ⟨splitPrefixedName_eq_some_iff_isLongest.mpr h, rfl⟩⟩
  · intro h
    obtain ⟨hsplit, hvalue⟩ := hscan.mp h
    obtain ⟨hlongest, hescape⟩ := splitPrefixedName_eq_some_iff_isLongest.mp hsplit
    obtain ⟨label, localPart, hlabel, hlocal, rfl, -⟩ := splitPrefixedName_eq_some_iff.mp hsplit
    rw [value?_name_of_split fresh hlabel hlocal] at hvalue
    exact ⟨hlongest, hescape, label, localPart, isLabel_iff.mp hlabel, splitLocal_mem hlocal, rfl,
      (Option.some.inj hvalue).symm⟩
  · rintro ⟨hlongest, hescape, label, localPart, hlabel, -, rfl, rfl⟩
    have hsplit := split_of_isLongest hlongest hescape
    obtain ⟨label', run, hlabel', hlocal, happ, -⟩ := splitPrefixedName_eq_some_iff.mp hsplit
    obtain ⟨rfl, rfl⟩ := hlabel'.append_inj (isLabel_iff.mpr hlabel) happ.symm
    exact hscan.mpr ⟨hsplit, value?_name_of_split fresh hlabel' hlocal⟩

/-- A percent sign without its digits: there is a name in front of it, but none is taken. -/
theorem malformedPercent_refused :
    "a:b".toList ∈ prefixedName ∧ "a:b".toList <+: "a:b%zz".toList ∧
      Kind.prefixedNameWithLocal.scan 0 "a:b%zz".toList = none := by
  have hruns : splitPrefixedName "a:b".toList = some ("a:b".toList, []) ∧
      Kind.prefixedNameWithLocal.scan 0 "a:b%zz".toList = none := by decide +kernel
  exact ⟨(isLongest_of_split hruns.1).form_lexeme, ⟨"%zz".toList, rfl⟩, hruns.2⟩

end

end SparqlQuery
