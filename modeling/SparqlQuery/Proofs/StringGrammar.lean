import SparqlQuery.Proofs.LongestMatch
import SparqlQuery.Proofs.StringText

namespace SparqlQuery

/-- The letters that a backslash may stand in front of, each with the character that it names. -/
def stringEscapes : List (Char × Char) :=
  [('t', '\t'), ('b', '\x08'), ('n', '\n'), ('r', '\r'), ('f', '\x0c'), ('"', '"'),
    ('\'', '\''), ('\\', '\\')]

/-- A character of a string as it is written: as itself, unless it is excluded, or as an escape. -/
inductive StringChar (excluded : List Char) : List Char → Char → Prop
  | plain {c : Char} (hc : c ∉ excluded) : StringChar excluded [c] c
  | escape {letter c : Char} (h : (letter, c) ∈ stringEscapes) :
      StringChar excluded ['\\', letter] c

/-- What is written for a text, one character after the other. -/
inductive StringChars (excluded : List Char) : List Char → List Char → Prop
  | nil : StringChars excluded [] []
  | cons {piece content text : List Char} {c : Char} (hc : StringChar excluded piece c)
      (h : StringChars excluded content text) : StringChars excluded (piece ++ content) (c :: text)

/-- What is written for a text between triple quotes: groups of at most two quotes and a character
of another kind. -/
inductive LongContent (quote : Char) : List Char → List Char → Prop
  | nil : LongContent quote [] []
  | group {n : Nat} {piece content text : List Char} {c : Char} (hn : n ≤ 2)
      (hc : StringChar [quote, '\\'] piece c) (h : LongContent quote content text) :
      LongContent quote (List.replicate n quote ++ (piece ++ content))
        (List.replicate n quote ++ c :: text)

/-- The string literals of the grammar, each with the text that it stands for. -/
inductive StringLiteral : List Char → List Char → Prop
  | short {quote : Char} {content text : List Char} (hquote : quote ∈ ['"', '\''])
      (h : StringChars [quote, '\\', '\n', '\r'] content text) :
      StringLiteral (quote :: (content ++ [quote])) text
  | long {quote : Char} {content text : List Char} (hquote : quote ∈ ['"', '\''])
      (h : LongContent quote content text) :
      StringLiteral (List.replicate 3 quote ++ content ++ List.replicate 3 quote) text

def IsStringLiteral (lexeme : List Char) : Prop :=
  ∃ text, StringLiteral lexeme text

theorem escapedChar?_eq_some_iff {letter c : Char} :
    escapedChar? letter = some c ↔ (letter, c) ∈ stringEscapes := by
  constructor
  · intro h
    fun_cases escapedChar? letter <;> simp_all [escapedChar?, stringEscapes, eq_comm]
  · intro h
    simp only [stringEscapes, List.mem_cons, Prod.mk.injEq, List.not_mem_nil, or_false] at h
    rcases h with ⟨rfl, rfl⟩ | ⟨rfl, rfl⟩ | ⟨rfl, rfl⟩ | ⟨rfl, rfl⟩ | ⟨rfl, rfl⟩ | ⟨rfl, rfl⟩ |
      ⟨rfl, rfl⟩ | ⟨rfl, rfl⟩ <;> rfl

theorem quote_ne_slash {quote : Char} (hquote : quote ∈ ['"', '\'']) : quote ≠ '\\' := by
  rcases quote_cases hquote with rfl | rfl <;> decide

section

variable {quote c : Char} {excluded piece content text : List Char}

theorem StringChar.mono {more : List Char} (hmore : excluded ⊆ more)
    (h : StringChar more piece c) : StringChar excluded piece c := by
  cases h with
  | plain hc => exact .plain fun hmem => hc (hmore hmem)
  | escape hletter => exact .escape hletter

theorem StringChars.mono {more : List Char} (hmore : excluded ⊆ more)
    (h : StringChars more content text) : StringChars excluded content text := by
  induction h with
  | nil => exact .nil
  | cons hc _ ih => exact .cons (hc.mono hmore) ih

theorem StringChars.longContent (h : StringChars [quote, '\\'] content text) :
    LongContent quote content text := by
  induction h with
  | nil => exact .nil
  | cons hc _ ih => exact .group (Nat.zero_le 2) hc ih

/-- No character is written with a raw quote in front. -/
theorem StringChar.head_ne (hmem : quote ∈ excluded) (hquote : quote ≠ '\\')
    (h : StringChar excluded piece c) : ∃ d more, piece = d :: more ∧ d ≠ quote := by
  cases h with
  | plain hc => exact ⟨c, [], rfl, (ne_of_mem_of_not_mem hmem hc).symm⟩
  | @escape letter _ => exact ⟨'\\', [letter], rfl, hquote.symm⟩

theorem StringChars.head_ne (hmem : quote ∈ excluded) (hquote : quote ≠ '\\')
    (h : StringChars excluded content text) : ∀ d ∈ content.head?, d ≠ quote := by
  intro d hd
  cases h with
  | nil => cases hd
  | cons hc _ =>
    obtain ⟨e, more, rfl, he⟩ := hc.head_ne hmem hquote
    cases hd
    exact he

theorem StringChar.unescape (hslash : '\\' ∈ excluded) (h : StringChar excluded piece c)
    (s : List Char) : (splitUnits escapePair (piece ++ s)).1.flatMap unescapePair =
      c :: (splitUnits escapePair s).1.flatMap unescapePair := by
  cases h with
  | plain hc => exact unescape_cons (ne_of_mem_of_not_mem hslash hc).symm s
  | escape hletter => exact unescape_escape (escapedChar?_eq_some_iff.mpr hletter) s

theorem unescape_replicate (hquote : quote ≠ '\\') (n : Nat) (s : List Char) :
    (splitUnits escapePair (List.replicate n quote ++ s)).1.flatMap unescapePair =
      List.replicate n quote ++ (splitUnits escapePair s).1.flatMap unescapePair := by
  induction n with
  | zero => rfl
  | succ n ih =>
    rw [List.replicate_succ, List.cons_append, unescape_cons hquote, ih, List.cons_append]

theorem StringChars.unescape (hslash : '\\' ∈ excluded) (h : StringChars excluded content text) :
    (splitUnits escapePair content).1.flatMap unescapePair = text := by
  induction h with
  | nil => simp
  | cons hc _ ih => rw [hc.unescape hslash, ih]

theorem LongContent.unescape (hquote : quote ≠ '\\') (h : LongContent quote content text) :
    (splitUnits escapePair content).1.flatMap unescapePair = text := by
  induction h with
  | nil => simp
  | group _ hc _ ih => rw [unescape_replicate hquote, hc.unescape (by simp), ih]

/-- The value of a literal is the text that it stands for. -/
theorem StringLiteral.stringContent_eq {lexeme : List Char} (h : StringLiteral lexeme text) :
    stringContent lexeme = text := by
  cases h with
  | short hquote hcontent =>
    have hbody := stringBody_of_head (hcontent.head_ne (by simp) (quote_ne_slash hquote))
    rw [stringContent, hbody, hcontent.unescape (by simp)]
  | long hquote hcontent =>
    rw [stringContent, stringBody_long, hcontent.unescape (quote_ne_slash hquote)]

variable {size : List Char → Nat} {run rest : List Char}

theorem UnitRun.plain (hsize : size (c :: (run ++ rest)) = 1) (h : UnitRun size run rest) :
    UnitRun size (c :: run) rest :=
  @UnitRun.unit size c [] run rest hsize h

theorem UnitRun.escape {letter : Char} (hescape : TakesEscapes size)
    (hletter : (letter, c) ∈ stringEscapes) (h : UnitRun size run rest) :
    UnitRun size ('\\' :: letter :: run) rest := by
  refine @UnitRun.unit size '\\' [letter] run rest ?_ h
  rw [List.singleton_append, hescape.2, escapedChar?_eq_some_iff.mpr hletter]
  rfl

/-- A unit with a backslash in front is an escape. -/
theorem TakesEscapes.stringChar (hescape : TakesEscapes size) {unit s : List Char}
    (hsize : size ('\\' :: (unit ++ s)) = unit.length + 1) :
    ∃ d, StringChar excluded ('\\' :: unit) d := by
  obtain ⟨letter, hletter, rfl⟩ := hescape.eq_letter hsize
  obtain ⟨d, hd⟩ := Option.isSome_iff_exists.mp hletter
  exact ⟨d, .escape (escapedChar?_eq_some_iff.mp hd)⟩

theorem UnitRun.shortContent (h : UnitRun (shortUnit quote) run rest) :
    ∃ text, StringChars [quote, '\\', '\n', '\r'] run text := by
  induction h with
  | stop => exact ⟨[], .nil⟩
  | @unit c unit run rest hsize _ ih =>
    obtain ⟨text, htext⟩ := ih
    by_cases hslash : c = '\\'
    · subst hslash
      obtain ⟨d, hd⟩ := (takesEscapes_short quote).stringChar hsize
      exact ⟨d :: text, .cons hd htext⟩
    · rw [shortUnit_plain hslash] at hsize
      split at hsize
      next => cases hsize
      next hplain =>
        obtain rfl : unit = [] := List.eq_nil_of_length_eq_zero (by omega)
        have hc : c ∉ [quote, '\\', '\n', '\r'] := by
          simp_all [isLineBreak]
        exact ⟨c :: text, .cons (.plain hc) htext⟩

theorem StringChars.unitRun (hquote : quote ≠ '\\')
    (h : StringChars [quote, '\\', '\n', '\r'] content text) (rest : List Char) :
    UnitRun (shortUnit quote) content (quote :: rest) := by
  induction h with
  | nil => exact .stop (shortUnit_quote hquote rest)
  | cons hc _ ih =>
    cases hc with
    | escape hletter => exact ih.escape (takesEscapes_short quote) hletter
    | @plain c hplain =>
      simp only [List.mem_cons, List.not_mem_nil, or_false, not_or] at hplain
      refine ih.plain ?_
      rw [shortUnit_plain hplain.2.1, if_neg]
      simp [hplain, isLineBreak]

/-- Up to two quotes begin no fence. -/
theorem longUnit_quotes (hquote : quote ≠ '\\') {n : Nat} (hn : n < 2) {s : List Char}
    (hs : s.head? ≠ some quote) : longUnit quote (quote :: (List.replicate n quote ++ s)) = 1 := by
  have hfront : (List.replicate 3 quote).isPrefixOf (quote :: (List.replicate n quote ++ s)) =
      false := by
    obtain rfl | rfl : n = 0 ∨ n = 1 := by omega
    all_goals
      cases s with
      | nil => simp [List.isPrefixOf, List.replicate]
      | cons d s =>
        have hd : quote ≠ d := fun heq => hs (congrArg some heq.symm)
        simp [List.isPrefixOf, List.replicate, hd]
  rw [longUnit_plain hquote, hfront]
  rfl

theorem longUnit_of_ne (hc : c ∉ [quote, '\\']) (s : List Char) : longUnit quote (c :: s) = 1 := by
  have hquote : quote ≠ c := ne_of_mem_of_not_mem (by simp) hc
  have hslash : c ≠ '\\' := (ne_of_mem_of_not_mem (by simp) hc).symm
  have hfront : (List.replicate 3 quote).isPrefixOf (c :: s) = false := by
    simp [List.isPrefixOf, List.replicate, hquote]
  rw [longUnit_plain hslash, hfront]
  rfl

theorem unitRun_quotes (hquote : quote ≠ '\\') {n : Nat} (hn : n ≤ 2)
    (hhead : run.head? ≠ some quote) (hne : run ≠ []) (h : UnitRun (longUnit quote) run rest) :
    UnitRun (longUnit quote) (List.replicate n quote ++ run) rest := by
  induction n with
  | zero => exact h
  | succ n ih =>
    rw [List.replicate_succ, List.cons_append]
    refine (ih (by omega)).plain ?_
    rw [List.append_assoc]
    refine longUnit_quotes hquote hn ?_
    cases run with
    | nil => exact absurd rfl hne
    | cons d run => exact hhead

theorem LongContent.unitRun (hquote : quote ≠ '\\') (h : LongContent quote content text)
    (rest : List Char) : UnitRun (longUnit quote) content (List.replicate 3 quote ++ rest) := by
  induction h with
  | nil => exact .stop (longUnit_fence hquote rest)
  | @group n piece content text c hn hc _ ih =>
    obtain ⟨d, more, hpiece, hd⟩ := hc.head_ne List.mem_cons_self hquote
    refine unitRun_quotes hquote hn (by simpa [hpiece] using hd) (by simp [hpiece]) ?_
    cases hc with
    | plain hplain => exact ih.plain (longUnit_of_ne hplain _)
    | escape hletter => exact ih.escape (takesEscapes_long quote) hletter

/-- Quotes that the fence itself would be reached with are no content. -/
theorem UnitRun.longContent (hquote : quote ≠ '\\')
    (h : UnitRun (longUnit quote) run (List.replicate 3 quote ++ rest)) :
    ∃ text, LongContent quote run text := by
  generalize htail : List.replicate 3 quote ++ rest = tail at h
  induction h with
  | stop => exact ⟨[], .nil⟩
  | @unit c unit run tail hsize _ ih =>
    obtain ⟨text, htext⟩ := ih htail
    by_cases hslash : c = '\\'
    · subst hslash
      obtain ⟨d, hd⟩ := (takesEscapes_long quote).stringChar hsize
      exact ⟨d :: text, .group (Nat.zero_le 2) hd htext⟩
    · rw [longUnit_plain hslash] at hsize
      split at hsize
      next => cases hsize
      next hfront =>
        obtain rfl : unit = [] := List.eq_nil_of_length_eq_zero (by omega)
        by_cases hc : c = quote
        · subst hc
          cases htext with
          | nil => simp [← htail, List.replicate, List.isPrefixOf] at hfront
          | @group n piece content text d hn hd hcontent =>
            have hless : n ≠ 2 := by
              rintro rfl
              simp [List.replicate, List.isPrefixOf] at hfront
            exact ⟨_, .group (n := n + 1) (by omega) hd hcontent⟩
        · exact ⟨c :: text, .group (Nat.zero_le 2) (.plain (by simp [hc, hslash])) htext⟩

end

section

variable {quote : Char} {s lexeme rest text : List Char}

theorem splitShort_iff_content (hquote : quote ≠ '\\') :
    splitShort quote s = some (lexeme, rest) ↔
      (∃ content text, StringChars [quote, '\\', '\n', '\r'] content text ∧
        lexeme = quote :: (content ++ [quote])) ∧ s = lexeme ++ rest := by
  rw [splitShort, splitFenced_eq_some_iff (fits_shortUnit quote)]
  constructor
  · rintro ⟨content, hrun, hlexeme, hs⟩
    obtain ⟨text, htext⟩ := hrun.shortContent
    exact ⟨⟨content, text, htext, hlexeme⟩, hs⟩
  · rintro ⟨⟨content, text, htext, hlexeme⟩, hs⟩
    exact ⟨content, htext.unitRun hquote rest, hlexeme, hs⟩

theorem splitLong_iff_content (hquote : quote ≠ '\\') :
    splitLong quote s = some (lexeme, rest) ↔
      (∃ content text, LongContent quote content text ∧
        lexeme = List.replicate 3 quote ++ content ++ List.replicate 3 quote) ∧
          s = lexeme ++ rest := by
  rw [splitLong, splitFenced_eq_some_iff (fits_longUnit quote)]
  constructor
  · rintro ⟨content, hrun, hlexeme, hs⟩
    obtain ⟨text, htext⟩ := hrun.longContent hquote
    exact ⟨⟨content, text, htext, hlexeme⟩, hs⟩
  · rintro ⟨⟨content, text, htext, hlexeme⟩, hs⟩
    exact ⟨content, htext.unitRun hquote rest, hlexeme, hs⟩

theorem splitShort_of_content {content : List Char} (hquote : quote ∈ ['"', '\''])
    (h : StringChars [quote, '\\', '\n', '\r'] content text) (rest : List Char) :
    splitShort quote (quote :: (content ++ [quote]) ++ rest) =
      some (quote :: (content ++ [quote]), rest) :=
  (splitShort_iff_content (quote_ne_slash hquote)).mpr ⟨⟨content, text, h, rfl⟩, rfl⟩

theorem splitLong_of_content {content : List Char} (hquote : quote ∈ ['"', '\''])
    (h : LongContent quote content text) (rest : List Char) :
    splitLong quote (List.replicate 3 quote ++ content ++ List.replicate 3 quote ++ rest) =
      some (List.replicate 3 quote ++ content ++ List.replicate 3 quote, rest) :=
  (splitLong_iff_content (quote_ne_slash hquote)).mpr ⟨⟨content, text, h, rfl⟩, rfl⟩

/-- Single quotes come up where no string in triple quotes does. -/
theorem splitString_of_short (hquote : quote ∈ ['"', '\'']) (hlong : splitLong quote s = none)
    {found : List Char × List Char} (h : splitShort quote s = some found) :
    splitString s = some found := by
  obtain ⟨lexeme, rest⟩ := found
  obtain ⟨⟨content, -, -, rfl⟩, rfl⟩ := (splitShort_iff_content (quote_ne_slash hquote)).mp h
  have hother {other : Char} (hne : other ≠ quote) (more : List Char) (size : List Char → Nat) :
      splitFenced (other :: more) size (quote :: (content ++ [quote]) ++ rest) = none :=
    splitFenced_of_ne hne more size _
  rcases quote_cases hquote with rfl | rfl
  · have hnone : splitLong '\'' ('"' :: (content ++ ['"']) ++ rest) = none :=
      hother (by decide) _ _
    rw [splitString_eq, hlong, hnone, h]
    rfl
  · have hnone : splitLong '"' ('\'' :: (content ++ ['\'']) ++ rest) = none :=
      hother (by decide) _ _
    have hnone' : splitShort '"' ('\'' :: (content ++ ['\'']) ++ rest) = none :=
      hother (by decide) _ _
    rw [splitString_eq, hlong, hnone, hnone', h]
    rfl

/-- What is taken is a literal. -/
theorem isStringLiteral_of_split (h : splitString s = some (lexeme, rest)) :
    IsStringLiteral lexeme := by
  have hlong {quote : Char} (hquote : quote ∈ ['"', '\''])
      (h : splitLong quote s = some (lexeme, rest)) : IsStringLiteral lexeme := by
    obtain ⟨⟨content, text, htext, rfl⟩, -⟩ :=
      (splitLong_iff_content (quote_ne_slash hquote)).mp h
    exact ⟨text, .long hquote htext⟩
  have hshort {quote : Char} (hquote : quote ∈ ['"', '\''])
      (h : splitShort quote s = some (lexeme, rest)) : IsStringLiteral lexeme := by
    obtain ⟨⟨content, text, htext, rfl⟩, -⟩ :=
      (splitShort_iff_content (quote_ne_slash hquote)).mp h
    exact ⟨text, .short hquote htext⟩
  rw [splitString_eq] at h
  simp only [orElse_eq_some_iff] at h
  rcases h with h | ⟨-, h | ⟨-, h | ⟨-, h⟩⟩⟩
  · exact hlong (by decide) h
  · exact hlong (by decide) h
  · exact hshort (by decide) h
  · exact hshort (by decide) h

/-- Where a literal stands, one is taken, and one that is no shorter: at most one string of each
form begins there, and an empty one is all that single quotes make of triple ones. -/
theorem StringLiteral.split (h : StringLiteral lexeme text) (rest : List Char) :
    ∃ longest tail, splitString (lexeme ++ rest) = some (longest, tail) ∧
      lexeme.length ≤ longest.length := by
  cases h with
  | @long quote content _ hquote hcontent =>
    have hlong := splitLong_of_content hquote hcontent rest
    exact ⟨_, rest, splitString_of_long hquote hlong, Nat.le_refl _⟩
  | @short quote content _ hquote hcontent =>
    have hshort := splitShort_of_content hquote hcontent rest
    cases hlong : splitLong quote (quote :: (content ++ [quote]) ++ rest) with
    | none => exact ⟨_, rest, splitString_of_short hquote hlong hshort, Nat.le_refl _⟩
    | some found =>
      obtain ⟨longest, tail⟩ := found
      refine ⟨longest, tail, splitString_of_long hquote hlong, ?_⟩
      obtain ⟨⟨inner, -, -, rfl⟩, happ⟩ :=
        (splitLong_iff_content (quote_ne_slash hquote)).mp hlong
      have hempty : content = [] := by
        cases content with
        | nil => rfl
        | cons c content =>
          have hc := hcontent.head_ne List.mem_cons_self (quote_ne_slash hquote) c rfl
          exact absurd (List.cons.inj (List.cons.inj happ).2).1 hc
      simp [hempty]

theorem isLongest_of_splitString (h : splitString s = some (lexeme, rest)) :
    IsLongest IsStringLiteral s lexeme rest := by
  refine ⟨isStringLiteral_of_split h, (splits_string s lexeme rest h).1, ?_⟩
  rintro other ⟨text, hother⟩ ⟨tail, rfl⟩
  obtain ⟨longest, _, hlongest, hle⟩ := hother.split tail
  obtain ⟨rfl, -⟩ := Prod.mk.inj (Option.some.inj (h.symm.trans hlongest))
  exact hle

theorem splitString_eq_some_iff_isLongest :
    splitString s = some (lexeme, rest) ↔ IsLongest IsStringLiteral s lexeme rest := by
  refine ⟨isLongest_of_splitString, fun h => ?_⟩
  obtain ⟨text, hliteral⟩ := h.form_lexeme
  obtain ⟨longest, tail, hsplit, -⟩ := hliteral.split rest
  rw [h.append_eq] at hsplit
  obtain ⟨rfl, rfl⟩ := h.eq (isLongest_of_splitString hsplit)
  exact hsplit

/-- What needs no escape in any of the four forms is read in each of them. -/
theorem splitString_of_chars {content : List Char}
    (h : StringChars ['"', '\'', '\\', '\n', '\r'] content text) (hquote : quote ∈ ['"', '\''])
    (hs : s.head? ≠ some quote) : ∀ fence ∈ [[quote], [quote, quote, quote]],
      splitString (fence ++ content ++ fence ++ s) = some (fence ++ content ++ fence, s) ∧
        StringLiteral (fence ++ content ++ fence) text := by
  have hshort : StringChars [quote, '\\', '\n', '\r'] content text := by
    apply h.mono
    rcases quote_cases hquote with rfl | rfl <;> simp
  have hlong : LongContent quote content text :=
    StringChars.longContent (hshort.mono (by simp))
  intro fence hfence
  rcases List.mem_cons.mp hfence with rfl | hfence
  · refine ⟨splitString_of_short hquote ?_ (splitShort_of_content hquote hshort s),
      .short hquote hshort⟩
    refine splitLong_of_head_ne (hshort.head_ne List.mem_cons_self (quote_ne_slash hquote)) ?_
    intro c hc heq
    exact hs (heq ▸ hc)
  · obtain rfl := List.mem_singleton.mp hfence
    exact ⟨splitString_of_long hquote (splitLong_of_content hquote hlong s), .long hquote hlong⟩

theorem scan_string_eq_some_iff {fresh : UInt32} {value : Value} :
    Kind.stringLiteral.scan fresh s = some (value, lexeme, rest) ↔
      splitString s = some (lexeme, rest) ∧
        value = .string (String.ofList (stringContent lexeme)) := by
  rw [Kind.scan_eq_some_iff, Kind.value?, Option.some.injEq]
  exact and_congr_right fun _ => eq_comm

/-- The scanner takes a string literal if and only if some literal stands in front of the text. It
takes the longest, and its value is the text that the literal stands for. What needs no escape in
any of the four forms has the same value in each of them. -/
theorem scan_stringLiteral (fresh : UInt32) (s : List Char) :
    ((Kind.stringLiteral.scan fresh s).isSome = true ↔
      ∃ lexeme, IsStringLiteral lexeme ∧ lexeme <+: s) ∧
    (∀ value lexeme rest, Kind.stringLiteral.scan fresh s = some (value, lexeme, rest) ↔
      IsLongest IsStringLiteral s lexeme rest ∧
        ∃ text, StringLiteral lexeme text ∧ value = .string (String.ofList text)) ∧
    ∀ content text, StringChars ['"', '\'', '\\', '\n', '\r'] content text →
      ∀ quote ∈ ['"', '\''], s.head? ≠ some quote →
        ∀ fence ∈ [[quote], [quote, quote, quote]],
          Kind.stringLiteral.scan fresh (fence ++ content ++ fence ++ s) =
            some (.string (String.ofList text), fence ++ content ++ fence, s) := by
  refine ⟨⟨?_, ?_⟩, fun value lexeme rest => ⟨?_, ?_⟩, ?_⟩
  · intro h
    obtain ⟨⟨value, lexeme, rest⟩, hscan⟩ := Option.isSome_iff_exists.mp h
    have hlongest := isLongest_of_splitString (scan_string_eq_some_iff.mp hscan).1
    exact ⟨lexeme, hlongest.form_lexeme, ⟨rest, hlongest.append_eq⟩⟩
  · rintro ⟨lexeme, ⟨text, hliteral⟩, rest, rfl⟩
    obtain ⟨longest, tail, hsplit, -⟩ := hliteral.split rest
    exact Option.isSome_iff_exists.mpr ⟨_, scan_string_eq_some_iff.mpr ⟨hsplit, rfl⟩⟩
  · intro h
    obtain ⟨hsplit, hvalue⟩ := scan_string_eq_some_iff.mp h
    obtain ⟨text, hliteral⟩ := isStringLiteral_of_split hsplit
    refine ⟨isLongest_of_splitString hsplit, text, hliteral, ?_⟩
    rw [hvalue, hliteral.stringContent_eq]
  · rintro ⟨hlongest, text, hliteral, hvalue⟩
    refine scan_string_eq_some_iff.mpr ⟨splitString_eq_some_iff_isLongest.mpr hlongest, ?_⟩
    rw [hvalue, hliteral.stringContent_eq]
  · intro content text hcontent quote hquote hs fence hfence
    obtain ⟨hsplit, hliteral⟩ := splitString_of_chars hcontent hquote hs fence hfence
    exact scan_string_eq_some_iff.mpr ⟨hsplit, by rw [hliteral.stringContent_eq]⟩

/-- A letter and an escaped line break, in each of the four forms. -/
theorem escapedBreak_scanned : ∀ quote ∈ ['"', '\''], ∀ fence ∈ [[quote], [quote, quote, quote]],
    Kind.stringLiteral.scan 0 (fence ++ ['a', '\\', 'n'] ++ fence ++ []) =
      some (.string (String.ofList ['a', '\n']), fence ++ ['a', '\\', 'n'] ++ fence, []) := by
  have hcontent : StringChars ['"', '\'', '\\', '\n', '\r'] ['a', '\\', 'n'] ['a', '\n'] :=
    .cons (.plain (by decide)) (.cons (.escape (by decide)) .nil)
  intro quote hquote
  exact (scan_stringLiteral 0 []).2.2 _ _ hcontent quote hquote (by simp)

end

end SparqlQuery
