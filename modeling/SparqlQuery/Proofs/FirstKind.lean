import SparqlQuery.Proofs.KeywordTable
import SparqlQuery.Proofs.StringCut

namespace SparqlQuery

/-- The kinds that have lexemes beginning with a character. -/
def leading (c : Char) : List Kind :=
  if isNameBase c then
    [.prefixedNameWithLocal, .prefixedNameNamespace, .booleanLiteral, .keyword]
  else if c.isDigit then [.numericLiteral]
  else
    match c with
    | '?' => [.variableName, .operator]
    | '$' => [.variableName]
    | '<' => [.iriRef, .operator]
    | ':' => [.prefixedNameWithLocal, .prefixedNameNamespace]
    | '"' | '\'' => [.stringLiteral]
    | '@' => [.langTag]
    | '+' | '-' => [.numericLiteral, .operator]
    | '.' => [.numericLiteral, .delimiter]
    | '_' => [.blankNode]
    | '[' => [.blankNode, .delimiter]
    | '(' => [.nil, .delimiter]
    | '^' => [.delimiter, .operator]
    | '\x7b' | '\x7d' | ')' | ']' | ';' | ',' => [.delimiter]
    | '|' | '&' | '!' | '=' | '>' | '*' | '/' => [.operator]
    | _ => []

namespace Kind

/-- The kinds that are tried before a kind. -/
def before (kind : Kind) : List Kind :=
  priority.takeWhile (· != kind)

/-- Those kinds tried before a kind that share a first character with it. -/
def rivals : Kind → List Kind
  | prefixedNameNamespace => [prefixedNameWithLocal]
  | booleanLiteral => [prefixedNameWithLocal, prefixedNameNamespace]
  | keyword => [prefixedNameWithLocal, prefixedNameNamespace, booleanLiteral]
  | delimiter => [numericLiteral, blankNode, nil]
  | operator => [variableName, iriRef, numericLiteral, delimiter]
  | _ => []

theorem mem_priority (kind : Kind) : kind ∈ priority := by
  cases kind <;> decide

theorem rivals_subset_before (kind : Kind) : ∀ other ∈ kind.rivals, other ∈ kind.before := by
  cases kind <;> decide

theorem mem_rivals {c : Char} : ∀ kind ∈ leading c, ∀ other ∈ leading c, other ∈ kind.before →
    other ∈ kind.rivals := by
  unfold leading
  repeat' split
  all_goals decide

end Kind

theorem isNameBase_of_isDigit {c : Char} (h : c.isDigit = true) : isNameBase c = false := by
  simp only [Char.isDigit, Bool.and_eq_true, decide_eq_true_eq, UInt32.le_iff_toNat_le] at h
  have hle : c.toNat ≤ 57 := h.2
  simp only [isNameBase, inRanges, nameBaseRanges, List.any_cons, List.any_nil, Bool.or_false,
    Bool.or_eq_false_iff, Bool.and_eq_false_iff, decide_eq_false_iff_not]
  omega

theorem leading_of_nameBase {c : Char} (h : isNameBase c = true) :
    leading c = [.prefixedNameWithLocal, .prefixedNameNamespace, .booleanLiteral, .keyword] := by
  simp [leading, h]

theorem leading_of_digit {c : Char} (h : c.isDigit = true) : leading c = [.numericLiteral] := by
  simp [leading, isNameBase_of_isDigit h, h]

theorem mem_leading_of_cons {kind : Kind} {c d : Char} {more t : List Char}
    (h : c :: more = d :: t) (hd : kind ∈ leading d) : kind ∈ leading c :=
  (List.cons.inj h).1 ▸ hd

theorem IsLabel.leading {label more : List Char} {c : Char} (h : IsLabel label)
    (happ : c :: more = label ++ [':']) : Kind.prefixedNameWithLocal ∈ leading c ∧
      Kind.prefixedNameNamespace ∈ SparqlQuery.leading c := by
  cases label with
  | nil =>
    obtain rfl := (List.cons.inj happ).1
    decide
  | cons d name =>
    obtain rfl := (List.cons.inj happ).1
    rw [leading_of_nameBase (h c name rfl).1]
    decide

theorem splitNumber_leading {c : Char} {s more rest : List Char}
    (h : splitNumber s = some (c :: more, rest)) : Kind.numericLiteral ∈ leading c := by
  obtain ⟨sign, mantissa, exponent, hsign, hmantissa, -, hlexeme, -⟩ :=
    splitNumber_eq_some_iff.mp h
  rcases hsign with rfl | ⟨d, hd, rfl⟩
  · obtain ⟨front, tail, ⟨d, hd, rfl | rfl⟩, rfl⟩ := hmantissa.front
    · have hdigit : Kind.numericLiteral ∈ leading d := by
        rw [leading_of_digit hd]
        exact List.mem_singleton_self _
      exact mem_leading_of_cons hlexeme hdigit
    · exact mem_leading_of_cons hlexeme (by decide)
  · simp only [isSign, Bool.or_eq_true, beq_iff_eq] at hd
    rcases hd with rfl | rfl <;> exact mem_leading_of_cons hlexeme (by decide)

theorem splitSymbol_leading {kind : Kind} {symbols : List (List Char)}
    (hleading : ∀ symbol ∈ symbols, symbol.head?.all (kind ∈ leading ·) = true) {c : Char}
    {s more rest : List Char} (h : splitSymbol symbols s = some (c :: more, rest)) :
    kind ∈ leading c := by
  have hmem := splitSymbol_mem h
  simpa using hleading _ hmem

/-- A kind takes no lexeme that does not begin as its lexemes do. -/
theorem mem_leading {kind : Kind} {c : Char} {s more rest : List Char}
    (h : kind.split s = some (c :: more, rest)) : kind ∈ leading c := by
  cases kind with
  | variableName =>
    obtain ⟨_, _, _, hsigil, -, -, -, hlexeme, -⟩ := splitVariable_eq_some_iff.mp h
    rcases hsigil with rfl | rfl <;> exact mem_leading_of_cons hlexeme (by decide)
  | iriRef =>
    obtain ⟨_, -, hlexeme, -⟩ := splitIri_eq_some_iff.mp h
    exact mem_leading_of_cons hlexeme (by decide)
  | prefixedNameWithLocal =>
    obtain ⟨label, run, hlabel, -, hlexeme, -⟩ := splitPrefixedName_eq_some_iff.mp h
    cases label with
    | nil => exact mem_leading_of_cons hlexeme (by decide)
    | cons d name => exact mem_leading_of_cons hlexeme (hlabel.leading rfl).1
  | prefixedNameNamespace =>
    obtain ⟨label, hlabel, hlexeme, -⟩ := splitNamespace_eq_some_iff.mp h
    exact (hlabel.leading hlexeme).2
  | stringLiteral =>
    obtain ⟨content, hlexeme | hlexeme⟩ := splitString_head h
    · exact mem_leading_of_cons hlexeme (by decide)
    · exact mem_leading_of_cons hlexeme (by decide)
  | langTag =>
    obtain ⟨_, _, _, -, -, -, -, hlexeme, -⟩ := splitLangTag_eq_some_iff.mp h
    exact mem_leading_of_cons hlexeme (by decide)
  | numericLiteral => exact splitNumber_leading h
  | booleanLiteral =>
    obtain ⟨hlexeme | hlexeme, -, -⟩ := splitBoolean_eq_some_iff.mp h
    · exact mem_leading_of_cons hlexeme (by decide)
    · exact mem_leading_of_cons hlexeme (by decide)
  | blankNode =>
    rcases orElse_eq_some_iff.mp h with h | ⟨-, h⟩
    · obtain ⟨_, _, -, -, hlexeme, -⟩ := splitBlankLabel_eq_some_iff.mp h
      exact mem_leading_of_cons hlexeme (by decide)
    · obtain ⟨_, -, hlexeme, -⟩ := (splitEmpty_eq_some_iff (by decide)).mp h
      exact mem_leading_of_cons hlexeme (by decide)
  | nil =>
    have hempty : splitEmpty '(' ')' s = some (c :: more, rest) := h
    obtain ⟨_, -, hlexeme, -⟩ := (splitEmpty_eq_some_iff (by decide)).mp hempty
    exact mem_leading_of_cons hlexeme (by decide)
  | keyword =>
    obtain ⟨-, hlookup, -⟩ := splitKeyword_eq_some_iff.mp h
    rw [leading_of_nameBase (isNameBase_of_isAlpha (isAlpha_of_lookupKeyword hlookup))]
    decide
  | delimiter => exact splitSymbol_leading (by decide) h
  | operator => exact splitSymbol_leading (by decide) h

theorem find?_eq_some_iff_takeWhile {α : Type} [DecidableEq α] {p : α → Bool} {a : α} {l : List α}
    (ha : a ∈ l) : l.find? p = some a ↔ p a = true ∧ ∀ b ∈ l.takeWhile (· != a), p b = false := by
  induction l with
  | nil => cases ha
  | cons b l ih =>
    by_cases hb : b = a
    · subst hb
      cases hp : p b with
      | true => simp [hp]
      | false =>
        have hne : l.find? p ≠ some b := by
          intro h
          rw [List.find?_some h] at hp
          cases hp
        simp [hp, hne]
    · have ha' : a ∈ l := (List.mem_cons.mp ha).resolve_left (Ne.symm hb)
      cases hp : p b with
      | true => simp [hp, hb]
      | false => simp [hp, hb, ih ha']

/-- A kind is the first to take a lexeme if none of its rivals takes any. -/
theorem firstKind?_eq_some_iff {s : List Char} {kind : Kind} :
    firstKind? s = some kind ↔
      kind.split s ≠ none ∧ ∀ other ∈ kind.rivals, other.split s = none := by
  unfold firstKind?
  rw [find?_eq_some_iff_takeWhile kind.mem_priority]
  simp only [Option.isSome_iff_ne_none, Option.isSome_eq_false_iff, Option.isNone_iff_eq_none]
  constructor
  · rintro ⟨hkind, hbefore⟩
    exact ⟨hkind, fun other hother => hbefore other (kind.rivals_subset_before other hother)⟩
  · rintro ⟨hkind, hrivals⟩
    refine ⟨hkind, fun other hother => ?_⟩
    by_contra hsome
    obtain ⟨⟨lexeme, rest⟩, hsplit⟩ := Option.ne_none_iff_exists'.mp hkind
    obtain ⟨⟨lexeme', rest'⟩, hsplit'⟩ := Option.ne_none_iff_exists'.mp hsome
    obtain ⟨happ, hne⟩ := kind.splits _ _ _ hsplit
    obtain ⟨happ', hne'⟩ := other.splits _ _ _ hsplit'
    obtain ⟨c, more, rfl⟩ := List.exists_cons_of_ne_nil hne
    obtain ⟨d, more', rfl⟩ := List.exists_cons_of_ne_nil hne'
    obtain rfl := (List.cons.inj (happ'.trans happ.symm)).1
    have hrival := Kind.mem_rivals kind (mem_leading hsplit) other (mem_leading hsplit') hother
    exact hsome (hrivals other hrival)

theorem scanLexeme_eq_some_iff {fresh : UInt32} {s lexeme rest : List Char} {kind : Kind}
    {value : Value} : scanLexeme fresh s = some (kind, value, lexeme, rest) ↔
      kind.split s = some (lexeme, rest) ∧ kind.value? fresh lexeme = some value ∧
        ∀ other ∈ kind.rivals, other.split s = none := by
  constructor
  · intro h
    unfold scanLexeme at h
    split at h
    next => cases h
    next first hfirst =>
      simp only [Option.map_eq_some_iff, Prod.mk.injEq, Prod.exists] at h
      obtain ⟨_, _, _, hscan, rfl, rfl, rfl, rfl⟩ := h
      obtain ⟨hsplit, hvalue⟩ := Kind.scan_eq_some_iff.mp hscan
      exact ⟨hsplit, hvalue, (firstKind?_eq_some_iff.mp hfirst).2⟩
  · rintro ⟨hsplit, hvalue, hrivals⟩
    have hfirst : firstKind? s = some kind :=
      firstKind?_eq_some_iff.mpr ⟨by rw [hsplit]; exact Option.some_ne_none _, hrivals⟩
    simp [scanLexeme, hfirst, Kind.scan, hsplit, hvalue]

end SparqlQuery
