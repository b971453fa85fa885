import SparqlQuery.Proofs.LexerReads
import SparqlQuery.Proofs.NumberGrammar

namespace SparqlQuery

/-- A literal with an exponent that lies past all finite doubles. -/
inductive Overflows : List Char → Prop
  | intro {sign whole fraction mantissa power digits : List Char} {mark : Char} {n size : Nat}
      (hsign : sign ∈ signForm) (hmantissa : MantissaDigits whole fraction mantissa)
      (hn : Denotes 10 (whole ++ fraction) n) (hmark : mark = 'e' ∨ mark = 'E')
      (hpower : power ∈ signForm) (hdigits : digits ∈ many Char.isDigit)
      (hsize : ReadsSize digits size)
      (hlarge : Double.overflowBound ≤ n * 10 ^ (signed power size - fraction.length)) :
      Overflows (sign ++ (mantissa ++ mark :: (power ++ digits)))

/-- The longest numeral in front of a text is one that overflows. -/
def BeginsOverflowing (s : List Char) : Prop :=
  ∃ lexeme rest, IsLongest (· ∈ numeralForm) s lexeme rest ∧ Overflows lexeme

/-- The characters that are tokens, if nothing longer begins with them. -/
def selfStanding : List Char :=
  ['\x7b', '\x7d', '(', ')', '[', ']', ';', ',', '=', '<', '>', '*', '/', '!', '^', '|', '?', ':']

/-- The characters that a number begins with. -/
def isNumberLead (c : Char) : Bool :=
  c.isDigit || c == '+' || c == '-' || c == '.'

def LexError.IsOutOfRange (e : LexError) : Prop :=
  "numeric literal out of range".toList <+: e.detail.toList

section

variable {fresh : UInt32} {kind : Kind} {c : Char} {s lexeme rest : List Char}

theorem overflows_iff : Overflows s ↔ NumeralMeans s none := by
  constructor
  · rintro ⟨hsign, hmantissa, hn, hmark, hpower, hdigits, hsize, hlarge⟩
    obtain ⟨hnegative, hnearest⟩ := Double.ofScientific_spec _ _ _
    have hmeans := NumeralMeans.double hsign hmantissa hn hmark hpower hdigits hsize hnegative
      hnearest
    rwa [if_pos (hnearest.isInfinite_iff.mpr hlarge)] at hmeans
  · intro h
    generalize houtcome : (none : Option Value) = outcome at h
    cases h with
    | integer => cases houtcome
    | decimal => cases houtcome
    | double hsign hmantissa hn hmark hpower hdigits hsize hnegative hx =>
      split at houtcome
      next hinfinite =>
        exact .intro hsign hmantissa hn hmark hpower hdigits hsize
          (hx.isInfinite_iff.mp hinfinite)
      next => cases houtcome

theorem beginsOverflowing_iff : BeginsOverflowing s ↔
    ∃ lexeme rest, splitNumber s = some (lexeme, rest) ∧ numericValue? lexeme = none := by
  simp only [BeginsOverflowing, takesLongest_number.split_eq_some_iff splits_number]
  refine exists_congr fun lexeme => exists_congr fun rest => and_congr_right fun hlongest => ?_
  rw [overflows_iff, numeralMeans_iff hlongest.form_lexeme, eq_comm]

theorem Kind.value?_eq_none (hsplit : kind.split s = some (lexeme, rest))
    (h : kind.value? fresh lexeme = none) :
    kind = .numericLiteral ∧ numericValue? lexeme = none := by
  cases kind with
  | numericLiteral => exact ⟨rfl, h⟩
  | keyword =>
    obtain ⟨-, hlookup, -⟩ := splitKeyword_eq_some_iff.mp hsplit
    rw [Option.map_eq_none_iff.mp h] at hlookup
    cases hlookup
  | blankNode =>
    simp only [value?] at h
    split at h <;> cases h
  | _ => cases h

theorem firstKind?_eq_none_iff : firstKind? s = none ↔ ∀ kind : Kind, kind.split s = none := by
  simp only [firstKind?, List.find?_eq_none, Option.not_isSome_iff_eq_none]
  exact ⟨fun h kind => h kind kind.mem_priority, fun h kind _ => h kind⟩

/-- There are two ways for no token to be scanned: no pattern fits, or the number that is read is
out of range. -/
theorem scanLexeme_eq_none_iff :
    scanLexeme fresh s = none ↔ (∀ kind : Kind, kind.split s = none) ∨ BeginsOverflowing s := by
  rw [beginsOverflowing_iff]
  constructor
  · intro h
    unfold scanLexeme at h
    split at h
    next hnone => exact .inl (firstKind?_eq_none_iff.mp hnone)
    next kind hkind =>
      have hscan := Option.map_eq_none_iff.mp h
      unfold Kind.scan at hscan
      split at hscan
      next hsplit => exact absurd hsplit (firstKind?_eq_some_iff.mp hkind).1
      next lexeme rest hsplit =>
        obtain ⟨rfl, hvalue⟩ := Kind.value?_eq_none hsplit (Option.map_eq_none_iff.mp hscan)
        exact .inr ⟨lexeme, rest, hsplit, hvalue⟩
  · rintro (hsilent | ⟨lexeme, rest, hsplit, hvalue⟩)
    · simp [scanLexeme, firstKind?_eq_none_iff.mpr hsilent]
    · have hnumber : Kind.numericLiteral.split s = some (lexeme, rest) := hsplit
      have hfirst : firstKind? s = some .numericLiteral :=
        firstKind?_eq_some_iff.mpr ⟨by simp [hnumber], by simp [Kind.rivals]⟩
      simp [scanLexeme, hfirst, Kind.scan, hnumber, Kind.value?, hvalue]

theorem splitSymbol_ne_none {symbols : List (List Char)} (h : [c] ∈ symbols) (s : List Char) :
    splitSymbol symbols (c :: s) ≠ none := by
  simp only [splitSymbol, ne_eq, Option.map_eq_none_iff, List.find?_eq_none, not_forall]
  exact ⟨[c], h, by simp [List.isPrefixOf]⟩

theorem splitNumber_ne_none_of_digit (h : c.isDigit = true) (s : List Char) :
    splitNumber (c :: s) ≠ none := by
  have hsign : splitSign (c :: s) = ([], c :: s) := by simp [splitSign, isDigit_not_sign h]
  have hfront : IsMantissaFront [c] := ⟨c, h, .inl rfl⟩
  simp only [splitNumber, hsign]
  split
  next hnone => exact absurd hnone (hfront.splitMantissa_ne_none s)
  next => simp

theorem exists_split_of_selfStanding (h : c ∈ selfStanding) (s : List Char) :
    ∃ kind : Kind, kind.split (c :: s) ≠ none := by
  have hall : selfStanding.all (fun c => c == ':' || delimiters.contains [c] ||
      operators.contains [c]) = true := by decide
  have hc := List.all_eq_true.mp hall c h
  simp only [Bool.or_eq_true, beq_iff_eq, List.contains_iff_mem, or_assoc] at hc
  rcases hc with rfl | hdelimiter | hoperator
  · have hlabel : IsLabel [] := fun _ _ hcons => by cases hcons
    have hname : splitNamespace (':' :: s) = some ([':'], s) :=
      splitNamespace_eq_some_iff.mpr ⟨[], hlabel, rfl, rfl⟩
    exact ⟨.prefixedNameNamespace, by simp [Kind.split, hname]⟩
  · exact ⟨.delimiter, splitSymbol_ne_none hdelimiter s⟩
  · exact ⟨.operator, splitSymbol_ne_none hoperator s⟩

theorem exists_split_of_numberLead (h : isNumberLead c = true) (s : List Char) :
    ∃ kind : Kind, kind.split (c :: s) ≠ none := by
  simp only [isNumberLead, Bool.or_eq_true, beq_iff_eq, or_assoc] at h
  rcases h with hdigit | rfl | rfl | rfl
  · exact ⟨.numericLiteral, splitNumber_ne_none_of_digit hdigit s⟩
  · exact ⟨.operator, splitSymbol_ne_none (by decide) s⟩
  · exact ⟨.operator, splitSymbol_ne_none (by decide) s⟩
  · exact ⟨.delimiter, splitSymbol_ne_none (by decide) s⟩

theorem isNumberLead_iff : isNumberLead c = true ↔ Kind.numericLiteral ∈ leading c := by
  constructor
  · intro h
    simp only [isNumberLead, Bool.or_eq_true, beq_iff_eq, or_assoc] at h
    rcases h with hdigit | rfl | rfl | rfl
    · simp [leading_of_digit hdigit]
    · decide
    · decide
    · decide
  · intro h
    unfold leading at h
    repeat' split at h
    all_goals simp_all [isNumberLead]

theorem BeginsOverflowing.numberLead (h : BeginsOverflowing (c :: s)) : isNumberLead c = true := by
  obtain ⟨lexeme, rest, hsplit, -⟩ := beginsOverflowing_iff.mp h
  obtain ⟨happ, hne⟩ := splits_number _ _ _ hsplit
  obtain ⟨d, more, rfl⟩ := List.exists_cons_of_ne_nil hne
  obtain rfl := (List.cons.inj happ).1
  exact isNumberLead_iff.mpr (splitNumber_leading hsplit)

theorem front_of_scan_none (h : scanLexeme fresh (c :: s) = none) :
    c ∉ selfStanding ∧ (isNumberLead c = true ↔ BeginsOverflowing (c :: s)) := by
  have hcases := scanLexeme_eq_none_iff.mp h
  have hoverflow : (∃ kind : Kind, kind.split (c :: s) ≠ none) → BeginsOverflowing (c :: s) := by
    rintro ⟨kind, hkind⟩
    exact hcases.resolve_left fun hsilent => hkind (hsilent kind)
  refine ⟨fun hstands => ?_, fun hlead => hoverflow (exists_split_of_numberLead hlead s),
    fun h => h.numberLead⟩
  have hnumber := (hoverflow (exists_split_of_selfStanding hstands s)).numberLead
  have hall : selfStanding.all (!isNumberLead ·) = true := by decide
  have hnone := List.all_eq_true.mp hall c hstands
  rw [hnumber] at hnone
  cases hnone

theorem complaint_of_numberLead (h : isNumberLead c = true) :
    complaint c = "numeric literal out of range" := by
  have hne (d : Char) (hd : isNumberLead d = false) : c ≠ d := ne_of_class h hd
  have hlead : (c.isDigit || c = '+' || c = '-' || c = '.') = true := by
    simpa [isNumberLead] using h
  rw [complaint, if_neg (by simp [hne '"' rfl, hne '\'' rfl]), if_neg (hne '<' rfl),
    if_neg (hne '\\' rfl), if_pos hlead]

/-- No other complaint begins with the first letter of this one. -/
theorem exists_complaint_eq_cons (h : isNumberLead c = false) :
    ∃ d more, (complaint c).toList = d :: more ∧ d ≠ 'n' := by
  have hlead : ¬ (c.isDigit || c = '+' || c = '-' || c = '.') = true := by
    simpa [isNumberLead] using h
  unfold complaint
  rw [if_neg hlead]
  split
  · exact ⟨'u', _, rfl, by decide⟩
  · split
    · exact ⟨'i', _, rfl, by decide⟩
    · split
      · exact ⟨'i', _, rfl, by decide⟩
      · simp only
        split
        · exact ⟨'u', _, by simp only [String.toList_append]; rfl, by decide⟩
        · exact ⟨'u', _, by simp only [String.toList_append]; rfl, by decide⟩

theorem isOutOfRange_atPosition {source : List Char} {position : Nat} :
    (LexError.atPosition source position (c :: s)).IsOutOfRange ↔ isNumberLead c = true := by
  obtain ⟨more, hdetail⟩ : ∃ more, (LexError.atPosition source position (c :: s)).detail.toList =
      (complaint c).toList ++ more := by
    simp [LexError.atPosition]
  rw [LexError.IsOutOfRange, hdetail]
  cases hlead : isNumberLead c with
  | true => simp [complaint_of_numberLead hlead]
  | false =>
    obtain ⟨d, text, hcomplaint, hne⟩ := exists_complaint_eq_cons hlead
    refine iff_of_false ?_ Bool.false_ne_true
    rintro ⟨t, ht⟩
    rw [hcomplaint] at ht
    exact hne (List.cons.inj ht).1.symm

end

namespace Lexer

variable {lexer : Lexer}

/-- An error of a run is made where no token is scanned, behind all that may stand between
tokens. -/
theorem failure_placed (hready : lexer.finished = false) {e : LexError}
    (h : lexer.run.2 = some e) : ∃ fresh front c s, lexer.rest = front ++ c :: s ∧
      gapUnit (c :: s) = 0 ∧ scanLexeme fresh (c :: s) = none ∧
      e = .atPosition lexer.source (lexer.offset + byteCount front) (c :: s) := by
  induction hlength : lexer.rest.length using Nat.strongRecOn generalizing lexer with
  | ind n ih =>
    subst hlength
    rcases next_cases hready with ⟨hnext, -⟩ | ⟨gap, rest, hrest, -, hne, hunit, hscan, hnext⟩ |
      ⟨gap, lexeme, rest, token, hrest, -, -, hstart, hstop, hnext⟩
    · rw [run_of_none hnext] at h
      cases h
    · rw [run_of_error hnext] at h
      obtain ⟨c, s, rfl⟩ := List.exists_cons_of_ne_nil hne
      exact ⟨_, gap, c, s, hrest, hunit, hscan, (Option.some.inj h).symm⟩
    · rw [run_of_ok hnext] at h
      have hready' : (lexer.past token rest).finished = false := hready
      have hafter : (lexer.past token rest).run.2 = some e := h
      obtain ⟨fresh, front, c, s, happ, hunit, hscan, rfl⟩ :=
        ih _ (next_rest_lt hnext) hready' hafter rfl
      have hbehind : lexer.rest = gap ++ lexeme ++ front ++ c :: s := by
        have happ' : rest = front ++ c :: s := happ
        simp [hrest, happ']
      have hplace : (lexer.past token rest).offset + byteCount front =
          lexer.offset + byteCount (gap ++ lexeme ++ front) := by
        have hoffset : (lexer.past token rest).offset = token.span.stop := rfl
        simp only [byteCount_append]
        omega
      refine ⟨fresh, gap ++ lexeme ++ front, c, s, hbehind, hunit, hscan, ?_⟩
      rw [hplace]
      rfl

theorem failure_run (hready : lexer.finished = false) {e : LexError}
    (h : lexer.run.2 = some e) : ∃ fresh offset c s,
      scanLexeme fresh (c :: s) = none ∧ e = .atPosition lexer.source offset (c :: s) := by
  obtain ⟨fresh, front, c, s, -, -, hscan, he⟩ := failure_placed hready h
  exact ⟨fresh, _, c, s, hscan, he⟩

theorem next_of_scan_none {gap s : List Char} {c : Char} (hready : lexer.finished = false)
    (hrest : lexer.rest = gap ++ c :: s) (hgap : Gap gap (c :: s))
    (hunit : gapUnit (c :: s) = 0) (hscan : scanLexeme lexer.fresh (c :: s) = none) :
    lexer.next.1 =
      some (.error (.atPosition lexer.source (lexer.offset + byteCount gap) (c :: s))) := by
  have hsplit := splitGap_of_gap hgap hunit
  simp [next, hready, hrest, hsplit, hscan]

end Lexer

/-- Where a text cannot be lexed. An error never begins with a character that is a token of its own,
and with one that begins a number only where a double is out of range. Just these errors say so, and
there is one wherever a lexer comes to such a double. -/
theorem lexError_front :
    (∀ text e, (Lexer.ofText text).run.2 = some e → ∃ c s, e.remainder.toList = c :: s ∧
      c ∉ selfStanding ∧ (isNumberLead c = true → BeginsOverflowing (c :: s)) ∧
      (e.IsOutOfRange ↔ BeginsOverflowing (c :: s))) ∧
    ∀ (lexer : Lexer) (gap s : List Char), lexer.finished = false → lexer.rest = gap ++ s →
      Gap gap s → BeginsOverflowing s → ∃ e, lexer.next.1 = some (.error e) ∧ e.IsOutOfRange ∧
        e.remainder.toList = s := by
  constructor
  · intro text e h
    obtain ⟨fresh, offset, c, s, hscan, rfl⟩ := Lexer.failure_run rfl h
    obtain ⟨hstands, hoverflow⟩ := front_of_scan_none hscan
    refine ⟨c, s, String.toList_ofList, hstands, hoverflow.mp, ?_⟩
    rw [isOutOfRange_atPosition, hoverflow]
  · intro lexer gap s hready hrest hgap hoverflow
    cases s with
    | nil =>
      obtain ⟨lexeme, rest, hsplit, -⟩ := beginsOverflowing_iff.mp hoverflow
      cases hsplit
    | cons c s =>
      have hunit : gapUnit (c :: s) = 0 :=
        gapUnit_of_leading (isNumberLead_iff.mp hoverflow.numberLead) s
      have hscan : scanLexeme lexer.fresh (c :: s) = none :=
        scanLexeme_eq_none_iff.mpr (.inr hoverflow)
      exact ⟨_, Lexer.next_of_scan_none hready hrest hgap hunit hscan,
        isOutOfRange_atPosition.mpr hoverflow.numberLead, String.toList_ofList⟩

/-- The sign and the digits of a double out of range are not read without its exponent. -/
theorem minusLarge_outOfRange : ∃ e e', (Lexer.ofText "?x -1e400.").run.2 = some e ∧
    e.remainder.toList = "-1e400.".toList ∧ e.IsOutOfRange ∧
    BeginsOverflowing "-1e400.".toList ∧
    (Lexer.ofChars "-1e400.".toList).next.1 = some (.error e') ∧ e'.IsOutOfRange := by
  obtain ⟨e, herror, hremainder⟩ : ∃ e, (Lexer.ofText "?x -1e400.").run.2 = some e ∧
      e.remainder.toList = "-1e400.".toList := by
    have hrun : (Lexer.ofText "?x -1e400.").run.2.map (·.remainder.toList) =
        some "-1e400.".toList := by decide +kernel
    exact Option.map_eq_some_iff.mp hrun
  obtain ⟨c, s, hcons, -, hnumber, hrange⟩ := lexError_front.1 _ e herror
  have hfront : c :: s = "-1e400.".toList := hcons.symm.trans hremainder
  obtain rfl : c = '-' := (List.cons.inj hfront).1
  have hoverflow := hnumber (by decide)
  obtain ⟨e', hnext, hrange', -⟩ :=
    lexError_front.2 (.ofChars ('-' :: s)) [] ('-' :: s) rfl rfl (.done _) hoverflow
  rw [hfront] at hoverflow hnext
  exact ⟨e, e', herror, hremainder, hrange.mpr (hfront ▸ hoverflow), hoverflow, hnext, hrange'⟩

end SparqlQuery
