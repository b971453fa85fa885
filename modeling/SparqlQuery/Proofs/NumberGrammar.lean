import SparqlQuery.Proofs.DecimalValue
import SparqlQuery.Proofs.NameGrammar
import SparqlQuery.Proofs.NearestDouble
import SparqlQuery.Proofs.NumberText

open scoped Computability

namespace SparqlQuery

/-- `[+-]?` -/
def signForm : Language Char :=
  1 + charIn fun c => c == '+' || c == '-'

/-- `[0-9]+ | [0-9]+ '.' [0-9]* | '.' [0-9]+` -/
def mantissaForm : Language Char :=
  many Char.isDigit + many Char.isDigit * charIn (· == '.') * (charIn Char.isDigit)∗ +
    charIn (· == '.') * many Char.isDigit

/-- `[eE] [+-]? [0-9]+` -/
def exponentForm : Language Char :=
  charIn (fun c => c == 'e' || c == 'E') * signForm * many Char.isDigit

/-- `[+-]? ([0-9]+ | [0-9]+ '.' [0-9]* | '.' [0-9]+) ([eE] [+-]? [0-9]+)?` -/
def numeralForm : Language Char :=
  signForm * mantissaForm * (1 + exponentForm)

/-- The digits of a mantissa before and after its point. -/
inductive MantissaDigits : List Char → List Char → List Char → Prop
  | whole {whole : List Char} (hne : whole ≠ []) : MantissaDigits whole [] whole
  | point {whole fraction : List Char} (hne : whole ≠ [] ∨ fraction ≠ []) :
      MantissaDigits whole fraction (whole ++ '.' :: fraction)

/-- The size at which an exponent is taken. Digits that follow once it has passed 65535 are
ignored. -/
def ReadsSize (digits : List Char) (size : Nat) : Prop :=
  ∃ front ignored, digits = front ++ ignored ∧ Denotes 10 front size ∧ size < 10 * 0x10000 ∧
    (ignored = [] ∨ 0x10000 ≤ size)

/-- The value that a numeral denotes: an integer, a decimal with its places or the nearest double. A
double that would be infinite is no value. -/
inductive NumeralMeans : List Char → Option Value → Prop
  | integer {sign digits : List Char} {n : Nat} (hsign : sign ∈ signForm) (hne : digits ≠ [])
      (hn : Denotes 10 digits n) : NumeralMeans (sign ++ digits) (some (.integer (signed sign n)))
  | decimal {sign whole fraction : List Char} {n : Nat} {d : Decimal} (hsign : sign ∈ signForm)
      (hne : whole ≠ [] ∨ fraction ≠ []) (hn : Denotes 10 (whole ++ fraction) n)
      (hd : d.toRat = signed sign n / 10 ^ fraction.length)
      (hscale : d.scale = max 1 fraction.length) :
      NumeralMeans (sign ++ (whole ++ '.' :: fraction)) (some (.decimal d))
  | double {sign whole fraction mantissa power digits : List Char} {mark : Char} {n size : Nat}
      {x : Double} (hsign : sign ∈ signForm) (hmantissa : MantissaDigits whole fraction mantissa)
      (hn : Denotes 10 (whole ++ fraction) n) (hmark : mark = 'e' ∨ mark = 'E')
      (hpower : power ∈ signForm) (hdigits : digits ∈ many Char.isDigit)
      (hsize : ReadsSize digits size) (hnegative : x.isNegative = (sign == ['-']))
      (hx : x.IsNearest (n * 10 ^ (signed power size - fraction.length))) :
      NumeralMeans (sign ++ (mantissa ++ mark :: (power ++ digits)))
        (if x.isInfinite then none else some (.double x))

section

variable {s t lexeme rest sign power whole fraction mantissa exponent digits : List Char}
  {mark : Char} {outcome : Option Value}

theorem mem_mantissaForm_iff : s ∈ mantissaForm ↔ ∃ whole fraction,
    MantissaDigits whole fraction s ∧ ∀ c ∈ whole ++ fraction, c.isDigit = true := by
  constructor
  · rintro ((hs | ⟨_, ⟨whole, hwhole, _, ⟨c, hc, rfl⟩, rfl⟩, fraction, hfraction, rfl⟩) |
      ⟨_, ⟨c, hc, rfl⟩, fraction, hfraction, rfl⟩)
    · obtain ⟨hne, hall⟩ := mem_many_iff.mp hs
      exact ⟨s, [], .whole hne, by simpa using hall⟩
    · obtain rfl := eq_of_beq hc
      obtain ⟨hne, hall⟩ := mem_many_iff.mp hwhole
      have hpoint : MantissaDigits whole fraction (whole ++ '.' :: fraction) := .point (.inl hne)
      refine ⟨whole, fraction, by simpa using hpoint, ?_⟩
      exact List.forall_mem_append.mpr ⟨hall, mem_kstar_charIn_iff.mp hfraction⟩
    · obtain rfl := eq_of_beq hc
      obtain ⟨hne, hall⟩ := mem_many_iff.mp hfraction
      exact ⟨[], fraction, .point (.inr hne), hall⟩
  · rintro ⟨whole, fraction, hparts, hall⟩
    obtain ⟨hwhole, hfraction⟩ := List.forall_mem_append.mp hall
    cases hparts with
    | whole hne => exact .inl (.inl (mem_many_iff.mpr ⟨hne, hwhole⟩))
    | point hne =>
      by_cases hnil : whole = []
      · subst hnil
        exact .inr ⟨['.'], ⟨'.', rfl, rfl⟩, fraction,
          mem_many_iff.mpr ⟨hne.resolve_left (not_not_intro rfl), hfraction⟩, rfl⟩
      · have hfront : whole ++ ['.'] ∈ many Char.isDigit * charIn (· == '.') :=
          ⟨whole, mem_many_iff.mpr ⟨hnil, hwhole⟩, ['.'], ⟨'.', rfl, rfl⟩, rfl⟩
        exact .inl (.inr ⟨whole ++ ['.'], hfront, fraction, mem_kstar_charIn_iff.mpr hfraction,
          by simp⟩)

theorem mem_exponentForm_iff : s ∈ exponentForm ↔ ∃ mark power digits, isExponentMark mark = true ∧
    IsSign power ∧ digits ∈ many Char.isDigit ∧ s = mark :: (power ++ digits) := by
  constructor
  · rintro ⟨_, ⟨_, ⟨mark, hmark, rfl⟩, power, hpower, rfl⟩, digits, hdigits, rfl⟩
    exact ⟨mark, power, digits, hmark, hpower, hdigits, rfl⟩
  · rintro ⟨mark, power, digits, hmark, hpower, hdigits, rfl⟩
    exact ⟨mark :: power, ⟨[mark], ⟨mark, hmark, rfl⟩, power, hpower, rfl⟩, digits, hdigits, rfl⟩

theorem mem_numeralForm_iff : s ∈ numeralForm ↔ ∃ sign mantissa exponent, IsSign sign ∧
    mantissa ∈ mantissaForm ∧ (exponent = [] ∨ exponent ∈ exponentForm) ∧
      s = sign ++ (mantissa ++ exponent) := by
  constructor
  · rintro ⟨_, ⟨sign, hsign, mantissa, hmantissa, rfl⟩, exponent, hexponent, rfl⟩
    exact ⟨sign, mantissa, exponent, hsign, hmantissa, hexponent, by simp⟩
  · rintro ⟨sign, mantissa, exponent, hsign, hmantissa, hexponent, rfl⟩
    exact ⟨sign ++ mantissa, ⟨sign, hsign, mantissa, hmantissa, rfl⟩, exponent, hexponent, by simp⟩

theorem Mantissa.mem_form (h : Mantissa mantissa rest) : mantissa ∈ mantissaForm := by
  cases h with
  | whole hne hdigits => exact mem_mantissaForm_iff.mpr ⟨_, [], .whole hne, by simpa using hdigits⟩
  | point hne hwhole hfraction =>
    exact mem_mantissaForm_iff.mpr
      ⟨_, _, .point hne, List.forall_mem_append.mpr ⟨hwhole, hfraction⟩⟩

theorem mantissa_of_mem (h : mantissa ∈ mantissaForm)
    (hstops : StopsAt (fun c => c.isDigit || c == '.') rest) : Mantissa mantissa rest := by
  obtain ⟨whole, fraction, hparts, hall⟩ := mem_mantissaForm_iff.mp h
  obtain ⟨hwhole, hfraction⟩ := List.forall_mem_append.mp hall
  cases hparts with
  | whole hne => exact .whole hne hwhole hstops
  | point hne =>
    exact .point hne hwhole hfraction fun c hc => (Bool.or_eq_false_iff.mp (hstops c hc)).1

theorem not_mantissa_of_mark (hmark : isExponentMark mark = true) :
    (mark.isDigit || mark == '.') = false := by
  simp only [isExponentMark, Bool.or_eq_true, beq_iff_eq] at hmark
  rcases hmark with rfl | rfl <;> rfl

theorem takesLongest_mantissa : TakesLongest splitMantissa (· ∈ mantissaForm) where
  sound h := (splitMantissa_eq_some_iff.mp h).1.mem_form
  reaches {lexeme} h t := by
    obtain ⟨whole, fraction, hparts, hall⟩ := mem_mantissaForm_iff.mp h
    obtain ⟨hwhole, hfraction⟩ := List.forall_mem_append.mp hall
    obtain ⟨run, tail, rfl, hrun, hstops⟩ := exists_run_stopsAt Char.isDigit t
    cases hparts with
    | whole hne =>
      have hne' : lexeme ++ run ≠ [] := List.append_ne_nil_of_left_ne_nil hne run
      have hwhole' := List.forall_mem_append.mpr ⟨hwhole, hrun⟩
      by_cases hpoint : ∃ u, tail = '.' :: u
      · obtain ⟨_, rfl⟩ := hpoint
        obtain ⟨places, tail, rfl, hplaces, hstops'⟩ := exists_run_stopsAt Char.isDigit ‹_›
        have hlong := Mantissa.point (.inl hne') hwhole' hplaces hstops'
        rw [List.append_assoc] at hlong
        exact ⟨_, tail, splitMantissa_eq_some_iff.mpr ⟨hlong, by simp⟩⟩
      · have hstops' : StopsAt (fun c => c.isDigit || c == '.') tail := by
          intro c hc
          obtain ⟨u, rfl⟩ := List.head?_eq_some_iff.mp hc
          refine Bool.or_eq_false_iff.mpr ⟨hstops c hc, beq_eq_false_iff_ne.mpr ?_⟩
          rintro rfl
          exact hpoint ⟨u, rfl⟩
        exact ⟨run, tail, splitMantissa_eq_some_iff.mpr ⟨.whole hne' hwhole' hstops', by simp⟩⟩
    | point hne =>
      have hne' : whole ≠ [] ∨ fraction ++ run ≠ [] :=
        hne.imp_right (List.append_ne_nil_of_left_ne_nil · run)
      have hlong := Mantissa.point hne' hwhole (List.forall_mem_append.mpr ⟨hfraction, hrun⟩) hstops
      refine ⟨run, tail, splitMantissa_eq_some_iff.mpr ⟨?_, by simp⟩⟩
      simpa using hlong

theorem takesLongest_number : TakesLongest splitNumber (· ∈ numeralForm) where
  sound h := by
    obtain ⟨sign, mantissa, exponent, hsign, hmantissa, hexponent, rfl, -⟩ :=
      splitNumber_eq_some_iff.mp h
    refine mem_numeralForm_iff.mpr ⟨sign, mantissa, exponent, hsign, hmantissa.mem_form, ?_, rfl⟩
    cases hexponent with
    | none => exact .inl rfl
    | power hmark hpower hne hdigits =>
      exact .inr (mem_exponentForm_iff.mpr
        ⟨_, _, _, hmark, hpower, mem_many_iff.mpr ⟨hne, hdigits⟩, rfl⟩)
  reaches h t := by
    obtain ⟨sign, mantissa, exponent, hsign, hmantissa, hexponent, rfl⟩ := mem_numeralForm_iff.mp h
    rcases hexponent with rfl | hexponent
    · obtain ⟨more, tail, hsplit⟩ := takesLongest_mantissa.reaches hmantissa t
      obtain ⟨hlong, happ⟩ := splitMantissa_eq_some_iff.mp hsplit
      obtain ⟨power, rest, hparts⟩ : ∃ power rest, splitExponent tail = (power, rest) := ⟨_, _, rfl⟩
      obtain ⟨hpower, rfl⟩ := splitExponent_eq_iff.mp hparts
      refine ⟨more ++ power, rest, splitNumber_eq_some_iff.mpr
        ⟨sign, mantissa ++ more, power, hsign, hlong, hpower, by simp, ?_⟩⟩
      simpa using happ
    · obtain ⟨mark, power, digits, hmark, hpower, hdigits, rfl⟩ := mem_exponentForm_iff.mp hexponent
      obtain ⟨hne, hall⟩ := mem_many_iff.mp hdigits
      obtain ⟨run, tail, rfl, hrun, hstops⟩ := exists_run_stopsAt Char.isDigit t
      have hlong : Exponent (mark :: (power ++ (digits ++ run))) tail :=
        .power hmark hpower (List.append_ne_nil_of_left_ne_nil hne run)
          (List.forall_mem_append.mpr ⟨hall, hrun⟩) hstops
      have hbefore : Mantissa mantissa (mark :: (power ++ (digits ++ run)) ++ tail) :=
        mantissa_of_mem hmantissa (stopsAt_cons (not_mantissa_of_mark hmark) _)
      exact ⟨run, tail, splitNumber_eq_some_iff.mpr
        ⟨sign, mantissa, _, hsign, hbefore, hlong, by simp, by simp⟩⟩

theorem MantissaDigits.not_mark (h : MantissaDigits whole fraction mantissa)
    (hall : ∀ c ∈ whole ++ fraction, c.isDigit = true) :
    ∀ c ∈ mantissa, (!isExponentMark c) = true := by
  intro c hc
  have hmem : c ∈ whole ++ fraction ∨ c = '.' := by
    cases h with
    | whole => exact .inl (List.mem_append_left [] hc)
    | point =>
      simp only [List.mem_append, List.mem_cons] at hc ⊢
      tauto
  rcases hmem with hdigit | rfl
  · rw [isDigit_not_exponentMark (hall c hdigit)]
    rfl
  · rfl

theorem MantissaDigits.stopsAt_isSign (h : MantissaDigits whole fraction mantissa)
    (hall : ∀ c ∈ whole ++ fraction, c.isDigit = true) (t : List Char) :
    StopsAt isSign (mantissa ++ t) := by
  obtain ⟨hwhole, hfraction⟩ := List.forall_mem_append.mp hall
  cases h with
  | whole hne => exact stopsAt_isSign_of_digits hne hwhole t
  | point hne => exact (Mantissa.point hne hwhole hfraction (stopsAt_nil _)).stopsAt_isSign t

theorem MantissaDigits.parts (h : MantissaDigits whole fraction mantissa)
    (hwhole : ∀ c ∈ whole, c.isDigit = true) :
    mantissa.takeWhile Char.isDigit = whole ∧
      (mantissa.dropWhile Char.isDigit).drop 1 = fraction := by
  cases h with
  | whole =>
    have hstops := stopsAt_nil Char.isDigit
    have htake := hstops.takeWhile_append hwhole
    have hdrop := hstops.dropWhile_append hwhole
    rw [List.append_nil] at htake hdrop
    exact ⟨htake, by rw [hdrop, List.drop_nil]⟩
  | point =>
    have hstops : StopsAt Char.isDigit ('.' :: fraction) := stopsAt_cons rfl fraction
    exact ⟨hstops.takeWhile_append hwhole, by rw [hstops.dropWhile_append hwhole]; rfl⟩

theorem exponentSize_append_singleton (digits : List Char) (c : Char) :
    exponentSize (digits ++ [c]) = if exponentSize digits < 0x10000 then
      10 * exponentSize digits + (c.toNat - '0'.toNat) else exponentSize digits := by
  simp [exponentSize]

theorem digitsValue_append_singleton (digits : List Char) (c : Char) :
    digitsValue (digits ++ [c]) = 10 * digitsValue digits + (c.toNat - '0'.toNat) := by
  simp [digitsValue]

theorem readsSize_exponentSize (hall : ∀ c ∈ digits, c.isDigit = true) :
    ReadsSize digits (exponentSize digits) := by
  induction digits using List.reverseRecOn with
  | nil => exact ⟨[], [], rfl, denotes_ten_iff.mpr ⟨hall, rfl⟩, by decide, .inl rfl⟩
  | append_singleton digits c ih =>
    obtain ⟨hdigits, hlast⟩ := List.forall_mem_append.mp hall
    obtain ⟨front, ignored, happ, hfront, hsmall, hrest⟩ := ih hdigits
    rw [exponentSize_append_singleton]
    split
    next hlt =>
      obtain rfl := hrest.resolve_right (by omega)
      rw [List.append_nil] at happ
      subst happ
      obtain ⟨-, hvalue⟩ := denotes_ten_iff.mp hfront
      obtain ⟨hdigit, -⟩ := isDigitOf_ten_iff.mpr ⟨hlast c (List.mem_singleton.mpr rfl), rfl⟩
      refine ⟨digits ++ [c], [], by simp, denotes_ten_iff.mpr ⟨hall, ?_⟩, by omega, .inl rfl⟩
      rw [digitsValue_append_singleton, hvalue]
    next hge => exact ⟨front, ignored ++ [c], by simp [happ], hfront, hsmall, .inr (by omega)⟩

/-- Small exponents are taken in full. -/
theorem exponentSize_eq {n : Nat} (h : Denotes 10 digits n) (hn : n < 10 * 0x10000) :
    exponentSize digits = n := by
  obtain ⟨hall, rfl⟩ := denotes_ten_iff.mp h
  induction digits using List.reverseRecOn with
  | nil => rfl
  | append_singleton digits c ih =>
    rw [digitsValue_append_singleton] at hn ⊢
    have hdigits := (List.forall_mem_append.mp hall).1
    have hfront := ih hdigits (denotes_ten_iff.mpr ⟨hdigits, rfl⟩) (by omega)
    rw [exponentSize_append_singleton, hfront, if_pos (by omega)]

theorem ReadsSize.exponentSize_eq {size : Nat} (h : ReadsSize digits size) :
    exponentSize digits = size := by
  obtain ⟨front, ignored, rfl, hfront, hsmall, hrest⟩ := h
  induction ignored using List.reverseRecOn with
  | nil =>
    rw [List.append_nil]
    exact SparqlQuery.exponentSize_eq hfront hsmall
  | append_singleton ignored c ih =>
    have hlarge := hrest.resolve_left (by simp)
    rw [← List.append_assoc, exponentSize_append_singleton, ih (.inr hlarge), if_neg (by omega)]

theorem doubleOfParts_eq (hpower : IsSign power) (hdigits : digits ∈ many Char.isDigit) :
    doubleOfParts (sign == ['-']) whole fraction (power ++ digits) =
      Double.ofScientific (sign == ['-']) (digitsValue (whole ++ fraction))
        (signed power (exponentSize digits) - fraction.length) := by
  obtain ⟨hne, hall⟩ := mem_many_iff.mp hdigits
  have hstops := stopsAt_isSign_of_digits hne hall []
  rw [List.append_nil] at hstops
  simp only [doubleOfParts, splitSign_eq hpower hstops]
  rfl

theorem numericValue?_power (hsign : IsSign sign) (hparts : MantissaDigits whole fraction mantissa)
    (hall : ∀ c ∈ whole ++ fraction, c.isDigit = true) (hmark : isExponentMark mark = true)
    (hpower : IsSign power) (hdigits : digits ∈ many Char.isDigit) {x : Double}
    (hx : x = Double.ofScientific (sign == ['-']) (digitsValue (whole ++ fraction))
      (signed power (exponentSize digits) - fraction.length)) :
    numericValue? (sign ++ (mantissa ++ mark :: (power ++ digits))) =
      if x.isInfinite then none else some (.double x) := by
  have hfront := hparts.stopsAt_isSign hall (mark :: (power ++ digits))
  have hstops : StopsAt (!isExponentMark ·) (mark :: (power ++ digits)) :=
    stopsAt_cons (by rw [hmark]; rfl) (power ++ digits)
  have hplain := hparts.not_mark hall
  obtain ⟨hwhole, hfraction⟩ := hparts.parts (List.forall_mem_append.mp hall).1
  have hfinite := (Double.eq_ofScientific_iff.mp hx).2.isFinite_eq
  simp only [numericValue?, head?_beq_minus hsign hfront, splitSign_eq hsign hfront,
    hstops.takeWhile_append hplain, hstops.dropWhile_append hplain, hwhole, hfraction,
    doubleOfParts_eq hpower hdigits, ← hx, hfinite]
  cases x.isInfinite <;> rfl

theorem NumeralMeans.value_eq (h : NumeralMeans s outcome) :
    s ∈ numeralForm ∧ numericValue? s = outcome := by
  cases h with
  | @integer sign digits n hsign hne hn =>
    obtain ⟨hall, rfl⟩ := denotes_ten_iff.mp hn
    have hmantissa : digits ∈ mantissaForm := .inl (.inl (mem_many_iff.mpr ⟨hne, hall⟩))
    exact ⟨mem_numeralForm_iff.mpr ⟨sign, digits, [], hsign, hmantissa, .inl rfl, by simp⟩,
      numericValue?_whole hsign hne hall⟩
  | @decimal sign whole fraction n d hsign hne hn hd hscale =>
    obtain ⟨hall, -⟩ := denotes_ten_iff.mp hn
    obtain ⟨hwhole, hfraction⟩ := List.forall_mem_append.mp hall
    have hmantissa : whole ++ '.' :: fraction ∈ mantissaForm :=
      mem_mantissaForm_iff.mpr ⟨whole, fraction, .point hne, hall⟩
    have hsame := Decimal.eq_of_toRat ((Decimal.scale_ofDigits _ _ _).trans hscale.symm)
      ((Decimal.toRat_ofDigits hn).trans hd.symm)
    refine ⟨mem_numeralForm_iff.mpr ⟨sign, _, [], hsign, hmantissa, .inl rfl, by simp⟩, ?_⟩
    rw [numericValue?_point hsign hne hwhole hfraction, hsame]
  | @double sign whole fraction mantissa power digits mark n size x hsign hparts hn hmark hpower
      hdigits hsize hnegative hx =>
    rw [← hsize.exponentSize_eq] at hx
    have hdouble := Double.eq_ofScientific_iff.mpr ⟨hnegative, hx⟩
    obtain ⟨hall, rfl⟩ := denotes_ten_iff.mp hn
    have hmark' : isExponentMark mark = true := by simpa [isExponentMark] using hmark
    have hmantissa := mem_mantissaForm_iff.mpr ⟨whole, fraction, hparts, hall⟩
    have hexponent := mem_exponentForm_iff.mpr ⟨mark, power, digits, hmark', hpower, hdigits, rfl⟩
    exact ⟨mem_numeralForm_iff.mpr ⟨sign, mantissa, _, hsign, hmantissa, .inr hexponent, rfl⟩,
      numericValue?_power hsign hparts hall hmark' hpower hdigits hdouble⟩

theorem numeralMeans_of_mem (h : s ∈ numeralForm) : NumeralMeans s (numericValue? s) := by
  obtain ⟨sign, mantissa, exponent, hsign, hmantissa, hexponent, rfl⟩ := mem_numeralForm_iff.mp h
  obtain ⟨whole, fraction, hparts, hall⟩ := mem_mantissaForm_iff.mp hmantissa
  have hn : Denotes 10 (whole ++ fraction) (digitsValue (whole ++ fraction)) :=
    denotes_ten_iff.mpr ⟨hall, rfl⟩
  rcases hexponent with rfl | hexponent
  · rw [List.append_nil]
    cases hparts with
    | whole hne =>
      rw [List.append_nil] at hn hall
      rw [numericValue?_whole hsign hne hall]
      exact .integer hsign hne hn
    | point hne =>
      obtain ⟨hwhole, hfraction⟩ := List.forall_mem_append.mp hall
      rw [numericValue?_point hsign hne hwhole hfraction]
      exact .decimal hsign hne hn (Decimal.toRat_ofDigits hn) (Decimal.scale_ofDigits _ _ _)
  · obtain ⟨mark, power, digits, hmark, hpower, hdigits, rfl⟩ := mem_exponentForm_iff.mp hexponent
    rw [numericValue?_power hsign hparts hall hmark hpower hdigits rfl]
    obtain ⟨hnegative, hnearest⟩ := Double.eq_ofScientific_iff.mp rfl
    exact .double hsign hparts hn (by simpa [isExponentMark] using hmark) hpower hdigits
      (readsSize_exponentSize (mem_many_iff.mp hdigits).2) hnegative hnearest

/-- A numeral means one thing, and that is its value. -/
theorem numeralMeans_iff (h : s ∈ numeralForm) :
    NumeralMeans s outcome ↔ outcome = numericValue? s := by
  constructor
  · exact fun hmeans => hmeans.value_eq.2.symm
  · rintro rfl
    exact numeralMeans_of_mem h

end

/-- A number is scanned as the grammar has it: the longest numeral in front of the text is taken,
wherever there is any, and its value is what the numeral means. Where it means nothing there is no
token at all. -/
theorem scan_numericLiteral (s : List Char) :
    (Kind.numericLiteral.split s = none ↔ ∀ lexeme ∈ numeralForm, ¬ lexeme <+: s) ∧
    ∀ lexeme rest, IsLongest (· ∈ numeralForm) s lexeme rest → ∃ outcome,
      (∀ other, NumeralMeans lexeme other ↔ other = outcome) ∧ ∀ fresh,
        Kind.numericLiteral.scan fresh s = outcome.map (·, lexeme, rest) ∧
        scanLexeme fresh s = outcome.map (.numericLiteral, ·, lexeme, rest) := by
  have hsplit : Kind.numericLiteral.split s = splitNumber s := rfl
  constructor
  · have hsome := takesLongest_number.isSome_iff (s := s) splits_number
    rw [hsplit, ← Option.not_isSome_iff_eq_none, hsome]
    simp only [not_exists, not_and]
  · intro lexeme rest hlongest
    have htaken := (takesLongest_number.split_eq_some_iff splits_number).mpr hlongest
    have hscan : ∀ fresh, Kind.numericLiteral.scan fresh s =
        (numericValue? lexeme).map (·, lexeme, rest) := by
      intro fresh
      rw [Kind.scan, hsplit, htaken]
      rfl
    have hfirst : firstKind? s = some .numericLiteral :=
      firstKind?_eq_some_iff.mpr ⟨by simp [hsplit, htaken], by simp [Kind.rivals]⟩
    refine ⟨numericValue? lexeme, fun _ => numeralMeans_iff hlongest.form_lexeme, fun fresh =>
      ⟨hscan fresh, ?_⟩⟩
    simp only [scanLexeme, hfirst, hscan, Option.map_map]
    rfl

/-- A letter that begins no exponent is left alone, and so the point goes to a decimal. -/
theorem pointBeforeLetter_scanned :
    NumeralMeans "+1.".toList (some (.decimal ⟨10, 1⟩)) ∧ ∀ fresh,
      scanLexeme fresh "+1.e".toList =
        some (.numericLiteral, .decimal ⟨10, 1⟩, "+1.".toList, ['e']) := by
  have hsplit : splitNumber "+1.e".toList = some ("+1.".toList, ['e']) := by decide
  have hlongest := takesLongest_number.isLongest splits_number hsplit
  have hvalue : NumeralMeans "+1.".toList (some (.decimal ⟨10, 1⟩)) :=
    (numeralMeans_iff hlongest.form_lexeme).mpr (by decide)
  obtain ⟨outcome, hmeans, hscan⟩ := (scan_numericLiteral "+1.e".toList).2 _ _ hlongest
  obtain rfl := (hmeans _).mp hvalue
  exact ⟨hvalue, fun fresh => (hscan fresh).2⟩

end SparqlQuery
