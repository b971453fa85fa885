import SparqlQuery.Proofs.EscapeDecoding
import SparqlQuery.Proofs.LexerReads
import SparqlQuery.Proofs.RenderScan
import SparqlQuery.Proofs.SpoiledName

namespace SparqlQuery

/-- What a local name may be made of without backslashes: plain characters, dots, and percent
signs with their two digits. -/
inductive PlainLocalRun : List Char → Prop
  | nil : PlainLocalRun []
  | char {c : Char} {s : List Char} (hc : isLocalChar c = true ∨ c = '.')
      (hs : PlainLocalRun s) : PlainLocalRun (c :: s)
  | percent {high low : Char} {s : List Char} (hhigh : isHexDigit high = true)
      (hlow : isHexDigit low = true) (hs : PlainLocalRun s) : PlainLocalRun ('%' :: high :: low :: s)

/-- A local name that needs no backslash. It may not begin with a dot, a dash or a combining mark,
and not end with a dot. -/
structure IsPlainLocal (s : List Char) : Prop where
  front : ∃ c ∈ s.head?, isLocalStart c = true ∨ c = '%'
  run : PlainLocalRun s
  back : s.getLast? ≠ some '.'

section

variable {s t run unit rest : List Char} {c : Char}

theorem localUnit_percent (h : localUnit ('%' :: (unit ++ s)) = unit.length + 1) :
    ∃ high low, unit = [high, low] ∧ isHexDigit high = true ∧ isHexDigit low = true := by
  cases htail : unit ++ s with
  | nil =>
    rw [htail] at h
    cases h
  | cons high tail =>
    cases tail with
    | nil =>
      rw [htail] at h
      cases h
    | cons low tail =>
      rw [htail] at h
      simp only [localUnit] at h
      split at h
      next hhex =>
        rw [Bool.and_eq_true] at hhex
        have hlength : unit.length = 2 := by omega
        have hpair : unit ++ s = [high, low] ++ tail := htail
        exact ⟨high, low, List.append_inj_left hpair hlength, hhex.1, hhex.2⟩
      next => cases h

theorem localUnit_slash (h : localUnit ('\\' :: (unit ++ s)) = unit.length + 1) :
    ∃ d, unit = [d] ∧ d ∈ localEscapable := by
  cases htail : unit ++ s with
  | nil =>
    rw [htail] at h
    cases h
  | cons d tail =>
    rw [htail] at h
    simp only [localUnit] at h
    split at h
    next hescapable =>
      have hlength : unit.length = 1 := by omega
      have hfront : unit ++ s = [d] ++ tail := htail
      exact ⟨d, List.append_inj_left hfront hlength, List.contains_iff_mem.mp hescapable⟩
    next => cases h

/-- A unit that begins with no mark of an escape is one character, a plain one or a dot. -/
theorem unit_unmarked (hc : isEscapeMark c = false)
    (h : localUnit (c :: (unit ++ s)) = unit.length + 1) :
    unit = [] ∧ (isLocalChar c = true ∨ c = '.') := by
  by_cases hdot : c = '.'
  · subst hdot
    have hle := localUnit_dot_le_one (unit ++ s)
    exact ⟨List.eq_nil_of_length_eq_zero (by omega), .inr rfl⟩
  · rw [localUnit_unmarked hc hdot] at h
    split at h
    next hlocal => exact ⟨List.eq_nil_of_length_eq_zero (by omega), .inl hlocal⟩
    next => cases h

theorem getLast?_ne_of_cons {d : Char} (h : (c :: s).getLast? ≠ some d) :
    s.getLast? ≠ some d := by
  cases s with
  | nil => simp
  | cons e s => simpa using h

/-- A dot belongs to a name that goes on behind it and does not end with a dot. -/
theorem PlainLocalRun.localUnit_dot (h : PlainLocalRun s) (hne : s ≠ [])
    (hlast : s.getLast? ≠ some '.') : localUnit ('.' :: s) = 1 := by
  induction h with
  | nil => exact absurd rfl hne
  | @char c s hc _ ih =>
    by_cases hdot : c = '.'
    · subst hdot
      have hmore : s ≠ [] := by
        intro hnil
        rw [hnil] at hlast
        exact hlast rfl
      rw [localUnit_dot_dot]
      exact ih hmore (getLast?_ne_of_cons hlast)
    · have hlocal : isLocalChar c = true := hc.resolve_right hdot
      rw [localUnit_dot_of_ne hdot, hlocal]
      rfl
  | percent => rfl

theorem PlainLocalRun.unitRun (h : PlainLocalRun s) (hlast : s.getLast? ≠ some '.') :
    UnitRun localUnit s [] := by
  induction h with
  | nil => exact .stop rfl
  | @char c s hc hs ih =>
    have hmore := getLast?_ne_of_cons hlast
    have hone : localUnit (c :: s) = 1 := by
      rcases hc with hlocal | rfl
      · exact localUnit_of_localChar hlocal s
      · have hne : s ≠ [] := by
          intro hnil
          rw [hnil] at hlast
          exact hlast rfl
        exact hs.localUnit_dot hne hmore
    refine @UnitRun.unit localUnit c [] s [] ?_ (ih hmore)
    simpa using hone
  | @percent high low s hhigh hlow _ ih =>
    have hmore := getLast?_ne_of_cons (getLast?_ne_of_cons (getLast?_ne_of_cons hlast))
    refine @UnitRun.unit localUnit '%' [high, low] s [] ?_ (ih hmore)
    simp [localUnit, hhigh, hlow]

/-- A run up to the end of a text without backslashes is plain, and no dot ends it. -/
theorem UnitRun.plainLocalRun (h : UnitRun localUnit run []) (hslash : '\\' ∉ run) :
    PlainLocalRun run ∧ run.getLast? ≠ some '.' := by
  generalize hrest : ([] : List Char) = rest at h
  induction h with
  | stop => exact ⟨.nil, by simp⟩
  | @unit c unit run rest hsize hrun ih =>
    subst hrest
    have hmore : '\\' ∉ run := fun hmem => hslash (by simp [hmem])
    obtain ⟨hplain, hlast⟩ := ih hmore rfl
    by_cases hpercent : c = '%'
    · subst hpercent
      obtain ⟨high, low, rfl, hhigh, hlow⟩ := localUnit_percent hsize
      refine ⟨.percent hhigh hlow hplain, ?_⟩
      cases run with
      | cons d run => simpa using hlast
      | nil =>
        have hne : low ≠ '.' := ne_of_class hlow (by decide)
        simpa using hne
    · have hmark : isEscapeMark c = false := by
        have hne : c ≠ '\\' := by
          intro heq
          apply hslash
          simp [heq]
        simp [isEscapeMark, hpercent, hne]
      obtain ⟨hunit, hc⟩ := unit_unmarked hmark hsize
      subst hunit
      refine ⟨.char hc hplain, ?_⟩
      cases run with
      | cons d run => simpa using hlast
      | nil =>
        intro hdot
        obtain rfl : c = '.' := by simpa using hdot
        cases hsize

/-- A text without backslashes is one local name if and only if it is a plain one. -/
theorem splitLocal_self_iff (hslash : '\\' ∉ s) :
    splitLocal s = some (s, []) ↔ IsPlainLocal s := by
  have hlead (c : Char) (hc : c ∈ s.head?) :
      isLocalLead c = true ↔ isLocalStart c = true ∨ c = '%' := by
    have hne : c ≠ '\\' := by
      intro heq
      apply hslash
      rw [← heq]
      exact List.mem_of_mem_head? hc
    simp [isLocalLead, isEscapeMark, hne]
  rw [splitLocal_eq_some_iff]
  constructor
  · intro h
    obtain ⟨hrun, -, ⟨c, hc, hcLead⟩, -⟩ := h
    obtain ⟨hplain, hlast⟩ := hrun.plainLocalRun hslash
    exact ⟨⟨c, hc, (hlead c hc).mp hcLead⟩, hplain, hlast⟩
  · intro h
    obtain ⟨c, hc, hstart⟩ := h.front
    exact ⟨h.run.unitRun h.back, stopsAt_nil _, ⟨c, hc, (hlead c hc).mpr hstart⟩, by simp⟩

/-- What a backslash stands in front of is no backslash, so something is left of a local name when
its backslashes are dropped. -/
theorem filter_slash_ne_nil (h : splitLocal s = some (run, rest)) :
    run.filter (· != '\\') ≠ [] := by
  obtain ⟨hrun, -, ⟨c, hc, -⟩, -⟩ := splitLocal_eq_some_iff.mp h
  cases hrun with
  | stop => cases hc
  | @unit d unit run _ hsize _ =>
    by_cases hslash : d = '\\'
    · subst hslash
      obtain ⟨e, rfl, hescapable⟩ := localUnit_slash hsize
      have hne : e ≠ '\\' := by
        intro heq
        rw [heq] at hescapable
        exact absurd hescapable (by decide)
      simp [hne]
    · simp [hslash]

end

section

variable {label localPart : List Char}

theorem ofParts_inj {label' localPart' : List Char}
    (h : Value.ofParts (String.ofList label) (String.ofList localPart) =
      Value.ofParts (String.ofList label') (String.ofList localPart')) :
    label = label' ∧ localPart = localPart' := by
  simp only [Value.ofParts, Value.prefixedName.injEq] at h
  have hlabel := congrArg (·.getD "") h.1
  have hlocal := congrArg (·.getD "") h.2
  simp only [nonEmpty_getD] at hlabel hlocal
  exact ⟨String.ofList_injective hlabel, String.ofList_injective hlocal⟩

theorem value?_name (fresh : UInt32) (hlabel : IsLabel label) (run : List Char) :
    Kind.prefixedNameWithLocal.value? fresh (label ++ ':' :: run) =
      some (.ofParts (String.ofList label) (String.ofList (run.filter (· != '\\')))) := by
  simp only [Kind.value?, nameParts_of_label hlabel]

/-- A name that was read with a local part has one. -/
theorem value?_name_of_split (fresh : UInt32) (hlabel : IsLabel label) {s run rest : List Char}
    (hlocal : splitLocal s = some (run, rest)) :
    Kind.prefixedNameWithLocal.value? fresh (label ++ ':' :: run) =
      some (.prefixedName (Value.nonEmpty (String.ofList label))
        (some (String.ofList (run.filter (· != '\\'))))) := by
  have hne := filter_slash_ne_nil hlocal
  rw [value?_name fresh hlabel]
  simp [Value.ofParts, Value.nonEmpty, hne]

theorem gapUnit_of_label (hlabel : IsLabel label) (s : List Char) :
    gapUnit (label ++ ':' :: s) = 0 := by
  cases label with
  | nil => rfl
  | cons c name => exact gapUnit_of_leading (hlabel.leading rfl).1 _

/-- A label, a colon and a text without backslashes are one prefixed name if and only if that
text is a local name. -/
theorem tokenize_name_iff (hlabel : IsLabel label) (hslash : '\\' ∉ localPart) :
    (∃ span, tokenize (String.ofList (label ++ ':' :: localPart)) =
      .ok [⟨.prefixedNameWithLocal,
        .ofParts (String.ofList label) (String.ofList localPart), span⟩]) ↔
      IsPlainLocal localPart := by
  have hslash' : '\\' ∉ label ++ ':' :: localPart := by
    have hnot : '\\' ∉ label := by
      intro hmem
      exact absurd (hlabel.markFree _ hmem) (by decide)
    simp [hnot, hslash]
  have htext : decodeEscapes (String.ofList (label ++ ':' :: localPart)).toList =
      label ++ ':' :: localPart := by
    have hself := decodeEscapes_append hslash' []
    rw [decodeEscapes_nil, List.append_nil] at hself
    rw [String.toList_ofList, hself]
  rw [← splitLocal_self_iff hslash]
  constructor
  · intro h
    obtain ⟨span, htokens⟩ := h
    rw [tokenize_eq_ok_iff, htext] at htokens
    obtain ⟨lexeme, rest, happ, hscan⟩ := htokens.scan_front (gapUnit_of_label hlabel localPart)
    obtain ⟨hsplit, hvalue, -⟩ := scanLexeme_eq_some_iff.mp hscan
    obtain ⟨label', run, hlabel', hlocal, hlexeme, -⟩ := splitPrefixedName_eq_some_iff.mp hsplit
    have hrun : '\\' ∉ run := by
      intro hmem
      apply hslash'
      rw [happ, hlexeme]
      simp [hmem]
    have hparts : label' = label ∧ run = localPart := by
      rw [hlexeme, value?_name 0 hlabel', filter_slash_eq_self hrun] at hvalue
      exact ofParts_inj (Option.some.inj hvalue)
    obtain ⟨rfl, rfl⟩ := hparts
    have hrest : rest = [] := by
      rw [hlexeme] at happ
      exact List.self_eq_append_right.mp happ
    rw [hrest, List.append_nil] at hlocal
    exact hlocal
  · intro h
    have hsplit : splitPrefixedName (label ++ ':' :: localPart ++ []) =
        some (label ++ ':' :: localPart, []) :=
      splitPrefixedName_eq_some_iff.mpr
        ⟨label, localPart, hlabel, by rw [List.append_nil]; exact h, rfl, rfl⟩
    have hvalue := value?_name 0 hlabel localPart
    rw [filter_slash_eq_self hslash] at hvalue
    have hscan := @scanLexeme_of_split _ _ _ _ .prefixedNameWithLocal rfl hsplit hvalue
    rw [List.append_nil] at hscan
    exact ⟨_, tokenize_of_scan htext hscan⟩

end

/-- A prefixed name that was read with a local part is read back from what it is written as, and
as one token, if and only if the local part needs no backslash. Backslashes are dropped when a
name is read and not put back when it is written. -/
theorem tokenize_prefixedName_iff {text : String} {tokens : List Token}
    (htokens : tokenize text = .ok tokens) {token : Token} (htoken : token ∈ tokens)
    (hkind : token.kind = .prefixedNameWithLocal) :
    ∃ label localPart, token.value = .prefixedName label (some localPart) ∧
      ((∃ span, tokenize token.render = .ok [⟨.prefixedNameWithLocal, token.value, span⟩]) ↔
        IsPlainLocal localPart.toList) := by
  obtain ⟨fresh, lexeme, rest, hscan⟩ := (tokenize_eq_ok_iff.mp htokens).scanned token htoken
  obtain ⟨kind, value, span⟩ := token
  obtain rfl : kind = .prefixedNameWithLocal := hkind
  obtain ⟨hsplit, hvalue, -⟩ := scanLexeme_eq_some_iff.mp hscan
  obtain ⟨label, run, hlabel, hlocal, hlexeme, -⟩ := splitPrefixedName_eq_some_iff.mp hsplit
  have hparts : value =
      .ofParts (String.ofList label) (String.ofList (run.filter (· != '\\'))) := by
    rw [hlexeme, value?_name fresh hlabel] at hvalue
    exact (Option.some.inj hvalue).symm
  have hne := filter_slash_ne_nil hlocal
  have hslash : '\\' ∉ run.filter (· != '\\') := by simp
  generalize run.filter (· != '\\') = localPart at hparts hne hslash
  have hrender : Token.render ⟨.prefixedNameWithLocal, value, span⟩ =
      String.ofList (label ++ ':' :: localPart) := by
    rw [hparts, ← chars_ofParts]
    rfl
  refine ⟨Value.nonEmpty (String.ofList label), String.ofList localPart, ?_, ?_⟩
  · rw [hparts]
    simp [Value.ofParts, Value.nonEmpty, hne]
  · rw [hrender, hparts, String.toList_ofList]
    exact tokenize_name_iff hlabel hslash

/-- A dash that was escaped without need. -/
theorem escapedDash_readBack : ∃ label localPart,
    Value.prefixedName (some "ex") (some "a-b") = .prefixedName label (some localPart) ∧
      ((∃ span, tokenize (Token.render ⟨.prefixedNameWithLocal,
          .prefixedName (some "ex") (some "a-b"), ⟨0, 7⟩⟩) =
        .ok [⟨.prefixedNameWithLocal, .prefixedName (some "ex") (some "a-b"), span⟩]) ↔
          IsPlainLocal localPart.toList) := by
  have htokens : tokenize "ex:a\\-b" = .ok [⟨.prefixedNameWithLocal,
      .prefixedName (some "ex") (some "a-b"), ⟨0, 7⟩⟩] := by decide +kernel
  exact tokenize_prefixedName_iff htokens (List.mem_singleton_self _) rfl

/-- An escaped comma is written as a comma and then parts the name. -/
theorem escapedComma_refused : ∃ token, tokenize "ex:a\\,b" = .ok [token] ∧
    token.kind = .prefixedNameWithLocal ∧ (tokenize token.render).toOption = none :=
  ⟨⟨.prefixedNameWithLocal, .prefixedName (some "ex") (some "a,b"), ⟨0, 7⟩⟩, by decide +kernel,
    rfl, by decide +kernel⟩

end SparqlQuery
