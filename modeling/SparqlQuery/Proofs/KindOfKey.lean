import SparqlQuery.Proofs.DerivationTree
import SparqlQuery.Proofs.TokenShape

namespace SparqlQuery

namespace Kind

/-- The keys that tokens of a kind can have. -/
def keys : Kind → List String
  | keyword => keywordTexts
  | delimiter => delimiters.map String.ofList
  | operator => operators.map String.ofList
  | kind => [kind.name]

theorem mem_map_ofList {text : String} {symbols : List (List Char)} (h : text.toList ∈ symbols) :
    text ∈ symbols.map String.ofList :=
  List.mem_map.mpr ⟨text.toList, h, String.ofList_toList⟩

/-- The kinds without a tag have their text for a key, which is one of a list; the key of any other
is its tag. -/
theorem key_mem_keys {kind : Kind} {value : Value} (h : kind.Admits value) (span : Span) :
    Token.key ⟨kind, value, span⟩ ∈ kind.keys := by
  cases kind with
  | keyword =>
    cases value with
    | text word => exact mem_keywordTexts_iff.mpr h
    | _ => exact h.elim
  | delimiter =>
    cases value with
    | text symbol => exact mem_map_ofList h
    | _ => exact h.elim
  | operator =>
    cases value with
    | text symbol => exact mem_map_ofList h
    | _ => exact h.elim
  | _ => exact List.mem_singleton_self _

def apart (kind other : Kind) : Bool :=
  kind == other || kind.keys.all fun key => !other.keys.contains key

theorem priority_apart : (priority.all fun kind =>
    !kind.keys.contains endOfInput && priority.all kind.apart) = true := by
  decide +kernel

/-- No key belongs to two kinds. -/
theorem eq_of_mem_keys {kind other : Kind} {key : String} (hkey : key ∈ kind.keys)
    (hother : key ∈ other.keys) : kind = other := by
  have hall := List.all_eq_true.mp priority_apart kind kind.mem_priority
  have hapart := List.all_eq_true.mp (Bool.and_eq_true_iff.mp hall).2 other other.mem_priority
  rcases Bool.or_eq_true_iff.mp hapart with heq | hnone
  · exact eq_of_beq heq
  · have hnot := List.all_eq_true.mp hnone key hkey
    simp [hother] at hnot

theorem endOfInput_not_mem_keys (kind : Kind) : endOfInput ∉ kind.keys := by
  have hall := List.all_eq_true.mp priority_apart kind kind.mem_priority
  simpa using (Bool.and_eq_true_iff.mp hall).1

end Kind

namespace Token

/-- A token that a lexer yields on some text. -/
def Lexed (token : Token) : Prop :=
  ∃ (text : String) (n : Nat), (Lexer.ofText text).item n = some (.ok token)

variable {token token' : Token}

theorem Lexed.key_mem_keys (h : token.Lexed) : token.key ∈ token.kind.keys := by
  obtain ⟨text, n, hitem⟩ := h
  obtain ⟨fresh, lexeme, rest, hscan⟩ := Lexer.scanned_item hitem
  exact Kind.key_mem_keys (Kind.admits_of_scan hscan) token.span

theorem Lexed.key_ne_endOfInput (h : token.Lexed) : token.key ≠ endOfInput := by
  intro heq
  have hmem := h.key_mem_keys
  rw [heq] at hmem
  exact token.kind.endOfInput_not_mem_keys hmem

end Token

/-- A key tells what kind of token has it: no two kinds share one, and none is that of the end of
input, which a parse therefore sees only when it has read all tokens. -/
theorem lexed_key {token token' : Token} (h : token.Lexed) (h' : token'.Lexed) :
    token.key ≠ endOfInput ∧ (token.key = token'.key → token.kind = token'.kind) ∧
      (∀ kind : Kind, token.key ∈ kind.keys → token.kind = kind) ∧
      ∀ tokens : List Token, (∀ token ∈ tokens, token.Lexed) →
        (lookahead tokens = endOfInput ↔ tokens = []) := by
  refine ⟨h.key_ne_endOfInput, ?_, ?_, ?_⟩
  · intro heq
    have hkey := h.key_mem_keys
    rw [heq] at hkey
    exact Kind.eq_of_mem_keys hkey h'.key_mem_keys
  · intro kind hkind
    exact Kind.eq_of_mem_keys h.key_mem_keys hkind
  · intro tokens hlexed
    cases tokens with
    | nil => simp [lookahead]
    | cons first tokens =>
      have hfirst := (hlexed first List.mem_cons_self).key_ne_endOfInput
      simp [lookahead, hfirst]

/-- A keyword keeps its key in capitals. -/
theorem select_key :
    let small : Token := ⟨.keyword, .text "select", ⟨0, 6⟩⟩
    let capital : Token := ⟨.keyword, .text "select", ⟨1, 7⟩⟩
    small.Lexed ∧ capital.Lexed ∧ small.key ≠ endOfInput ∧
      (small.key = capital.key → small.kind = capital.kind) ∧
      (∀ kind : Kind, small.key ∈ kind.keys → small.kind = kind) ∧
      ∀ tokens : List Token, (∀ token ∈ tokens, token.Lexed) →
        (lookahead tokens = endOfInput ↔ tokens = []) := by
  intro small capital
  have hsmall : small.Lexed := ⟨"select", 0, by decide +kernel⟩
  have hcapital : capital.Lexed := ⟨" SELECT", 0, by decide +kernel⟩
  exact ⟨hsmall, hcapital, lexed_key hsmall hcapital⟩

end SparqlQuery
