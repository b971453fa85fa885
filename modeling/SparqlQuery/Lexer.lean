import SparqlQuery.LexError
import SparqlQuery.LexemeSplit
import SparqlQuery.UnicodeEscape

namespace SparqlQuery

/-- White space is a piece of a gap, and so is a comment up to the end of its line. -/
def gapUnit : List Char → Nat
  | [] => 0
  | c :: s =>
    if isBlank c then 1
    else if c = '#' then (s.takeWhile (!isLineBreak ·)).length + 1
    else 0

def splitGap (s : List Char) : List Char × List Char :=
  splitRun gapUnit s

/-- Reads tokens one by one; the first error is the last thing it yields. -/
structure Lexer where
  /-- the decoded text -/
  source : List Char
  /-- what is still to be read, from byte `offset` of the text -/
  rest : List Char
  offset : Nat := 0
  /-- the number of the next anonymous node -/
  fresh : UInt32 := 0
  finished : Bool := false

namespace Lexer

def ofChars (source : List Char) : Lexer :=
  { source, rest := source }

def ofText (text : String) : Lexer :=
  ofChars (decodeEscapes text.toList)

/-- The next token or error, if any, and the lexer after it. -/
def next (lexer : Lexer) : Option (Except LexError Token) × Lexer :=
  if lexer.finished then (none, lexer)
  else
    match splitGap lexer.rest with
    | (_, []) => (none, { lexer with finished := true })
    | (gap, c :: s) =>
      let start := lexer.offset + byteCount gap
      match scanLexeme lexer.fresh (c :: s) with
      | none =>
        (some (.error (.atPosition lexer.source start (c :: s))),
          { lexer with finished := true })
      | some (kind, value, lexeme, rest) =>
        let stop := start + byteCount lexeme
        let fresh := if value.isAnonymousBlank then lexer.fresh + 1 else lexer.fresh
        (some (.ok ⟨kind, value, ⟨start, stop⟩⟩),
          { lexer with rest, offset := stop, fresh })

theorem next_rest_lt {lexer after : Lexer} {token : Token}
    (h : lexer.next = (some (.ok token), after)) : after.rest.length < lexer.rest.length := by
  unfold next at h
  split at h
  next => simp at h
  next =>
    split at h
    next => simp at h
    next gap c s hgap =>
      split at h
      next => simp at h
      next kind value lexeme rest hscan =>
        simp only [Prod.mk.injEq] at h
        obtain ⟨_, rfl⟩ := h
        have hsplit : (gap ++ (c :: s)) = lexer.rest := by
          have := splitRun_append gapUnit lexer.rest
          rwa [show splitRun gapUnit lexer.rest = (gap, c :: s) from hgap] at this
        obtain ⟨happ, hne⟩ := scanLexeme_append hscan
        have := List.length_pos_iff.mpr hne
        simp only [← hsplit, ← happ, List.length_append]
        omega

/-- All that a lexer yields: the tokens, those before in reverse order, and the error if one
follows them. -/
def runAfter (before : List Token) (lexer : Lexer) : List Token × Option LexError :=
  match _h : lexer.next with
  | (none, _) => (before.reverse, none)
  | (some (.error e), _) => (before.reverse, some e)
  | (some (.ok token), after) => runAfter (token :: before) after
termination_by lexer.rest.length
decreasing_by exact next_rest_lt _h

def run (lexer : Lexer) : List Token × Option LexError :=
  runAfter [] lexer

end Lexer

def tokenize (text : String) : Except LexError (List Token) :=
  match (Lexer.ofText text).run with
  | (tokens, none) => .ok tokens
  | (_, some e) => .error e

end SparqlQuery
