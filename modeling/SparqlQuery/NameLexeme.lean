import SparqlQuery.CharacterClass
import SparqlQuery.Units

namespace SparqlQuery

/-- Takes a lexeme off the front of a text: the lexeme and what follows it. -/
abbrev Splitter := List Char → Option (List Char × List Char)

def splitVariable : Splitter
  | sigil :: c :: s =>
    if (sigil == '?' || sigil == '$') && isVariableStart c then
      some (sigil :: c :: s.takeWhile isVariableChar, s.dropWhile isVariableChar)
    else none
  | _ => none

def splitIri : Splitter
  | '<' :: s =>
    match s.dropWhile isIriChar with
    | '>' :: rest => some ('<' :: s.takeWhile isIriChar ++ ['>'], rest)
    | _ => none
  | _ => none

/-- The label in front of a colon, which may be missing altogether. -/
def splitLabel : List Char → List Char × List Char
  | [] => ([], [])
  | c :: s =>
    if isNameBase c then
      let (run, rest) := splitRun (dottedUnit isNameChar) s
      (c :: run, rest)
    else ([], c :: s)

def splitNamespace (s : List Char) : Option (List Char × List Char) :=
  match splitLabel s with
  | (label, ':' :: rest) => some (label ++ [':'], rest)
  | _ => none

/-- A piece of a local name: a percent sign with two digits, an escaped character, a plain
character, or a dot with more of the name to come. -/
def localUnit : List Char → Nat
  | '%' :: high :: low :: _ => if isHexDigit high && isHexDigit low then 3 else 0
  | '\\' :: c :: _ => if localEscapable.contains c then 2 else 0
  | '.' :: s =>
    match s.dropWhile (· == '.') with
    | [] => 0
    | c :: _ => if isLocalChar c || c == '%' || c == '\\' then 1 else 0
  | c :: _ => if isLocalChar c then 1 else 0
  | [] => 0

/-- A local name, which a malformed escape in it spoils. -/
def splitLocal : Splitter
  | [] => none
  | c :: s =>
    if isLocalStart c || c == '%' || c == '\\' then
      match splitRun localUnit (c :: s) with
      | (_, '%' :: _) => none
      | (_, '\\' :: _) => none
      | (run, rest) => some (run, rest)
    else none

def splitPrefixedName (s : List Char) : Option (List Char × List Char) :=
  match splitNamespace s with
  | none => none
  | some (name, rest) =>
    match splitLocal rest with
    | none => none
    | some (run, rest) => some (name ++ run, rest)

/-- An underscore and a colon, and a name that may also begin with a digit. -/
def splitBlankLabel : Splitter
  | '_' :: ':' :: c :: s =>
    if isNameStart c || c.isDigit then
      let (run, rest) := splitRun (dottedUnit isNameChar) s
      some ('_' :: ':' :: c :: run, rest)
    else none
  | _ => none

def subtagUnit : List Char → Nat
  | '-' :: c :: s => if c.isAlphanum then (s.takeWhile Char.isAlphanum).length + 2 else 0
  | _ => 0

def splitLangTag : Splitter
  | '@' :: c :: s =>
    if c.isAlpha then
      let (run, rest) := splitRun subtagUnit (s.dropWhile Char.isAlpha)
      some ('@' :: c :: s.takeWhile Char.isAlpha ++ run, rest)
    else none
  | _ => none

/-- The parts of a prefixed name on either side of its colon, backslashes dropped. -/
def nameParts (lexeme : List Char) : List Char × List Char :=
  (lexeme.takeWhile (· != ':'), ((lexeme.dropWhile (· != ':')).drop 1).filter (· != '\\'))

end SparqlQuery
