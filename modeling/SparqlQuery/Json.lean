import SparqlQuery.NumericLexeme
import SparqlQuery.SymbolLexeme
import SparqlQuery.UnicodeEscape

namespace SparqlQuery

inductive Json where
  | null
  | boolean (b : Bool)
  | number (literal : List Char)
  /-- nothing when an escape in the text names half of a surrogate pair -/
  | text (s : Option String)
  | array (items : List Json)
  | object (fields : List (Option String × Json))

inductive JsonToken where
  | beginArray
  | endArray
  | beginObject
  | endObject
  | comma
  | colon
  | text (s : Option String)
  /-- a value that is neither a text nor a container -/
  | plain (value : Json)

/-- The character that a backslash and this letter stand for in JSON. -/
def jsonEscape? : Char → Option Char
  | '"' => some '"'
  | '\\' => some '\\'
  | '/' => some '/'
  | 'b' => some '\x08'
  | 'f' => some '\x0c'
  | 'n' => some '\n'
  | 'r' => some '\r'
  | 't' => some '\t'
  | _ => none

def isHighSurrogate (code : Nat) : Bool :=
  decide (0xD800 ≤ code) && decide (code < 0xDC00)

def isLowSurrogate (code : Nat) : Bool :=
  decide (0xDC00 ≤ code) && decide (code < 0xE000)

def jsonCode? : List Char → Option Nat
  | '\\' :: 'u' :: s => (hexDigits? 4 s).map hexValue
  | _ => none

/-- A piece of a text in JSON: a character, an escape, or two escapes for a surrogate pair. -/
def jsonTextUnit : List Char → Nat
  | [] => 0
  | c :: s =>
    match jsonCode? (c :: s) with
    | some code =>
      match jsonCode? (s.drop 5) with
      | some next => if isHighSurrogate code && isLowSurrogate next then 12 else 6
      | none => 6
    | none =>
      match c, s with
      | '\\', letter :: _ => if (jsonEscape? letter).isSome then 2 else 0
      | _, _ => if c == '"' || c == '\\' || decide (c.toNat < 0x20) then 0 else 1

def jsonTextChar? (unit : List Char) : Option Char :=
  match jsonCode? unit, jsonCode? (unit.drop 6) with
  | some high, some low => charOfCode? (0x10000 + (high - 0xD800) * 0x400 + (low - 0xDC00))
  | some code, none => charOfCode? code
  | none, _ =>
    match unit with
    | ['\\', letter] => jsonEscape? letter
    | _ => unit.head?

def jsonTextOf (unit : List Char) : Option String :=
  ((splitUnits jsonTextUnit (unit.drop 1).dropLast).1.mapM jsonTextChar?).map String.ofList

/-- An integer without superfluous zeros, with a fraction and an exponent if well formed. -/
def splitJsonNumber (s : List Char) : Option (List Char × List Char) :=
  let (sign, t) : List Char × List Char :=
    match s with
    | '-' :: t => (['-'], t)
    | _ => ([], s)
  let whole := match t with
    | '0' :: _ => ['0']
    | _ => t.takeWhile Char.isDigit
  let t := t.drop whole.length
  let fraction : List Char := match t with
    | '.' :: u => if (u.takeWhile Char.isDigit).isEmpty then [] else '.' :: u.takeWhile Char.isDigit
    | _ => []
  let (exponent, rest) := splitExponent (t.drop fraction.length)
  if whole.isEmpty then none else some (sign ++ whole ++ fraction ++ exponent, rest)

def jsonWords : List (List Char) :=
  ["true".toList, "false".toList, "null".toList]

/-- The size of the token or blank in front of a text. -/
def jsonTokenSize : List Char → Nat
  | [] => 0
  | c :: s =>
    if isBlank c || ['\x7b', '\x7d', '[', ']', ',', ':'].contains c then 1
    else if c == '"' then
      match splitRun jsonTextUnit s with
      | (content, '"' :: _) => content.length + 2
      | _ => 0
    else
      match splitJsonNumber (c :: s) <|> splitSymbol jsonWords (c :: s) with
      | some (lexeme, _) => lexeme.length
      | none => 0

/-- The token that a piece of text stands for; blanks stand for none. -/
def jsonToken? (unit : List Char) : Option JsonToken :=
  match unit with
  | ['\x7b'] => some .beginObject
  | ['\x7d'] => some .endObject
  | ['['] => some .beginArray
  | [']'] => some .endArray
  | [','] => some .comma
  | [':'] => some .colon
  | '"' :: _ => some (.text (jsonTextOf unit))
  | 't' :: _ => some (.plain (.boolean true))
  | 'f' :: _ => some (.plain (.boolean false))
  | 'n' :: _ => some (.plain .null)
  | c :: _ => if isBlank c then none else some (.plain (.number unit))
  | [] => none

/-- A container that is still open: its items or fields so far in reverse order, and for an
object the key whose value comes next. -/
inductive OpenJson where
  | array (before : List Json)
  | object (before : List (Option String × Json)) (key : Option String)

namespace Json

mutual

/-- Reads a value inside the open containers, innermost first, and goes on. -/
def readValue (context : List OpenJson) : List JsonToken → Option Json
  | .plain value :: tokens => readAfter context value tokens
  | .text s :: tokens => readAfter context (.text s) tokens
  | .beginArray :: .endArray :: tokens => readAfter context (.array []) tokens
  | .beginArray :: tokens => readValue (.array [] :: context) tokens
  | .beginObject :: .endObject :: tokens => readAfter context (.object []) tokens
  | .beginObject :: .text key :: .colon :: tokens => readValue (.object [] key :: context) tokens
  | _ => none

def readAfter (context : List OpenJson) (value : Json) : List JsonToken → Option Json
  | [] => if context.isEmpty then some value else none
  | .comma :: .text key :: .colon :: tokens =>
    match context with
    | .object before last :: outer =>
      readValue (.object ((last, value) :: before) key :: outer) tokens
    | _ => none
  | .comma :: tokens =>
    match context with
    | .array before :: outer => readValue (.array (value :: before) :: outer) tokens
    | _ => none
  | .endArray :: tokens =>
    match context with
    | .array before :: outer => readAfter outer (.array (value :: before).reverse) tokens
    | _ => none
  | .endObject :: tokens =>
    match context with
    | .object before last :: outer =>
      readAfter outer (.object ((last, value) :: before).reverse) tokens
    | _ => none
  | _ => none

end

def ofText? (text : String) : Option Json :=
  match splitUnits jsonTokenSize text.toList with
  | (units, []) => readValue [] (units.filterMap jsonToken?)
  | _ => none

/-- A whole number without a sign, below two to the power of sixty-four. -/
def natural? : Json → Option Nat
  | .number literal =>
    if literal.all Char.isDigit && decide (digitsValue literal < Nat.pow 2 64) then
      some (digitsValue literal)
    else none
  | _ => none

def boolean? : Json → Option Bool
  | .boolean b => some b
  | _ => none

end Json

end SparqlQuery
