import SparqlQuery.Json
import SparqlQuery.Rendering

namespace SparqlQuery

/-- Control characters without a letter of their own are written with their code. -/
def jsonCharOf (c : Char) : List Char :=
  match escapeLetter? c with
  | some letter => ['\\', letter]
  | none =>
    if c.toNat < 0x20 then
      ['\\', 'u', '0', '0', (c.toNat / 16).digitChar, (c.toNat % 16).digitChar]
    else [c]

/-- A text with half of a surrogate pair in it cannot be written, nor a container as one token. -/
def JsonToken.chars : JsonToken → List Char
  | .beginArray => ['[']
  | .endArray => [']']
  | .beginObject => ['\x7b']
  | .endObject => ['\x7d']
  | .comma => [',']
  | .colon => [':']
  | .text (some s) => '"' :: (s.toList.flatMap jsonCharOf ++ ['"'])
  | .plain .null => "null".toList
  | .plain (.boolean b) => (if b then "true" else "false").toList
  | .plain (.number literal) => literal
  | .text none => []
  | .plain _ => []

namespace Json

mutual

/-- The tokens that a value is written with. -/
def tokens : Json → List JsonToken
  | .text s => [.text s]
  | .array [] => [.beginArray, .endArray]
  | .array (item :: items) => .beginArray :: (item.tokens ++ laterItems items)
  | .object [] => [.beginObject, .endObject]
  | .object ((key, item) :: fields) =>
    .beginObject :: .text key :: .colon :: (item.tokens ++ laterFields fields)
  | value => [.plain value]

def laterItems : List Json → List JsonToken
  | [] => [.endArray]
  | item :: items => .comma :: (item.tokens ++ laterItems items)

def laterFields : List (Option String × Json) → List JsonToken
  | [] => [.endObject]
  | (key, item) :: fields => .comma :: .text key :: .colon :: (item.tokens ++ laterFields fields)

end

/-- The value without any white space. -/
def toText (json : Json) : String :=
  String.ofList (json.tokens.flatMap JsonToken.chars)

end Json

end SparqlQuery
