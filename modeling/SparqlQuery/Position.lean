import SparqlQuery.CharacterClass
import SparqlQuery.Span

namespace SparqlQuery

/-- A place in a text; lines and columns count from one, columns in characters. -/
structure Position where
  line : UInt32
  column : UInt32
deriving DecidableEq

/-- Counts one character on: the line starts so far, and the bytes. -/
def countLine : Array Nat × Nat → Char → Array Nat × Nat
  | (starts, bytes), c =>
    (if c = '\n' then starts.push (bytes + 1) else starts, bytes + c.utf8Size)

/-- Where the lines of a text begin, in bytes: at its start and behind each line break. -/
def lineStarts (source : List Char) : Array Nat :=
  (source.foldl countLine (#[0], 0)).1

/-- Looks for the number of entries in front of an increasing table that are at most `bound`, by
halving between `low` and `high`. -/
def countUpTo (table : Array Nat) (bound low high : Nat) : Nat :=
  if _h : low < high then
    match table[(low + high) / 2]? with
    | none => low
    | some entry =>
      if entry ≤ bound then countUpTo table bound ((low + high) / 2 + 1) high
      else countUpTo table bound low ((low + high) / 2)
  else low
termination_by high - low
decreasing_by all_goals omega

/-- The place of an offset. An offset inside a character has column one, an offset past the end is
the end. -/
def locate (source : List Char) (offset : Nat) : Position :=
  let starts := lineStarts source
  let offset := min offset (byteCount source)
  let line := countUpTo starts offset 0 starts.size - 1
  let before := Span.slice ⟨starts[line]?.getD 0, offset⟩ source
  ⟨(line + 1).toUInt32, (before.length + 1).toUInt32⟩

def lineCount (source : List Char) : Nat :=
  (lineStarts source).size

/-- A line by its number, without the line breaks at its end. Line zero is line one, and a line that
does not exist is empty. -/
def lineText (source : List Char) (line : UInt32) : List Char :=
  let starts := lineStarts source
  match starts[line.toNat - 1]? with
  | none => []
  | some start =>
    let stop := starts[line.toNat - 1 + 1]?.getD (byteCount source)
    ((Span.slice ⟨start, stop⟩ source).reverse.dropWhile isLineBreak).reverse

end SparqlQuery
