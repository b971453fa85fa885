namespace SparqlQuery

/-- The number of bytes of a text in UTF-8. -/
def byteCount (s : List Char) : Nat :=
  s.foldl (fun n c => n + c.utf8Size) 0

/-- What follows the first `n` bytes of a text, unless they end inside a character or the text
is too short. -/
def dropBytes? (n : Nat) : List Char → Option (List Char)
  | [] => if n = 0 then some [] else none
  | c :: s =>
    if n = 0 then some (c :: s)
    else if c.utf8Size ≤ n then dropBytes? (n - c.utf8Size) s
    else none

def takeBytes? (n : Nat) (s : List Char) : Option (List Char) :=
  (dropBytes? n s).map fun rest => s.take (s.length - rest.length)

/-- A stretch of a text in bytes: from `start` up to but not including `stop`. -/
structure Span where
  start : Nat := 0
  stop : Nat := 0
deriving DecidableEq

namespace Span

def length (span : Span) : Nat :=
  span.stop - span.start

def isEmpty (span : Span) : Bool :=
  decide (span.stop ≤ span.start)

/-- The text that a span covers; nothing when it is out of range, reversed, or cuts a
character. -/
def slice (span : Span) (source : List Char) : List Char :=
  if span.start ≤ span.stop then
    ((dropBytes? span.start source).bind (takeBytes? span.length)).getD []
  else []

end Span

end SparqlQuery
