import SparqlQuery.Json
import SparqlQuery.Span

namespace SparqlQuery

/-- What a parse logs; its outcome never depends on it. -/
structure Options where
  trace : Bool := false
deriving DecidableEq

/-- The value of a field that an object may give at most once: `some none` when it is missing,
nothing when it is repeated or malformed. -/
def Json.field? {α : Type} (read? : Json → Option α) (name : String)
    (fields : List (Option String × Json)) : Option (Option α) :=
  match fields.filter (·.1 == some name) with
  | [] => some none
  | [(_, value)] => (read? value).map some
  | _ => none

/-- Fields by name, or in order without names. Unknown names are passed over. -/
def Options.ofJson? : Json → Option Options
  | .object fields =>
    if fields.all (·.1.isSome) then
      (Json.field? Json.boolean? "trace" fields).map fun trace => ⟨trace.getD false⟩
    else none
  | .array [] => some {}
  | .array [trace] => trace.boolean?.map fun trace => ⟨trace⟩
  | _ => none

def Options.ofText? (text : String) : Option Options :=
  (Json.ofText? text).bind ofJson?

def Options.toJson (options : Options) : Json :=
  .object [(some "trace", .boolean options.trace)]

/-- Both ends are needed. -/
def Span.ofJson? : Json → Option Span
  | .object fields =>
    if fields.all (·.1.isSome) then do
      let start ← (Json.field? Json.natural? "start" fields).join
      let stop ← (Json.field? Json.natural? "end" fields).join
      pure ⟨start, stop⟩
    else none
  | .array [start, stop] => do
    pure ⟨← start.natural?, ← stop.natural?⟩
  | _ => none

def Span.ofText? (text : String) : Option Span :=
  (Json.ofText? text).bind ofJson?

def Span.toJson (span : Span) : Json :=
  .object
    [(some "start", .number (natChars span.start)), (some "end", .number (natChars span.stop))]

end SparqlQuery
