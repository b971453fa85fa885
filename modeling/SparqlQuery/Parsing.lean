import SparqlQuery.GrammarJson
import SparqlQuery.Lexer
import SparqlQuery.Options
import SparqlQuery.Parser
import SparqlQuery.QueryGrammar

namespace SparqlQuery

inductive QueryError where
  | lexical (e : LexError)
  | syntactic (e : ParseError)
  /-- the table never lets the parse end -/
  | endless
deriving DecidableEq

def Outcome.result : Outcome → Except QueryError Unit
  | accepted => .ok ()
  | rejected e => .error (.syntactic e)
  | endless => .error .endless

/-- What a parse leaves behind: its result, the sink with the events up to then, and the log. -/
structure Report (σ : Type) where
  result : Except QueryError Unit
  sink : σ
  log : List LogRecord

/-- A token is logged only when tracing. -/
def Token.record (token : Token) : LogRecord :=
  { level := .trace
    message := "lexed token"
    fields :=
      [("kind", token.kind.name), ("token", token.render), ("start", token.span.start.repr),
        ("end", token.span.stop.repr)] }

def LexError.record (e : LexError) : LogRecord :=
  { level := .debug
    message := "lexing failed"
    fields :=
      [("line", e.line.toNat.repr), ("column", e.column.toNat.repr), ("remainder", e.preview)] }

def lexRecords (options : Options) (tokens : List Token) (failure : Option LexError) :
    List LogRecord :=
  (if options.trace then tokens.map Token.record else []) ++ failure.toList.map LexError.record

def positionText : Option Nat → String
  | none => "None"
  | some position => "Some(" ++ position.repr ++ ")"

def Outcome.records (start : String) (count : Nat) : Outcome → List LogRecord
  | accepted =>
    [{ level := .debug
       message := "parse succeeded"
       fields := [("start", start), ("tokens", count.repr)] }]
  | rejected e =>
    [{ level := .debug
       message := "parse failed"
       fields :=
         [("start", start), ("production", e.production), ("position", positionText e.position),
           ("error", e.message)] }]
  | endless => []

def Table.record (t : Table) : LogRecord :=
  { level := .debug
    message := "loaded grammar table"
    fields := [("productions", t.size.repr)] }

section

variable {σ : Type} [Sink σ]

def parseTokens (options : Options) (t : Table) (start : String) (tokens : List Token)
    (sink : σ) : Report σ :=
  if options.trace then
    let (outcome, traced) := t.drive start tokens (⟨sink, 0, #[]⟩ : Traced σ)
    ⟨outcome.result, traced.inner,
      traced.log.toList ++ outcome.records start tokens.length⟩
  else
    let (outcome, sink) := t.drive start tokens sink
    ⟨outcome.result, sink, outcome.records start tokens.length⟩

def parseInto (options : Options) (t : Table) (start : String) (text : String) (sink : σ) :
    Report σ :=
  let (tokens, failure) := (Lexer.ofText text).run
  let log := lexRecords options tokens failure
  match failure with
  | some e => ⟨.error (.lexical e), sink, log⟩
  | none =>
    let report := parseTokens options t start tokens sink
    { report with log := log ++ report.log }

end

def parseWith (options : Options) (t : Table) (start : String) (text : String) :
    Except QueryError (List Event) :=
  let report := parseInto options t start text ({} : Collector)
  report.result.map fun _ => report.sink.events.toList

/-- The events of a text that is derived from a production of the query grammar. -/
def parse (options : Options) (start : String) (text : String) :
    Except QueryError (List Event) :=
  parseWith options queryTable start text

def isValid (text : String) : Bool :=
  (parseInto {} queryTable startProduction text Discard.mk).result matches .ok _

end SparqlQuery
