import SparqlQuery.Parsing
import SparqlQuery.Proofs.QueryCompleteness
import SparqlQuery.Proofs.ViablePrefix
import SparqlQuery.Proofs.LexerPartition
import SparqlQuery.Proofs.FailureState
import SparqlQuery.Proofs.LeftRecursion
import SparqlQuery.Proofs.RunCut
import SparqlQuery.Proofs.LexemeShape
import SparqlQuery.Proofs.NumberShape
import SparqlQuery.Proofs.LexemeCut
import SparqlQuery.Proofs.StringCut
import SparqlQuery.Proofs.FirstKind
import SparqlQuery.Proofs.KeywordTable
import SparqlQuery.Proofs.LexerReads
import SparqlQuery.Proofs.SpoiledName
import SparqlQuery.Proofs.EscapeFree
import SparqlQuery.Proofs.ScanInsert
import SparqlQuery.Proofs.LayoutIndependence
import SparqlQuery.Proofs.LongestMatch
import SparqlQuery.Proofs.NumberText
import SparqlQuery.Proofs.StringText
import SparqlQuery.Proofs.RenderScan
import SparqlQuery.Proofs.RenderRoundTrip
import SparqlQuery.Proofs.EscapeDecoding
import SparqlQuery.Proofs.StringRoundTrip
import SparqlQuery.Proofs.NameRoundTrip
import SparqlQuery.Proofs.CommentScan
import SparqlQuery.Proofs.CommentIndependence
import SparqlQuery.Proofs.LookaheadKeys
import SparqlQuery.Proofs.BracketNesting
import SparqlQuery.Proofs.TokenShape
import SparqlQuery.Proofs.KindOfKey
import SparqlQuery.Proofs.BlankNodeIdentity
import SparqlQuery.Proofs.TraceLog
import SparqlQuery.Proofs.StringGrammar
import SparqlQuery.Proofs.PrefixedNameGrammar
import SparqlQuery.Proofs.NameGrammar
import SparqlQuery.Proofs.PositionalNotation
import SparqlQuery.Proofs.DecimalValue
import SparqlQuery.Proofs.NumeralRoundTrip
import SparqlQuery.Proofs.NearestRung
import SparqlQuery.Proofs.NearestDouble
import SparqlQuery.Proofs.NumberGrammar
import SparqlQuery.Proofs.EscapeSpelling
import SparqlQuery.Proofs.UndefinedProductions
import SparqlQuery.Proofs.TokenSlice
import SparqlQuery.Proofs.ScanFailure
import SparqlQuery.Proofs.SlashInLexeme
import SparqlQuery.Proofs.UndecodableEscape
import SparqlQuery.Proofs.LineStarts
import SparqlQuery.Proofs.LineColumn
import SparqlQuery.Proofs.CaretLine
import SparqlQuery.Proofs.DictionaryEntries
import SparqlQuery.Proofs.RuleOrder
import SparqlQuery.Proofs.TableReading
import SparqlQuery.Proofs.KeywordCase
