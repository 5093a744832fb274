import ContextFree.Alphabet
import ContextFree.Binary.Basic
import ContextFree.Binary.Helper
import ContextFree.Command.Options
import ContextFree.Command.Run
import ContextFree.Corpus
import ContextFree.File.Directory
import ContextFree.File.Error
import ContextFree.File.Path
import ContextFree.Grammar.Basic
import ContextFree.Grammar.Derivation
import ContextFree.Grammar.StartRule
import ContextFree.Grammar.UnitFree
import ContextFree.Grammar.Useful
import ContextFree.Main
import ContextFree.Name.Basic
import ContextFree.Name.Supply
import ContextFree.NormalForm.Basic
import ContextFree.NormalForm.Conversion
import ContextFree.Notice
import ContextFree.Proofs.Derivation
import ContextFree.Proofs.NameSupply
import ContextFree.Proofs.Reach
import ContextFree.Proofs.RuleTable
import ContextFree.Proofs.StartRule
import ContextFree.Queue
import ContextFree.Random.Keystream
import ContextFree.Random.Source
import ContextFree.Reach
import ContextFree.Recognizer
import ContextFree.RuleTable
import ContextFree.Source.Fault
import ContextFree.Source.File
import ContextFree.Source.Grammar
import ContextFree.Source.Rule
import ContextFree.Symbol
import ContextFree.Text.Blank
import ContextFree.Text.Control
import ContextFree.Text.Line
import ContextFree.Words.Adjacency
import ContextFree.Words.Distinct
import ContextFree.Words.Search
import ContextFree.Words.Strategy
import ContextFree.Words.Walk
import ContextFree.Proofs.Discovery
import ContextFree.Proofs.UnitFree
import ContextFree.Proofs.Generating
import ContextFree.Proofs.Useful
import ContextFree.Proofs.SententialForm
import ContextFree.Proofs.Binary
import ContextFree.Proofs.ChainReading
import ContextFree.Proofs.Helper
import ContextFree.Proofs.Recognizer
import ContextFree.Proofs.Conversion
import ContextFree.Proofs.ConversionLanguage
import ContextFree.Proofs.ConversionUseful
import ContextFree.Proofs.Lexeme
import ContextFree.Proofs.RightHandSide
import ContextFree.Proofs.LineReading
import ContextFree.Proofs.RuleLine
import ContextFree.Proofs.Grouping
import ContextFree.Proofs.RoundTrip
import ContextFree.Proofs.Uses
import ContextFree.Proofs.Reports
import ContextFree.Proofs.Padding
import ContextFree.Proofs.Layout
import ContextFree.Proofs.ConversionNames
import ContextFree.Proofs.ConversionText
import ContextFree.Proofs.Form
import ContextFree.Proofs.Search
import ContextFree.Proofs.Family
import ContextFree.Proofs.Adjacency
import ContextFree.Proofs.Candidates
import ContextFree.Proofs.Corpus
import ContextFree.Proofs.ConversionChecks
import ContextFree.Proofs.HelperChoice
import ContextFree.Proofs.PositiveSearch
import ContextFree.Proofs.ExhaustiveSearch
import ContextFree.Proofs.Safety
import ContextFree.Proofs.Idempotence
import ContextFree.Proofs.FewerWords
import ContextFree.Proofs.MixedSearch
import ContextFree.Proofs.SteeredWalk
import ContextFree.Proofs.Reinterpretation
import ContextFree.Proofs.NameRun
import ContextFree.Proofs.Saturation
import ContextFree.Proofs.RuleOrder
