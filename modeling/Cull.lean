import Cull.Command.Arguments
import Cull.Command.Basic
import Cull.Failure
import Cull.Files.Content
import Cull.Files.Directory
import Cull.Files.Ignore
import Cull.Files.Path
import Cull.Files.Resolution
import Cull.Glob.Basic
import Cull.Glob.Parser
import Cull.Log
import Cull.Main
import Cull.Markup.CharRef
import Cull.Markup.Construction.Body
import Cull.Markup.Construction.Doctype
import Cull.Markup.Construction.Foreign
import Cull.Markup.Construction.Formatting
import Cull.Markup.Construction.Head
import Cull.Markup.Construction.Names
import Cull.Markup.Construction.Rules
import Cull.Markup.Construction.State
import Cull.Markup.Construction.Table
import Cull.Markup.Document
import Cull.Markup.Element
import Cull.Markup.Index
import Cull.Markup.Lexer.Declaration
import Cull.Markup.Lexer.RawText
import Cull.Markup.Lexer.Step
import Cull.Markup.Lexer.Tag
import Cull.Markup.NamedChar
import Cull.Markup.Page
import Cull.Markup.Token
import Cull.Markup.Tree
import Cull.Number.Double
import Cull.Proofs.BlankLines
import Cull.Proofs.Bytes
import Cull.Proofs.Constructs
import Cull.Proofs.CutText
import Cull.Proofs.Deletion
import Cull.Proofs.HeaderEnds
import Cull.Proofs.HeaderTokens
import Cull.Proofs.KeptText
import Cull.Proofs.Layout
import Cull.Proofs.Lexemes
import Cull.Proofs.Offsets
import Cull.Proofs.OffsetsAgree
import Cull.Proofs.Outline
import Cull.Proofs.Outside
import Cull.Proofs.PlanExact
import Cull.Proofs.ProtectedText
import Cull.Proofs.PruneAgain
import Cull.Proofs.PrunedSheet
import Cull.Proofs.SelectorTokens
import Cull.Proofs.Sheet
import Cull.Proofs.Slices
import Cull.Proofs.SqueezedReading
import Cull.Proofs.SteadyParts
import Cull.Proofs.Survivors
import Cull.Proofs.Tree
import Cull.Pruning.Cut
import Cull.Pruning.Plan
import Cull.Pruning.Verdict
import Cull.Report.Basic
import Cull.Run.Basic
import Cull.Run.Stylesheet
import Cull.Run.Workers
import Cull.Selector.Compound
import Cull.Selector.Token
import Cull.Settings.Basic
import Cull.Settings.Literal
import Cull.Settings.Parser
import Cull.Span
import Cull.Stylesheet.Basic
import Cull.Stylesheet.Lexical
import Cull.Stylesheet.Parser
import Cull.Text.Basic
import Cull.Text.Blank
import Cull.Text.Name
import Cull.Text.Order
import Cull.Text.Pattern
import Cull.Text.Utf8
import Cull.Usage.Basic
import Cull.Usage.Collection
import Cull.Usage.Extraction
import Cull.Usage.Reference
import Cull.Proofs.MoreReferences
import Cull.Proofs.PageReferences
import Cull.Proofs.Writing
import Cull.Proofs.Concatenation
import Cull.Proofs.Backup
import Cull.Proofs.BraceAutomaton
import Cull.Proofs.Footprint
import Cull.Proofs.Independence
import Cull.Proofs.Workers
import Cull.Proofs.RunFootprint
import Cull.Proofs.SelectorLists
import Cull.Proofs.ByteFilter
import Cull.Proofs.BlankRuns
import Cull.Proofs.RemovalCount
import Cull.Proofs.Shrinking
import Cull.Proofs.ExactTokens
import Cull.Proofs.CollectionOrder
import Cull.Proofs.Matching
import Cull.Proofs.QueriedSelectors
import Cull.Proofs.DottedWords
import Cull.Proofs.Edits
import Cull.Proofs.WalkRoot
import Cull.Proofs.Templates
import Cull.Proofs.MergedSpans
import Cull.Proofs.CompoundOffsets
import Cull.Proofs.CompoundPartition
import Cull.Proofs.ReadingRounds
import Cull.Proofs.ResolvedInputs
