import GrammarLens.Text
import GrammarLens.Text.Blank
import GrammarLens.Text.Cursor
import GrammarLens.Text.Digit
import GrammarLens.Text.Position
import GrammarLens.Text.Printable
import GrammarLens.Text.Quoted
import GrammarLens.Text.Utf8
import GrammarLens.Number.Binary64
import GrammarLens.Number.Literal
import GrammarLens.Value
import GrammarLens.Token
import GrammarLens.Comment
import GrammarLens.Table
import GrammarLens.Attributes
import GrammarLens.DocBlock
import GrammarLens.Definition
import GrammarLens.Tag
import GrammarLens.Symbols
import GrammarLens.Settings
import GrammarLens.Highlight
import GrammarLens.Index.Attributes
import GrammarLens.Index.Definitions
import GrammarLens.Index.Tags
import GrammarLens.Index.Documentation
import GrammarLens.Completion.Item
import GrammarLens.Completion.Context
import GrammarLens.Completion
import GrammarLens.Path
import GrammarLens.Uri.Authority
import GrammarLens.Uri
import GrammarLens.FileTree
import GrammarLens.Fault
import GrammarLens.Notice
import GrammarLens.Workspace
import GrammarLens.Workspace.Scan
import GrammarLens.Workspace.Query
import GrammarLens.Workspace.Run
import GrammarLens.Server
import GrammarLens.CommandLine
import GrammarLens.Main
import GrammarLens.Proofs.History
import GrammarLens.Proofs.AttributeUnion
import GrammarLens.Proofs.DefinitionHistory
import GrammarLens.Proofs.PathResolution
import GrammarLens.Proofs.ScanTour
import GrammarLens.Proofs.Exploration
import GrammarLens.Proofs.ScanReport
import GrammarLens.Proofs.ScanRefinement
import GrammarLens.Proofs.Addressing
import GrammarLens.Proofs.AttributeCompletion
import GrammarLens.Proofs.BracketNesting
import GrammarLens.Proofs.BracketFrames
import GrammarLens.Proofs.CommaContinuation
import GrammarLens.Proofs.WordLookup
import GrammarLens.Proofs.WordSearch
import GrammarLens.Proofs.HighlightScan
import GrammarLens.Proofs.Highlighting
import GrammarLens.Proofs.SpanEncoding
import GrammarLens.Proofs.Tokenization
import GrammarLens.Proofs.UpdateOrder
import GrammarLens.Proofs.ServerHistory
import GrammarLens.Proofs.Reindexing
import GrammarLens.Proofs.DottedReferences
import GrammarLens.Proofs.LiteralCompletion
import GrammarLens.Proofs.Questions
import GrammarLens.Proofs.RootResolution
import GrammarLens.Proofs.SettingsUse
import GrammarLens.Proofs.DocBlocks
import GrammarLens.Proofs.DocBlockSpans
import GrammarLens.Proofs.Occurrences
import GrammarLens.Proofs.DefinitionPlaces
import GrammarLens.Proofs.InnermostBracket
import GrammarLens.Proofs.TriggerScan
import GrammarLens.Proofs.DocBlockPeriods
import GrammarLens.Proofs.PositionOrder
import GrammarLens.Proofs.CommentCutting
import GrammarLens.Proofs.DefinitionHighlights
import GrammarLens.Proofs.TokenScans
import GrammarLens.Proofs.ObjectCompletion
import GrammarLens.Proofs.OutsidePositions
import GrammarLens.Proofs.SortKeys
import GrammarLens.Proofs.WatchedFiles
import GrammarLens.Proofs.PercentEncoding
import GrammarLens.Proofs.FileUris
import GrammarLens.Proofs.ScannedUris
