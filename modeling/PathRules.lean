import PathRules.Binary64
import PathRules.CommandLine.Options
import PathRules.CommandLine.Session
import PathRules.Cursor
import PathRules.Decimal.Shortest
import PathRules.Directory
import PathRules.Entries
import PathRules.Failure
import PathRules.Filter
import PathRules.Format
import PathRules.Gzip
import PathRules.Gzip.Bits
import PathRules.Gzip.Checksum
import PathRules.Gzip.Code
import PathRules.Gzip.Inflate
import PathRules.Json.Number
import PathRules.Json.Printer
import PathRules.Json.Reader
import PathRules.Key
import PathRules.Loading
import PathRules.Main
import PathRules.Match
import PathRules.Matcher
import PathRules.Node
import PathRules.Numeral
import PathRules.Path
import PathRules.Path.Compile
import PathRules.Path.Error
import PathRules.Path.Flags
import PathRules.Path.Token
import PathRules.Pattern
import PathRules.Pattern.Regex
import PathRules.Plan
import PathRules.Proofs.CursorOrder
import PathRules.Proofs.SparseEntries
import PathRules.Rendering
import PathRules.Saving
import PathRules.Settings
import PathRules.Sparse
import PathRules.Spelling
import PathRules.Template
import PathRules.Text.Blank
import PathRules.Text.CaseFold
import PathRules.Toml.Item
import PathRules.Toml.Moment
import PathRules.Toml.Number
import PathRules.Toml.Quoted
import PathRules.Toml.Reader
import PathRules.Toml.Text
import PathRules.Tree
import PathRules.Value
import PathRules.Yaml.Anchors
import PathRules.Yaml.Document
import PathRules.Yaml.Folding
import PathRules.Yaml.Layout
import PathRules.Yaml.Node
import PathRules.Yaml.Printer
import PathRules.Yaml.Reader
import PathRules.Yaml.ScalarStyle
import PathRules.Yaml.Source
import PathRules.Yaml.Token
import PathRules.Yaml.Tree
import PathRules.Proofs.TreePlaces
import PathRules.Proofs.MatchPlaces
import PathRules.Proofs.TreeWriting
import PathRules.Proofs.SelectRestriction
import PathRules.Proofs.TreeRemoval
import PathRules.Proofs.DeletePositions
import PathRules.Proofs.ValuePlaces
import PathRules.Proofs.MapPlacement
import PathRules.Proofs.DeleteRepetition
import PathRules.Proofs.MoveAsMap
import PathRules.Proofs.FoundPlaces
import PathRules.Proofs.MatchOrder
import PathRules.Proofs.SelectShape
import PathRules.Proofs.SelectOrder
import PathRules.Proofs.SelectAgain
import PathRules.Proofs.EscapedText
import PathRules.Proofs.PrintedPaths
import PathRules.Proofs.WriteBack
import PathRules.Proofs.Leaves
import PathRules.Proofs.PassState
import PathRules.Proofs.LeafOrigin
import PathRules.Proofs.MoveArrival
import PathRules.Proofs.LeafConservation
import PathRules.Proofs.SpelledNames
import PathRules.Proofs.EntryOrder
import PathRules.Proofs.Shuffles
import PathRules.Proofs.TrailOrder
import PathRules.Proofs.ReorderedParts
import PathRules.Proofs.ReorderedBodies
import PathRules.Proofs.PatternParentheses
import PathRules.Proofs.PathGrammar
import PathRules.Proofs.PathAcceptance
import PathRules.Proofs.RegexRuns
import PathRules.Proofs.CaptureCounts
import PathRules.Proofs.PatternLanguage
import PathRules.Proofs.TemplateDiagnostics
import PathRules.Proofs.WorkingTreeReading
import PathRules.Proofs.RejectedRules
import PathRules.Proofs.PrintedJson
import PathRules.Proofs.MatchStrides
import PathRules.Proofs.DistinctMatches
import PathRules.Proofs.GreedyCaptures
import PathRules.Proofs.AnchoredMatches
import PathRules.Proofs.RangePositions
import PathRules.Proofs.WidenedPatterns
import PathRules.Proofs.FlaggedPaths
import PathRules.Proofs.SlicePositions
import PathRules.Proofs.RemovalFrame
import PathRules.Proofs.MappingEscapes
import PathRules.Proofs.TemplateMarks
import PathRules.Proofs.TemplateSegments
import PathRules.Proofs.LineDocuments
import PathRules.Proofs.MappingKeys
import PathRules.Proofs.StoredContent
import PathRules.Proofs.TextBytes
import PathRules.Proofs.DirectoryFiles
import PathRules.Proofs.AtomicSaving
import PathRules.Proofs.QuotedStrings
import PathRules.Proofs.DocumentValues
import PathRules.Proofs.SavedSettings
import PathRules.Proofs.RoomForKeys
import PathRules.Proofs.SparseRuns
