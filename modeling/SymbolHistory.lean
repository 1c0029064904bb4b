import SymbolHistory.AtomicFile
import SymbolHistory.Binary64
import SymbolHistory.Binary64.Shortest
import SymbolHistory.Bundle
import SymbolHistory.Bundle.Archive
import SymbolHistory.Bundle.Frame
import SymbolHistory.CSource.Declarator
import SymbolHistory.CSource.Outline
import SymbolHistory.CSource.Scan
import SymbolHistory.CSource.Token
import SymbolHistory.CSource.Tree
import SymbolHistory.CommandLine
import SymbolHistory.CommandLine.Command
import SymbolHistory.CommandLine.Flag
import SymbolHistory.Comparison
import SymbolHistory.Digest.Blocks
import SymbolHistory.Digest.Sha1
import SymbolHistory.Digest.Sha256
import SymbolHistory.Duration
import SymbolHistory.Extractor
import SymbolHistory.Fault
import SymbolHistory.FileFilter
import SymbolHistory.Generator
import SymbolHistory.Generator.Choice
import SymbolHistory.Git.Command
import SymbolHistory.Git.Object
import SymbolHistory.Git.Repository
import SymbolHistory.Git.Stream
import SymbolHistory.Glob
import SymbolHistory.Glob.Term
import SymbolHistory.History.Record
import SymbolHistory.History.SymbolId
import SymbolHistory.History.Table
import SymbolHistory.History.Window
import SymbolHistory.Host
import SymbolHistory.Host.FileTree
import SymbolHistory.Host.Process
import SymbolHistory.Host.Tally
import SymbolHistory.Journal
import SymbolHistory.Main
import SymbolHistory.Metrics
import SymbolHistory.NameList
import SymbolHistory.NaturalOrder
import SymbolHistory.ObjectId
import SymbolHistory.ObjectStore
import SymbolHistory.Organizer
import SymbolHistory.Path
import SymbolHistory.Pattern
import SymbolHistory.Pattern.CharSet
import SymbolHistory.Pattern.Node
import SymbolHistory.Pattern.Parse
import SymbolHistory.Pattern.Problem
import SymbolHistory.Pipeline
import SymbolHistory.Project
import SymbolHistory.Project.Config
import SymbolHistory.Project.Layout
import SymbolHistory.Project.Meta
import SymbolHistory.Shell.Arithmetic
import SymbolHistory.Shell.Condition
import SymbolHistory.Shell.Expansion
import SymbolHistory.Shell.Filter
import SymbolHistory.Shell.Parse
import SymbolHistory.Shell.Program
import SymbolHistory.Shell.Redirection
import SymbolHistory.Shell.Run
import SymbolHistory.Shell.Script
import SymbolHistory.Shell.State
import SymbolHistory.Shell.Utility
import SymbolHistory.Shell.Wildcard
import SymbolHistory.Signature
import SymbolHistory.Source
import SymbolHistory.Source.Git
import SymbolHistory.Source.Memory
import SymbolHistory.SourceText
import SymbolHistory.Symbol
import SymbolHistory.Tag
import SymbolHistory.TagTable
import SymbolHistory.TagTable.Cursor
import SymbolHistory.Text.Bytes
import SymbolHistory.Text.Category
import SymbolHistory.Text.Decimal
import SymbolHistory.Text.IntegerLiteral
import SymbolHistory.Text.JsonString
import SymbolHistory.Text.LetterCase
import SymbolHistory.Text.Quoted
import SymbolHistory.Text.Utf8
import SymbolHistory.Timestamp
import SymbolHistory.Toml.Document
import SymbolHistory.Toml.Scalar
import SymbolHistory.Toml.Value
import SymbolHistory.Proofs.Decimals
import SymbolHistory.Proofs.Files
import SymbolHistory.Proofs.Places
import SymbolHistory.Proofs.Trees
import SymbolHistory.Proofs.Work
import SymbolHistory.Proofs.AtomicWrites
import SymbolHistory.Proofs.Walks
import SymbolHistory.Proofs.MissingDiffs
import SymbolHistory.Proofs.NaturalOrder
import SymbolHistory.Proofs.Additions
import SymbolHistory.Proofs.TableReading
import SymbolHistory.Proofs.Splitting
import SymbolHistory.Proofs.Organizing
import SymbolHistory.Proofs.TruncatedTables
import SymbolHistory.Proofs.Stages
import SymbolHistory.Proofs.Passes
import SymbolHistory.Proofs.InterruptedPasses
import SymbolHistory.Proofs.NameLists
import SymbolHistory.Proofs.Crews
import SymbolHistory.Proofs.Descents
import SymbolHistory.Proofs.Extraction
import SymbolHistory.Proofs.PatternLines
import SymbolHistory.Proofs.RememberedSymbols
import SymbolHistory.Proofs.Rereading
import SymbolHistory.Proofs.SymbolLines
import SymbolHistory.Proofs.TwinRuns
import SymbolHistory.Proofs.VersionSequences
import SymbolHistory.Proofs.Enumerations
import SymbolHistory.Proofs.ComparisonHistories
import SymbolHistory.Proofs.SerialCrews
import SymbolHistory.Proofs.WholeTables
import SymbolHistory.Proofs.FieldLines
import SymbolHistory.Proofs.RecordLines
import SymbolHistory.Proofs.SymbolFiles
import SymbolHistory.Proofs.TableParts
import SymbolHistory.Proofs.AddedTables
import SymbolHistory.Proofs.CombinedTables
import SymbolHistory.Proofs.Plans
import SymbolHistory.Proofs.BlockTables
import SymbolHistory.Proofs.StoredContents
import SymbolHistory.Proofs.ResumedPasses
import SymbolHistory.Proofs.LineSearches
import SymbolHistory.Proofs.LineLookups
import SymbolHistory.Proofs.ConcurrentWrites
import SymbolHistory.Proofs.StoringCrews
import SymbolHistory.Proofs.SerialStores
import SymbolHistory.Proofs.SkippedTags
import SymbolHistory.Proofs.Characters
import SymbolHistory.Proofs.ExactNumbers
import SymbolHistory.Proofs.Frames
import SymbolHistory.Proofs.ProperTrees
import SymbolHistory.Proofs.QuotedTexts
import SymbolHistory.Proofs.SettingValues
import SymbolHistory.Proofs.SureWrites
import SymbolHistory.Proofs.Archives
import SymbolHistory.Proofs.Durations
import SymbolHistory.Proofs.Exports
import SymbolHistory.Proofs.SettingDocuments
import SymbolHistory.Proofs.Unpacking
import SymbolHistory.Proofs.SavedSettings
import SymbolHistory.Proofs.NewProjects
import SymbolHistory.Proofs.AnsweredRequests
import SymbolHistory.Proofs.CheckedPositions
import SymbolHistory.Proofs.Causes
import SymbolHistory.Proofs.Defects
import SymbolHistory.Proofs.KeptTallies
import SymbolHistory.Proofs.CountedWork
import SymbolHistory.Proofs.CountedDiffs
import SymbolHistory.Proofs.PassAccounts
import SymbolHistory.Proofs.SavedCounts
import SymbolHistory.Proofs.RecordedSymbols
import SymbolHistory.Proofs.SelectedTags
import SymbolHistory.Proofs.Collisions
import SymbolHistory.Proofs.Declarators
import SymbolHistory.Proofs.ScannedTables
import SymbolHistory.Proofs.SureOrganizing
import SymbolHistory.Proofs.ScannedSymbols
import SymbolHistory.Proofs.JoinedTables
import SymbolHistory.Proofs.TextsAhead
import SymbolHistory.Proofs.Words
import SymbolHistory.Proofs.ReturnTypes
import SymbolHistory.Proofs.EscapedTexts
import SymbolHistory.Proofs.NumberedLines
import SymbolHistory.Proofs.RepairedTexts
import SymbolHistory.Proofs.TidyBlanks
