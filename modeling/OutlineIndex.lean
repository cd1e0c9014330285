import OutlineIndex.ChangeQueue
import OutlineIndex.CodeGraph
import OutlineIndex.CodeMap
import OutlineIndex.Command
import OutlineIndex.Command.Arguments
import OutlineIndex.Command.Machine
import OutlineIndex.Command.Markup
import OutlineIndex.Command.Run
import OutlineIndex.Command.Session
import OutlineIndex.Command.Sheet
import OutlineIndex.Completion.LanguageModel
import OutlineIndex.Completion.Provider
import OutlineIndex.Completion.Request
import OutlineIndex.Data
import OutlineIndex.Data.Json
import OutlineIndex.Data.Toml.Reader
import OutlineIndex.Data.Toml.Writer
import OutlineIndex.Decimal
import OutlineIndex.Digest.Blake2b
import OutlineIndex.Digest.Block
import OutlineIndex.Digest.Sha1
import OutlineIndex.Digest.Sha256
import OutlineIndex.Document
import OutlineIndex.Embedding
import OutlineIndex.EmbeddingModel
import OutlineIndex.Failure
import OutlineIndex.FileFilter
import OutlineIndex.FileTree
import OutlineIndex.IdSet
import OutlineIndex.Index
import OutlineIndex.Index.Context
import OutlineIndex.Index.Pass
import OutlineIndex.Index.Visit
import OutlineIndex.Main
import OutlineIndex.Node
import OutlineIndex.NodeId
import OutlineIndex.Path
import OutlineIndex.Pattern.Braces
import OutlineIndex.Pattern.CharSet
import OutlineIndex.Pattern.Glob
import OutlineIndex.Pattern.Ignore
import OutlineIndex.Pattern.Wildcard
import OutlineIndex.Settings
import OutlineIndex.Settings.Sections
import OutlineIndex.Skeleton.Compose
import OutlineIndex.Skeleton.Generator
import OutlineIndex.Skeleton.Outline
import OutlineIndex.Skeleton.Prompt
import OutlineIndex.Skeleton.Splice
import OutlineIndex.Source.Grammar.Basic
import OutlineIndex.Source.Grammar.Expression
import OutlineIndex.Source.Grammar.Literal
import OutlineIndex.Source.Grammar.Pattern
import OutlineIndex.Source.Grammar.Statement
import OutlineIndex.Source.Identifier
import OutlineIndex.Source.Layout
import OutlineIndex.Source.Lexer
import OutlineIndex.Source.Lexical
import OutlineIndex.Source.Mark
import OutlineIndex.Source.Number
import OutlineIndex.Source.Outline
import OutlineIndex.Source.Program
import OutlineIndex.Source.Quoted
import OutlineIndex.Source.Sentence
import OutlineIndex.Source.Token
import OutlineIndex.Source.Tree
import OutlineIndex.Store
import OutlineIndex.Store.Predicate
import OutlineIndex.Store.Snapshot
import OutlineIndex.Table
import OutlineIndex.Text.Blank
import OutlineIndex.Text.Lines
import OutlineIndex.Text.Lower
import OutlineIndex.Text.Printable
import OutlineIndex.Text.Utf8
import OutlineIndex.Trace
import OutlineIndex.Uri
import OutlineIndex.Uri.Host
import OutlineIndex.Uri.Percent
import OutlineIndex.Workspace
import OutlineIndex.Proofs.Coding
import OutlineIndex.Proofs.Path
import OutlineIndex.Proofs.Uri
import OutlineIndex.Proofs.Lookup
import OutlineIndex.Proofs.NodeId
import OutlineIndex.Proofs.Source.Scanning
import OutlineIndex.Proofs.Source.Lines
import OutlineIndex.Proofs.Source.Nesting
import OutlineIndex.Proofs.Source.Ends
import OutlineIndex.Proofs.Source.Spans
import OutlineIndex.Proofs.Source.Dialects
import OutlineIndex.Proofs.CodeMap
import OutlineIndex.Proofs.Skeleton
import OutlineIndex.Proofs.Visit
import OutlineIndex.Proofs.Walk
import OutlineIndex.Proofs.Isolation
import OutlineIndex.Proofs.Item
import OutlineIndex.Proofs.Recovery
import OutlineIndex.Proofs.Agreement
import OutlineIndex.Proofs.Json
import OutlineIndex.Proofs.Results
import OutlineIndex.Proofs.Store
import OutlineIndex.Proofs.Snapshot
import OutlineIndex.Proofs.Persistence
import OutlineIndex.Proofs.Frontier
import OutlineIndex.Proofs.Reachable
import OutlineIndex.Proofs.Regular
import OutlineIndex.Proofs.Repetition
import OutlineIndex.Proofs.Changes
import OutlineIndex.Proofs.Converse
import OutlineIndex.Proofs.Order
import OutlineIndex.Proofs.Composition
import OutlineIndex.Proofs.Alone
import OutlineIndex.Proofs.Spread
import OutlineIndex.Proofs.Rebuild
import OutlineIndex.Proofs.Relocation
import OutlineIndex.Proofs.Splicing
import OutlineIndex.Proofs.Composable
import OutlineIndex.Proofs.Interleaving
import OutlineIndex.Proofs.Contents
import OutlineIndex.Proofs.Resolution
import OutlineIndex.Proofs.Places
import OutlineIndex.Proofs.Enclosure
import OutlineIndex.Proofs.WellFormed
import OutlineIndex.Proofs.Source.Writing
import OutlineIndex.Proofs.Source.Concurrence
import OutlineIndex.Proofs.Concordance
import OutlineIndex.Proofs.Targets
import OutlineIndex.Proofs.Registry
import OutlineIndex.Proofs.ChangeQueue
import OutlineIndex.Proofs.Positions
import OutlineIndex.Proofs.Replacement
import OutlineIndex.Proofs.Braces
import OutlineIndex.Proofs.RoundTrip
import OutlineIndex.Proofs.Removal
import OutlineIndex.Proofs.ByteColumns
import OutlineIndex.Proofs.Replies
import OutlineIndex.Proofs.Fields
import OutlineIndex.Proofs.Sections
import OutlineIndex.Proofs.Source.Spelling
import OutlineIndex.Proofs.Source.Reading
import OutlineIndex.Proofs.Source.LineEnds
import OutlineIndex.Proofs.Signature
import OutlineIndex.Proofs.Predicate
