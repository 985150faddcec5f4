import EventDocs.Analysis
import EventDocs.Block
import EventDocs.Block.Scan
import EventDocs.CommandLine.Arguments
import EventDocs.CommandLine.Options
import EventDocs.CommandLine.Run
import EventDocs.ContextTree
import EventDocs.ContextTree.Build
import EventDocs.Decimal.Binary64
import EventDocs.Decimal.Layout
import EventDocs.Decimal.Shortest
import EventDocs.Document
import EventDocs.Document.Assemble
import EventDocs.Document.Json
import EventDocs.Environment
import EventDocs.Expansion
import EventDocs.Failure
import EventDocs.FileSystem
import EventDocs.FileSystem.Inputs
import EventDocs.FileSystem.Listing
import EventDocs.FileSystem.Path
import EventDocs.Interim
import EventDocs.Json.Printer
import EventDocs.Json.Record
import EventDocs.Json.Symbol
import EventDocs.Json.Tree
import EventDocs.Json.Value
import EventDocs.Label
import EventDocs.Label.Tags
import EventDocs.Main
import EventDocs.NameMap
import EventDocs.Proofs.ContextTree.Effects
import EventDocs.Proofs.ContextTree.LeafKey
import EventDocs.Rendering
import EventDocs.Storage
import EventDocs.Text.Alphanumeric
import EventDocs.Text.Blank
import EventDocs.Text.Split
import EventDocs.Text.Utf8
import EventDocs.Token
import EventDocs.Token.Lexer
import EventDocs.Token.Bytes
import EventDocs.Yaml.Plain
import EventDocs.Yaml.Printer
import EventDocs.Yaml.Scalar
import EventDocs.Proofs.ContextTree.Invariant
import EventDocs.Proofs.ContextTree.Building
import EventDocs.Proofs.ContextTree.Shape
import EventDocs.Proofs.ContextTree.Passes
import EventDocs.Proofs.ContextTree.Agreement
import EventDocs.Proofs.ContextTree.Resolution
import EventDocs.Proofs.Document.Texts
import EventDocs.Proofs.Document.Outline
import EventDocs.Proofs.ContextTree.Ledger
import EventDocs.Proofs.ContextTree.Bookkeeping
import EventDocs.Proofs.Document.FromBlocks
import EventDocs.Proofs.Token.Lossless
import EventDocs.Proofs.Block.Outcomes
import EventDocs.Proofs.ContextTree.DeclaredParent
import EventDocs.Proofs.Json.RoundTrip
import EventDocs.Proofs.Interim.RoundTrip
import EventDocs.Proofs.Analysis.Parts
import EventDocs.Proofs.Analysis.Scheduling
import EventDocs.Proofs.FileSystem.Paths
import EventDocs.Proofs.FileSystem.Walks
import EventDocs.Proofs.FileSystem.Changes
import EventDocs.Proofs.FileSystem.Ways
import EventDocs.Proofs.FileSystem.Listings
import EventDocs.Proofs.Storage.Uploads
import EventDocs.Proofs.Text.Utf8
import EventDocs.Proofs.Storage.Copies
import EventDocs.Proofs.Storage.Shelter
import EventDocs.Proofs.CommandLine.Merging
import EventDocs.Proofs.CommandLine.Publishing
import EventDocs.Proofs.Interim.Objects
import EventDocs.Proofs.CommandLine.GlobalRuns
import EventDocs.Proofs.CommandLine.Rerun
import EventDocs.Proofs.CommandLine.SingleRuns
import EventDocs.Proofs.CommandLine.Gathering
import EventDocs.Proofs.CommandLine.Footprint
import EventDocs.Proofs.CommandLine.AllOrNothing
import EventDocs.Proofs.Block.Linked
import EventDocs.Proofs.Token.Lines
import EventDocs.Proofs.Block.Capture
import EventDocs.Proofs.Token.Lexemes
import EventDocs.Proofs.Token.Metadata
import EventDocs.Proofs.Text.Ascii
import EventDocs.Proofs.Token.Bytes
import EventDocs.Proofs.Token.Markers
import EventDocs.Proofs.Block.Places
import EventDocs.Proofs.Token.LineEnds
import EventDocs.Proofs.Block.LineEnds
import EventDocs.Proofs.Token.LineByLine
import EventDocs.Proofs.Document.Orphans
import EventDocs.Proofs.InTurn
import EventDocs.Proofs.Label.Grammar
import EventDocs.Proofs.Expansion.Substitution
import EventDocs.Proofs.FileSystem.ExactListing
import EventDocs.Proofs.Document.RoundTrip
import EventDocs.Proofs.ContextTree.GivenKeys
import EventDocs.Proofs.ContextTree.ParentSearch
import EventDocs.Proofs.ContextTree.Moves
