import Splice.Build.Basic
import Splice.Build.Discovery
import Splice.Build.Listing
import Splice.Build.Run
import Splice.Code.Build
import Splice.Code.Decode
import Splice.Code.Instr
import Splice.Code.Opcode
import Splice.Code.Varint
import Splice.Command.Display
import Splice.Command.Flags
import Splice.Command.Overrides
import Splice.Command.Run
import Splice.Config.Basic
import Splice.Config.Decode
import Splice.Config.Document
import Splice.Config.Environment
import Splice.Config.Paths
import Splice.Config.Toml
import Splice.Config.Validate
import Splice.Disk
import Splice.Enumeration
import Splice.Failure
import Splice.Glob
import Splice.Glob.Matcher
import Splice.Glob.Pattern
import Splice.Instant
import Splice.Ledger.Basic
import Splice.Ledger.Record
import Splice.Limiter
import Splice.Main
import Splice.NameMap.Address
import Splice.NameMap.Basic
import Splice.NameMap.Format
import Splice.NameMap.Store
import Splice.NamePattern
import Splice.Number.Binary64
import Splice.Number.Duration
import Splice.Number.Integer
import Splice.Path
import Splice.Program.Basic
import Splice.Program.Enums
import Splice.Program.Link
import Splice.Program.Mangle
import Splice.Project.Basic
import Splice.Project.Outputs
import Splice.Project.Report
import Splice.Project.Request
import Splice.Project.Routes
import Splice.Project.Watch
import Splice.Proofs.Action
import Splice.Proofs.Build.Accounting
import Splice.Proofs.Build.Analysis
import Splice.Proofs.Build.Attachment
import Splice.Proofs.Build.Closure
import Splice.Proofs.Build.Confluence
import Splice.Proofs.Build.Diagnosis
import Splice.Proofs.Build.Discovery
import Splice.Proofs.Build.EarlyBinding
import Splice.Proofs.Build.Effects
import Splice.Proofs.Build.Emission
import Splice.Proofs.Build.Emittable
import Splice.Proofs.Build.EntryReads
import Splice.Proofs.Build.EnumTable
import Splice.Proofs.Build.Exactness
import Splice.Proofs.Build.Failures
import Splice.Proofs.Build.Identities
import Splice.Proofs.Build.Lasting
import Splice.Proofs.Build.LexicalScope
import Splice.Proofs.Build.Lifecycle
import Splice.Proofs.Build.Linking
import Splice.Proofs.Build.Listing
import Splice.Proofs.Build.Meaning
import Splice.Proofs.Build.Naming
import Splice.Proofs.Build.Order
import Splice.Proofs.Build.Pruning
import Splice.Proofs.Build.Reading
import Splice.Proofs.Build.Registration
import Splice.Proofs.Build.Renaming
import Splice.Proofs.Build.Reports
import Splice.Proofs.Build.Resolution
import Splice.Proofs.Build.Results
import Splice.Proofs.Build.Sequence
import Splice.Proofs.Build.Settling
import Splice.Proofs.Build.Sharing
import Splice.Proofs.Build.Stores
import Splice.Proofs.Build.Survey
import Splice.Proofs.Build.Termination
import Splice.Proofs.Build.Totality
import Splice.Proofs.Build.Tracking
import Splice.Proofs.Build.Twins
import Splice.Proofs.Build.Weight
import Splice.Proofs.Code.Breakdown
import Splice.Proofs.Code.Grammar
import Splice.Proofs.Code.RoundTrip
import Splice.Proofs.Disk
import Splice.Proofs.Instant
import Splice.Proofs.Ledger.Accounting
import Splice.Proofs.Ledger.Basic
import Splice.Proofs.Ledger.Growth
import Splice.Proofs.Ledger.Recording
import Splice.Proofs.Ledger.Tracking
import Splice.Proofs.Ledger.Visibility
import Splice.Proofs.NameMap.Demangling
import Splice.Proofs.NameMap.History
import Splice.Proofs.NameMap.Recency
import Splice.Proofs.NameMap.Tables
import Splice.Proofs.Path
import Splice.Proofs.Path.Parent
import Splice.Proofs.Program.Basic
import Splice.Proofs.Program.Codes
import Splice.Proofs.Program.Counter
import Splice.Proofs.Program.Enums
import Splice.Proofs.Program.Files
import Splice.Proofs.Program.Filing
import Splice.Proofs.Program.Identifiers
import Splice.Proofs.Program.Locations
import Splice.Proofs.Program.Mangling
import Splice.Proofs.Program.Pool
import Splice.Proofs.Program.Renaming
import Splice.Proofs.Program.Retention
import Splice.Proofs.Program.Twins
import Splice.Proofs.Project.Outputs
import Splice.Proofs.Source.Diagnostic
import Splice.Proofs.Text.Glyphs
import Splice.Proofs.Text.Lines
import Splice.Proofs.Text.Order
import Splice.Proofs.Text.Quoting
import Splice.Proofs.Text.Words
import Splice.Proofs.Token.Spelling
import Splice.Proofs.Tree.Agreement
import Splice.Proofs.Tree.Analysis
import Splice.Proofs.Tree.Annotation
import Splice.Proofs.Tree.Binding
import Splice.Proofs.Tree.Blocks
import Splice.Proofs.Tree.Emission
import Splice.Proofs.Tree.Entries
import Splice.Proofs.Tree.Generation
import Splice.Proofs.Tree.Listing
import Splice.Proofs.Tree.Loading
import Splice.Proofs.Tree.Mention
import Splice.Proofs.Tree.Numbering
import Splice.Proofs.Tree.Operands
import Splice.Proofs.Tree.Parsing
import Splice.Proofs.Tree.Pass
import Splice.Proofs.Tree.Plain
import Splice.Proofs.Tree.Positions
import Splice.Proofs.Tree.Printing
import Splice.Proofs.Tree.Pruning
import Splice.Proofs.Tree.Regularity
import Splice.Proofs.Tree.Renaming
import Splice.Proofs.Tree.Rereading
import Splice.Proofs.Tree.Residue
import Splice.Proofs.Tree.RoundTrip
import Splice.Proofs.Tree.Scoping
import Splice.Proofs.Tree.Settling
import Splice.Proofs.Tree.Sites
import Splice.Proofs.Tree.Taking
import Splice.Proofs.Tree.Tracking
import Splice.Proofs.Watch.Roots
import Splice.Reference
import Splice.Source.Diagnostic
import Splice.Source.Unit
import Splice.StandardLibrary
import Splice.Symbol
import Splice.Terminal.Cluster
import Splice.Terminal.Tables
import Splice.Terminal.Width
import Splice.Text.Basic
import Splice.Text.Character
import Splice.Text.Percent
import Splice.Text.Quoted
import Splice.Text.Tables
import Splice.Text.Utf8
import Splice.Token
import Splice.Token.Lexer
import Splice.Tree.Basic
import Splice.Tree.Bind
import Splice.Tree.Check
import Splice.Tree.Generate
import Splice.Tree.Node
import Splice.Tree.Outline
import Splice.Tree.Parser
import Splice.Tree.Prune
import Splice.Tree.Report
import Splice.Watch.Watcher
import Splice.NameMap.Transaction
import Splice.Proofs.Config.Outputs
import Splice.Proofs.NameMap.Contents
import Splice.Proofs.NameMap.FiniteMap
import Splice.Proofs.Text.Runs
import Splice.Proofs.Token.Scanning
import Splice.Proofs.Token.Tiling
