import BundlePrep.Command.Arguments
import BundlePrep.Command.Execute
import BundlePrep.Command.Report
import BundlePrep.FileTree.Path
import BundlePrep.FileTree.Snapshot
import BundlePrep.FileTree.Tree
import BundlePrep.Glob.Expand
import BundlePrep.Glob.Pattern
import BundlePrep.Job.Config
import BundlePrep.Job.Conversion
import BundlePrep.Job.Extraction
import BundlePrep.Job.Inlining
import BundlePrep.Job.Run
import BundlePrep.Job.Scan
import BundlePrep.Job.Setup
import BundlePrep.Json.Quoted
import BundlePrep.Json.Read
import BundlePrep.Json.Value
import BundlePrep.Main
import BundlePrep.Message.Argument
import BundlePrep.Message.Artifact
import BundlePrep.Message.Call
import BundlePrep.Message.Catalog
import BundlePrep.Message.Extract
import BundlePrep.Message.Inline
import BundlePrep.Message.Literal
import BundlePrep.Message.Placeholder
import BundlePrep.PrivateName.Convert
import BundlePrep.PrivateName.Resolve
import BundlePrep.PrivateName.Short
import BundlePrep.Proofs.FileTree.Beginnings
import BundlePrep.Proofs.FileTree.History
import BundlePrep.Proofs.FileTree.Joined
import BundlePrep.Proofs.FileTree.Kept
import BundlePrep.Proofs.FileTree.Kinds
import BundlePrep.Proofs.FileTree.Moved
import BundlePrep.Proofs.FileTree.Places
import BundlePrep.Proofs.FileTree.Proper
import BundlePrep.Proofs.FileTree.Relative
import BundlePrep.Proofs.FileTree.Rewriting
import BundlePrep.Proofs.FileTree.Spelling
import BundlePrep.Proofs.Glob.Directories
import BundlePrep.Proofs.Glob.Expanding
import BundlePrep.Proofs.Glob.Parsing
import BundlePrep.Proofs.Job.Alone
import BundlePrep.Proofs.Job.Completion
import BundlePrep.Proofs.Job.Converting
import BundlePrep.Proofs.Job.Effects
import BundlePrep.Proofs.Job.Gathering
import BundlePrep.Proofs.Job.Handover
import BundlePrep.Proofs.Job.Inlining
import BundlePrep.Proofs.Job.Kept
import BundlePrep.Proofs.Job.Listing
import BundlePrep.Proofs.Job.Marked
import BundlePrep.Proofs.Job.Outcome
import BundlePrep.Proofs.Job.Reloading
import BundlePrep.Proofs.Job.Relocating
import BundlePrep.Proofs.Job.Scanning
import BundlePrep.Proofs.Job.Searching
import BundlePrep.Proofs.Job.Separation
import BundlePrep.Proofs.Job.Turns
import BundlePrep.Proofs.Json.Printing
import BundlePrep.Proofs.Message.Acceptance
import BundlePrep.Proofs.Message.Agreement
import BundlePrep.Proofs.Message.Arrival
import BundlePrep.Proofs.Message.Blanking
import BundlePrep.Proofs.Message.Builds
import BundlePrep.Proofs.Message.Built
import BundlePrep.Proofs.Message.Bytewise
import BundlePrep.Proofs.Message.Changes
import BundlePrep.Proofs.Message.Collapse
import BundlePrep.Proofs.Message.Collecting
import BundlePrep.Proofs.Message.Cut
import BundlePrep.Proofs.Message.Derivation
import BundlePrep.Proofs.Message.Disjoint
import BundlePrep.Proofs.Message.Escapes
import BundlePrep.Proofs.Message.Evaluation
import BundlePrep.Proofs.Message.Fallback
import BundlePrep.Proofs.Message.Faults
import BundlePrep.Proofs.Message.Finding
import BundlePrep.Proofs.Message.Grammar
import BundlePrep.Proofs.Message.Halting
import BundlePrep.Proofs.Message.Keys
import BundlePrep.Proofs.Message.Lexing
import BundlePrep.Proofs.Message.Marked
import BundlePrep.Proofs.Message.Members
import BundlePrep.Proofs.Message.Moved
import BundlePrep.Proofs.Message.Noticing
import BundlePrep.Proofs.Message.Numbering
import BundlePrep.Proofs.Message.Offsets
import BundlePrep.Proofs.Message.Ordering
import BundlePrep.Proofs.Message.Preserving
import BundlePrep.Proofs.Message.Production
import BundlePrep.Proofs.Message.Readback
import BundlePrep.Proofs.Message.Recorded
import BundlePrep.Proofs.Message.Replacing
import BundlePrep.Proofs.Message.Reread
import BundlePrep.Proofs.Message.Script
import BundlePrep.Proofs.Message.Skipping
import BundlePrep.Proofs.Message.Slot
import BundlePrep.Proofs.Message.Tables
import BundlePrep.Proofs.Message.Tiles
import BundlePrep.Proofs.Message.Tokens
import BundlePrep.Proofs.Message.Value
import BundlePrep.Proofs.Message.Visible
import BundlePrep.Proofs.PrivateName.Binding
import BundlePrep.Proofs.PrivateName.Fresh
import BundlePrep.Proofs.PrivateName.Marked
import BundlePrep.Proofs.PrivateName.Names
import BundlePrep.Proofs.PrivateName.Occurrence
import BundlePrep.Proofs.PrivateName.Renaming
import BundlePrep.Proofs.PrivateName.Sequence
import BundlePrep.Proofs.PrivateName.Survey
import BundlePrep.Proofs.PrivateName.Tokens
import BundlePrep.Proofs.PrivateName.Visiting
import BundlePrep.Proofs.Script.Constant
import BundlePrep.Proofs.Script.Gaps
import BundlePrep.Proofs.Script.Lookahead
import BundlePrep.Proofs.Script.Marked
import BundlePrep.Proofs.Script.Pieces
import BundlePrep.Proofs.Script.Place
import BundlePrep.Proofs.Script.Plain
import BundlePrep.Proofs.Script.Quoting
import BundlePrep.Proofs.Script.Reading
import BundlePrep.Proofs.Script.Scoping
import BundlePrep.Proofs.Script.Spelling
import BundlePrep.Proofs.Script.Texts
import BundlePrep.Proofs.Script.Words
import BundlePrep.Proofs.Text.ByteOrder
import BundlePrep.Proofs.Text.Characters
import BundlePrep.Proofs.Text.Frame
import BundlePrep.Proofs.Text.Glue
import BundlePrep.Proofs.Text.Lines
import BundlePrep.Proofs.Text.Portion
import BundlePrep.Proofs.Text.Spans
import BundlePrep.Proofs.Text.Splicing
import BundlePrep.Proofs.Text.Weave
import BundlePrep.Script.ClassGrammar
import BundlePrep.Script.Dialect
import BundlePrep.Script.ExpressionGrammar
import BundlePrep.Script.FunctionGrammar
import BundlePrep.Script.Grammar
import BundlePrep.Script.MarkupGrammar
import BundlePrep.Script.ModuleGrammar
import BundlePrep.Script.Parse
import BundlePrep.Script.Program
import BundlePrep.Script.Scan
import BundlePrep.Script.StatementGrammar
import BundlePrep.Script.Target
import BundlePrep.Script.Token
import BundlePrep.Script.Tree
import BundlePrep.Script.TypeGrammar
import BundlePrep.Text.Alphabetic
import BundlePrep.Text.Blank
import BundlePrep.Text.Debug
import BundlePrep.Text.Document
import BundlePrep.Text.Edit
import BundlePrep.Text.NameCharacter
import BundlePrep.Text.Offset
import BundlePrep.Text.Position
import BundlePrep.Text.Search
