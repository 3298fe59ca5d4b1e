import ClosureConversion.Analysis.FreeNames
import ClosureConversion.Classification.Decision
import ClosureConversion.Classification.Explore
import ClosureConversion.Command.Basic
import ClosureConversion.Command.Files
import ClosureConversion.Command.Help
import ClosureConversion.Command.Line
import ClosureConversion.Conversion
import ClosureConversion.Diagnostic.Code
import ClosureConversion.Diagnostic.Explanation
import ClosureConversion.Diagnostic.Finding
import ClosureConversion.Diagnostic.Report
import ClosureConversion.Fault
import ClosureConversion.Ir.Arena
import ClosureConversion.Ir.Block
import ClosureConversion.Ir.Code
import ClosureConversion.Ir.Codec
import ClosureConversion.Ir.Listing
import ClosureConversion.Ir.Lower
import ClosureConversion.Ir.Operation
import ClosureConversion.Json.Basic
import ClosureConversion.Json.Reader
import ClosureConversion.Json.Writer
import ClosureConversion.Main
import ClosureConversion.Names.NameSet
import ClosureConversion.Names.Table
import ClosureConversion.Number.Binary64
import ClosureConversion.Number.Decimal
import ClosureConversion.Number.Scaling
import ClosureConversion.Program
import ClosureConversion.Program.Codec
import ClosureConversion.Proofs.Arena.Cycles
import ClosureConversion.Proofs.Arena.Edits
import ClosureConversion.Proofs.Arena.Grounded
import ClosureConversion.Proofs.Arena.Items
import ClosureConversion.Proofs.Arena.Links
import ClosureConversion.Proofs.Arena.ListModel
import ClosureConversion.Proofs.Arena.Lowering
import ClosureConversion.Proofs.Arena.LoweringOrder
import ClosureConversion.Proofs.Arena.Mapping
import ClosureConversion.Proofs.Arena.Paths
import ClosureConversion.Proofs.Arena.ReadingBack
import ClosureConversion.Proofs.Arena.Scripts
import ClosureConversion.Proofs.Arena.Trees
import ClosureConversion.Proofs.Arena.Unfolding
import ClosureConversion.Proofs.CaptureLists
import ClosureConversion.Proofs.CheckReport
import ClosureConversion.Proofs.Classification
import ClosureConversion.Proofs.ClosedForm
import ClosureConversion.Proofs.CodeLookup
import ClosureConversion.Proofs.Conversion.Application
import ClosureConversion.Proofs.Conversion.Applied
import ClosureConversion.Proofs.Conversion.Closed
import ClosureConversion.Proofs.Conversion.Flattening
import ClosureConversion.Proofs.Conversion.Idempotence
import ClosureConversion.Proofs.Conversion.Rejection
import ClosureConversion.Proofs.Conversion.Whole
import ClosureConversion.Proofs.Dependence
import ClosureConversion.Proofs.Exploration.Agreement
import ClosureConversion.Proofs.Exploration.Blocks
import ClosureConversion.Proofs.Exploration.Bookkeeping
import ClosureConversion.Proofs.Exploration.Contract
import ClosureConversion.Proofs.Exploration.Places
import ClosureConversion.Proofs.Exploration.Plan
import ClosureConversion.Proofs.Exploration.Renumbering
import ClosureConversion.Proofs.Exploration.Runs
import ClosureConversion.Proofs.Exploration.Simulation
import ClosureConversion.Proofs.Exploration.Sites
import ClosureConversion.Proofs.Exploration.Stack
import ClosureConversion.Proofs.Faults
import ClosureConversion.Proofs.FreeNames
import ClosureConversion.Proofs.Json.Documents
import ClosureConversion.Proofs.Json.Numerals
import ClosureConversion.Proofs.Json.Programs
import ClosureConversion.Proofs.Names
import ClosureConversion.Proofs.Occurrences
import ClosureConversion.Proofs.Optimization
import ClosureConversion.Proofs.Renaming.Exploration
import ClosureConversion.Proofs.Renaming.Names
import ClosureConversion.Proofs.Renaming.Programs
import ClosureConversion.Proofs.Reordering.Blocks
import ClosureConversion.Proofs.Reordering.Groups
import ClosureConversion.Proofs.Reordering.Results
import ClosureConversion.Proofs.Scope
import ClosureConversion.Proofs.Verdicts
import ClosureConversion.Proofs.Verification
import ClosureConversion.Proofs.Walks
import ClosureConversion.Settings
import ClosureConversion.Text.Printable
import ClosureConversion.Text.Quoted
import ClosureConversion.Text.Style
import ClosureConversion.Text.UpperCase
import ClosureConversion.Toml.Document
import ClosureConversion.Toml.Number
import ClosureConversion.Toml.Text
import ClosureConversion.Verification
