import QuantumLowering.Circuit.Batch
import QuantumLowering.Circuit.Block
import QuantumLowering.Circuit.Control
import QuantumLowering.Circuit.Error
import QuantumLowering.Circuit.Multiplexer
import QuantumLowering.Circuit.Outcome
import QuantumLowering.Circuit.Proxy
import QuantumLowering.Command.Arguments
import QuantumLowering.Command.Files
import QuantumLowering.Command.Path
import QuantumLowering.Command.Run
import QuantumLowering.Command.Workspace
import QuantumLowering.Config.Check
import QuantumLowering.Config.Document
import QuantumLowering.Json.Basic
import QuantumLowering.Json.Reader
import QuantumLowering.Json.Record
import QuantumLowering.Json.Token
import QuantumLowering.Json.Writer
import QuantumLowering.Lowering.Adjoint
import QuantumLowering.Lowering.Block
import QuantumLowering.Lowering.Chain
import QuantumLowering.Lowering.Conditional
import QuantumLowering.Lowering.Context
import QuantumLowering.Lowering.Control
import QuantumLowering.Lowering.Error
import QuantumLowering.Lowering.Measurement
import QuantumLowering.Lowering.Options
import QuantumLowering.Lowering.OptionsDocument
import QuantumLowering.Lowering.Pass
import QuantumLowering.Lowering.Statement
import QuantumLowering.Main
import QuantumLowering.Number.Binary64
import QuantumLowering.Number.Hypotenuse
import QuantumLowering.Number.Numeral
import QuantumLowering.Number.Shortest
import QuantumLowering.Operation.Document
import QuantumLowering.Operation.Names
import QuantumLowering.Operation.Table
import QuantumLowering.Syntax.Copy
import QuantumLowering.Syntax.Document
import QuantumLowering.Syntax.Equivalence
import QuantumLowering.Syntax.Listing
import QuantumLowering.Syntax.Node
import QuantumLowering.Syntax.Tree
import QuantumLowering.Syntax.Walk
import QuantumLowering.Text.Blank
import QuantumLowering.Text.Dictionary
import QuantumLowering.Yaml.Basic
import QuantumLowering.Yaml.Glyph
import QuantumLowering.Yaml.Reader
import QuantumLowering.Yaml.Scalar
import QuantumLowering.Yaml.Tag
import QuantumLowering.Yaml.Token
import QuantumLowering.Proofs.Syntax.Documents
import QuantumLowering.Proofs.Syntax.Layer
import QuantumLowering.Proofs.Syntax.Term
import QuantumLowering.Proofs.Syntax.Placement
import QuantumLowering.Proofs.Circuit.Conditions
import QuantumLowering.Proofs.Circuit.Execution
import QuantumLowering.Proofs.Circuit.Multiplexing
import QuantumLowering.Proofs.Circuit.ControlSets
import QuantumLowering.Proofs.Circuit.Proxies
import QuantumLowering.Proofs.Circuit.Batches
import QuantumLowering.Proofs.Circuit.Counting
import QuantumLowering.Proofs.Lowering.Commuting
import QuantumLowering.Proofs.Lowering.DerivedCalls
import QuantumLowering.Proofs.Lowering.Flattening
import QuantumLowering.Proofs.Lowering.Involution
import QuantumLowering.Proofs.Lowering.Remaining
import QuantumLowering.Proofs.Lowering.Conditionals
import QuantumLowering.Proofs.Lowering.Enclosing
import QuantumLowering.Proofs.Lowering.Inverse
import QuantumLowering.Proofs.Lowering.Measurements
import QuantumLowering.Proofs.Lowering.Modules
import QuantumLowering.Proofs.Lowering.Nesting
import QuantumLowering.Proofs.Lowering.Discipline
import QuantumLowering.Proofs.Lowering.Entries
import QuantumLowering.Proofs.Lowering.Hygiene
import QuantumLowering.Proofs.Lowering.Numbering
import QuantumLowering.Proofs.Lowering.OpenBlocks
import QuantumLowering.Proofs.Lowering.Lifting
import QuantumLowering.Proofs.Lowering.Ordering
import QuantumLowering.Proofs.Lowering.Revision
import QuantumLowering.Proofs.Lowering.Separation
import QuantumLowering.Proofs.Lowering.Emission
import QuantumLowering.Proofs.Lowering.Visits
import QuantumLowering.Proofs.Lowering.LinkOrder
import QuantumLowering.Proofs.Lowering.QuantumScopes
import QuantumLowering.Proofs.Lowering.Binders
import QuantumLowering.Proofs.Lowering.Counts
import QuantumLowering.Proofs.Lowering.ControlPosition
import QuantumLowering.Proofs.Operation.Supply
import QuantumLowering.Proofs.Syntax.Duplication
import QuantumLowering.Proofs.Syntax.Preorder
import QuantumLowering.Proofs.Syntax.Sameness
import QuantumLowering.Proofs.Lowering.Cancellation
import QuantumLowering.Proofs.Lowering.ControlMerging
import QuantumLowering.Proofs.Lowering.Verification
import QuantumLowering.Proofs.Lowering.OptionsDocuments
import QuantumLowering.Proofs.Operation.Documents
