import TensorLoom.Word
import TensorLoom.Shape.Basic
import TensorLoom.Shape.Rules
import TensorLoom.Text.Blank
import TensorLoom.Toolchain.Config
import TensorLoom.Op
import TensorLoom.Graph.Basic
import TensorLoom.Graph.Build
import TensorLoom.Graph.Value
import TensorLoom.Gradient.Rules
import TensorLoom.Gradient.Basic
import TensorLoom.Program.Instr
import TensorLoom.Program.Basic
import TensorLoom.Program.Verify
import TensorLoom.Lowering.Index
import TensorLoom.Lowering.Body
import TensorLoom.Lowering.Basic
import TensorLoom.Decimal.Shortest
import TensorLoom.Decimal.Literal
import TensorLoom.Listing
import TensorLoom.Except
import TensorLoom.Machine
import TensorLoom.Kernel
import TensorLoom.Store
import TensorLoom.Module
import TensorLoom.Toolchain.Build
import TensorLoom.Compile
import TensorLoom.CompiledGraph
import TensorLoom.Training
import TensorLoom.Session.Basic
import TensorLoom.Session.Tensors
import TensorLoom.Session.Programs
import TensorLoom.Session.Modules
import TensorLoom.Proofs.Gradient.Contribution
import TensorLoom.Proofs.Gradient.Rules
import TensorLoom.Proofs.Gradient.Sweep
import TensorLoom.Proofs.Gradient.Tangent
import TensorLoom.Proofs.Gradient.Adjoint
import TensorLoom.Proofs.Gradient.Differentiate
import TensorLoom.Proofs.Gradient.Needs
import TensorLoom.Proofs.Gradient.Independent
import TensorLoom.Proofs.Gradient.Unbroadcast
import TensorLoom.Proofs.Graph.Append
import TensorLoom.Proofs.Graph.Calls
import TensorLoom.Proofs.Graph.Comparison
import TensorLoom.Proofs.Graph.Composite
import TensorLoom.Proofs.Graph.Element
import TensorLoom.Proofs.Graph.Reach
import TensorLoom.Proofs.Graph.Refusal
import TensorLoom.Proofs.Graph.WellFormed
import TensorLoom.Proofs.Lowering.Alignment
import TensorLoom.Proofs.Lowering.Bodies
import TensorLoom.Proofs.Lowering.Draft
import TensorLoom.Proofs.Lowering.Element
import TensorLoom.Proofs.Lowering.Folds
import TensorLoom.Proofs.Lowering.InBounds
import TensorLoom.Proofs.Lowering.StoreOrder
import TensorLoom.Proofs.Lowering.Index
import TensorLoom.Proofs.Lowering.Meaning
import TensorLoom.Proofs.Lowering.Perform
import TensorLoom.Proofs.Lowering.Request
import TensorLoom.Proofs.Lowering.RowMajor
import TensorLoom.Proofs.Lowering.Run
import TensorLoom.Proofs.Lowering.Simultaneous
import TensorLoom.Proofs.Lowering.Steps
import TensorLoom.Proofs.Lowering.Update
import TensorLoom.Proofs.Machine.Frame
import TensorLoom.Proofs.Machine.Lockstep
import TensorLoom.Proofs.Machine.Loops
import TensorLoom.Proofs.Machine.Safety
import TensorLoom.Proofs.Machine.Walk
import TensorLoom.Proofs.Module.Execute
import TensorLoom.Proofs.Program.Block
import TensorLoom.Proofs.Program.Order
import TensorLoom.Proofs.Program.Scope
import TensorLoom.Proofs.Program.Tables
import TensorLoom.Proofs.Program.Valid
import TensorLoom.Proofs.Shape.Axes
import TensorLoom.Proofs.Shape.Join
import TensorLoom.Proofs.Shape.Offset
import TensorLoom.Proofs.Shape.Permutation
import TensorLoom.Proofs.Shape.Rearrange
import TensorLoom.Proofs.Shape.Stretch
import TensorLoom.Proofs.Shape.Sum
import TensorLoom.Proofs.Shape.Unstretch
import TensorLoom.Proofs.Training.Compile
import TensorLoom.Proofs.Training.Descent
import TensorLoom.Proofs.Training.Lower
import TensorLoom.Proofs.Training.Plan
import TensorLoom.Proofs.Lowering.Finish
import TensorLoom.Proofs.Gradient.Compile
import TensorLoom.Proofs.Machine.Simulation
import TensorLoom.Proofs.Machine.Rerun
import TensorLoom.Proofs.Module.History
import TensorLoom.Proofs.Lowering.Leaves
import TensorLoom.Proofs.Lowering.Footprint
import TensorLoom.Proofs.Lowering.Minimal
import TensorLoom.Proofs.Machine.Accesses
import TensorLoom.Proofs.Module.Outcome
import TensorLoom.Proofs.Module.Updates
import TensorLoom.Proofs.Session.Commands
import TensorLoom.Proofs.Session.Refused
import TensorLoom.Proofs.Session.Outcome
import TensorLoom.Proofs.Decimal.Interval
import TensorLoom.Proofs.Decimal.Reading
import TensorLoom.Proofs.Decimal.Word
import TensorLoom.Proofs.Listing.Token
import TensorLoom.Proofs.Listing.Lines
import TensorLoom.Proofs.Listing.Scoping
import TensorLoom.Proofs.Listing.Reader
import TensorLoom.Proofs.Machine.Trace
