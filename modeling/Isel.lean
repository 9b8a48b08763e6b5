import Isel.Allocation.Map
import Isel.Allocation.Pool
import Isel.Config
import Isel.Constraint.Basic
import Isel.Constraint.Verify
import Isel.Decimal.Numeral
import Isel.Decimal.Shortest
import Isel.Emission
import Isel.Error
import Isel.Feature
import Isel.Graph.Basic
import Isel.Graph.Parser
import Isel.Graph.Printer
import Isel.Graph.Uses
import Isel.Graph.Verify
import Isel.Ieee.Arithmetic
import Isel.Ieee.Format
import Isel.Instruction.Basic
import Isel.Instruction.Code
import Isel.Instruction.Printer
import Isel.Literal
import Isel.Machine.Run
import Isel.Machine.State
import Isel.Machine.Step
import Isel.Opcode.Emit
import Isel.Opcode.Family
import Isel.Opcode.Registry
import Isel.Operator.Basic
import Isel.Operator.Name
import Isel.Operator.Reader
import Isel.Proofs.Dominance
import Isel.Proofs.Evaluation
import Isel.Proofs.Integer
import Isel.Proofs.Layout
import Isel.Proofs.Reorder
import Isel.Proofs.Schedule
import Isel.Proofs.Values
import Isel.Proofs.Words
import Isel.Register
import Isel.Selection
import Isel.Selection.Lowering
import Isel.Selection.Schedule
import Isel.Size
import Isel.Table
import Isel.Text.Blank
import Isel.Text.Piece
import Isel.ValueType
import Isel.Proofs.ScheduleRun
import Isel.Proofs.Bytes
import Isel.Proofs.Representation
import Isel.Proofs.LoweredNodes
import Isel.Proofs.LoweringRun
import Isel.Proofs.LayoutLowering
import Isel.Proofs.SelectionRun
import Isel.Proofs.CodeLayout
import Isel.Proofs.Constraints
import Isel.Proofs.Families
import Isel.Proofs.MachineArithmetic
import Isel.Proofs.FamilyRun
import Isel.Proofs.Allocation
import Isel.Proofs.Registered
import Isel.Proofs.LoweringForms
import Isel.Proofs.Tallies
import Isel.Proofs.LoweringSteps
import Isel.Proofs.Completeness
import Isel.Proofs.Linearization
import Isel.Proofs.AccessOrder
import Isel.Proofs.Liveness
import Isel.Proofs.EmissionRun
import Isel.Proofs.SelectedScope
import Isel.Proofs.Guarded
import Isel.Proofs.MemoryContext
import Isel.Proofs.Compilation
import Isel.Proofs.Sandbox
import Isel.Proofs.StraightCode
import Isel.Proofs.PartialRun
import Isel.Proofs.SourceTraps
import Isel.Proofs.TrapMemory
import Isel.Proofs.Extensions
import Isel.Proofs.Progress
import Isel.Proofs.Sharing
import Isel.Proofs.Numerals
import Isel.Proofs.Drafts
import Isel.Proofs.Printing
import Isel.Proofs.RoundTrip
import Isel.Proofs.WholeNumbers
import Isel.Proofs.Accepted
import Isel.Proofs.IntegerSequences
import Isel.Proofs.AccessGuards
import Isel.Proofs.AccessBytes
import Isel.Proofs.LaneRun
import Isel.Proofs.BranchDecisions
import Isel.Proofs.SignBits
import Isel.Proofs.OperandOrder
import Isel.Proofs.SelectedNodes
import Isel.Proofs.BranchFusion
import Isel.Proofs.ReturnedBooleans
import Isel.Proofs.UpperBits
import Isel.Proofs.TrapEffects
import Isel.Proofs.EmissionErrors
import Isel.Proofs.ParsedGraphs
import Isel.Proofs.PoolConservation
import Isel.Proofs.OperatorNames
import Isel.Proofs.ParseErrors
import Isel.Proofs.Termination
import Isel.Proofs.Rounding
import Isel.Proofs.Decimals
import Isel.Proofs.LiteralTexts
