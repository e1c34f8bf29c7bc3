import ScopedIR.Arena
import ScopedIR.Bijection
import ScopedIR.Body
import ScopedIR.Call
import ScopedIR.Chain
import ScopedIR.Chain.Build
import ScopedIR.CodeUnit
import ScopedIR.Defect
import ScopedIR.EnumDispatch
import ScopedIR.Escape.Findings
import ScopedIR.Escape.Placement
import ScopedIR.Escape.Solution
import ScopedIR.EscapeFact
import ScopedIR.FinMap
import ScopedIR.FlowSummary
import ScopedIR.Hierarchy
import ScopedIR.Instr
import ScopedIR.Instr.Build
import ScopedIR.Instr.Text
import ScopedIR.Location
import ScopedIR.Lowering.Code
import ScopedIR.Lowering.Expr
import ScopedIR.Lowering.Flow
import ScopedIR.Lowering.Gen
import ScopedIR.Lowering.Module
import ScopedIR.Lowering.Ownership
import ScopedIR.Lowering.State
import ScopedIR.Lowering.Stmt
import ScopedIR.Machine.Builtin
import ScopedIR.Machine.CallHandler
import ScopedIR.Machine.Exec
import ScopedIR.Machine.Fault
import ScopedIR.Machine.Heap
import ScopedIR.Machine.Run
import ScopedIR.Machine.Script
import ScopedIR.Machine.State
import ScopedIR.Machine.Value
import ScopedIR.Opcode
import ScopedIR.Operator
import ScopedIR.Pass.Params
import ScopedIR.Pass.Registry
import ScopedIR.Pass.Standard
import ScopedIR.Proofs.Balance
import ScopedIR.Proofs.BalancedCalc
import ScopedIR.Proofs.BalancedChains
import ScopedIR.Proofs.BalancedRuns
import ScopedIR.Proofs.CheckedBlocks
import ScopedIR.Proofs.CheckedRuns
import ScopedIR.Proofs.CountedHeap
import ScopedIR.Proofs.Evaluation
import ScopedIR.Proofs.Execution
import ScopedIR.Proofs.FlowOrder
import ScopedIR.Proofs.Frame
import ScopedIR.Proofs.Generation
import ScopedIR.Proofs.GuardedRuns
import ScopedIR.Proofs.KnownNames
import ScopedIR.Proofs.Layout
import ScopedIR.Proofs.LoweredExceptions
import ScopedIR.Proofs.LoweredExpr
import ScopedIR.Proofs.LoweredFlow
import ScopedIR.Proofs.LoweredLoops
import ScopedIR.Proofs.LoweredOperation
import ScopedIR.Proofs.LoweredStates
import ScopedIR.Proofs.LoweredStmt
import ScopedIR.Proofs.LoweredSwitch
import ScopedIR.Proofs.LoweringPreserves
import ScopedIR.Proofs.LoweringSucceeds
import ScopedIR.Proofs.MemoryModels
import ScopedIR.Proofs.Names
import ScopedIR.Proofs.NestedExecution
import ScopedIR.Proofs.NoLeaks
import ScopedIR.Proofs.OpenScopes
import ScopedIR.Proofs.PacedActions
import ScopedIR.Proofs.PassRuns
import ScopedIR.Proofs.PlacedScopes
import ScopedIR.Proofs.Placing
import ScopedIR.Proofs.PlacingTwice
import ScopedIR.Proofs.Realization
import ScopedIR.Proofs.RealizedChains
import ScopedIR.Proofs.RealizedChoice
import ScopedIR.Proofs.RealizedCalls
import ScopedIR.Proofs.RealizedExpr
import ScopedIR.Proofs.RealizedFlow
import ScopedIR.Proofs.RealizedCounting
import ScopedIR.Proofs.RealizedLoops
import ScopedIR.Proofs.RealizedStmt
import ScopedIR.Proofs.ScopeDiscipline
import ScopedIR.Proofs.Scoping
import ScopedIR.Proofs.Simulation
import ScopedIR.Proofs.StepLimit
import ScopedIR.Proofs.Succeeding
import ScopedIR.Proofs.SucceedingControl
import ScopedIR.Proofs.SucceedingFlow
import ScopedIR.Proofs.WellFormed
import ScopedIR.ScopeCheck
import ScopedIR.Source.Expr
import ScopedIR.Source.Module
import ScopedIR.Source.Stmt
import ScopedIR.Symbol
import ScopedIR.Text.Blank
import ScopedIR.Text.CodeRuns
import ScopedIR.Text.Combining
import ScopedIR.Text.Lines
import ScopedIR.Text.Numeral
import ScopedIR.Text.Printable
import ScopedIR.Text.Quoted
import ScopedIR.TypeName
import ScopedIR.Proofs.DepthFirst
import ScopedIR.Proofs.PlacingUndone
import ScopedIR.Proofs.ReleaseCascade
import ScopedIR.Proofs.ThrowScopes
import ScopedIR.Proofs.BoundTemporaries
import ScopedIR.Proofs.EnumSwitches
import ScopedIR.Proofs.LeastSolution
import ScopedIR.Proofs.SingleAssignment
import ScopedIR.Proofs.Assignability
import ScopedIR.Proofs.IntegerArithmetic
import ScopedIR.Proofs.LiteralTexts
import ScopedIR.Proofs.LocationsErased
import ScopedIR.Proofs.OneToOneMaps
import ScopedIR.Proofs.OwnedObjects
import ScopedIR.Proofs.BodyEdits
import ScopedIR.Proofs.Loops
