import FlowTree.Ident.Basic
import FlowTree.Fault
import FlowTree.Ident.Table
import FlowTree.Ident.Set
import FlowTree.Decimal.Binary
import FlowTree.Decimal.Shortest
import FlowTree.Program.Operand
import FlowTree.Program.Instr
import FlowTree.Program.Terminator
import FlowTree.Program.Func
import FlowTree.Program.Text
import FlowTree.Program.Draft
import FlowTree.Refusal
import FlowTree.Flow.Walk
import FlowTree.Flow.Graph
import FlowTree.Flow.Component
import FlowTree.Loop.Discovery
import FlowTree.Loop.Nesting
import FlowTree.Loop.Forest
import FlowTree.Storage.Layout
import FlowTree.Storage.Copy
import FlowTree.Storage.Sequence
import FlowTree.Storage.EdgeCopies
import FlowTree.Lowering.Options
import FlowTree.Storage.Liveness
import FlowTree.Program.Code
import FlowTree.Storage.Frame
import FlowTree.Lowering.Analysis
import FlowTree.Lowering.Tree
import FlowTree.Lowering.Lower
import FlowTree.Run.Dispatch
import FlowTree.Eval.Meaning
import FlowTree.Eval.Integer
import FlowTree.Eval.Trial
import FlowTree.Lowering.Cache
import FlowTree.Program.Command
import FlowTree.Storage.Environment
import FlowTree.Proofs.Attempts
import FlowTree.Proofs.Search
import FlowTree.Proofs.Dominance
import FlowTree.Proofs.Retreat
import FlowTree.Proofs.Report
import FlowTree.Proofs.Tables
import FlowTree.Proofs.Absorption
import FlowTree.Proofs.NaturalLoops
import FlowTree.Proofs.GraphShape
import FlowTree.Proofs.Reducibility
import FlowTree.Proofs.TreeContents
import FlowTree.Proofs.Folding
import FlowTree.Proofs.LoopNesting
import FlowTree.Proofs.ForestLaws
import FlowTree.Proofs.Components
import FlowTree.Proofs.Frames
import FlowTree.Proofs.FlatLowering
import FlowTree.Proofs.EdgeMoves
import FlowTree.Proofs.Cursors
import FlowTree.Proofs.FlatDispatch
import FlowTree.Proofs.LiveSlots
import FlowTree.Proofs.ValueRuns
import FlowTree.Proofs.HeldValues
import FlowTree.Proofs.LoweredRuns
import FlowTree.Proofs.TreeShape
import FlowTree.Proofs.LoopExits
import FlowTree.Proofs.Discipline
import FlowTree.Proofs.DeadSlots
import FlowTree.Proofs.StaleSlots
import FlowTree.Proofs.RunCounts
import FlowTree.Proofs.LoweringOutcome
import FlowTree.Proofs.RootLoops
import FlowTree.Proofs.DraftedFunctions
import FlowTree.Proofs.Regions
import FlowTree.Proofs.UnreachableBlocks
import FlowTree.Proofs.Sweeps
import FlowTree.Proofs.FaultFree
import FlowTree.Proofs.StrictFunctions
import FlowTree.Proofs.LivePaths
import FlowTree.Proofs.BlockTransfer
import FlowTree.Proofs.SequencedCopies
import FlowTree.Proofs.CacheCallers
import FlowTree.Proofs.CacheResults
import FlowTree.Proofs.IrreducibleReports
import FlowTree.Proofs.LoopLimits
import FlowTree.Proofs.PhiResolution
import FlowTree.Proofs.Adjacency
import FlowTree.Proofs.Postorder
import FlowTree.Proofs.CopiesOnSlots
import FlowTree.Proofs.CopyCycles
