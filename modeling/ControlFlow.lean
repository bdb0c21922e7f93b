import ControlFlow.Ident
import ControlFlow.Error
import ControlFlow.Direction
import ControlFlow.Event
import ControlFlow.BitSet
import ControlFlow.Dot
import ControlFlow.Text.Ranges
import ControlFlow.Text.Mark
import ControlFlow.Text.Unprinted
import ControlFlow.Text.Ignorable
import ControlFlow.Text.Quoted
import ControlFlow.Remaining
import ControlFlow.Graph.Basic
import ControlFlow.Graph.Traversal
import ControlFlow.Graph.Multigraph
import ControlFlow.Code.Operand
import ControlFlow.Code.Block
import ControlFlow.Code.Ssa
import ControlFlow.Code.Procedure
import ControlFlow.Code.Draft
import ControlFlow.BlockOrder
import ControlFlow.Fixpoint
import ControlFlow.Dominance.Slots
import ControlFlow.Dominance.Tree
import ControlFlow.Dominance.Basic
import ControlFlow.Dominance.Frontier
import ControlFlow.Reachability
import ControlFlow.Reference
import ControlFlow.Counterpart
import ControlFlow.CallGraph.Basic
import ControlFlow.CallGraph.Discovery
import ControlFlow.CallGraph.Report
import ControlFlow.Store.Config
import ControlFlow.Store.Basic
import ControlFlow.Proofs.Walk
import ControlFlow.Proofs.Construction
import ControlFlow.Proofs.Postorder
import ControlFlow.Proofs.BlockOrder
import ControlFlow.Proofs.Slots
import ControlFlow.Proofs.Sweep
import ControlFlow.Proofs.Dominance
import ControlFlow.Proofs.Frontier
import ControlFlow.Proofs.BitSet
import ControlFlow.Proofs.Reachability
import ControlFlow.Proofs.Store
import ControlFlow.Proofs.Registry
import ControlFlow.Proofs.Tables
import ControlFlow.Proofs.Changes
import ControlFlow.Proofs.WellFormed
import ControlFlow.Proofs.Links
import ControlFlow.Proofs.CallGraph
import ControlFlow.Proofs.Discovery
import ControlFlow.Proofs.Chains
import ControlFlow.Proofs.Search
import ControlFlow.Proofs.Agreement
import ControlFlow.Proofs.EdgeOrder
import ControlFlow.Proofs.Ledger
import ControlFlow.Proofs.Profiles
import ControlFlow.Proofs.Census
import ControlFlow.Proofs.Restriction
import ControlFlow.Proofs.Retirement
import ControlFlow.Proofs.Shelves
import ControlFlow.Proofs.Guarded.Basic
import ControlFlow.Proofs.Guarded.Order
import ControlFlow.Proofs.Guarded.Slots
import ControlFlow.Proofs.Guarded.Tree
import ControlFlow.Proofs.Guarded.Dominators
import ControlFlow.Proofs.Guarded.Frontier
import ControlFlow.Proofs.Guarded.Reachability
import ControlFlow.Proofs.Guarded.BitSet
import ControlFlow.Proofs.SoftFailure
import ControlFlow.Proofs.PathShape
import ControlFlow.Proofs.Views
import ControlFlow.Proofs.FrontierOrder
import ControlFlow.Proofs.DepthFirst
import ControlFlow.Proofs.SearchOrder
import ControlFlow.Proofs.ChainShape
import ControlFlow.Proofs.TreeShape
import ControlFlow.Proofs.Acyclic
import ControlFlow.Proofs.Totals
import ControlFlow.Proofs.Places
import ControlFlow.Proofs.References
import ControlFlow.Proofs.Counterpart
import ControlFlow.Proofs.Indirection
import ControlFlow.Proofs.Similar
import ControlFlow.Proofs.InPlace
import ControlFlow.Proofs.FiniteSets
import ControlFlow.Proofs.Adjacency
import ControlFlow.Proofs.Dot
import ControlFlow.Proofs.Drawing
import ControlFlow.Proofs.Rounds
import ControlFlow.Proofs.Ascent
import ControlFlow.Proofs.Growth
import ControlFlow.Proofs.Meet
