import Slicing.Dependence.Control
import Slicing.Dependence.Data
import Slicing.DependenceGraph.Basic
import Slicing.DependenceGraph.Build
import Slicing.DependenceGraph.Edge
import Slicing.DependenceGraph.Slice
import Slicing.Diagnostic
import Slicing.Digraph.Basic
import Slicing.Digraph.Descent
import Slicing.Digraph.Finish
import Slicing.Digraph.Marks
import Slicing.Digraph.Path
import Slicing.Digraph.Search
import Slicing.FlowGraph.Basic
import Slicing.FlowGraph.Draft
import Slicing.Journal
import Slicing.Listing
import Slicing.NodeId
import Slicing.NodeOrder
import Slicing.NodeTable
import Slicing.Postdominators.Estimates
import Slicing.Postdominators.Solve
import Slicing.Postdominators.Tree
import Slicing.Proofs.Climb
import Slicing.Proofs.Construction
import Slicing.Proofs.ControlDependence
import Slicing.Proofs.Convergence
import Slicing.Proofs.EdgeMirror
import Slicing.Proofs.Execution
import Slicing.Proofs.FinishOrder
import Slicing.Proofs.Postdominance
import Slicing.Proofs.ReachingDefinitions
import Slicing.Proofs.SliceClosure
import Slicing.Proofs.SliceLeast
import Slicing.Proofs.SliceSoundness
import Slicing.Proofs.Sweep
import Slicing.Proofs.TreeChain
import Slicing.Proofs.TreeExact
import Slicing.Proofs.Worklist
import Slicing.SortedSet
import Slicing.Source
import Slicing.Statement
import Slicing.Proofs.Branches
import Slicing.Proofs.Relays
import Slicing.Proofs.Drafts
import Slicing.Proofs.Renumbering
import Slicing.Proofs.Interposition
import Slicing.Proofs.SliceOrder
import Slicing.Proofs.Adjacency
import Slicing.Proofs.Messages
import Slicing.Proofs.Defects
import Slicing.Proofs.Precedence
import Slicing.Proofs.Reachability
import Slicing.Proofs.Support
import Slicing.Proofs.Reducible
import Slicing.Proofs.Positions
import Slicing.Proofs.Sorting
import Slicing.Proofs.Listings
import Slicing.Proofs.Ranking
import Slicing.Proofs.SourceArrangement
import Slicing.Proofs.EntryOrder
import Slicing.Proofs.VisitOrder
import Slicing.Proofs.LazyWalk
