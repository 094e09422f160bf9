import Slicing.Digraph.Search
import Slicing.Postdominators.Solve
import Slicing.Statement

/-!
# Control flow graphs

A flow graph has a statement at each node, two different terminals, and edges that
are listed in both directions. Nothing follows the finish. These requirements are
part of the type; a `Draft` is turned into a flow graph only if it meets them.

Reachability is not required. `FlowGraph.checkReachability` checks on demand that every
node lies on the way from the start to the finish.
-/
namespace Slicing

structure FlowGraph extends Digraph where
  statements : Array Statement
  start : NodeId
  finish : NodeId
  size_statements : statements.size = toDigraph.size
  start_lt : start < toDigraph.size
  finish_lt : finish < toDigraph.size
  start_ne_finish : start ≠ finish
  consistent : toDigraph.Consistent
  succ_finish : toDigraph.succ finish = []

/-- The first node of a graph that is missing from a list. -/
def Digraph.firstMissing? (g : Digraph) (visited : List NodeId) : Option NodeId :=
  g.nodes.find? (· ∉ visited)

namespace FlowGraph

/-- The flow graph of the given statements and edges. The terminals are two different statements,
and no edge leaves the finish. -/
def ofEdges (statements : Array Statement) (edges : List (NodeId × NodeId)) (start finish : NodeId)
    (h : start < statements.size ∧ finish < statements.size ∧ start ≠ finish ∧
      ∀ e ∈ edges, e.1 ≠ finish) : FlowGraph where
  toDigraph := .ofEdges statements.size edges
  statements := statements
  start := start
  finish := finish
  size_statements := (Digraph.size_ofEdges _ _).symm
  start_lt := (Digraph.size_ofEdges _ _).symm ▸ h.1
  finish_lt := (Digraph.size_ofEdges _ _).symm ▸ h.2.1
  start_ne_finish := h.2.2.1
  consistent := Digraph.consistent_ofEdges _ _
  succ_finish := Digraph.succ_ofEdges_of_forall_ne h.2.2.2

def statement? (cfg : FlowGraph) (v : NodeId) : Option Statement := cfg.statements[v]?

/-- The symbols that a node may assign; none outside the graph. -/
def defs (cfg : FlowGraph) (v : NodeId) : SortedSet Symbol :=
  (cfg.statement? v).elim ∅ Statement.defs

def uses (cfg : FlowGraph) (v : NodeId) : SortedSet Symbol :=
  (cfg.statement? v).elim ∅ Statement.uses

def range (cfg : FlowGraph) (v : NodeId) : SourceRange :=
  (cfg.statement? v).elim {} Statement.range

def postdominatorTree (cfg : FlowGraph) : Except Violation PostdominatorTree :=
  cfg.postdominators cfg.finish

/-- Every node can be reached from the start, and the finish from every node. -/
def checkReachability (cfg : FlowGraph) : Except Violation Unit :=
  match cfg.firstMissing? (cfg.visitOrder cfg.start) with
  | some v => .error (.unreachable cfg.start v)
  | none =>
    match cfg.firstMissing? (cfg.reverse.visitOrder cfg.finish) with
    | some v => .error (.endless cfg.finish v)
    | none => .ok ()

end FlowGraph

end Slicing
