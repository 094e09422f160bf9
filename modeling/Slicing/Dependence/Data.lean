import Slicing.FlowGraph.Basic

/-!
# Data dependence

A node depends on a definition of a symbol if it reads the symbol and the value can
arrive there: some path leads from the definition to it without passing another
definition of the symbol in between.
-/
namespace Slicing

namespace FlowGraph

/-- Where a value of `x` goes on from a node: nowhere from one that assigns `x` anew. -/
def flowOn (cfg : FlowGraph) (x : Symbol) (v : NodeId) : List NodeId :=
  if x ∈ cfg.defs v then [] else cfg.succ v

/-- The nodes that read the value which `v` gives to `x`. -/
def readersOf (cfg : FlowGraph) (v : NodeId) (x : Symbol) : List NodeId :=
  (Search.reach cfg.size (cfg.flowOn x) (cfg.succ v)).filter (x ∈ cfg.uses ·)

/-- The nodes that read a value which `v` assigns. -/
def fedBy (cfg : FlowGraph) (v : NodeId) : NodeSet :=
  .ofList ((cfg.defs v).toList.flatMap (cfg.readersOf v))

theorem mem_readersOf {cfg : FlowGraph} {v w : NodeId} {x : Symbol} :
    w ∈ cfg.readersOf v x ↔
      Search.Reachable cfg.size (cfg.flowOn x) (cfg.succ v) w ∧ x ∈ cfg.uses w := by
  simp [readersOf, Search.mem_reach]

theorem mem_fedBy {cfg : FlowGraph} {v w : NodeId} :
    w ∈ cfg.fedBy v ↔ ∃ x ∈ cfg.defs v, w ∈ cfg.readersOf v x := by
  simp [fedBy]

end FlowGraph

end Slicing
