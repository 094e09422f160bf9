import Slicing.FlowGraph.Basic
import Slicing.NodeTable

/-!
# Orders on nodes

A `NodeOrder` is a list of nodes without repetition, with a table of their
positions. It ranks the nodes that it lists, sorts lists of them, and can be shown
as a text with one line a node.

There are two ways to make one. `NodeOrder.ofList` enters the nodes one by one and
looks for repetitions; `NodeOrder.ofNodup` numbers a list that is known to have none.

`NodeOrder.bySource` lists all nodes of a flow graph as they stand in the source:
the start first, the finish last, the others by range and then by node.
-/
namespace Slicing

/-- A list of nodes without repetition, with the position of each. -/
structure NodeOrder where
  nodes : List NodeId
  indices : NodeTable
  indexes : indices.Indexes nodes
deriving DecidableEq

namespace NodeOrder

theorem nodup (o : NodeOrder) : o.nodes.Nodup := o.indexes.nodup

def empty : NodeOrder := ⟨[], ∅, NodeTable.indexes_empty⟩

instance : EmptyCollection NodeOrder := ⟨empty⟩

instance : Inhabited NodeOrder := ⟨∅⟩

def length (o : NodeOrder) : Nat := o.nodes.length

/-- Adds a node at the end; it must not have a position yet. -/
def push (o : NodeOrder) (v : NodeId) : Except Violation NodeOrder :=
  match h : o.indices.get? v with
  | some i => .error (.repeated v i o.length)
  | none =>
    .ok ⟨o.nodes ++ [v], o.indices.insert v o.length,
      o.indexes.concat (o.indexes.get?_eq_none_iff.mp h)⟩

/-- The order that a list gives, unless a node stands in it twice. -/
def ofList (nodes : List NodeId) : Except Violation NodeOrder := nodes.foldlM push ∅

def ofNodup (nodes : List NodeId) (h : nodes.Nodup) : NodeOrder :=
  ⟨nodes, .ofEntries nodes.zipIdx, NodeTable.indexes_ofEntries h⟩

@[simp]
theorem nodes_ofNodup {nodes : List NodeId} (h : nodes.Nodup) : (ofNodup nodes h).nodes = nodes :=
  rfl

def position (o : NodeOrder) (v : NodeId) : Except Violation Nat :=
  match o.indices.get? v with
  | some i => .ok i
  | none => .error (.notOrdered v)

def nodeAt (o : NodeOrder) (i : Nat) : Except Violation NodeId :=
  match o.nodes[i]? with
  | some v => .ok v
  | none => .error (.indexOutside i o.length)

def compare (o : NodeOrder) (a b : NodeId) : Except Violation Ordering :=
  return Ord.compare (← o.position a) (← o.position b)

def precedes (o : NodeOrder) (a b : NodeId) : Except Violation Bool :=
  return (← o.compare a b) == .lt

/-- Sorts nodes by position, repetitions kept. -/
def sort (o : NodeOrder) (nodes : List NodeId) : Except Violation (List NodeId) := do
  let keyed ← nodes.mapM fun v => return (← o.position v, v)
  return (keyed.mergeSort fun a b => a.1 ≤ b.1).map Prod.snd

/-- The line of a node in a listing. -/
def line (cfg : FlowGraph) (v : NodeId) : Except Violation String :=
  match cfg.statement? v with
  | some s => .ok s!"{s}\n"
  | none => .error (.foreign v)

def listing (o : NodeOrder) (cfg : FlowGraph) : Except Violation String :=
  return String.join (← o.nodes.mapM (line cfg))

end NodeOrder

namespace FlowGraph

/-- Terminals stand at the ends of the source order. -/
def sourceRank (cfg : FlowGraph) (v : NodeId) : Nat :=
  if v = cfg.start then 0 else if v = cfg.finish then 2 else 1

/-- The first node does not come after the second in the source. -/
def SourceLE (cfg : FlowGraph) (a b : NodeId) : Prop :=
  cfg.sourceRank a < cfg.sourceRank b ∨
    cfg.sourceRank a = cfg.sourceRank b ∧
      (cfg.range a < cfg.range b ∨ cfg.range a = cfg.range b ∧ a ≤ b)

instance (cfg : FlowGraph) (a b : NodeId) : Decidable (cfg.SourceLE a b) := by
  unfold SourceLE
  infer_instance

end FlowGraph

def NodeOrder.bySource (cfg : FlowGraph) : NodeOrder :=
  .ofNodup (cfg.nodes.mergeSort (cfg.SourceLE · ·))
    ((List.mergeSort_perm _ _).nodup_iff.mpr List.nodup_range)

end Slicing
