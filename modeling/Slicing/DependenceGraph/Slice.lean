import Slicing.DependenceGraph.Basic
import Slicing.Digraph.Search

/-!
# Slices

The backward slice of a node holds the node and all that it depends on, directly or
through others; the forward slice holds the node and all that depends on it. Slices
can be asked for by a place in the source. If several statements are there, the
configuration of the graph says which one is meant.
-/
namespace Slicing

inductive Direction where
  | backward
  | forward
deriving DecidableEq

namespace Direction

instance : Inhabited Direction := ⟨backward⟩

instance : ToString Direction where
  toString
    | backward => "backward"
    | forward => "forward"

def all : List Direction := [backward, forward]

end Direction

/-- A statement that lies at the place asked for. -/
structure Candidate where
  node : NodeId
  range : SourceRange
deriving DecidableEq

namespace TieBreak

/-- The first candidate is preferred to the second. Innermost means a later start, then an
earlier end; the lower node decides between equal ranges. -/
def Prefers (t : TieBreak) (a b : Candidate) : Prop :=
  match t with
  | first => a.node < b.node
  | innermost =>
    b.range.start < a.range.start ∨
      b.range.start = a.range.start ∧
        (a.range.stop < b.range.stop ∨ a.range.stop = b.range.stop ∧ a.node < b.node)

instance (t : TieBreak) (a b : Candidate) : Decidable (t.Prefers a b) := by
  unfold Prefers
  cases t <;> infer_instance

/-- The preferred one of several candidates. -/
def choose? (t : TieBreak) : List Candidate → Option Candidate
  | [] => none
  | c :: cs => some (cs.foldl (fun best d => if t.Prefers d best then d else best) c)

end TieBreak

namespace DependenceGraph

/-- The nodes one dependence away from a node. -/
def related (g : DependenceGraph) : Direction → NodeId → List NodeId
  | .backward, v => (g.dependencies v).nodes
  | .forward, v => (g.dependents v).nodes

/-- The slice of a node in a direction; empty for what is no node of the graph. -/
def sliceAlong (g : DependenceGraph) (d : Direction) (criterion : NodeId) : NodeSet :=
  if criterion ∈ g then .ofList (Search.reach g.size (g.related d) [criterion]) else ∅

/-- The node and all that it depends on. -/
def slice (g : DependenceGraph) : NodeId → NodeSet := g.sliceAlong .backward

/-- The node and all that depends on it. -/
def forwardSlice (g : DependenceGraph) : NodeId → NodeSet := g.sliceAlong .forward

theorem mem_sliceAlong {g : DependenceGraph} {d : Direction} {c w : NodeId} :
    w ∈ g.sliceAlong d c ↔ c ∈ g ∧ Search.Reachable g.size (g.related d) [c] w := by
  unfold sliceAlong
  split
  · next h => rw [SortedSet.mem_ofList, Search.mem_reach, and_iff_right h]
  · next h => exact ⟨fun h' => absurd h' (SortedSet.not_mem_empty w), fun h' => absurd h'.1 h⟩

/-- The statements whose ranges contain a location, in ascending order. -/
def candidates (g : DependenceGraph) (l : SourceLocation) : List Candidate :=
  (List.range g.size).filterMap fun v =>
    ((g.entry v).range?.filter (l ∈ ·)).map (.mk v)

def statementAt? (g : DependenceGraph) (l : SourceLocation) : Option NodeId :=
  (g.config.tieBreak.choose? (g.candidates l)).map Candidate.node

def sliceAt? (g : DependenceGraph) (l : SourceLocation) : Option NodeSet :=
  (g.statementAt? l).map g.slice

end DependenceGraph

end Slicing
