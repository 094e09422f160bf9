import Slicing.DependenceGraph.Edge
import Slicing.Source

/-!
# Program dependence graphs

The nodes are those of a flow graph except its finish, which keeps its place in the
numbering and has no edges. Each node knows its dependents and its dependencies;
`DependenceGraph.connect` records a dependence at both of its ends.
-/
namespace Slicing

/-- Which of several statements at one place in the source is meant. -/
inductive TieBreak where
  | innermost
  | first
deriving DecidableEq, Inhabited

namespace TieBreak

instance : ToString TieBreak where
  toString
    | innermost => "innermost"
    | first => "first"

def all : List TieBreak := [innermost, first]

end TieBreak

/-- How a dependence graph is built and queried. -/
structure Config where
  tieBreak : TieBreak := .innermost
  /-- Whether reachability is checked before anything is built. -/
  checked : Bool := false
deriving DecidableEq, Inhabited

def Config.strict : Config := { checked := true }

/-- What a dependence graph knows of one node. -/
structure DependenceNode where
  dependents : EdgeSet := {}
  dependencies : EdgeSet := {}
  /-- The source range by which the node is found, if it stands for a real statement. -/
  range? : Option SourceRange := none
deriving DecidableEq, Inhabited

structure DependenceGraph where
  entries : Array DependenceNode
  start : NodeId
  finish : NodeId
  config : Config
deriving DecidableEq

/-- A dependence of one node on another: the target depends on the source. -/
structure Link where
  kind : Dependence
  source : NodeId
  target : NodeId
deriving DecidableEq

namespace DependenceGraph

/-- The number of places in the numbering, that of the finish included. -/
def size (g : DependenceGraph) : Nat := g.entries.size

def entry (g : DependenceGraph) (v : NodeId) : DependenceNode := g.entries.getD v {}

def dependents (g : DependenceGraph) (v : NodeId) : EdgeSet := (g.entry v).dependents

def dependencies (g : DependenceGraph) (v : NodeId) : EdgeSet := (g.entry v).dependencies

instance : Membership NodeId DependenceGraph := ⟨fun g v => v < g.size ∧ v ≠ g.finish⟩

theorem mem_def {g : DependenceGraph} {v : NodeId} : v ∈ g ↔ v < g.size ∧ v ≠ g.finish := Iff.rfl

instance (v : NodeId) (g : DependenceGraph) : Decidable (v ∈ g) :=
  inferInstanceAs (Decidable (v < g.size ∧ v ≠ g.finish))

def nodes (g : DependenceGraph) : List NodeId := (List.range g.size).filter (· ≠ g.finish)

theorem mem_nodes {g : DependenceGraph} {v : NodeId} : v ∈ g.nodes ↔ v ∈ g := by
  simp [nodes, mem_def]

/-- Number of nodes, one less than the flow graph has. -/
def nodeCount (g : DependenceGraph) : Nat := g.size - 1

def edgeCount (g : DependenceGraph) : Nat :=
  (g.entries.toList.map fun n => n.dependents.size).foldr (· + ·) 0

/-- Records a dependence at its source and at its target. -/
def connect (g : DependenceGraph) (l : Link) : DependenceGraph :=
  { g with
    entries := (g.entries.modify l.source fun n =>
        { n with dependents := n.dependents.insert ⟨l.kind, l.target⟩ }).modify l.target fun n =>
        { n with dependencies := n.dependencies.insert ⟨l.kind, l.source⟩ } }

@[simp]
theorem size_connect (g : DependenceGraph) (l : Link) : (g.connect l).size = g.size := by
  simp [size, connect]

theorem entry_connect (g : DependenceGraph) (l : Link) (v : NodeId) :
    (g.connect l).entry v =
      if v < g.size then
        { g.entry v with
          dependents := if v = l.source
            then (g.dependents v).insert ⟨l.kind, l.target⟩ else g.dependents v
          dependencies := if v = l.target
            then (g.dependencies v).insert ⟨l.kind, l.source⟩ else g.dependencies v }
      else g.entry v := by
  simp only [entry, connect, dependents, dependencies, size, Array.getD_eq_getD_getElem?,
    Array.getElem?_modify]
  by_cases h : v < g.entries.size
  · simp only [h, if_true, Array.getElem?_eq_getElem h, @eq_comm _ v]
    split <;> split <;> simp
  · simp [h]

def connectAll (g : DependenceGraph) (links : List Link) : DependenceGraph :=
  links.foldl connect g

end DependenceGraph

end Slicing
