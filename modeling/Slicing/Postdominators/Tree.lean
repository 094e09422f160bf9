import Slicing.NodeId

/-!
# Postdominator trees

A tree maps each of its nodes to the immediate postdominator, the exit to itself,
and nodes that do not reach the exit to nothing. The postdominators of a node are
the chain that leads from it to the exit. A node outside the tree has only itself.
-/
namespace Slicing

/-- Immediate postdominators, and the number of sweeps that it took to find them. -/
structure PostdominatorTree where
  exit : NodeId
  parents : Array (Option NodeId)
  sweeps : Nat
deriving DecidableEq

namespace PostdominatorTree

/-- Number of nodes of the graph, in the tree or not. -/
def size (t : PostdominatorTree) : Nat := t.parents.size

def immediate? (t : PostdominatorTree) (v : NodeId) : Option NodeId := t.parents.getD v none

instance : Membership NodeId PostdominatorTree := ⟨fun t v => (t.immediate? v).isSome⟩

theorem mem_def {t : PostdominatorTree} {v : NodeId} : v ∈ t ↔ (t.immediate? v).isSome := Iff.rfl

instance (v : NodeId) (t : PostdominatorTree) : Decidable (v ∈ t) :=
  inferInstanceAs (Decidable ((t.immediate? v).isSome = true))

def memberCount (t : PostdominatorTree) : Nat := (List.range t.size).countP (· ∈ t)

/-- The next node on the way to the exit. -/
def next? (t : PostdominatorTree) (v : NodeId) : Option NodeId :=
  (t.immediate? v).filter (· ≠ v)

def climb (t : PostdominatorTree) : Nat → NodeId → List NodeId
  | 0, v => [v]
  | steps + 1, v => v :: (t.next? v).elim [] (t.climb steps)

/-- The postdominators of a node, from itself to the exit. A chain repeats no node, so as many
steps as the graph has nodes are enough. -/
def chain (t : PostdominatorTree) (v : NodeId) : List NodeId := t.climb t.size v

def postdominators (t : PostdominatorTree) (v : NodeId) : NodeSet := .ofList (t.chain v)

/-- Every way from `b` to the exit leads through `a`, as far as the tree tells. -/
def Postdominates (t : PostdominatorTree) (a b : NodeId) : Prop := a ∈ t.chain b

def StrictlyPostdominates (t : PostdominatorTree) (a b : NodeId) : Prop :=
  a ≠ b ∧ t.Postdominates a b

instance (t : PostdominatorTree) (a b : NodeId) : Decidable (t.Postdominates a b) :=
  inferInstanceAs (Decidable (a ∈ t.chain b))

instance (t : PostdominatorTree) (a b : NodeId) : Decidable (t.StrictlyPostdominates a b) :=
  inferInstanceAs (Decidable (a ≠ b ∧ t.Postdominates a b))

@[simp]
theorem mem_postdominators {t : PostdominatorTree} {a b : NodeId} :
    a ∈ t.postdominators b ↔ t.Postdominates a b := SortedSet.mem_ofList

end PostdominatorTree

end Slicing
