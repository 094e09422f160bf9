import Slicing.SortedSet

/-!
# Nodes

A node of a graph is its index, counted from zero in the order of insertion.
-/
namespace Slicing

/-- A node of a graph, given by its index. -/
abbrev NodeId := Nat

namespace NodeId

def label (v : NodeId) : String := s!"n{v}"

def detail (v : NodeId) : String := s!"NodeId({v})"

end NodeId

abbrev NodeSet := SortedSet NodeId

end Slicing
