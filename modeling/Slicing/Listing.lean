import Slicing.DependenceGraph.Slice
import Slicing.NodeOrder

/-!
# Listings of slices

The statements of a slice as they stand in the source, one line each.
-/
namespace Slicing

def FlowGraph.listSet (cfg : FlowGraph) (nodes : NodeSet) : Except Violation String := do
  let sorted ← (NodeOrder.bySource cfg).sort nodes.toList
  (← NodeOrder.ofList sorted).listing cfg

/-- Lists the slice of the statement at a location, if there is one. -/
def DependenceGraph.listSliceAt? (g : DependenceGraph) (cfg : FlowGraph) (l : SourceLocation) :
    Except Violation (Option String) :=
  match g.sliceAt? l with
  | none => return none
  | some s => return some (← cfg.listSet s)

end Slicing
