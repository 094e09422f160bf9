import Slicing.Digraph.Finish
import Slicing.Postdominators.Estimates
import Slicing.Postdominators.Tree

/-!
# Computing postdominators

The nodes that reach the exit are numbered in the finishing order of a search from
the exit over the reversed graph. Sweeps go from the highest number below the
exit's down to zero. A sweep replaces the estimate of each number by the point
where the climbs from its successors meet, and it uses the estimates that it has
already replaced. The sweeps end when one of them raises no estimate.

A successor list that does not belong to the predecessor lists can leave a node
without any successor to climb from. That, and an exit outside the graph, are the
two ways in which the computation fails.
-/
namespace Slicing

namespace Digraph

/-- The nodes that reach the exit; the position of a node is its number. -/
def exitOrder (g : Digraph) (exit : NodeId) : List NodeId := g.reverse.finishOrder exit

section
variable (g : Digraph) (order : List NodeId)

/-- The number of a node, provided that it has an estimate. -/
def known? (e : Estimates) (v : NodeId) : Option Nat :=
  (order.idxOf? v).filter fun k => (e.get? k).isSome

/-- Where the climbs from the successors of a node meet. -/
def estimate (e : Estimates) (v : NodeId) : Except Violation Nat :=
  match (g.succ v).filterMap (known? order e) with
  | [] => .error (.noKnownSuccessor v)
  | k :: ks => ks.foldlM e.meet k

def revise (e : Estimates) (v : NodeId × Nat) : Except Violation Estimates :=
  return e.set v.2 (← g.estimate order e v.1)

/-- Replaces all estimates but the exit's, from the highest number down. -/
def sweep (e : Estimates) : Except Violation Estimates :=
  order.zipIdx.dropLast.reverse.foldlM (g.revise order) e

/-- Sweeps as long as estimates rise; gives the last estimates and the number of sweeps. -/
def settle (e : Estimates) (sweeps : Nat) : Except Violation (Estimates × Nat) :=
  match g.sweep order e with
  | .error v => .error v
  | .ok next =>
    if next.slack < e.slack then settle next (sweeps + 1)
    else .ok (next, sweeps + 1)
termination_by e.slack

variable {g order} in
theorem settle_of_error {e : Estimates} {v : Violation} (h : g.sweep order e = .error v)
    (sweeps : Nat) : g.settle order e sweeps = .error v := by
  rw [settle, h]

variable {g order} in
theorem settle_of_slack_lt {e next : Estimates} (h : g.sweep order e = .ok next)
    (hlt : next.slack < e.slack) (sweeps : Nat) :
    g.settle order e sweeps = g.settle order next (sweeps + 1) := by
  rw [settle, h]
  exact if_pos hlt

variable {g order} in
theorem settle_of_not_slack_lt {e next : Estimates} (h : g.sweep order e = .ok next)
    (hlt : ¬next.slack < e.slack) (sweeps : Nat) :
    g.settle order e sweeps = .ok (next, sweeps + 1) := by
  rw [settle, h]
  exact if_neg hlt

/-- The immediate postdominator that an estimate stands for. -/
def parent? (e : Estimates) (v : NodeId) : Option NodeId := do
  order[← e.get? (← order.idxOf? v)]?

end

def postdominators (g : Digraph) (exit : NodeId) : Except Violation PostdominatorTree :=
  if exit < g.size then do
    let order := g.exitOrder exit
    let (e, sweeps) ← g.settle order (.initial order.length) 0
    return { exit, parents := (g.nodes.map (parent? order e)).toArray, sweeps }
  else .error (.exitOutside exit g.size)

end Digraph

end Slicing
