import Slicing.Digraph.Basic
import Slicing.Digraph.Marks

/-!
# Finishing order

The order in which a depth-first search leaves the nodes. The search keeps an
explicit stack of the nodes that it has entered and not left, each with those of
its successors that it has not looked at. A node is left when no unmet successor
remains, so the start is always last.
-/
namespace Slicing

namespace Digraph

/-- Runs the search until the stack is empty; gives the nodes in the order of leaving. -/
def unwind (g : Digraph) (stack : List (NodeId × List NodeId)) (seen : Marks) : List NodeId :=
  match stack with
  | [] => []
  | (v, rest) :: below =>
    match h : seen.skip rest with
    | [] => v :: unwind g below seen
    | w :: rest' =>
      have := Marks.remaining_mark (Marks.unmet_of_skip_eq_cons h)
      unwind g ((w, g.succ w) :: (v, rest') :: below) (seen.mark w)
termination_by 2 * seen.remaining + stack.length
decreasing_by
  · simp
  · simp only [List.length_cons]
    omega

@[simp]
theorem unwind_nil (g : Digraph) (seen : Marks) : g.unwind [] seen = [] := by
  rw [unwind]

theorem unwind_of_skip_eq_nil {g : Digraph} {v : NodeId} {rest : List NodeId}
    {below : List (NodeId × List NodeId)} {seen : Marks} (h : seen.skip rest = []) :
    g.unwind ((v, rest) :: below) seen = v :: g.unwind below seen := by
  rw [unwind]
  split
  · rfl
  · next h' => exact absurd (h.symm.trans h') (List.cons_ne_nil _ _).symm

theorem unwind_of_skip_eq_cons {g : Digraph} {v w : NodeId} {rest rest' : List NodeId}
    {below : List (NodeId × List NodeId)} {seen : Marks} (h : seen.skip rest = w :: rest') :
    g.unwind ((v, rest) :: below) seen =
      g.unwind ((w, g.succ w) :: (v, rest') :: below) (seen.mark w) := by
  rw [unwind]
  split
  · next h' => exact absurd (h'.symm.trans h) (List.cons_ne_nil _ _).symm
  · next h' =>
    obtain ⟨rfl, rfl⟩ := List.cons.inj (h'.symm.trans h)
    rfl

theorem unwind_cons_of_not_unmet {g : Digraph} {v w : NodeId} {rest : List NodeId}
    {below : List (NodeId × List NodeId)} {seen : Marks} (h : ¬seen.Unmet w) :
    g.unwind ((v, w :: rest) :: below) seen = g.unwind ((v, rest) :: below) seen := by
  have hs := Marks.skip_cons_of_not_unmet rest h
  cases hr : seen.skip rest with
  | nil => rw [unwind_of_skip_eq_nil (hs.trans hr), unwind_of_skip_eq_nil hr]
  | cons x xs => rw [unwind_of_skip_eq_cons (hs.trans hr), unwind_of_skip_eq_cons hr]

theorem unwind_cons_of_unmet {g : Digraph} {v w : NodeId} {rest : List NodeId}
    {below : List (NodeId × List NodeId)} {seen : Marks} (h : seen.Unmet w) :
    g.unwind ((v, w :: rest) :: below) seen =
      g.unwind ((w, g.succ w) :: (v, rest) :: below) (seen.mark w) :=
  unwind_of_skip_eq_cons (Marks.skip_cons_of_unmet rest h)

/-- The nodes reachable from `start` in the order in which a depth-first search leaves them; a
start outside the graph gives none. -/
def finishOrder (g : Digraph) (start : NodeId) : List NodeId :=
  if start < g.size then
    unwind g [(start, g.succ start)] ((Marks.none g.size).mark start)
  else []

end Digraph

end Slicing
