import Slicing.Digraph.Basic
import Slicing.Postdominators.Tree

/-!
# Control dependence

A node depends on a branch if the branch decides whether it is passed on the way to
the exit: it postdominates one successor of the branch and not another.
-/
namespace Slicing

/-- The nodes that postdominate some but not all successors of a node. -/
def Digraph.controlledBy (g : Digraph) (t : PostdominatorTree) (v : NodeId) : NodeSet :=
  match (g.succ v).map t.postdominators with
  | [] => ∅
  | s :: rest => (rest.foldl .union s).diff (rest.foldl .inter s)

theorem Digraph.mem_controlledBy {g : Digraph} {t : PostdominatorTree} {v a : NodeId} :
    a ∈ g.controlledBy t v ↔
      (∃ s ∈ g.succ v, t.Postdominates a s) ∧ ∃ s ∈ g.succ v, ¬t.Postdominates a s := by
  unfold controlledBy
  cases g.succ v with
  | nil => simp
  | cons s rest =>
    rw [List.map_cons, SortedSet.mem_diff, SortedSet.mem_foldl_union, SortedSet.mem_foldl_inter,
      ← List.map_cons]
    generalize s :: rest = l
    refine and_congr ⟨?_, ?_⟩ (by simp)
    · rintro ⟨_, ht, ha⟩
      obtain ⟨s, hs, rfl⟩ := List.mem_map.mp ht
      exact ⟨s, hs, PostdominatorTree.mem_postdominators.mp ha⟩
    · rintro ⟨s, hs, ha⟩
      exact ⟨_, List.mem_map_of_mem hs, PostdominatorTree.mem_postdominators.mpr ha⟩

end Slicing
