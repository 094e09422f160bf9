import Mathlib.Order.Bounds.Defs
import Slicing.Proofs.Messages
import Slicing.Proofs.SliceClosure

/-!
# What the reachability check reports

The check compares two walks with the list of all nodes. It passes exactly if every node lies on a
path from the start to the finish; otherwise it names the lowest node that the start does not
reach or, if there is none, the lowest node that does not reach the finish. The walk from the finish
against the edges visits exactly the nodes of the postdominator tree, although the tree numbers
them in an order of its own.
-/
namespace Slicing

/-- The first missing node is the lowest one, in whatever order the others were visited. -/
theorem Digraph.firstMissing?_eq_some_iff {g : Digraph} {visited : List NodeId} {v : NodeId} :
    g.firstMissing? visited = some v ↔ IsLeast {w | w < g.size ∧ w ∉ visited} v := by
  rw [firstMissing?, nodes, List.find?_range_eq_some]
  constructor
  · rintro ⟨hmissing, hlt, hbefore⟩
    refine ⟨⟨List.mem_range.mp hlt, of_decide_eq_true hmissing⟩, fun w hw => ?_⟩
    apply Nat.le_of_not_lt
    intro hwv
    have hvisited := hbefore w hwv
    simp [hw.2] at hvisited
  · rintro ⟨⟨hlt, hmissing⟩, hlowest⟩
    refine ⟨decide_eq_true hmissing, List.mem_range.mpr hlt, fun w hwv => ?_⟩
    have hvisited : w ∈ visited := by
      by_contra hw
      exact Nat.not_le_of_lt hwv (hlowest ⟨Nat.lt_trans hwv hlt, hw⟩)
    simp [hvisited]

namespace FlowGraph

variable {cfg : FlowGraph} {t : PostdominatorTree} {v : NodeId} {x : Violation}

/-- The nodes that the start does not reach. -/
def unreached (cfg : FlowGraph) : Set NodeId := {v | v < cfg.size ∧ ¬cfg.Reaches cfg.start v}

/-- The nodes that do not reach the finish. -/
def trapped (cfg : FlowGraph) : Set NodeId := {v | v < cfg.size ∧ ¬cfg.Reaches v cfg.finish}

theorem mem_visitOrder_finish_iff :
    v ∈ cfg.reverse.visitOrder cfg.finish ↔ cfg.Reaches v cfg.finish := by
  rw [Digraph.mem_visitOrder, Digraph.reaches_reverse_iff cfg.consistent]

theorem isLeast_unreached_iff :
    IsLeast cfg.unreached v ↔ cfg.firstMissing? (cfg.visitOrder cfg.start) = some v := by
  rw [Digraph.firstMissing?_eq_some_iff]
  simp only [Digraph.mem_visitOrder, unreached]

theorem isLeast_trapped_iff :
    IsLeast cfg.trapped v ↔ cfg.firstMissing? (cfg.reverse.visitOrder cfg.finish) = some v := by
  rw [Digraph.firstMissing?_eq_some_iff]
  simp only [mem_visitOrder_finish_iff, trapped]

theorem unreached_eq_empty_iff :
    cfg.unreached = ∅ ↔ cfg.firstMissing? (cfg.visitOrder cfg.start) = none := by
  rw [Digraph.firstMissing?_eq_none_iff]
  simp only [Digraph.mem_visitOrder]
  simp [unreached, Set.eq_empty_iff_forall_notMem]

theorem checkReachability_eq_error_iff :
    cfg.checkReachability = .error x ↔
      (∃ v, IsLeast cfg.unreached v ∧ x = .unreachable cfg.start v) ∨
      cfg.unreached = ∅ ∧ ∃ v, IsLeast cfg.trapped v ∧ x = .endless cfg.finish v := by
  simp only [isLeast_unreached_iff, isLeast_trapped_iff, unreached_eq_empty_iff]
  unfold checkReachability
  split
  · next hv => simp [hv, eq_comm]
  · next hnone =>
    split
    · next hv => simp [hnone, hv, eq_comm]
    · next hnone' => simp [hnone, hnone']

/-- The check of reachability decides whether every node lies on the way from the start to the
finish, and where it fails it names the lowest node that does not. The tree of postdominators holds
the nodes of its walk from the finish, and after a check that passed every other node has an
immediate postdominator. -/
theorem checkReachability_names_lowest (cfg : FlowGraph) :
    (cfg.checkReachability = .ok () ↔
      ∀ v < cfg.size, cfg.Reaches cfg.start v ∧ cfg.Reaches v cfg.finish) ∧
    (∀ x, cfg.checkReachability = .error x ↔
      (∃ v, IsLeast cfg.unreached v ∧ x = .unreachable cfg.start v) ∨
      cfg.unreached = ∅ ∧ ∃ v, IsLeast cfg.trapped v ∧ x = .endless cfg.finish v) ∧
    (∀ v : NodeId, v.label.toList <:+: (Violation.unreachable cfg.start v).message.toList ∧
      v.label.toList <:+: (Violation.endless cfg.finish v).message.toList) ∧
    ∃ t, cfg.postdominatorTree = .ok t ∧
      (∀ v, v ∈ t ↔ v ∈ cfg.reverse.visitOrder cfg.finish) ∧
      ((∀ v < cfg.size, v ∈ cfg.reverse.visitOrder cfg.finish) ↔ ∀ v < cfg.size, v ∈ t) ∧
      (cfg.checkReachability = .ok () → ∀ v < cfg.size, v ≠ cfg.finish →
        ∃ d, t.immediate? v = some d ∧ d ≠ v ∧ cfg.IsImmediatePostdominator cfg.finish d v) := by
  obtain ⟨t, hok, ht⟩ := cfg.exists_exact
  have hmem : ∀ v, v ∈ t ↔ v ∈ cfg.reverse.visitOrder cfg.finish := by
    intro v
    rw [ht.mem_iff, mem_visitOrder_finish_iff]
  refine ⟨checkReachability_eq_ok_iff, fun x => checkReachability_eq_error_iff, ?_, t, hok, hmem,
    ?_, ?_⟩
  · intro v
    exact ⟨Violation.label_infix_unreachable _ v, Violation.label_infix_endless _ v⟩
  · simp only [hmem]
  · intro hcheck v hv hne
    have hreaches := (checkReachability_eq_ok_iff.mp hcheck v hv).2
    obtain ⟨d, hd⟩ := ht.exists_immediate? hreaches
    exact ⟨d, hd, ht.immediate?_ne hd hne, ht.isImmediatePostdominator hd hne⟩

end FlowGraph

end Slicing
