import Mathlib.Data.List.Sort
import Slicing.NodeOrder

/-!
# The order of the source

Locations are ordered linearly, and so are ranges, by their start and then by their end. The order
of the nodes in the source puts the start before all others and the finish after them. What lies
between is ordered by range, and the node itself decides between equal ranges. Hence no two nodes
are equal in this order, and sorting by it lists every node of the graph once.
-/
namespace Slicing

namespace SourceLocation

variable {a b c : SourceLocation}

theorem le_antisymm (hab : a ≤ b) (hba : b ≤ a) : a = b := by
  obtain ⟨line, column⟩ := a
  obtain ⟨line', column'⟩ := b
  simp only [le_def] at hab hba
  have hline : line = line' := by omega
  have hcolumn : column = column' := by omega
  rw [hline, hcolumn]

theorem le_trans (hab : a ≤ b) (hbc : b ≤ c) : a ≤ c := by
  simp only [le_def] at *
  omega

theorem le_total (a b : SourceLocation) : a ≤ b ∨ b ≤ a := by
  simp only [le_def]
  omega

instance : Std.IsLinearOrder SourceLocation where
  le_refl _ := .inr ⟨rfl, Nat.le_refl _⟩
  le_trans _ _ _ := le_trans
  le_antisymm _ _ := le_antisymm
  le_total := le_total

instance : Std.LawfulOrderLT SourceLocation where
  lt_iff a b := by
    simp only [le_def, lt_def]
    omega

end SourceLocation

namespace SourceRange

variable {a b c : SourceRange}

theorem lt_irrefl (a : SourceRange) : ¬a < a := by
  rw [lt_def]
  grind

theorem lt_trans (hab : a < b) (hbc : b < c) : a < c := by
  rw [lt_def] at *
  grind

theorem lt_trichotomy (a b : SourceRange) : a < b ∨ a = b ∨ b < a := by
  obtain ⟨start, stop⟩ := a
  obtain ⟨start', stop'⟩ := b
  simp only [lt_def, mk.injEq]
  grind

end SourceRange

namespace FlowGraph

variable {cfg : FlowGraph} {a b c v : NodeId}

theorem SourceLE.total (cfg : FlowGraph) (a b : NodeId) :
    cfg.SourceLE a b ∨ cfg.SourceLE b a := by
  have htri := SourceRange.lt_trichotomy (cfg.range a) (cfg.range b)
  unfold SourceLE
  grind

theorem SourceLE.trans (hab : cfg.SourceLE a b) (hbc : cfg.SourceLE b c) : cfg.SourceLE a c := by
  have htrans := @SourceRange.lt_trans (cfg.range a) (cfg.range b) (cfg.range c)
  unfold SourceLE at *
  grind

theorem SourceLE.antisymm (hab : cfg.SourceLE a b) (hba : cfg.SourceLE b a) : a = b := by
  have hirrefl := SourceRange.lt_irrefl (cfg.range a)
  have htrans := @SourceRange.lt_trans (cfg.range a) (cfg.range b) (cfg.range a)
  unfold SourceLE at *
  grind

instance (cfg : FlowGraph) : Std.Total cfg.SourceLE := ⟨SourceLE.total cfg⟩

instance (cfg : FlowGraph) : IsTrans NodeId cfg.SourceLE := ⟨fun _ _ _ => SourceLE.trans⟩

theorem start_sourceLE (cfg : FlowGraph) (v : NodeId) : cfg.SourceLE cfg.start v := by
  have hrank : cfg.sourceRank cfg.start = 0 := if_pos rfl
  by_cases hv : v = cfg.start
  · exact hv ▸ .inr ⟨rfl, .inr ⟨rfl, Nat.le_refl _⟩⟩
  · refine .inl ?_
    rw [hrank, sourceRank, if_neg hv]
    split <;> decide

theorem mem_bySource : v ∈ (NodeOrder.bySource cfg).nodes ↔ v < cfg.size := by
  rw [NodeOrder.bySource, NodeOrder.nodes_ofNodup, (List.mergeSort_perm _ _).mem_iff]
  exact List.mem_range

theorem pairwise_bySource (cfg : FlowGraph) :
    (NodeOrder.bySource cfg).nodes.Pairwise cfg.SourceLE :=
  List.pairwise_mergeSort' cfg.SourceLE cfg.nodes

/-- There is no other way to list the nodes as they stand in the source. -/
theorem eq_bySource {nodes : List NodeId} (hperm : nodes.Perm cfg.nodes)
    (hsorted : nodes.Pairwise cfg.SourceLE) : nodes = (NodeOrder.bySource cfg).nodes := by
  have hbySource : nodes.Perm (NodeOrder.bySource cfg).nodes :=
    hperm.trans (List.mergeSort_perm _ _).symm
  exact hbySource.eq_of_pairwise (fun _ _ _ _ => SourceLE.antisymm) hsorted cfg.pairwise_bySource

end FlowGraph

end Slicing
