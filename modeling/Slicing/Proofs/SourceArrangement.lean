import Mathlib.Data.Prod.Lex
import Slicing.Proofs.Ranking
import Slicing.Proofs.SourceOrder

/-!
# Listing a graph by source

All nodes of a graph can be listed as they stand in the source in exactly one way. The terminals
are at the ends, whatever their statements say, and between them the start of the range decides,
then its end, then the node itself.

The order by source is numbered without a search for repetitions. It is the order that the search
would accept.
-/
namespace Slicing

namespace FlowGraph

variable {cfg : FlowGraph} {nodes : List NodeId} {a b v : NodeId}

/-- What decides about the place of a node between the terminals. -/
def sourceKey (cfg : FlowGraph) (v : NodeId) : SourceLocation ×ₗ SourceLocation ×ₗ NodeId :=
  toLex ((cfg.range v).start, toLex ((cfg.range v).stop, v))

structure Between (cfg : FlowGraph) (v : NodeId) : Prop where
  lt_size : v < cfg.size
  ne_start : v ≠ cfg.start
  ne_finish : v ≠ cfg.finish

/-- The list holds all nodes of the graph as they stand in the source. -/
structure FollowsSource (cfg : FlowGraph) (nodes : List NodeId) : Prop where
  perm : nodes.Perm cfg.nodes
  first : nodes.head? = some cfg.start
  last : nodes.getLast? = some cfg.finish
  between : ∀ a b, cfg.Between a → cfg.Between b →
    ([a, b].Sublist nodes ↔ cfg.sourceKey a < cfg.sourceKey b)

theorem Between.sourceRank_eq (h : cfg.Between v) : cfg.sourceRank v = 1 := by
  rw [sourceRank, if_neg h.ne_start, if_neg h.ne_finish]

theorem sourceKey_lt_iff :
    cfg.sourceKey a < cfg.sourceKey b ↔
      cfg.range a < cfg.range b ∨ cfg.range a = cfg.range b ∧ a < b := by
  have hrange : cfg.range a = cfg.range b ↔
      (cfg.range a).start = (cfg.range b).start ∧ (cfg.range a).stop = (cfg.range b).stop := by
    cases cfg.range a
    cases cfg.range b
    rw [SourceRange.mk.injEq]
  simp only [sourceKey, Prod.Lex.toLex_lt_toLex, hrange, SourceRange.lt_def]
  tauto

/-- Between the terminals the order of the source goes by the key. -/
theorem Between.sourceKey_lt_iff_sourceLE (ha : cfg.Between a) (hb : cfg.Between b) :
    cfg.sourceKey a < cfg.sourceKey b ↔ a ≠ b ∧ cfg.SourceLE a b := by
  rw [sourceKey_lt_iff, SourceLE, ha.sourceRank_eq, hb.sourceRank_eq]
  simp only [Nat.lt_irrefl, false_or, true_and]
  by_cases hab : a = b
  · subst hab
    have hirrefl := SourceRange.lt_irrefl (cfg.range a)
    exact iff_of_false (by simp [hirrefl]) fun h => h.1 rfl
  · have hlt : a < b ↔ a ≤ b := ⟨Nat.le_of_lt, fun hle => Nat.lt_of_le_of_ne hle hab⟩
    rw [and_iff_right hab, hlt]

theorem sourceLE_finish (cfg : FlowGraph) (v : NodeId) : cfg.SourceLE v cfg.finish := by
  have hrank : cfg.sourceRank cfg.finish = 2 := by
    rw [sourceRank, if_neg cfg.start_ne_finish.symm, if_pos rfl]
  by_cases hv : v = cfg.finish
  · exact hv ▸ .inr ⟨rfl, .inr ⟨rfl, Nat.le_refl _⟩⟩
  · refine .inl ?_
    rw [hrank, sourceRank, if_neg hv]
    split <;> decide

theorem pair_sublist_bySource_iff (ha : a < cfg.size) (hb : b < cfg.size) :
    [a, b].Sublist (NodeOrder.bySource cfg).nodes ↔ a ≠ b ∧ cfg.SourceLE a b := by
  have hle : ∀ {x y : NodeId}, [x, y].Sublist (NodeOrder.bySource cfg).nodes → cfg.SourceLE x y :=
    fun hs => List.pairwise_iff_forall_sublist.mp cfg.pairwise_bySource hs
  have hn := (NodeOrder.bySource cfg).nodup
  constructor
  · intro hs
    refine ⟨?_, hle hs⟩
    rintro rfl
    exact pair_sublist_irrefl hn hs
  · rintro ⟨hne, hab⟩
    obtain ⟨i, hi⟩ := List.mem_iff_getElem?.mp (mem_bySource.mpr ha)
    obtain ⟨j, hj⟩ := List.mem_iff_getElem?.mp (mem_bySource.mpr hb)
    rcases Nat.lt_trichotomy i j with hlt | heq | hgt
    · exact (pair_sublist_iff hn hi hj).mpr hlt
    · subst heq
      exact absurd (Option.some.inj (hi.symm.trans hj)) hne
    · have hba : cfg.SourceLE b a := hle ((pair_sublist_iff hn hj hi).mpr hgt)
      exact absurd (hab.antisymm hba) hne

theorem followsSource_bySource (cfg : FlowGraph) :
    cfg.FollowsSource (NodeOrder.bySource cfg).nodes where
  perm := List.mergeSort_perm _ _
  first := by
    refine (head?_eq_some_iff (NodeOrder.bySource cfg).nodup).mpr
      ⟨mem_bySource.mpr cfg.start_lt, fun v hs => ?_⟩
    have hv : v < cfg.size := mem_bySource.mp (hs.subset List.mem_cons_self)
    obtain ⟨hne, hle⟩ := (pair_sublist_bySource_iff hv cfg.start_lt).mp hs
    exact hne (hle.antisymm (cfg.start_sourceLE v))
  last := by
    refine (getLast?_eq_some_iff (NodeOrder.bySource cfg).nodup).mpr
      ⟨mem_bySource.mpr cfg.finish_lt, fun v hs => ?_⟩
    have hv : v < cfg.size := mem_bySource.mp
      (hs.subset (List.mem_cons_of_mem _ List.mem_cons_self))
    obtain ⟨hne, hle⟩ := (pair_sublist_bySource_iff cfg.finish_lt hv).mp hs
    exact hne (hle.antisymm (cfg.sourceLE_finish v))
  between := by
    intro a b ha hb
    rw [pair_sublist_bySource_iff ha.lt_size hb.lt_size, ha.sourceKey_lt_iff_sourceLE hb]

theorem FollowsSource.pairwise (h : cfg.FollowsSource nodes) : nodes.Pairwise cfg.SourceLE := by
  have hn : nodes.Nodup := h.perm.nodup_iff.mpr List.nodup_range
  have hlt : ∀ {v}, v ∈ nodes → v < cfg.size := fun hv => List.mem_range.mp (h.perm.mem_iff.mp hv)
  refine List.pairwise_iff_forall_sublist.mpr fun {a b} hs => ?_
  have ha : a < cfg.size := hlt (hs.subset List.mem_cons_self)
  have hb : b < cfg.size := hlt (hs.subset (List.mem_cons_of_mem a List.mem_cons_self))
  by_cases hstart : a = cfg.start
  · exact hstart ▸ cfg.start_sourceLE b
  by_cases hfinish : b = cfg.finish
  · exact hfinish ▸ cfg.sourceLE_finish a
  have hbstart : b ≠ cfg.start := by
    rintro rfl
    exact ((head?_eq_some_iff hn).mp h.first).2 a hs
  have hafinish : a ≠ cfg.finish := by
    rintro rfl
    exact ((getLast?_eq_some_iff hn).mp h.last).2 b hs
  have hbetween : cfg.Between a := ⟨ha, hstart, hafinish⟩
  have hkey := (h.between a b hbetween ⟨hb, hbstart, hfinish⟩).mp hs
  exact ((hbetween.sourceKey_lt_iff_sourceLE ⟨hb, hbstart, hfinish⟩).mp hkey).2

/-- The order by source is the only list of all nodes that begins with the start, ends with the
finish and goes by range and node in between. The order made from this list, with a search for
repetitions, is the same, so that its positions are those of the list. -/
theorem bySource_unique_source_order (cfg : FlowGraph) :
    (∀ nodes, cfg.FollowsSource nodes ↔ nodes = (NodeOrder.bySource cfg).nodes) ∧
      NodeOrder.ofList (NodeOrder.bySource cfg).nodes = .ok (NodeOrder.bySource cfg) ∧
      ∀ i v, (NodeOrder.bySource cfg).nodeAt i = .ok v ↔
        (NodeOrder.bySource cfg).position v = .ok i := by
  refine ⟨fun nodes => ⟨fun h => eq_bySource h.perm h.pairwise, ?_⟩,
    NodeOrder.ofList_eq_ok_iff.mpr rfl, fun i v => ?_⟩
  · rintro rfl
    exact cfg.followsSource_bySource
  · rw [NodeOrder.nodeAt_eq_ok_iff, NodeOrder.position_eq_ok_iff]

end FlowGraph

end Slicing
