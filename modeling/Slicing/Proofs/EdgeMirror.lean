import Mathlib.Combinatorics.Enumerative.DoubleCounting
import Mathlib.Logic.Relation
import Slicing.Proofs.SliceClosure

/-!
# Dependences are recorded at both ends

A dependence graph lists each dependence twice, at its source among the dependents and at its
target among the dependencies. On the dependence graph of a flow graph the two lists mirror
each other: the finish is left out at both ends, and everything that depends on something is a
node of the graph.

That the lists mirror each other is all that is needed for the rest. Counting the edges at
their sources and at their targets gives the same number. A backward slice holds what can be
reached over dependencies and a forward slice what can be reached over dependents, so the two
are converse to each other.
-/
namespace Slicing

theorem Search.Reachable.lt_bound {n : Nat} {next : NodeId → List NodeId}
    {seeds : List NodeId} {w : NodeId} (h : Reachable n next seeds w) : w < n := by
  cases h with
  | seed _ hw => exact hw
  | step _ _ hw => exact hw

theorem SortedSet.size_eq_card {s : NodeSet} {n : Nat} (h : ∀ v ∈ s, v < n) :
    s.size = ((Finset.range n).filter (· ∈ s)).card := by
  have hnodup : s.toList.Nodup := s.ascending.imp fun hlt => Nat.ne_of_lt hlt
  have hset : (Finset.range n).filter (· ∈ s) = s.toList.toFinset := by
    ext v
    rw [Finset.mem_filter, Finset.mem_range, List.mem_toFinset, SortedSet.mem_toList]
    exact ⟨fun hv => hv.2, fun hv => ⟨h v hv, hv⟩⟩
  rw [hset, List.toFinset_card_of_nodup hnodup, SortedSet.size]

theorem EdgeSet.exists_mem_of_size_ne_zero {s : EdgeSet} (h : s.size ≠ 0) : ∃ e, e ∈ s := by
  rw [← EdgeSet.length_toList] at h
  obtain ⟨e, he⟩ := List.exists_mem_of_length_pos (Nat.pos_of_ne_zero h)
  exact ⟨e, EdgeSet.mem_toList.mp he⟩

namespace DependenceGraph

variable {g : DependenceGraph} {d : Direction} {kind : Dependence} {a b c v w : NodeId}

/-- Every edge is recorded at both of its ends, which are nodes of the graph. -/
structure Mirrored (g : DependenceGraph) : Prop where
  mem_iff : ∀ {kind a b}, ⟨kind, b⟩ ∈ g.dependents a ↔ ⟨kind, a⟩ ∈ g.dependencies b
  ends_mem : ∀ {kind a b}, ⟨kind, b⟩ ∈ g.dependents a → a ∈ g ∧ b ∈ g

/-! ## Counting -/

theorem length_related : (g.related d v).length = (g.edges d v).size := by
  rw [← EdgeSet.length_toList]
  cases d <;> exact List.length_map _

theorem edgeCount_eq_sum (g : DependenceGraph) :
    g.edgeCount = ∑ v ∈ Finset.range g.size, (g.dependents v).size := by
  have hentries : g.entries.toList = (List.range g.size).map g.entry := by
    apply List.ext_getElem
    · simp [size]
    · intro i hi _
      simp at hi
      simp [entry, hi]
  rw [edgeCount, hentries, List.map_map]
  rfl

namespace Mirrored

/-- The edges of one kind, counted at their targets and at their sources. -/
theorem sum_ofKind (h : g.Mirrored) (kind : Dependence) :
    ∑ v ∈ Finset.range g.size, ((g.dependencies v).ofKind kind).size =
      ∑ v ∈ Finset.range g.size, ((g.dependents v).ofKind kind).size := by
  -- Both sides count the pairs of a source and a target, by rows and by columns.
  have hdependents : ∀ v, ((g.dependents v).ofKind kind).size =
      ((Finset.range g.size).bipartiteAbove (fun a b => ⟨kind, b⟩ ∈ g.dependents a) v).card :=
    fun v => SortedSet.size_eq_card fun w hw => (h.ends_mem hw).2.1
  have hdependencies : ∀ v, ((g.dependencies v).ofKind kind).size =
      ((Finset.range g.size).bipartiteBelow (fun a b => ⟨kind, b⟩ ∈ g.dependents a) v).card := by
    intro v
    rw [SortedSet.size_eq_card fun w hw => (h.ends_mem (h.mem_iff.mpr hw)).1.1]
    exact congrArg _ (Finset.filter_congr fun w _ => h.mem_iff.symm)
  simp only [hdependents, hdependencies]
  exact (Finset.sum_card_bipartiteAbove_eq_sum_card_bipartiteBelow _).symm

theorem sum_dependencies (h : g.Mirrored) :
    ∑ v ∈ Finset.range g.size, (g.dependencies v).size = g.edgeCount := by
  have hkinds : ∀ s : EdgeSet, s.size = (s.ofKind .data).size + (s.ofKind .control).size :=
    fun _ => rfl
  simp only [edgeCount_eq_sum, hkinds, Finset.sum_add_distrib, h.sum_ofKind]

/-- Each edge is met once by going over the edges of all nodes in one direction. -/
theorem sum_length_related (h : g.Mirrored) (d : Direction) :
    ∑ v ∈ Finset.range g.size, (g.related d v).length = g.edgeCount := by
  simp only [length_related]
  cases d with
  | backward => exact h.sum_dependencies
  | forward => exact g.edgeCount_eq_sum.symm

/-- The finish has no dependencies, so that it does not matter whether it is counted. -/
theorem total_dependencies (h : g.Mirrored) :
    (g.nodes.map fun v => (g.dependencies v).size).foldr (· + ·) 0 = g.edgeCount := by
  have hnodes : (g.nodes.map fun v => (g.dependencies v).size).foldr (· + ·) 0 =
      ∑ v ∈ Finset.range g.size with v ≠ g.finish, (g.dependencies v).size := rfl
  rw [hnodes, ← h.sum_dependencies]
  apply Finset.sum_filter_of_ne
  intro v _ hsize
  obtain ⟨e, he⟩ := EdgeSet.exists_mem_of_size_ne_zero hsize
  exact (h.ends_mem (h.mem_iff.mpr he)).2.2

/-! ## Slices -/

theorem mem_of_mem_related (h : g.Mirrored) (hw : w ∈ g.related d v) : v ∈ g ∧ w ∈ g := by
  obtain ⟨kind, he⟩ := mem_related.mp hw
  cases d with
  | backward => exact (h.ends_mem (h.mem_iff.mpr he)).symm
  | forward => exact h.ends_mem he

theorem mem_related_forward_iff (h : g.Mirrored) :
    w ∈ g.related .forward v ↔ v ∈ g.related .backward w := by
  rw [mem_related, mem_related]
  exact exists_congr fun kind => h.mem_iff

/-- A slice holds what can be reached from its criterion, step by step. -/
theorem mem_sliceAlong_iff (h : g.Mirrored) :
    w ∈ g.sliceAlong d c ↔
      c ∈ g ∧ Relation.ReflTransGen (fun v w => w ∈ g.related d v) c w := by
  rw [mem_sliceAlong]
  refine and_congr_right fun hc => ⟨fun hreach => ?_, fun hreach => ?_⟩
  · induction hreach with
    | seed hs _ => exact List.mem_singleton.mp hs ▸ .refl
    | step _ hw _ ih => exact ih.tail hw
  · induction hreach with
    | refl => exact .seed List.mem_cons_self hc.1
    | tail _ hw ih => exact .step ih hw (h.mem_of_mem_related hw).2.1

theorem mem_of_mem_sliceAlong (h : g.Mirrored) (hw : w ∈ g.sliceAlong d c) : w ∈ g := by
  obtain ⟨hc, hreach⟩ := h.mem_sliceAlong_iff.mp hw
  cases hreach with
  | refl => exact hc
  | tail _ hw => exact (h.mem_of_mem_related hw).2

theorem mem_slice_iff (h : g.Mirrored) : b ∈ g.slice a ↔ a ∈ g.forwardSlice b := by
  have hflip : (fun v w => w ∈ g.related .forward v) =
      Function.swap fun v w => w ∈ g.related .backward v :=
    funext fun v => funext fun w => propext h.mem_related_forward_iff
  have hreach : Relation.ReflTransGen (fun v w => w ∈ g.related .backward v) a b ↔
      Relation.ReflTransGen (fun v w => w ∈ g.related .forward v) b a := by
    rw [hflip]
    exact Relation.reflTransGen_swap.symm
  constructor
  · intro hb
    exact h.mem_sliceAlong_iff.mpr
      ⟨h.mem_of_mem_sliceAlong hb, hreach.mp (h.mem_sliceAlong_iff.mp hb).2⟩
  · intro ha
    exact h.mem_sliceAlong_iff.mpr
      ⟨h.mem_of_mem_sliceAlong ha, hreach.mpr (h.mem_sliceAlong_iff.mp ha).2⟩

end Mirrored

end DependenceGraph

namespace FlowGraph

variable {cfg : FlowGraph} {t : PostdominatorTree} {config : Config} {kind : Dependence}
variable {a b v w : NodeId}

theorem lt_size_of_mem_dependentsOf (ht : cfg.Exact cfg.finish t)
    (h : w ∈ cfg.dependentsOf t v kind) : w < cfg.size := by
  cases kind with
  | data =>
    obtain ⟨x, _, hx⟩ := mem_fedBy.mp h
    exact (mem_readersOf.mp hx).1.lt_bound
  | control =>
    obtain ⟨s, hs, hw⟩ := (Digraph.mem_controlledBy.mp h).1
    exact (ht.postdominates_iff.mp hw).lt_size (Digraph.lt_size_of_mem_succ hs)

/-- Both ends of a dependence are in the graph, so that both of them record it. -/
theorem mem_edges_iff_mem_links (ht : cfg.Exact cfg.finish t) (d : Direction) {e : Edge} :
    e ∈ (cfg.dependenceGraph config t).edges d v ↔ .seenAs d v e ∈ cfg.links t := by
  rw [mem_edges_dependenceGraph]
  refine and_iff_right_of_imp fun hlink => ?_
  have hends := mem_links.mp hlink
  cases d with
  | backward => exact lt_size_of_mem_dependentsOf ht hends.2.2
  | forward => exact hends.1.1

theorem mirrored_dependenceGraph (ht : cfg.Exact cfg.finish t) (config : Config) :
    (cfg.dependenceGraph config t).Mirrored where
  mem_iff := by
    intro kind a b
    have hsource : ⟨kind, b⟩ ∈ (cfg.dependenceGraph config t).dependents a ↔
        ⟨kind, a, b⟩ ∈ cfg.links t := mem_edges_iff_mem_links ht .forward
    have htarget : ⟨kind, a⟩ ∈ (cfg.dependenceGraph config t).dependencies b ↔
        ⟨kind, a, b⟩ ∈ cfg.links t := mem_edges_iff_mem_links ht .backward
    exact hsource.trans htarget.symm
  ends_mem := by
    intro kind a b he
    have hends := mem_links.mp ((mem_edges_iff_mem_links ht .forward).mp he)
    have hlt : b < cfg.size := lt_size_of_mem_dependentsOf ht hends.2.2
    exact ⟨mem_dependenceGraph.mpr hends.1, mem_dependenceGraph.mpr ⟨hlt, hends.2.1⟩⟩

theorem lt_size_of_mem_edges (ht : cfg.Exact cfg.finish t) {d : Direction}
    (h : ⟨kind, w⟩ ∈ (cfg.dependenceGraph config t).edges d v) : v < cfg.size ∧ w < cfg.size := by
  have hrelated := DependenceGraph.mem_related.mpr ⟨kind, h⟩
  have hends := (mirrored_dependenceGraph ht config).mem_of_mem_related hrelated
  exact ⟨(mem_dependenceGraph.mp hends.1).1, (mem_dependenceGraph.mp hends.2).1⟩

theorem lt_size_of_mem_sliceAlong (ht : cfg.Exact cfg.finish t) {d : Direction}
    (h : w ∈ (cfg.dependenceGraph config t).sliceAlong d v) : w < cfg.size :=
  (mem_dependenceGraph.mp ((mirrored_dependenceGraph ht config).mem_of_mem_sliceAlong h)).1

/-- The dependents that a dependence graph records are those of the flow graph, the finish
apart. -/
theorem mem_dependents_iff (ht : cfg.Exact cfg.finish t) :
    ⟨kind, b⟩ ∈ (cfg.dependenceGraph config t).dependents a ↔
      a ≠ cfg.finish ∧ b ≠ cfg.finish ∧ b ∈ cfg.dependentsOf t a kind := by
  have hedge : ⟨kind, b⟩ ∈ (cfg.dependenceGraph config t).dependents a ↔
      ⟨kind, a, b⟩ ∈ cfg.links t := mem_edges_iff_mem_links ht .forward
  rw [hedge, mem_links]
  constructor
  · intro ⟨ha, hb, hdep⟩
    exact ⟨ha.2, hb, hdep⟩
  · intro ⟨ha, hb, hdep⟩
    obtain ⟨s, hs⟩ := exists_succ_of_mem_dependentsOf hdep
    exact ⟨⟨Digraph.lt_size_of_succ hs, ha⟩, hb, hdep⟩

/-- The two lists of edges of a dependence graph mirror each other and hold the dependences of
the flow graph between nodes other than the finish. No edge is recorded at the finish or outside
the graph, nor leads there. There are as many edges among the dependencies as among the
dependents. A node is in the slice of another one exactly if the other one is in its forward
slice. -/
theorem edges_mirrored_and_slices_dual (cfg : FlowGraph) (config : Config)
    (h : config.checked → cfg.checkReachability = .ok ()) :
    ∃ t g, cfg.postdominatorTree = .ok t ∧ (cfg.buildDependenceGraph config).result = .ok g ∧
      (∀ kind a b,
        (⟨kind, b⟩ ∈ g.dependents a ↔ ⟨kind, a⟩ ∈ g.dependencies b) ∧
        (⟨kind, b⟩ ∈ g.dependents a ↔
          a ≠ cfg.finish ∧ b ≠ cfg.finish ∧ b ∈ cfg.dependentsOf t a kind)) ∧
      (∀ a e, e ∈ g.dependents a ∨ e ∈ g.dependencies a →
        (a < cfg.size ∧ a ≠ cfg.finish) ∧ e.node < cfg.size ∧ e.node ≠ cfg.finish) ∧
      (g.nodes.map fun v => (g.dependencies v).size).foldr (· + ·) 0 = g.edgeCount ∧
      ∀ a b, b ∈ g.slice a ↔ a ∈ g.forwardSlice b := by
  obtain ⟨t, hok, ht⟩ := cfg.exists_exact
  have hmirror := mirrored_dependenceGraph ht config
  refine ⟨t, cfg.dependenceGraph config t, hok, result_of_admitted h hok,
    fun kind a b => ⟨hmirror.mem_iff, mem_dependents_iff ht⟩, ?_,
    hmirror.total_dependencies, fun a b => hmirror.mem_slice_iff⟩
  intro a e he
  cases he with
  | inl he => exact (hmirror.ends_mem he).imp mem_dependenceGraph.mp mem_dependenceGraph.mp
  | inr he =>
    have hends := hmirror.ends_mem (hmirror.mem_iff.mpr he)
    exact hends.symm.imp mem_dependenceGraph.mp mem_dependenceGraph.mp

/-- A loop that counts down, and a statement behind it. -/
def countdown : FlowGraph :=
  .ofEdges
    #[.start, Statement.addDefs {} ["x"], Statement.addUses {} ["x"],
      (Statement.addDefs {} ["x"]).addUses ["x"], Statement.addUses {} ["x"], .finish]
    [(0, 1), (1, 2), (2, 3), (3, 2), (2, 4), (4, 5)] 0 5 (by decide)

theorem countdown_edges_mirrored :
    (Config.strict.checked → countdown.checkReachability = .ok ()) ∧
      ∃ g, (countdown.buildDependenceGraph .strict).result = .ok g ∧ g.edgeCount = 8 ∧
        (g.nodes.map fun v => (g.dependencies v).size).foldr (· + ·) 0 = 8 ∧
        ⟨.control, 3⟩ ∈ g.dependents 2 ∧ ⟨.control, 2⟩ ∈ g.dependencies 3 ∧
        1 ∈ g.slice 4 ∧ 4 ∈ g.forwardSlice 1 := by
  have hcheck : Config.strict.checked → countdown.checkReachability = .ok () :=
    fun _ => by decide +kernel
  have hvalues : (countdown.buildDependenceGraph .strict).result.map (fun g =>
      (g.edgeCount, decide (⟨.control, 3⟩ ∈ g.dependents 2), decide (1 ∈ g.slice 4))) =
        .ok (8, true, true) := by decide +kernel
  obtain ⟨t, g, _, hok, hedges, _, htotal, hdual⟩ :=
    edges_mirrored_and_slices_dual countdown .strict hcheck
  rw [hok] at hvalues
  have hvalues := Except.ok.inj hvalues
  have hcount : g.edgeCount = 8 := congrArg Prod.fst hvalues
  have hdependent : ⟨.control, 3⟩ ∈ g.dependents 2 :=
    of_decide_eq_true (congrArg (fun r => r.2.1) hvalues)
  have hslice : 1 ∈ g.slice 4 := of_decide_eq_true (congrArg (fun r => r.2.2) hvalues)
  exact ⟨hcheck, g, hok, hcount, htotal.trans hcount, hdependent,
    (hedges .control 2 3).1.mp hdependent, hslice, (hdual 4 1).mp hslice⟩

end FlowGraph

end Slicing
