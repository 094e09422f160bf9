import Mathlib.Order.Bounds.Defs
import Slicing.Proofs.EdgeMirror
import Slicing.Proofs.Worklist

/-!
# Slices are the least closed sets

The slice of a node is the least set that holds the node and, with each of its members, all
that the member depends on; the forward slice is the least set that holds the node and, with
each of its members, all that depends on the member. In both cases the finish is left out. The
dependences are those of the flow graph: the slices are described without the edges of the
dependence graph.

A slice can be collected with a worklist. Whatever the order in which the edges of a node are
gone through, the worklist runs empty after at most one turn for the criterion and one for each
edge of the dependence graph, and then it has visited the slice.
-/
namespace Slicing

theorem Search.Reachable.mono {n : Nat} {next next' : NodeId → List NodeId}
    {seeds : List NodeId} {w : NodeId} (hnext : ∀ v w, w ∈ next v → w ∈ next' v)
    (h : Reachable n next seeds w) : Reachable n next' seeds w := by
  induction h with
  | seed hs hw => exact .seed hs hw
  | step _ hw hn ih => exact .step ih (hnext _ _ hw) hn

namespace DependenceGraph

variable {g : DependenceGraph} {d : Direction} {c v w : NodeId} {k : Nat} {s : Worklist}

theorem sliceAlong_of_not_mem (h : c ∉ g) : g.sliceAlong d c = ∅ := if_neg h

/-- A search that goes through the edges in another order finds the same slice. -/
theorem ofList_reach_eq_sliceAlong {next : NodeId → List NodeId} (hc : c ∈ g)
    (hnext : ∀ v w, w ∈ next v ↔ w ∈ g.related d v) :
    SortedSet.ofList (Search.reach g.size next [c]) = g.sliceAlong d c := by
  apply SortedSet.ext
  intro w
  rw [SortedSet.mem_ofList, Search.mem_reach, mem_sliceAlong, and_iff_right hc]
  exact ⟨.mono fun v w => (hnext v w).mp, .mono fun v w => (hnext v w).mpr⟩

namespace Mirrored

theorem related_of_size_le (h : g.Mirrored) (hv : g.size ≤ v) : g.related d v = [] :=
  List.eq_nil_iff_forall_not_mem.mpr fun _ hw =>
    Nat.not_lt_of_le hv (h.mem_of_mem_related hw).1.1

theorem mem_sliceAlong_self (h : g.Mirrored) (hc : c ∈ g) : c ∈ g.sliceAlong d c :=
  h.mem_sliceAlong_iff.mpr ⟨hc, .refl⟩

theorem mem_sliceAlong_of_mem_related (h : g.Mirrored) (hv : v ∈ g.sliceAlong d c)
    (hw : w ∈ g.related d v) : w ∈ g.sliceAlong d c := by
  obtain ⟨hc, hreach⟩ := h.mem_sliceAlong_iff.mp hv
  exact h.mem_sliceAlong_iff.mpr ⟨hc, hreach.tail hw⟩

/-- A slice is contained in every set that holds the criterion and is closed in its direction. -/
theorem mem_of_mem_sliceAlong_of_closed (h : g.Mirrored) {T : Set NodeId} (hc : c ∈ T)
    (hT : ∀ v ∈ T, ∀ w ∈ g.related d v, w ∈ T) (hw : w ∈ g.sliceAlong d c) : w ∈ T := by
  have hreach := (h.mem_sliceAlong_iff.mp hw).2
  clear hw
  induction hreach with
  | refl => exact hc
  | tail _ hstep ih => exact hT _ ih _ hstep

theorem turns_le (h : g.Mirrored) (hrun : Worklist.Run (g.related d) k (.start c) s) :
    k ≤ 1 + g.edgeCount := by
  have hbudget := hrun.add_budget_le fun v (hv : g.size ≤ v) => h.related_of_size_le hv
  rw [Worklist.budget_start, h.sum_length_related] at hbudget
  omega

/-- A worklist that has run empty has visited the slice. -/
theorem visited_eq_sliceAlong (h : g.Mirrored) (hc : c ∈ g)
    (hrun : Worklist.Run (g.related d) k (.start c) s) (hs : s.pending = []) :
    s.visited = g.sliceAlong d c := by
  apply SortedSet.ext
  intro w
  rw [((Worklist.Searches.start _ c).run hrun).mem_visited_iff hs, h.mem_sliceAlong_iff,
    and_iff_right hc]

end Mirrored

end DependenceGraph

namespace FlowGraph

variable {cfg : FlowGraph} {t : PostdominatorTree} {config : Config} {c v w : NodeId}

/-- With a node, the set holds every node other than the finish on which the node depends. -/
def HoldsDependencies (cfg : FlowGraph) (t : PostdominatorTree) (T : Set NodeId) : Prop :=
  ∀ x y, x < cfg.size → x ≠ cfg.finish → y ∈ T →
    y ∈ cfg.controlledBy t x ∨ y ∈ cfg.fedBy x → x ∈ T

/-- With a node, the set holds every node other than the finish that depends on it. -/
def HoldsDependents (cfg : FlowGraph) (t : PostdominatorTree) (T : Set NodeId) : Prop :=
  ∀ x y, x ∈ T → y ≠ cfg.finish → y ∈ cfg.controlledBy t x ∨ y ∈ cfg.fedBy x → y ∈ T

theorem exists_mem_dependentsOf_iff :
    (∃ kind, w ∈ cfg.dependentsOf t v kind) ↔ w ∈ cfg.controlledBy t v ∨ w ∈ cfg.fedBy v := by
  constructor
  · intro ⟨kind, hw⟩
    cases kind with
    | data => exact .inr hw
    | control => exact .inl hw
  · intro hw
    cases hw with
    | inl hcontrol => exact ⟨.control, hcontrol⟩
    | inr hdata => exact ⟨.data, hdata⟩

/-- The slice of a node is the least set that holds the node and all that its members depend on. -/
theorem isLeast_slice (ht : cfg.Exact cfg.finish t) (hc : c < cfg.size ∧ c ≠ cfg.finish) :
    IsLeast {T : Set NodeId | c ∈ T ∧ cfg.HoldsDependencies t T}
      {v | v ∈ (cfg.dependenceGraph config t).slice c} := by
  have hg := mirrored_dependenceGraph ht config
  constructor
  · refine ⟨hg.mem_sliceAlong_self (mem_dependenceGraph.mpr hc), ?_⟩
    intro x y hlt hne hy hdep
    have hinner := mem_dependenceGraph.mp (hg.mem_of_mem_sliceAlong hy)
    apply hg.mem_sliceAlong_of_mem_related hy
    exact mem_related_dependenceGraph.mpr
      ⟨⟨hlt, hne⟩, hinner, exists_mem_dependentsOf_iff.mpr hdep⟩
  · intro T hT v hv
    refine hg.mem_of_mem_sliceAlong_of_closed hT.1 ?_ hv
    intro y hy x hx
    obtain ⟨hinner, _, hdep⟩ := mem_related_dependenceGraph.mp hx
    exact hT.2 x y hinner.1 hinner.2 hy (exists_mem_dependentsOf_iff.mp hdep)

theorem isLeast_forwardSlice (ht : cfg.Exact cfg.finish t)
    (hc : c < cfg.size ∧ c ≠ cfg.finish) :
    IsLeast {T : Set NodeId | c ∈ T ∧ cfg.HoldsDependents t T}
      {v | v ∈ (cfg.dependenceGraph config t).forwardSlice c} := by
  have hg := mirrored_dependenceGraph ht config
  constructor
  · refine ⟨hg.mem_sliceAlong_self (mem_dependenceGraph.mpr hc), ?_⟩
    intro x y hx hne hdep
    have hinner := mem_dependenceGraph.mp (hg.mem_of_mem_sliceAlong hx)
    obtain ⟨kind, hkind⟩ := exists_mem_dependentsOf_iff.mpr hdep
    have hlt : y < cfg.size := lt_size_of_mem_dependentsOf ht hkind
    apply hg.mem_sliceAlong_of_mem_related hx
    exact hg.mem_related_forward_iff.mpr
      (mem_related_dependenceGraph.mpr ⟨hinner, ⟨hlt, hne⟩, kind, hkind⟩)
  · intro T hT v hv
    refine hg.mem_of_mem_sliceAlong_of_closed hT.1 ?_ hv
    intro x hx y hy
    obtain ⟨_, hinner, hdep⟩ := mem_related_dependenceGraph.mp (hg.mem_related_forward_iff.mp hy)
    exact hT.2 x y hx hinner.2 (exists_mem_dependentsOf_iff.mp hdep)

/-- A node outside the graph and the finish have empty slices. The slices of any other node are
the least sets that hold it and are closed under dependence, backwards and forwards. The search
finds the same slice if it goes through the edges of each node in another order. So does a
worklist: it makes at most one turn for each edge and one more, it can go on as long as a node
is pending, and when none is, it has visited the slice. -/
theorem slices_least_closed (cfg : FlowGraph) (config : Config)
    (h : config.checked → cfg.checkReachability = .ok ()) :
    ∃ t g, cfg.postdominatorTree = .ok t ∧ (cfg.buildDependenceGraph config).result = .ok g ∧
      (∀ c, cfg.size ≤ c ∨ c = cfg.finish → g.slice c = ∅ ∧ g.forwardSlice c = ∅) ∧
      ∀ c, c < cfg.size ∧ c ≠ cfg.finish →
        IsLeast {T : Set NodeId | c ∈ T ∧ cfg.HoldsDependencies t T} {v | v ∈ g.slice c} ∧
        IsLeast {T : Set NodeId | c ∈ T ∧ cfg.HoldsDependents t T} {v | v ∈ g.forwardSlice c} ∧
        (∀ d (next : NodeId → List NodeId), (∀ v w, w ∈ next v ↔ w ∈ g.related d v) →
          .ofList (Search.reach g.size next [c]) = g.sliceAlong d c) ∧
        ∀ d k s, Worklist.Run (g.related d) k (.start c) s →
          k ≤ 1 + g.edgeCount ∧
          (s.pending ≠ [] → ∃ s', Worklist.Turn (g.related d) s s') ∧
          (s.pending = [] → s.visited = g.sliceAlong d c) := by
  obtain ⟨t, hok, ht⟩ := cfg.exists_exact
  have hg := mirrored_dependenceGraph ht config
  refine ⟨t, cfg.dependenceGraph config t, hok, result_of_admitted h hok, ?_, ?_⟩
  · intro c hc
    have hnot : c ∉ cfg.dependenceGraph config t := by
      intro hmem
      have hinner := mem_dependenceGraph.mp hmem
      cases hc with
      | inl hout => exact Nat.not_lt_of_le hout hinner.1
      | inr hfinish => exact hinner.2 hfinish
    exact ⟨DependenceGraph.sliceAlong_of_not_mem hnot, DependenceGraph.sliceAlong_of_not_mem hnot⟩
  · intro c hc
    have hmem : c ∈ cfg.dependenceGraph config t := mem_dependenceGraph.mpr hc
    refine ⟨isLeast_slice ht hc, isLeast_forwardSlice ht hc, ?_, ?_⟩
    · intro d next hnext
      exact DependenceGraph.ofList_reach_eq_sliceAlong hmem hnext
    · intro d k s hrun
      exact ⟨hg.turns_le hrun, Worklist.exists_turn _, hg.visited_eq_sliceAlong hmem hrun⟩

/-- A branch into a statement that is repeated for ever. -/
def trap : FlowGraph :=
  .ofEdges
    #[.start, Statement.addDefs {} ["x"], Statement.addUses {} ["x"],
      (Statement.addDefs {} ["y"]).addUses ["y"], .finish]
    [(0, 1), (1, 2), (2, 3), (2, 4), (3, 3)] 0 4 (by decide)

theorem trap_slice_least :
    (Config.checked {} → trap.checkReachability = .ok ()) ∧
      ∃ t g, trap.postdominatorTree = .ok t ∧ trap.buildDependenceGraph.result = .ok g ∧
        4 ∈ trap.controlledBy t 2 ∧ g.slice 4 = ∅ ∧ (g.slice 3).toList = [1, 2, 3] ∧
        IsLeast {T : Set NodeId | 3 ∈ T ∧ trap.HoldsDependencies t T} {v | v ∈ g.slice 3} := by
  have hcheck : Config.checked {} → trap.checkReachability = .ok () := nofun
  obtain ⟨t, g, htree, hok, hempty, hleast⟩ := slices_least_closed trap {} hcheck
  have hcontrol : trap.postdominatorTree.map (fun t => decide (4 ∈ trap.controlledBy t 2)) =
      .ok true := by decide +kernel
  have hslice : trap.buildDependenceGraph.result.map (fun g => (g.slice 3).toList) =
      .ok [1, 2, 3] := by decide +kernel
  rw [htree] at hcontrol
  rw [hok] at hslice
  exact ⟨hcheck, t, g, htree, hok, of_decide_eq_true (Except.ok.inj hcontrol),
    (hempty 4 (.inr rfl)).1, Except.ok.inj hslice, (hleast 3 (by decide +kernel)).1⟩

end FlowGraph

end Slicing
