import Slicing.DependenceGraph.Build
import Slicing.DependenceGraph.Slice
import Slicing.Proofs.ControlDependence

/-!
# Slices are closed under dependence

On a graph that passes the check of reachability the construction of a dependence graph
succeeds. Its edges are the control and the data dependences between nodes other than the
finish, so a slice never holds the finish, and with a node it holds every node on which
that node depends.
-/
namespace Slicing

theorem Search.Reachable.exists_seed {n : Nat} {next : NodeId → List NodeId}
    {seeds : List NodeId} {w : NodeId} (h : Reachable n next seeds w) : ∃ s, s ∈ seeds := by
  induction h with
  | seed hs _ => exact ⟨_, hs⟩
  | step _ _ _ ih => exact ih

/-- The dependence that a node sees as the given edge when it looks in a direction. -/
def Link.seenAs (d : Direction) (v : NodeId) (e : Edge) : Link :=
  match d with
  | .backward => ⟨e.kind, e.node, v⟩
  | .forward => ⟨e.kind, v, e.node⟩

namespace DependenceGraph

@[simp]
theorem size_connectAll (g : DependenceGraph) (links : List Link) :
    (g.connectAll links).size = g.size :=
  List.foldlRecOn links connect (motive := fun h => h.size = g.size) rfl
    fun h hs l _ => (size_connect h l).trans hs

@[simp]
theorem finish_connectAll (g : DependenceGraph) (links : List Link) :
    (g.connectAll links).finish = g.finish :=
  List.foldlRecOn links connect (motive := fun h => h.finish = g.finish) rfl
    fun h (hs : h.finish = g.finish) _ _ => hs

def edges (g : DependenceGraph) : Direction → NodeId → EdgeSet
  | .backward, v => g.dependencies v
  | .forward, v => g.dependents v

theorem mem_edges_connect {g : DependenceGraph} {l : Link} {d : Direction} {v : NodeId}
    {e : Edge} :
    e ∈ (g.connect l).edges d v ↔ v < g.size ∧ l = .seenAs d v e ∨ e ∈ g.edges d v := by
  obtain ⟨kind, source, target⟩ := l
  obtain ⟨kind', node⟩ := e
  cases d with
  | backward =>
    simp only [edges, dependencies, entry_connect, Link.seenAs]
    grind [EdgeSet.mem_insert]
  | forward =>
    simp only [edges, dependents, entry_connect, Link.seenAs]
    grind [EdgeSet.mem_insert]

/-- After a list of dependences has been recorded, a node has the edges that it had before and
those by which it sees its own dependences in the list. -/
theorem mem_edges_connectAll {g : DependenceGraph} {links : List Link} {d : Direction}
    {v : NodeId} {e : Edge} :
    e ∈ (g.connectAll links).edges d v ↔
      v < g.size ∧ .seenAs d v e ∈ links ∨ e ∈ g.edges d v := by
  induction links generalizing g with
  | nil => simp [connectAll]
  | cons l links ih =>
    have hstep : g.connectAll (l :: links) = (g.connect l).connectAll links := rfl
    rw [hstep, ih, mem_edges_connect, size_connect, List.mem_cons]
    grind

theorem mem_related {g : DependenceGraph} {d : Direction} {v w : NodeId} :
    w ∈ g.related d v ↔ ∃ kind, ⟨kind, w⟩ ∈ g.edges d v := by
  have hnodes : g.related d v = (g.edges d v).nodes := by cases d <;> rfl
  rw [hnodes, EdgeSet.nodes, List.mem_map]
  constructor
  · intro ⟨e, he, hw⟩
    exact ⟨e.kind, hw ▸ EdgeSet.mem_toList.mp he⟩
  · intro ⟨kind, he⟩
    exact ⟨_, EdgeSet.mem_toList.mpr he, rfl⟩

theorem mem_slice_self {g : DependenceGraph} {c : NodeId} (hc : c ∈ g) : c ∈ g.slice c :=
  mem_sliceAlong.mpr ⟨hc, .seed List.mem_cons_self hc.1⟩

end DependenceGraph

theorem Digraph.firstMissing?_eq_none_iff {g : Digraph} {visited : List NodeId} :
    g.firstMissing? visited = none ↔ ∀ v < g.size, v ∈ visited := by
  simp [firstMissing?, nodes]

namespace FlowGraph

variable {cfg : FlowGraph} {t : PostdominatorTree} {v w : NodeId}

theorem mem_innerNodes : v ∈ cfg.innerNodes ↔ v < cfg.size ∧ v ≠ cfg.finish := by
  simp [innerNodes, Digraph.nodes]

theorem mem_linksFrom {kind : Dependence} {dependents : NodeSet} {l : Link} :
    l ∈ cfg.linksFrom kind v dependents ↔
      l.kind = kind ∧ l.source = v ∧ l.target ∈ dependents ∧ l.target ≠ cfg.finish := by
  rw [linksFrom, List.mem_map]
  constructor
  · intro ⟨w, hw, hl⟩
    rw [List.mem_filter, SortedSet.mem_toList] at hw
    exact hl ▸ ⟨rfl, rfl, hw.1, of_decide_eq_true hw.2⟩
  · intro ⟨hkind, hsource, hmem, hne⟩
    refine ⟨l.target, List.mem_filter.mpr ⟨hmem, decide_eq_true hne⟩, ?_⟩
    rw [← hkind, ← hsource]

/-- The nodes that depend on a node in one of the two ways. -/
def dependentsOf (cfg : FlowGraph) (t : PostdominatorTree) (v : NodeId) : Dependence → NodeSet
  | .data => cfg.fedBy v
  | .control => cfg.controlledBy t v

theorem mem_links {l : Link} :
    l ∈ cfg.links t ↔
      (l.source < cfg.size ∧ l.source ≠ cfg.finish) ∧ l.target ≠ cfg.finish ∧
        l.target ∈ cfg.dependentsOf t l.source l.kind := by
  simp only [links, List.mem_flatMap, List.mem_append, mem_linksFrom, mem_innerNodes]
  cases hk : l.kind <;> simp [dependentsOf, and_comm]

theorem exists_succ_of_mem_dependentsOf {kind : Dependence}
    (h : w ∈ cfg.dependentsOf t v kind) : ∃ s, s ∈ cfg.succ v := by
  cases kind with
  | data =>
    obtain ⟨x, _, hx⟩ := mem_fedBy.mp h
    exact (mem_readersOf.mp hx).1.exists_seed
  | control =>
    obtain ⟨s, hs, _⟩ := (Digraph.mem_controlledBy.mp h).1
    exact ⟨s, hs⟩

/-- A set of nodes without the finish that holds, with each node, all that the node depends on. -/
structure Closed (cfg : FlowGraph) (t : PostdominatorTree) (S : NodeSet) : Prop where
  lt_size : ∀ {v}, v ∈ S → v < cfg.size
  ne_finish : ∀ {v}, v ∈ S → v ≠ cfg.finish
  mem : ∀ {kind v w}, w ∈ S → w ∈ cfg.dependentsOf t v kind → v ∈ S

theorem checkReachability_eq_ok_iff :
    cfg.checkReachability = .ok () ↔
      ∀ v < cfg.size, cfg.Reaches cfg.start v ∧ cfg.Reaches v cfg.finish := by
  have hforward : cfg.firstMissing? (cfg.visitOrder cfg.start) = none ↔
      ∀ v < cfg.size, cfg.Reaches cfg.start v := by
    rw [Digraph.firstMissing?_eq_none_iff]
    simp only [Digraph.mem_visitOrder]
  have hbackward : cfg.firstMissing? (cfg.reverse.visitOrder cfg.finish) = none ↔
      ∀ v < cfg.size, cfg.Reaches v cfg.finish := by
    rw [Digraph.firstMissing?_eq_none_iff]
    simp only [Digraph.mem_visitOrder, Digraph.reaches_reverse_iff cfg.consistent]
  constructor
  · intro h
    unfold checkReachability at h
    split at h
    · exact absurd h nofun
    · next hs =>
      split at h
      · exact absurd h nofun
      · next hf => exact fun v hv => ⟨hforward.mp hs v hv, hbackward.mp hf v hv⟩
  · intro h
    unfold checkReachability
    rw [hforward.mpr fun v hv => (h v hv).1, hbackward.mpr fun v hv => (h v hv).2]

/-- The dependence graph that a tree gives. -/
def dependenceGraph (cfg : FlowGraph) (config : Config) (t : PostdominatorTree) :
    DependenceGraph :=
  (cfg.unconnected config).connectAll (cfg.links t)

theorem check_of_admitted {config : Config}
    (h : config.checked → cfg.checkReachability = .ok ()) :
    (if config.checked then cfg.checkReachability else .ok ()) = .ok () := by
  split
  · next hchecked => exact h hchecked
  · rfl

/-- The construction succeeds if the check of reachability passes or is not asked for. -/
theorem result_of_admitted {config : Config}
    (h : config.checked → cfg.checkReachability = .ok ()) (ht : cfg.postdominatorTree = .ok t) :
    (cfg.buildDependenceGraph config).result = .ok (cfg.dependenceGraph config t) := by
  rw [buildDependenceGraph, check_of_admitted h, ht]
  rfl

theorem result_buildDependenceGraph (config : Config) (h : cfg.checkReachability = .ok ())
    (ht : cfg.postdominatorTree = .ok t) :
    (cfg.buildDependenceGraph config).result = .ok (cfg.dependenceGraph config t) :=
  result_of_admitted (fun _ => h) ht

theorem size_unconnected (config : Config) : (cfg.unconnected config).size = cfg.size := by
  simp [DependenceGraph.size, unconnected, Digraph.nodes]

theorem not_mem_edges_unconnected {config : Config} {d : Direction} {e : Edge} :
    e ∉ (cfg.unconnected config).edges d v := by
  have hentry : ((cfg.unconnected config).entry v).dependencies = {} ∧
      ((cfg.unconnected config).entry v).dependents = {} := by
    by_cases hv : v < cfg.size <;>
      simp [DependenceGraph.entry, unconnected, Digraph.nodes, hv]
  have hempty : (cfg.unconnected config).edges d v = {} := by
    cases d with
    | backward => exact hentry.1
    | forward => exact hentry.2
  rw [hempty]
  exact EdgeSet.not_mem_empty e

theorem mem_dependenceGraph {config : Config} :
    v ∈ cfg.dependenceGraph config t ↔ v < cfg.size ∧ v ≠ cfg.finish := by
  rw [DependenceGraph.mem_def, dependenceGraph, DependenceGraph.size_connectAll,
    DependenceGraph.finish_connectAll, size_unconnected]
  rfl

theorem mem_edges_dependenceGraph {config : Config} (d : Direction) {e : Edge} :
    e ∈ (cfg.dependenceGraph config t).edges d v ↔
      v < cfg.size ∧ .seenAs d v e ∈ cfg.links t := by
  rw [dependenceGraph, DependenceGraph.mem_edges_connectAll, size_unconnected,
    or_iff_left not_mem_edges_unconnected]

/-- A node depends on what feeds or controls it, the finish apart. -/
theorem mem_related_dependenceGraph {config : Config} :
    v ∈ (cfg.dependenceGraph config t).related .backward w ↔
      (v < cfg.size ∧ v ≠ cfg.finish) ∧ (w < cfg.size ∧ w ≠ cfg.finish) ∧
        ∃ kind, w ∈ cfg.dependentsOf t v kind := by
  rw [DependenceGraph.mem_related]
  simp only [mem_edges_dependenceGraph, mem_links, Link.seenAs]
  grind

/-- A slice is closed: the search that finds it follows every dependence. -/
theorem closed_slice (config : Config) (c : NodeId) :
    cfg.Closed t ((cfg.dependenceGraph config t).slice c) := by
  have hmem : ∀ {w}, w ∈ (cfg.dependenceGraph config t).slice c →
      w < cfg.size ∧ w ≠ cfg.finish := by
    intro w hw
    obtain ⟨hc, hreach⟩ := DependenceGraph.mem_sliceAlong.mp hw
    induction hreach with
    | seed hs _ => exact List.mem_singleton.mp hs ▸ mem_dependenceGraph.mp hc
    | step _ hrel _ _ => exact (mem_related_dependenceGraph.mp hrel).1
  refine ⟨fun hw => (hmem hw).1, fun hw => (hmem hw).2, ?_⟩
  intro kind v w hw hdep
  obtain ⟨s, hs⟩ := exists_succ_of_mem_dependentsOf hdep
  have hv : v < cfg.size ∧ v ≠ cfg.finish :=
    ⟨Digraph.lt_size_of_succ hs, ne_finish_of_mem_succ hs⟩
  have hrel : v ∈ (cfg.dependenceGraph config t).related .backward w :=
    mem_related_dependenceGraph.mpr ⟨hv, hmem hw, kind, hdep⟩
  obtain ⟨hc, hreach⟩ := DependenceGraph.mem_sliceAlong.mp hw
  exact DependenceGraph.mem_sliceAlong.mpr
    ⟨hc, .step hreach hrel (mem_dependenceGraph.mpr hv).1⟩

end FlowGraph

end Slicing
