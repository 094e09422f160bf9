import Slicing.Proofs.EdgeMirror
import Slicing.Proofs.ReachingDefinitions

/-!
# Slices keep to the flow of control

Every dependence leads forwards along the edges of the flow graph. A value is carried to its
reader on a path. A branch leads to what it controls, since a postdominator of a successor lies on
the paths from the successor to the finish. A successor without any such path has no postdominator
but itself, so that reachability need not be checked.

A chain of dependences is then followed by a chain of paths. The slice of a node holds only nodes
that may come before it in an execution, and its forward slice only nodes that may come after it.
-/
namespace Slicing

namespace Digraph

variable {g : Digraph} {exit a b m v : NodeId} {t : PostdominatorTree}

theorem Postdominates.reaches (h : g.Postdominates exit a b) (hb : b < g.size) :
    g.Reaches b a := by
  cases h with
  | inl heq =>
    rw [heq]
    exact .refl hb
  | inr hpaths =>
    obtain ⟨⟨p, hp⟩, hmem⟩ := hpaths
    obtain ⟨q, _, hq, _⟩ := hp.split (hmem p hp)
    exact ⟨q, hq⟩

theorem Exact.reaches_of_mem_controlledBy (h : g.Exact exit t) (hm : m ∈ g.controlledBy t v) :
    g.Reaches v m := by
  obtain ⟨⟨s, hs, hdom⟩, _⟩ := mem_controlledBy.mp hm
  have hsm : g.Reaches s m := (h.postdominates_iff.mp hdom).reaches (lt_size_of_mem_succ hs)
  exact .head hs hsm

end Digraph

namespace FlowGraph

variable {cfg : FlowGraph} {t : PostdominatorTree} {config : Config} {kind : Dependence}
variable {b c v w : NodeId}

theorem reaches_of_mem_fedBy (h : w ∈ cfg.fedBy v) : cfg.Reaches v w := by
  obtain ⟨x, _, hreader⟩ := mem_fedBy.mp h
  obtain ⟨_, hpath, _⟩ := reachable_flowOn_iff.mp (mem_readersOf.mp hreader).1
  exact ⟨_, hpath⟩

theorem reaches_of_mem_dependentsOf (ht : cfg.Exact cfg.finish t)
    (h : w ∈ cfg.dependentsOf t v kind) : cfg.Reaches v w := by
  cases kind with
  | data => exact reaches_of_mem_fedBy h
  | control => exact ht.reaches_of_mem_controlledBy h

/-- A node of the slice leads to the criterion. -/
theorem reaches_of_mem_slice (ht : cfg.Exact cfg.finish t)
    (h : b ∈ (cfg.dependenceGraph config t).slice c) : cfg.Reaches b c := by
  obtain ⟨hc, hchain⟩ := (mirrored_dependenceGraph ht config).mem_sliceAlong_iff.mp h
  clear h
  induction hchain with
  | refl => exact .refl (mem_dependenceGraph.mp hc).1
  | tail _ hstep ih =>
    obtain ⟨_, _, kind, hdep⟩ := mem_related_dependenceGraph.mp hstep
    exact (reaches_of_mem_dependentsOf ht hdep).trans ih

theorem reaches_of_mem_forwardSlice (ht : cfg.Exact cfg.finish t)
    (h : b ∈ (cfg.dependenceGraph config t).forwardSlice c) : cfg.Reaches c b := by
  have hdual : c ∈ (cfg.dependenceGraph config t).slice b :=
    (mirrored_dependenceGraph ht config).mem_slice_iff.mpr h
  exact reaches_of_mem_slice ht hdual

/-- From every node of a slice some path leads to the criterion, and from the criterion some path
leads to every node of its forward slice. This holds whether reachability was checked or not. -/
theorem slices_along_paths (cfg : FlowGraph) (config : Config)
    (h : config.checked → cfg.checkReachability = .ok ()) :
    ∃ g, (cfg.buildDependenceGraph config).result = .ok g ∧
      ∀ c ∈ g,
        (∀ b ∈ g.slice c, ∃ p, cfg.Path b p c) ∧ ∀ b ∈ g.forwardSlice c, ∃ p, cfg.Path c p b := by
  obtain ⟨t, hok, ht⟩ := cfg.exists_exact
  refine ⟨cfg.dependenceGraph config t, result_of_admitted h hok, fun c _ => ⟨?_, ?_⟩⟩
  · intro b hb
    exact reaches_of_mem_slice ht hb
  · intro b hb
    exact reaches_of_mem_forwardSlice ht hb

/-- A branch with an arm that never ends, and statements that nothing leads to, one of which gives
a value to the other arm. -/
def stranded : FlowGraph :=
  .ofEdges
    #[.start, Statement.addDefs {} ["x"], Statement.addUses {} ["x"],
      (Statement.addDefs {} ["y"]).addUses ["y"], Statement.addUses {} ["x", "z"],
      Statement.addDefs {} ["z"], {}, {}, .finish]
    [(0, 1), (1, 2), (2, 3), (3, 2), (1, 4), (4, 8), (5, 4), (6, 6), (7, 3)] 0 8 (by decide)

theorem stranded_slices_along_paths :
    (Config.checked {} → stranded.checkReachability = .ok ()) ∧
      stranded.checkReachability ≠ .ok () ∧
      ∃ g, stranded.buildDependenceGraph.result = .ok g ∧
        (g.slice 4).toList = [1, 4, 5] ∧ (∀ b ∈ [1, 4, 5], ∃ p, stranded.Path b p 4) ∧
        (g.forwardSlice 1).toList = [1, 2, 4] ∧ ∀ b ∈ [1, 2, 4], ∃ p, stranded.Path 1 p b := by
  have hcheck : Config.checked {} → stranded.checkReachability = .ok () := nofun
  have hvalues : stranded.buildDependenceGraph.result.map (fun g =>
      (decide (1 ∈ g ∧ 4 ∈ g), (g.slice 4).toList, (g.forwardSlice 1).toList)) =
        .ok (true, [1, 4, 5], [1, 2, 4]) := by decide +kernel
  obtain ⟨g, hok, hpaths⟩ := slices_along_paths stranded {} hcheck
  rw [hok] at hvalues
  have hvalues := Except.ok.inj hvalues
  simp only [Prod.mk.injEq, decide_eq_true_eq] at hvalues
  obtain ⟨⟨hone, hfour⟩, hslice, hforward⟩ := hvalues
  refine ⟨hcheck, by decide +kernel, g, hok, hslice, ?_, hforward, ?_⟩
  · intro b hb
    rw [← hslice, SortedSet.mem_toList] at hb
    exact (hpaths 4 hfour).1 b hb
  · intro b hb
    rw [← hforward, SortedSet.mem_toList] at hb
    exact (hpaths 1 hone).2 b hb

end FlowGraph

end Slicing
