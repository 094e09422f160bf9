import Mathlib.Logic.Relation
import Slicing.Proofs.SliceClosure

/-!
# What a branch decides

A node controls what postdominates one of its successors and not another. This is meant by
paths, and it holds on every consistent graph. A successor from which the exit cannot be reached
has no postdominator but itself; a branch with such a successor therefore controls even the exit,
provided that another successor reaches it.

Where the finish can be reached from everywhere, each node that the way from the start to the
finish may leave out is controlled by a branch that no way leaves out, directly or through other
branches. Branches may control each other in circles, so the search for controllers of controllers
need not come to an end. The branch is found on a path from the start to the node instead, by
induction from the node backwards: as long as a controller is postdominating it is kept, and a
node of the path that it does not postdominate controls it and takes its place.
-/
namespace Slicing

namespace Digraph

variable {g : Digraph} {exit m s v : NodeId} {t : PostdominatorTree}

theorem exists_ne_of_mem_controlledBy (h : m ∈ g.controlledBy t v) :
    ∃ s ∈ g.succ v, ∃ s' ∈ g.succ v, s ≠ s' := by
  obtain ⟨⟨s, hs, hm⟩, s', hs', hm'⟩ := mem_controlledBy.mp h
  exact ⟨s, hs, s', hs', fun heq => hm' (heq ▸ hm)⟩

theorem exit_postdominates_iff (he : exit < g.size) :
    g.Postdominates exit exit s ↔ g.Reaches s exit := by
  constructor
  · intro h
    cases h with
    | inl hself => exact hself ▸ .refl he
    | inr hpaths => exact hpaths.1
  · intro hr
    exact .of_forall_mem hr fun p hp => hp.target_mem

namespace Exact

theorem mem_controlledBy_iff_exists (h : g.Exact exit t) :
    m ∈ g.controlledBy t v ↔
      ∃ s ∈ g.succ v, ∃ s' ∈ g.succ v,
        g.Postdominates exit m s ∧ ¬g.Postdominates exit m s' := by
  simp only [mem_controlledBy, h.postdominates_iff]
  constructor
  · intro ⟨⟨s, hs, hm⟩, s', hs', hm'⟩
    exact ⟨s, hs, s', hs', hm, hm'⟩
  · intro ⟨s, hs, s', hs', hm, hm'⟩
    exact ⟨⟨s, hs, hm⟩, s', hs', hm'⟩

theorem exit_mem_controlledBy_iff (h : g.Exact exit t) (he : exit < g.size) :
    exit ∈ g.controlledBy t v ↔
      ∃ s ∈ g.succ v, ∃ s' ∈ g.succ v, g.Reaches s exit ∧ ¬g.Reaches s' exit := by
  simp only [h.mem_controlledBy_iff_exists, exit_postdominates_iff he]

end Exact

/-- On every consistent graph with an exit the postdominators are found, and a node controls
another one exactly if the other one postdominates some successor of it and not some other
successor. A node without two different successors controls nothing. The exit is controlled by
the nodes of which one successor reaches it and one does not. -/
theorem controlledBy_eq_decided_by_successors (g : Digraph) (exit : NodeId) (hc : g.Consistent)
    (he : exit < g.size) :
    ∃ t, g.postdominators exit = .ok t ∧
      (∀ v m, m ∈ g.controlledBy t v ↔
        ∃ s ∈ g.succ v, ∃ s' ∈ g.succ v,
          (m = s ∨ g.Reaches s exit ∧ ∀ p, g.Path s p exit → m ∈ p) ∧
          ¬(m = s' ∨ g.Reaches s' exit ∧ ∀ p, g.Path s' p exit → m ∈ p)) ∧
      (∀ v, (∀ s ∈ g.succ v, ∀ s' ∈ g.succ v, s = s') → g.controlledBy t v = ∅) ∧
      ∀ v, exit ∈ g.controlledBy t v ↔
        ∃ s ∈ g.succ v, ∃ s' ∈ g.succ v, g.Reaches s exit ∧ ¬g.Reaches s' exit := by
  obtain ⟨t, hok, ht⟩ := exists_exact hc he
  refine ⟨t, hok, fun v m => ht.mem_controlledBy_iff_exists, ?_,
    fun v => ht.exit_mem_controlledBy_iff he⟩
  intro v hsame
  apply SortedSet.ext
  intro m
  apply iff_of_false _ (SortedSet.not_mem_empty m)
  intro hm
  obtain ⟨s, hs, s', hs', hne⟩ := exists_ne_of_mem_controlledBy hm
  exact hne (hsame s hs s' hs')

/-- A branch with three arms: one leads to the exit, one to a loop that is never left, and one to
a node where either happens. -/
def forked : Digraph := ofEdges 5 [(0, 1), (0, 2), (0, 3), (1, 4), (2, 2), (3, 1), (3, 2)]

theorem forked_controlledBy :
    forked.Consistent ∧ 4 < forked.size ∧
      ∃ t, forked.postdominators 4 = .ok t ∧ (forked.controlledBy t 0).toList = [1, 2, 3, 4] ∧
        (∃ s ∈ forked.succ 0, ∃ s' ∈ forked.succ 0,
          (1 = s ∨ forked.Reaches s 4 ∧ ∀ p, forked.Path s p 4 → 1 ∈ p) ∧
          ¬(1 = s' ∨ forked.Reaches s' 4 ∧ ∀ p, forked.Path s' p 4 → 1 ∈ p)) ∧
        (∃ s ∈ forked.succ 0, ∃ s' ∈ forked.succ 0, forked.Reaches s 4 ∧ ¬forked.Reaches s' 4) ∧
        forked.succ 2 = [2] ∧ forked.controlledBy t 2 = ∅ := by
  have hc : forked.Consistent := consistent_ofEdges _ _
  have he : 4 < forked.size := by decide +kernel
  have hset : (forked.postdominators 4).map (fun t => (forked.controlledBy t 0).toList) =
      .ok [1, 2, 3, 4] := by decide +kernel
  have hloop : forked.succ 2 = [2] := by decide +kernel
  obtain ⟨t, hok, hiff, hnone, hexit⟩ := controlledBy_eq_decided_by_successors forked 4 hc he
  rw [hok] at hset
  have hlist : (forked.controlledBy t 0).toList = [1, 2, 3, 4] := Except.ok.inj hset
  have hmem : ∀ m ∈ [1, 2, 3, 4], m ∈ forked.controlledBy t 0 := by
    intro m hm
    rwa [← SortedSet.mem_toList, hlist]
  refine ⟨hc, he, t, hok, hlist, (hiff 0 1).mp (hmem 1 (by decide)),
    (hexit 0).mp (hmem 4 (by decide)), hloop, hnone 2 ?_⟩
  intro s hs s' hs'
  rw [hloop, List.mem_singleton] at hs hs'
  exact hs.trans hs'.symm

end Digraph

namespace FlowGraph

variable {cfg : FlowGraph} {t : PostdominatorTree} {m v x : NodeId}

/-- Every node from which another one can be reached is postdominated by that node or by one of
the branches that control it, directly or through others. -/
theorem exists_postdominating_controller (ht : cfg.Exact cfg.finish t)
    (hreach : ∀ v < cfg.size, cfg.Reaches v cfg.finish) {p : List NodeId} (hp : cfg.Path v p m) :
    ∃ x, Relation.ReflTransGen (fun a b => a ∈ cfg.controlledBy t b) m x ∧
      cfg.Postdominates cfg.finish x v := by
  induction hp with
  | single _ => exact ⟨_, .refl, .inl rfl⟩
  | @cons v w m p hw _ ih =>
    obtain ⟨x, hx, hdom⟩ := ih
    by_cases hv : cfg.Postdominates cfg.finish x v
    · exact ⟨x, hx, hv⟩
    · have hsucc : ∀ s ∈ cfg.succ v, cfg.Reaches s cfg.finish := fun s hs =>
        hreach s (Digraph.lt_size_of_mem_succ hs)
      have hcontrol : x ∈ cfg.controlledBy t v :=
        (ht.mem_controlledBy_iff (hreach v (Digraph.lt_size_of_succ hw))
          (ne_finish_of_mem_succ hw) hsucc).mpr ⟨⟨w, hw, hdom⟩, fun hstrict => hv hstrict.2⟩
      exact ⟨v, hx.tail hcontrol, .inl rfl⟩

/-- The controllers of a node are in its slice, those that control it through others included. -/
theorem mem_slice_of_controls {config : Config} (hm : m ∈ cfg.dependenceGraph config t)
    (h : Relation.ReflTransGen (fun a b => a ∈ cfg.controlledBy t b) m x) :
    x ∈ (cfg.dependenceGraph config t).slice m := by
  induction h with
  | refl => exact DependenceGraph.mem_slice_self hm
  | tail _ hcontrol ih =>
    have hdep : _ ∈ cfg.dependentsOf t _ .control := hcontrol
    exact (closed_slice config m).mem ih hdep

/-- On a graph that passes the check of reachability, every node other than the finish that does
not postdominate the start is controlled, in one or more steps, by a node that does. That node is
a branch in the slice of the first one, and every path from the start to the finish visits it. -/
theorem conditional_traced_to_inevitable_branch (cfg : FlowGraph) (config : Config)
    (h : cfg.checkReachability = .ok ()) :
    ∃ t g, cfg.postdominatorTree = .ok t ∧ (cfg.buildDependenceGraph config).result = .ok g ∧
      ∀ m < cfg.size, m ≠ cfg.finish → ¬t.Postdominates m cfg.start →
        ∃ x, Relation.TransGen (fun a b => a ∈ cfg.controlledBy t b) m x ∧
          t.Postdominates x cfg.start ∧ x ∈ g.slice m ∧
          (∃ s ∈ cfg.succ x, ∃ s' ∈ cfg.succ x, s ≠ s') ∧
          ∀ p, cfg.Path cfg.start p cfg.finish → x ∈ p := by
  have hall := checkReachability_eq_ok_iff.mp h
  obtain ⟨t, hok, ht⟩ := cfg.exists_exact
  refine ⟨t, cfg.dependenceGraph config t, hok, result_buildDependenceGraph config h hok, ?_⟩
  intro m hlt hne hm
  obtain ⟨p, hp⟩ := (hall m hlt).1
  obtain ⟨x, hx, hdom⟩ := exists_postdominating_controller ht (fun v hv => (hall v hv).2) hp
  have hchain : Relation.TransGen (fun a b => a ∈ cfg.controlledBy t b) m x := by
    cases Relation.reflTransGen_iff_eq_or_transGen.mp hx with
    | inl heq => exact absurd (ht.postdominates_iff.mpr hdom) (heq ▸ hm)
    | inr hchain => exact hchain
  obtain ⟨y, _, hy⟩ := Relation.TransGen.tail'_iff.mp hchain
  exact ⟨x, hchain, ht.postdominates_iff.mpr hdom,
    mem_slice_of_controls (mem_dependenceGraph.mpr ⟨hlt, hne⟩) hx,
    Digraph.exists_ne_of_mem_controlledBy hy, fun p hp => hdom.mem hp⟩

/-- A branch around a loop with two entries, whose four nodes are branches themselves. -/
def knotted : FlowGraph :=
  .ofEdges #[.start, {}, {}, {}, {}, {}, {}, .finish]
    [(0, 1), (1, 2), (1, 6), (2, 3), (2, 4), (3, 4), (3, 5), (4, 3), (4, 5), (5, 2), (5, 6), (6, 7)]
    0 7 (by decide)

theorem knotted_traced_to_branch :
    knotted.checkReachability = .ok () ∧
      ∃ t g, knotted.postdominatorTree = .ok t ∧ knotted.buildDependenceGraph.result = .ok g ∧
        (3 ∈ knotted.controlledBy t 4 ∧ 4 ∈ knotted.controlledBy t 3) ∧ ¬t.Postdominates 3 0 ∧
        ∃ x, Relation.TransGen (fun a b => a ∈ knotted.controlledBy t b) 3 x ∧
          t.Postdominates x 0 ∧ x ∈ g.slice 3 ∧
          (∃ s ∈ knotted.succ x, ∃ s' ∈ knotted.succ x, s ≠ s') ∧
          ∀ p, knotted.Path 0 p 7 → x ∈ p := by
  have hcheck : knotted.checkReachability = .ok () := by decide +kernel
  have hvalues : knotted.postdominatorTree.map (fun t =>
      (decide (3 ∈ knotted.controlledBy t 4), decide (4 ∈ knotted.controlledBy t 3),
        decide (t.Postdominates 3 0))) = .ok (true, true, false) := by decide +kernel
  obtain ⟨t, g, htree, hok, htraced⟩ := conditional_traced_to_inevitable_branch knotted {} hcheck
  rw [htree] at hvalues
  have hvalues := Except.ok.inj hvalues
  simp only [Prod.mk.injEq, decide_eq_true_eq, decide_eq_false_iff_not] at hvalues
  obtain ⟨hthree, hfour, havoided⟩ := hvalues
  exact ⟨hcheck, t, g, htree, hok, ⟨hthree, hfour⟩, havoided,
    htraced 3 (by decide +kernel) (by decide) havoided⟩

end FlowGraph

end Slicing
