import Slicing.Dependence.Control
import Slicing.FlowGraph.Basic
import Slicing.Proofs.TreeExact

/-!
# Control dependence by paths and by a walk up the tree

What a node controls is computed from the chains of its successors alone. On a flow
graph it is what postdominates some successor and does not strictly postdominate the
node itself: the strict postdominators of a node are the common postdominators of its
successors. Since they are also the chain of the node's parent, the same set is met by
walking up from each successor until the parent of the node is reached.
-/
namespace Slicing

namespace Digraph

namespace Exact

variable {g : Digraph} {exit a d m s v w : NodeId} {t : PostdominatorTree}

/-- Induction along the chain of a node. -/
theorem chain_induction (h : g.Exact exit t) {motive : NodeId → Prop}
    (stop : ∀ v, t.chain v = [v] → motive v)
    (step : ∀ v w, t.chain v = v :: t.chain w → v ∉ t.chain w → motive w → motive v)
    (v : NodeId) : motive v := by
  induction hn : (t.chain v).length using Nat.strongRecOn generalizing v with
  | _ n ih =>
    cases hv : t.next? v with
    | none => exact stop v (PostdominatorTree.climb_of_next?_eq_none hv)
    | some w =>
      have hchain := h.chain_of_next? hv
      have hnodup := h.nodup_chain v
      rw [hchain, List.nodup_cons] at hnodup
      have hlt : (t.chain w).length < n := by
        rw [← hn, hchain, List.length_cons]
        omega
      exact step v w hchain hnodup.1 (ih _ hlt w rfl)

theorem chain_subset (h : g.Exact exit t) (ha : a ∈ t.chain v) (hm : m ∈ t.chain a) :
    m ∈ t.chain v := by
  induction v using h.chain_induction with
  | stop v hchain =>
    rw [hchain, List.mem_singleton] at ha
    exact ha ▸ hm
  | step v w hchain _ ih =>
    rw [hchain] at ha
    cases List.mem_cons.mp ha with
    | inl hav => exact hav ▸ hm
    | inr haw =>
      rw [hchain]
      exact List.mem_cons_of_mem v (ih haw)

/-- The walk from a node up to a node above it meets the rest of the chain. -/
theorem mem_takeWhile_chain_iff (h : g.Exact exit t) (hd : d ∈ t.chain s) :
    m ∈ (t.chain s).takeWhile (· ≠ d) ↔ m ∈ t.chain s ∧ m ∉ t.chain d := by
  induction s using h.chain_induction with
  | stop s hchain =>
    rw [hchain, List.mem_singleton] at hd
    subst hd
    simp [hchain]
  | step s w hchain hsw ih =>
    by_cases hsd : s = d
    · subst hsd
      have hstop : (t.chain s).takeWhile (· ≠ s) = [] := by simp [hchain]
      rw [hstop]
      exact iff_of_false List.not_mem_nil fun hm => hm.2 hm.1
    · rw [hchain] at hd
      have hdw : d ∈ t.chain w := (List.mem_cons.mp hd).resolve_left (Ne.symm hsd)
      have hs_not : s ∉ t.chain d := fun hs => hsw (h.chain_subset hdw hs)
      rw [hchain, List.takeWhile_cons_of_pos (by simpa using hsd), List.mem_cons,
        List.mem_cons, ih hdw]
      constructor
      · intro hm
        cases hm with
        | inl hms => exact ⟨.inl hms, hms ▸ hs_not⟩
        | inr hm => exact ⟨.inr hm.1, hm.2⟩
      · intro ⟨hm, hmd⟩
        exact hm.imp_right fun hmw => ⟨hmw, hmd⟩

theorem mem_controlledBy_iff (h : g.Exact exit t) (hr : g.Reaches v exit) (hne : v ≠ exit)
    (hsucc : ∀ s ∈ g.succ v, g.Reaches s exit) :
    m ∈ g.controlledBy t v ↔
      (∃ s ∈ g.succ v, g.Postdominates exit m s) ∧ ¬g.StrictlyPostdominates exit m v := by
  rw [mem_controlledBy, strictlyPostdominates_iff_forall_succ hr hne hsucc]
  simp only [h.postdominates_iff, not_forall, exists_prop]

/-- The strict postdominators of a node are the chain of its parent. -/
theorem strictlyPostdominates_iff (h : g.Exact exit t) (hd : t.immediate? v = some d)
    (hne : v ≠ exit) : g.StrictlyPostdominates exit m v ↔ m ∈ t.chain d := by
  have hchain := h.chain_of_immediate? hd hne
  have hnodup := h.nodup_chain v
  rw [hchain, List.nodup_cons] at hnodup
  rw [StrictlyPostdominates, ← h.postdominates_iff, PostdominatorTree.Postdominates, hchain,
    List.mem_cons]
  constructor
  · intro hm
    exact hm.2.resolve_left hm.1
  · intro hm
    exact ⟨fun hmv => hnodup.1 (hmv ▸ hm), .inr hm⟩

theorem mem_controlledBy_iff_mem_takeWhile (h : g.Exact exit t) (hr : g.Reaches v exit)
    (hne : v ≠ exit) (hsucc : ∀ s ∈ g.succ v, g.Reaches s exit)
    (hd : t.immediate? v = some d) :
    m ∈ g.controlledBy t v ↔ ∃ s ∈ g.succ v, m ∈ (t.chain s).takeWhile (· ≠ d) := by
  rw [h.mem_controlledBy_iff hr hne hsucc, h.strictlyPostdominates_iff hd hne]
  have hmeet := (strictlyPostdominates_iff_forall_succ hr hne hsucc).mp
    (h.isImmediatePostdominator hd hne).1
  constructor
  · intro ⟨⟨s, hs, hm⟩, hmd⟩
    have hds : d ∈ t.chain s := h.postdominates_iff.mpr (hmeet s hs)
    exact ⟨s, hs, (h.mem_takeWhile_chain_iff hds).mpr ⟨h.postdominates_iff.mpr hm, hmd⟩⟩
  · intro ⟨s, hs, hm⟩
    have hds : d ∈ t.chain s := h.postdominates_iff.mpr (hmeet s hs)
    have hwalk := (h.mem_takeWhile_chain_iff hds).mp hm
    exact ⟨⟨s, hs, h.postdominates_iff.mp hwalk.1⟩, hwalk.2⟩

end Exact

end Digraph

namespace FlowGraph

variable {cfg : FlowGraph} {v w : NodeId}

theorem exists_exact (cfg : FlowGraph) :
    ∃ t, cfg.postdominatorTree = .ok t ∧ cfg.Exact cfg.finish t :=
  Digraph.exists_exact cfg.consistent cfg.finish_lt

theorem ne_finish_of_mem_succ (hw : w ∈ cfg.succ v) : v ≠ cfg.finish := by
  intro hv
  rw [hv, cfg.succ_finish] at hw
  exact List.not_mem_nil hw

/-- What a node controls, if all its successors reach the finish: the nodes that postdominate
some successor and do not strictly postdominate the node. If there is a successor at all, these
are the nodes on the chains from the successors up to the node's parent, without the parent. -/
theorem controlledBy_eq_tree_walk (cfg : FlowGraph) (v : NodeId)
    (hsucc : ∀ s ∈ cfg.succ v, cfg.Reaches s cfg.finish) :
    ∃ t, cfg.postdominatorTree = .ok t ∧
      (∀ m, m ∈ cfg.controlledBy t v ↔
        (∃ s ∈ cfg.succ v, cfg.Postdominates cfg.finish m s) ∧
          ¬cfg.StrictlyPostdominates cfg.finish m v) ∧
      (cfg.succ v ≠ [] → ∃ d, t.immediate? v = some d ∧
        (∀ s ∈ cfg.succ v, d ∈ t.chain s) ∧
        ∀ m, m ∈ cfg.controlledBy t v ↔
          ∃ s ∈ cfg.succ v, m ∈ (t.chain s).takeWhile (· ≠ d)) := by
  obtain ⟨t, hok, ht⟩ := cfg.exists_exact
  refine ⟨t, hok, ?_⟩
  cases hv : cfg.succ v with
  | nil =>
    refine ⟨fun m => ?_, fun h => absurd rfl h⟩
    rw [Digraph.mem_controlledBy, hv]
    simp
  | cons s rest =>
    have hs : s ∈ cfg.succ v := hv ▸ List.mem_cons_self
    have hne := ne_finish_of_mem_succ hs
    have hr : cfg.Reaches v cfg.finish := .head hs (hsucc s hs)
    obtain ⟨d, hd⟩ := ht.exists_immediate? hr
    have hstrict := (ht.isImmediatePostdominator hd hne).1
    rw [← hv]
    refine ⟨fun m => ht.mem_controlledBy_iff hr hne hsucc, fun _ => ⟨d, hd, ?_, fun m =>
      ht.mem_controlledBy_iff_mem_takeWhile hr hne hsucc hd⟩⟩
    intro s hs
    apply ht.postdominates_iff.mpr
    exact (Digraph.strictlyPostdominates_iff_forall_succ hr hne hsucc).mp hstrict s hs

/-- A loop whose body may repeat itself before it goes back to the header. -/
def stutteringLoop : FlowGraph :=
  .ofEdges #[.start, {}, {}, .finish] [(0, 1), (1, 2), (1, 3), (2, 2), (2, 1)] 0 3 (by decide)

theorem stutteringLoop_header :
    (∀ s ∈ stutteringLoop.succ 1, stutteringLoop.Reaches s 3) ∧
      ∃ t, stutteringLoop.postdominatorTree = .ok t ∧ t.immediate? 1 = some 3 ∧
        (∀ m, m ∈ [1, 2] ↔
          (∃ s ∈ stutteringLoop.succ 1, stutteringLoop.Postdominates 3 m s) ∧
            ¬stutteringLoop.StrictlyPostdominates 3 m 1) ∧
        ∀ m, m ∈ [1, 2] ↔ ∃ s ∈ stutteringLoop.succ 1, m ∈ (t.chain s).takeWhile (· ≠ 3) := by
  have hend : stutteringLoop.Path 3 [3] 3 := .single (by decide +kernel)
  have hbody : stutteringLoop.Path 2 [2, 1, 3] 3 :=
    .cons (by decide +kernel) (.cons (by decide +kernel) hend)
  have hlist : stutteringLoop.succ 1 = [2, 3] := by decide +kernel
  have hsucc : ∀ s ∈ stutteringLoop.succ 1, stutteringLoop.Reaches s 3 := by
    intro s hs
    rw [hlist, List.mem_cons, List.mem_singleton] at hs
    cases hs with
    | inl h =>
      rw [h]
      exact ⟨_, hbody⟩
    | inr h =>
      rw [h]
      exact ⟨_, hend⟩
  have hset : stutteringLoop.postdominatorTree.map
      (fun t => (t.immediate? 1, (stutteringLoop.controlledBy t 1).toList)) =
        .ok (some 3, [1, 2]) := by decide +kernel
  obtain ⟨t, hok, hpaths, hwalk⟩ := controlledBy_eq_tree_walk stutteringLoop 1 hsucc
  obtain ⟨d, hd, _, hchains⟩ := hwalk (by rw [hlist]; exact List.cons_ne_nil _ _)
  rw [hok] at hset
  have himm : t.immediate? 1 = some 3 := congrArg Prod.fst (Except.ok.inj hset)
  have hlist : (stutteringLoop.controlledBy t 1).toList = [1, 2] :=
    congrArg Prod.snd (Except.ok.inj hset)
  obtain rfl := Option.some.inj (hd.symm.trans himm)
  have hmem : ∀ m, m ∈ [1, 2] ↔ m ∈ stutteringLoop.controlledBy t 1 := by
    intro m
    rw [← hlist, SortedSet.mem_toList]
  exact ⟨hsucc, t, hok, himm, fun m => (hmem m).trans (hpaths m),
    fun m => (hmem m).trans (hchains m)⟩

end FlowGraph

end Slicing
