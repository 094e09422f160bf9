import Slicing.FlowGraph.Draft

/-!
# Flow graphs built from drafts

What a draft is built into is described by the members of its lists: the edges of the flow graph
are the edges of the draft, in whatever order and however often they were added, and a terminal is
the node designated for it or, if none is, the only node of its kind.
-/
namespace Slicing

namespace Digraph

variable {g : Digraph} {edges : List (NodeId × NodeId)} {n : Nat} {u v w x : NodeId}

theorem mem_succ_insertEdge :
    w ∈ (g.insertEdge u x).succ v ↔
      w ∈ g.succ v ∨ (v < g.size ∧ w < g.size) ∧ (v, w) = (u, x) := by
  unfold insertEdge
  split
  · grind
  · rw [succ_addEdge]
    grind

theorem mem_succ_foldl_insertEdge :
    w ∈ (edges.foldl (fun g e => g.insertEdge e.1 e.2) g).succ v ↔
      w ∈ g.succ v ∨ (v < g.size ∧ w < g.size) ∧ (v, w) ∈ edges := by
  induction edges generalizing g with
  | nil => simp
  | cons e edges ih =>
    rw [List.foldl_cons, ih, mem_succ_insertEdge, size_insertEdge, List.mem_cons]
    grind

/-- The edges of a graph built from a list are those of the list between nodes of the graph. -/
theorem mem_succ_ofEdges :
    w ∈ (ofEdges n edges).succ v ↔ (v < n ∧ w < n) ∧ (v, w) ∈ edges := by
  have hempty : (empty n).succ v = [] := by rw [succ, neighbours_empty]
  rw [ofEdges, mem_succ_foldl_insertEdge, size_empty, hempty, or_iff_right List.not_mem_nil]

end Digraph

namespace Draft

variable {d : Draft} {cfg : FlowGraph} {t : Terminal} {k : StatementKind}
variable {s f v w : NodeId}

theorem mem_ofKind : v ∈ d.ofKind k ↔ ∃ s, d.statements[v]? = some s ∧ s.kind = k := by
  rw [ofKind, List.mem_filter, List.mem_range, Option.any_eq_true]
  constructor
  · intro ⟨_, s, hs, hk⟩
    exact ⟨s, hs, of_decide_eq_true hk⟩
  · intro ⟨s, hs, hk⟩
    exact ⟨(Array.getElem?_eq_some_iff.mp hs).1, s, hs, decide_eq_true hk⟩

theorem nodup_ofKind (d : Draft) (k : StatementKind) : (d.ofKind k).Nodup :=
  List.nodup_range.filter _

theorem ofKind_eq_singleton_iff : d.ofKind k = [v] ↔ ∀ w, w ∈ d.ofKind k ↔ w = v := by
  constructor
  · intro h w
    rw [h, List.mem_singleton]
  · intro h
    have hperm : (d.ofKind k).Perm [v] := by
      apply (List.perm_ext_iff_of_nodup (d.nodup_ofKind k) (List.pairwise_singleton _ v)).mpr
      intro w
      rw [h, List.mem_singleton]
    exact List.perm_singleton.mp hperm

/-- A terminal is found if it is designated in the graph, or if it is not designated and is the
only node of its kind. -/
theorem findTerminal_eq_ok_iff :
    d.findTerminal t = .ok v ↔
      v < d.size ∧ (d.designated? t = some v ∨
        d.designated? t = none ∧ ∀ w, w ∈ d.ofKind t.kind ↔ w = v) := by
  constructor
  · intro h
    refine ⟨lt_size_of_findTerminal h, ?_⟩
    unfold findTerminal at h
    split at h
    · next w hw =>
      split at h
      · exact .inl (hw.trans (congrArg some (Except.ok.inj h)))
      · exact nomatch h
    · next hnone =>
      split at h
      · exact nomatch h
      · next w hw =>
        obtain rfl := Except.ok.inj h
        exact .inr ⟨hnone, ofKind_eq_singleton_iff.mp hw⟩
      · exact nomatch h
  · intro ⟨hlt, hfound⟩
    cases hfound with
    | inl hsome =>
      rw [findTerminal, hsome]
      exact if_pos hlt
    | inr honly => rw [findTerminal, honly.1, ofKind_eq_singleton_iff.mpr honly.2]

theorem edgeDefect?_eq_none_iff {e : NodeId × NodeId} :
    d.edgeDefect? f e = none ↔ (e.1 < d.size ∧ e.2 < d.size) ∧ e.1 ≠ f := by
  unfold edgeDefect?
  split
  · next hlt =>
    split
    · next heq => exact iff_of_false nofun fun h => h.2 heq
    · next hne => exact iff_of_true rfl ⟨hlt, hne⟩
  · next hlt => exact iff_of_false nofun fun h => hlt h.1

theorem firstEdgeDefect?_eq_none_iff :
    d.firstEdgeDefect? f = none ↔
      ∀ e ∈ d.edges, (e.1 < d.size ∧ e.2 < d.size) ∧ e.1 ≠ f := by
  rw [firstEdgeDefect?, List.findSome?_eq_none_iff]
  simp only [edgeDefect?_eq_none_iff, Array.mem_toList_iff]

/-- The flow graph has the terminals, the edges and the statements of the draft. -/
structure Yields (d : Draft) (cfg : FlowGraph) : Prop where
  start : d.findTerminal .start = .ok cfg.start
  finish : d.findTerminal .finish = .ok cfg.finish
  edges_below : ∀ e ∈ d.edges, (e.1 < d.size ∧ e.2 < d.size) ∧ e.1 ≠ cfg.finish
  toDigraph_eq : cfg.toDigraph = .ofEdges d.size d.edges.toList
  statements_eq : cfg.statements = d.statements

theorem yields_of_build (h : d.build = .ok cfg) : d.Yields cfg := by
  unfold build at h
  split at h
  · exact nomatch h
  · exact nomatch h
  · next s f hs hf =>
    split at h
    · exact nomatch h
    · split at h
      · exact nomatch h
      · next hdefect =>
        obtain rfl := Except.ok.inj h
        exact ⟨hs, hf, firstEdgeDefect?_eq_none_iff.mp hdefect, rfl, rfl⟩

theorem exists_build (hs : d.findTerminal .start = .ok s) (hf : d.findTerminal .finish = .ok f)
    (hne : s ≠ f) (hedges : ∀ e ∈ d.edges, (e.1 < d.size ∧ e.2 < d.size) ∧ e.1 ≠ f) :
    ∃ cfg, d.build = .ok cfg ∧ cfg.start = s ∧ cfg.finish = f := by
  cases hb : d.build with
  | ok cfg =>
    have h := yields_of_build hb
    exact ⟨cfg, rfl, Except.ok.inj (h.start.symm.trans hs), Except.ok.inj (h.finish.symm.trans hf)⟩
  | error e =>
    exfalso
    unfold build at hb
    split at hb
    · next hs' => exact nomatch hs.symm.trans hs'
    · next hf' => exact nomatch hf.symm.trans hf'
    · next s' f' hs' hf' =>
      obtain rfl := Except.ok.inj (hs.symm.trans hs')
      obtain rfl := Except.ok.inj (hf.symm.trans hf')
      rw [dif_neg hne] at hb
      split at hb
      · next hdefect =>
        exact nomatch (firstEdgeDefect?_eq_none_iff.mpr hedges).symm.trans hdefect
      · exact nomatch hb

namespace Yields

variable (h : d.Yields cfg)
include h

theorem size_eq : cfg.size = d.size := by
  rw [h.toDigraph_eq, Digraph.size_ofEdges]

theorem mem_succ_iff : w ∈ cfg.succ v ↔ (v, w) ∈ d.edges := by
  rw [h.toDigraph_eq, Digraph.mem_succ_ofEdges, Array.mem_toList_iff]
  exact and_iff_right_of_imp fun he => (h.edges_below _ he).1

theorem statement?_eq : cfg.statement? v = d.statements[v]? := by
  rw [FlowGraph.statement?, h.statements_eq]

end Yields

end Draft

end Slicing
