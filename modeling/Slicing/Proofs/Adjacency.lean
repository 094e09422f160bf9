import Mathlib.Algebra.BigOperators.Group.Finset.Basic
import Mathlib.Data.List.ProdSigma
import Slicing.Proofs.Drafts

/-!
# The lists of neighbours of a built flow graph

A draft is made by operations in any order: an edge may be added before the statements at its ends.
What counts is the sequence of the added edges. If the draft builds, the successors of a node are
its targets in that sequence and the predecessors its sources, each listed once and in the order of
first occurrence.

Inserting an edge changes one list of successors and one list of predecessors, and it changes both
or none, since the two directions agree. `Digraph.Tabulates` is what an insertion keeps true of the
lists of one direction.
-/
namespace Slicing

namespace Draft

inductive Operation where
  | addStatement (s : Statement)
  | addEdge (source target : NodeId)
  | designate (t : Terminal) (v : NodeId)

def perform (d : Draft) : Operation → Draft
  | .addStatement s => d.addStatement s
  | .addEdge u v => d.addEdge u v
  | .designate t v => d.designate t v

def ofOperations (ops : List Operation) : Draft := ops.foldl perform {}

namespace Operation

def statement? : Operation → Option Statement
  | addStatement s => some s
  | addEdge .. | designate .. => none

def edge? : Operation → Option (NodeId × NodeId)
  | addEdge u v => some (u, v)
  | addStatement _ | designate .. => none

end Operation

/-- The statements that operations add, in their order. -/
def addedStatements (ops : List Operation) : List Statement := ops.filterMap Operation.statement?

/-- The edges that operations add, in their order and with repetitions. -/
def addedEdges (ops : List Operation) : List (NodeId × NodeId) := ops.filterMap Operation.edge?

theorem toList_statements_perform (d : Draft) (op : Operation) :
    (d.perform op).statements.toList = d.statements.toList ++ op.statement?.toList := by
  cases op with
  | addStatement s => simp [perform, addStatement, Operation.statement?]
  | addEdge u v => simp [perform, addEdge, Operation.statement?]
  | designate t v => cases t <;> simp [perform, designate, Operation.statement?]

theorem toList_edges_perform (d : Draft) (op : Operation) :
    (d.perform op).edges.toList = d.edges.toList ++ op.edge?.toList := by
  cases op with
  | addStatement s => simp [perform, addStatement, Operation.edge?]
  | addEdge u v => simp [perform, addEdge, Operation.edge?]
  | designate t v => cases t <;> simp [perform, designate, Operation.edge?]

/-- If each operation appends at most one entry, all of them append their entries in order. -/
theorem foldl_perform_eq_append {α : Type} (entries : Draft → List α)
    {added? : Operation → Option α}
    (hstep : ∀ d op, entries (d.perform op) = entries d ++ (added? op).toList)
    (ops : List Operation) (d : Draft) :
    entries (ops.foldl perform d) = entries d ++ ops.filterMap added? := by
  induction ops generalizing d with
  | nil => simp
  | cons op ops ih =>
    rw [List.foldl_cons, ih, hstep]
    simp [List.filterMap_eq_flatMap_toList]

theorem toList_statements_ofOperations (ops : List Operation) :
    (ofOperations ops).statements.toList = addedStatements ops :=
  foldl_perform_eq_append (·.statements.toList) toList_statements_perform ops {}

theorem toList_edges_ofOperations (ops : List Operation) :
    (ofOperations ops).edges.toList = addedEdges ops :=
  foldl_perform_eq_append (·.edges.toList) toList_edges_perform ops {}

end Draft

namespace Digraph

variable {g : Digraph} {n : Nat} {a b u v w x : NodeId}
variable {edges : List (NodeId × NodeId)} {row row' : NodeId → List NodeId}

theorem succ_insertEdge (hu : u < g.size) (hx : x < g.size) :
    (g.insertEdge u x).succ v = if v = u ∧ x ∉ g.succ v then g.succ v ++ [x] else g.succ v := by
  unfold insertEdge
  split
  · grind
  · rw [succ_addEdge]
    grind

theorem pred_insertEdge (hc : g.Consistent) (hu : u < g.size) (hx : x < g.size) :
    (g.insertEdge u x).pred v = if v = x ∧ u ∉ g.pred v then g.pred v ++ [u] else g.pred v := by
  have hmirror := hc u x
  unfold insertEdge
  split
  · grind
  · rw [pred_addEdge]
    grind

/-- Each row lists the targets of its node among the edges, in the order of first occurrence. -/
structure Tabulates (row : NodeId → List NodeId) (edges : List (NodeId × NodeId)) : Prop where
  mem_iff : ∀ {u v}, v ∈ row u ↔ (u, v) ∈ edges
  ordered : ∀ u, (row u).Pairwise fun v w => edges.idxOf (u, v) < edges.idxOf (u, w)

namespace Tabulates

/-- An edge that comes last is appended to the row of its source, unless it is there. -/
theorem insert (h : Tabulates row edges)
    (hrow : ∀ u, row' u = if u = a ∧ b ∉ row u then row u ++ [b] else row u) :
    Tabulates row' (edges ++ [(a, b)]) where
  mem_iff := by
    intro u v
    rw [hrow, List.mem_append, ← h.mem_iff]
    grind
  ordered := by
    intro u
    have hkept : ∀ v ∈ row u, (edges ++ [(a, b)]).idxOf (u, v) = edges.idxOf (u, v) :=
      fun v hv => List.idxOf_append_of_mem (h.mem_iff.mp hv)
    have hold : (row u).Pairwise fun v w =>
        (edges ++ [(a, b)]).idxOf (u, v) < (edges ++ [(a, b)]).idxOf (u, w) := by
      apply (h.ordered u).imp_of_mem
      intro v w hv hw hlt
      rwa [hkept v hv, hkept w hw]
    rw [hrow]
    split
    · next hnew =>
      obtain ⟨rfl, hb⟩ := hnew
      refine List.pairwise_append.mpr ⟨hold, List.pairwise_singleton _ b, ?_⟩
      intro v hv w hw
      rw [List.mem_singleton.mp hw, hkept v hv,
        List.idxOf_append_of_notMem fun he => hb (h.mem_iff.mpr he)]
      have hlt : edges.idxOf (u, v) < edges.length :=
        List.idxOf_lt_length_of_mem (h.mem_iff.mp hv)
      omega
    · exact hold

theorem nodup (h : Tabulates row edges) (u : NodeId) : (row u).Nodup := by
  apply (h.ordered u).imp
  intro v w hlt heq
  exact absurd hlt (heq ▸ Nat.lt_irrefl _)

/-- The rows together have as many entries as there are different edges. -/
theorem sum_length (h : Tabulates row edges) (hbelow : ∀ e ∈ edges, e.1 < n) :
    ∑ u ∈ Finset.range n, (row u).length = edges.toFinset.card := by
  have hsource : (edges.toFinset : Set (NodeId × NodeId)).MapsTo Prod.fst (Finset.range n) := by
    intro e he
    exact Finset.mem_coe.mpr (Finset.mem_range.mpr (hbelow e (List.mem_toFinset.mp he)))
  rw [Finset.card_eq_sum_card_fiberwise hsource]
  apply Finset.sum_congr rfl
  intro u _
  have hfiber : edges.toFinset.filter (·.1 = u) = (row u).toFinset.image (Prod.mk u) := by
    ext e
    rw [Finset.mem_filter, Finset.mem_image, List.mem_toFinset]
    simp only [List.mem_toFinset, h.mem_iff]
    grind
  rw [hfiber, Finset.card_image_of_injective _ (Prod.mk_right_injective u),
    List.toFinset_card_of_nodup (h.nodup u)]

end Tabulates

theorem ofEdges_concat (n : Nat) (edges : List (NodeId × NodeId)) (e : NodeId × NodeId) :
    ofEdges n (edges ++ [e]) = (ofEdges n edges).insertEdge e.1 e.2 := by
  rw [ofEdges, List.foldl_append]
  rfl

/-- The lists of both directions in a graph built from edges between its nodes. -/
theorem tabulates_ofEdges (h : ∀ e ∈ edges, e.1 < n ∧ e.2 < n) :
    Tabulates (ofEdges n edges).succ edges ∧
      Tabulates (ofEdges n edges).pred (edges.map Prod.swap) := by
  induction edges using List.reverseRecOn with
  | nil => exact ⟨⟨by simp [ofEdges, succ], by simp [ofEdges, succ]⟩,
      by simp [ofEdges, pred], by simp [ofEdges, pred]⟩
  | append_singleton edges e ih =>
    obtain ⟨hsucc, hpred⟩ := ih fun e' he' => h e' (List.mem_append_left _ he')
    have he : e.1 < (ofEdges n edges).size ∧ e.2 < (ofEdges n edges).size := by
      rw [size_ofEdges]
      exact h e (List.mem_append_right _ (List.mem_singleton.mpr rfl))
    rw [ofEdges_concat, List.map_append]
    constructor
    · apply hsucc.insert
      intro u
      exact succ_insertEdge he.1 he.2
    · apply hpred.insert
      intro v
      exact pred_insertEdge (consistent_ofEdges n edges) he.1 he.2

theorem idxOf_map_swap (edges : List (NodeId × NodeId)) (u v : NodeId) :
    (edges.map Prod.swap).idxOf (v, u) = edges.idxOf (u, v) := by
  unfold List.idxOf
  rw [List.findIdx_map]
  congr 1
  funext e
  exact Bool.and_comm (e.2 == v) (e.1 == u)

end Digraph

namespace Draft

variable {d : Draft} {cfg : FlowGraph}

namespace Yields

variable (h : d.Yields cfg)
include h

theorem ends_lt_size : ∀ e ∈ d.edges.toList, e.1 < cfg.size ∧ e.2 < cfg.size := by
  intro e he
  rw [h.size_eq]
  exact (h.edges_below e (Array.mem_toList_iff.mp he)).1

theorem tabulates_succ : Digraph.Tabulates cfg.succ d.edges.toList := by
  rw [h.toDigraph_eq, ← h.size_eq]
  exact (Digraph.tabulates_ofEdges h.ends_lt_size).1

theorem tabulates_pred : Digraph.Tabulates cfg.pred (d.edges.toList.map Prod.swap) := by
  rw [h.toDigraph_eq, ← h.size_eq]
  exact (Digraph.tabulates_ofEdges h.ends_lt_size).2

theorem edgeCount_eq_card : cfg.edgeCount = d.edges.toList.toFinset.card := by
  have hcount : cfg.edgeCount = ∑ u ∈ Finset.range cfg.size, (cfg.succ u).length := rfl
  rw [hcount]
  exact h.tabulates_succ.sum_length fun e he => (h.ends_lt_size e he).1

theorem sum_length_pred :
    ∑ v ∈ Finset.range cfg.size, (cfg.pred v).length = d.edges.toList.toFinset.card := by
  have hbelow : ∀ e ∈ d.edges.toList.map Prod.swap, e.1 < cfg.size := by
    intro e he
    obtain ⟨e', he', rfl⟩ := List.mem_map.mp he
    exact (h.ends_lt_size e' he').2
  have hswap : (d.edges.toList.map Prod.swap).toFinset =
      d.edges.toList.toFinset.image Prod.swap := by
    ext e
    rw [List.mem_toFinset, List.mem_map, Finset.mem_image]
    simp only [List.mem_toFinset]
  rw [h.tabulates_pred.sum_length hbelow, hswap,
    Finset.card_image_of_injective _ Prod.swap_injective]

end Yields

/-- If a draft builds, whatever the order of the operations that made it, the graph has the added
statements, and its terminals are two different ones of them. The successors of a node are its
targets among the added edges and the predecessors its sources, each of them once and in the order
of first occurrence. All of them are in the graph, and the finish has no successor. There are as
many edges as different pairs were added, counted at the sources or at the targets. -/
theorem neighbours_eq_added_edges (ops : List Operation) {cfg : FlowGraph}
    (h : (ofOperations ops).build = .ok cfg) :
    cfg.statements.toList = addedStatements ops ∧ cfg.size = (addedStatements ops).length ∧
      cfg.start ≠ cfg.finish ∧ cfg.start < cfg.size ∧ cfg.finish < cfg.size ∧
      (∀ u v, (v ∈ cfg.succ u ↔ (u, v) ∈ addedEdges ops) ∧
        (u ∈ cfg.pred v ↔ (u, v) ∈ addedEdges ops)) ∧
      (∀ u, (cfg.succ u).Nodup ∧ (cfg.succ u).Pairwise fun v w =>
        (addedEdges ops).idxOf (u, v) < (addedEdges ops).idxOf (u, w)) ∧
      (∀ v, (cfg.pred v).Nodup ∧ (cfg.pred v).Pairwise fun u w =>
        (addedEdges ops).idxOf (u, v) < (addedEdges ops).idxOf (w, v)) ∧
      cfg.succ cfg.finish = [] ∧
      (∀ u v, v ∈ cfg.succ u ∨ v ∈ cfg.pred u → v < cfg.size) ∧
      cfg.edgeCount = (addedEdges ops).toFinset.card ∧
      cfg.edgeCount = ∑ v ∈ Finset.range cfg.size, (cfg.pred v).length := by
  have hyields := yields_of_build h
  have hstatements : cfg.statements.toList = addedStatements ops := by
    rw [hyields.statements_eq, toList_statements_ofOperations]
  have hsize : cfg.size = (addedStatements ops).length := by
    rw [← hstatements, Array.length_toList, cfg.size_statements]
  have hsucc := hyields.tabulates_succ
  have hpred := hyields.tabulates_pred
  have hcount := hyields.edgeCount_eq_card
  have htargets := hcount.trans hyields.sum_length_pred.symm
  rw [toList_edges_ofOperations] at hsucc hpred hcount
  refine ⟨hstatements, hsize, cfg.start_ne_finish, cfg.start_lt, cfg.finish_lt, ?_, ?_, ?_,
    cfg.succ_finish, ?_, hcount, htargets⟩
  · intro u v
    exact ⟨hsucc.mem_iff, hpred.mem_iff.trans (List.mem_map_swap u v _)⟩
  · intro u
    exact ⟨hsucc.nodup u, hsucc.ordered u⟩
  · intro v
    have hordered := hpred.ordered v
    simp only [Digraph.idxOf_map_swap] at hordered
    exact ⟨hpred.nodup v, hordered⟩
  · intro u v hv
    cases hv with
    | inl hv => exact Digraph.lt_size_of_mem_succ hv
    | inr hv => exact Digraph.lt_size_of_mem_pred hv

/-- Edges that come before their statements, one of them twice, a self loop, and a finish that is
designated before it is there. -/
def hasty : List Operation :=
  [.addEdge 1 2, .addEdge 0 1, .addStatement .start, .addEdge 1 1, .designate .finish 2,
    .addStatement {}, .addEdge 0 1, .addEdge 0 2, .addStatement {}, .addEdge 1 2]

theorem hasty_neighbours :
    ∃ cfg, (ofOperations hasty).build = .ok cfg ∧ cfg.statements.toList = [.start, {}, {}] ∧
      (cfg.succ 0 = [1, 2] ∧ cfg.succ 1 = [2, 1] ∧ cfg.pred 1 = [0, 1] ∧ cfg.pred 2 = [1, 0]) ∧
      ((cfg.succ 1).Pairwise fun v w =>
        (addedEdges hasty).idxOf (1, v) < (addedEdges hasty).idxOf (1, w)) ∧
      cfg.edgeCount = 4 ∧ (addedEdges hasty).length = 6 ∧ (addedEdges hasty).toFinset.card = 4 := by
  have hvalues : (ofOperations hasty).build.toOption.map (fun cfg =>
      (cfg.succ 0, cfg.succ 1, cfg.pred 1, cfg.pred 2, cfg.edgeCount)) =
        some ([1, 2], [2, 1], [0, 1], [1, 0], 4) := by decide +kernel
  cases hb : (ofOperations hasty).build with
  | error e =>
    rw [hb] at hvalues
    exact nomatch hvalues
  | ok cfg =>
    rw [hb] at hvalues
    have hvalues := Option.some.inj hvalues
    simp only [Prod.mk.injEq] at hvalues
    obtain ⟨h0, h1, hp1, hp2, hcount⟩ := hvalues
    obtain ⟨hstatements, _, _, _, _, _, hordered, _, _, _, hcard, _⟩ :=
      neighbours_eq_added_edges hasty hb
    exact ⟨cfg, rfl, hstatements, ⟨h0, h1, hp1, hp2⟩, (hordered 1).2, hcount, rfl,
      hcard.symm.trans hcount⟩

end Draft

end Slicing
