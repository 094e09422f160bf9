import Slicing.NodeId

/-!
# Directed graphs by adjacency lists

A graph on the nodes `0, …, size - 1` keeps two ordered lists per node, its
successors and its predecessors. Both name nodes of the graph only, which is part
of the type. Whether the two directions agree is a property of its own,
`Digraph.Consistent`: the graphs that `insertEdge` builds from an empty one have it.

Reversing a graph exchanges the two lists of every node.
-/
namespace Slicing

/-- The neighbours of one node, in both directions. -/
structure Neighbours where
  succ : List NodeId := []
  pred : List NodeId := []
deriving DecidableEq, Inhabited

namespace Neighbours

def swap (l : Neighbours) : Neighbours := ⟨l.pred, l.succ⟩

def Below (l : Neighbours) (n : Nat) : Prop :=
  (∀ v ∈ l.succ, v < n) ∧ ∀ v ∈ l.pred, v < n

def addSucc (v : NodeId) (l : Neighbours) : Neighbours := { l with succ := l.succ ++ [v] }

def addPred (v : NodeId) (l : Neighbours) : Neighbours := { l with pred := l.pred ++ [v] }

theorem Below.addSucc {l : Neighbours} {n : Nat} {v : NodeId} (h : l.Below n) (hv : v < n) :
    (l.addSucc v).Below n :=
  ⟨fun w hw => (List.mem_append.mp hw).elim (h.1 w) fun e => List.mem_singleton.mp e ▸ hv, h.2⟩

theorem Below.addPred {l : Neighbours} {n : Nat} {v : NodeId} (h : l.Below n) (hv : v < n) :
    (l.addPred v).Below n :=
  ⟨h.1, fun w hw => (List.mem_append.mp hw).elim (h.2 w) fun e => List.mem_singleton.mp e ▸ hv⟩

end Neighbours

/-- A directed graph whose adjacency lists name only its own nodes. -/
structure Digraph where
  adjacency : Array Neighbours
  below : ∀ l ∈ adjacency, l.Below adjacency.size

namespace Digraph

def size (g : Digraph) : Nat := g.adjacency.size

def nodes (g : Digraph) : List NodeId := List.range g.size

/-- The neighbours of a node; a node outside the graph has none. -/
def neighbours (g : Digraph) (v : NodeId) : Neighbours := g.adjacency.getD v {}

/-- The successors of a node, in the order in which they were added. -/
def succ (g : Digraph) (v : NodeId) : List NodeId := (g.neighbours v).succ

/-- The predecessors of a node, in the order in which they were added. -/
def pred (g : Digraph) (v : NodeId) : List NodeId := (g.neighbours v).pred

theorem below_neighbours (g : Digraph) (v : NodeId) : (g.neighbours v).Below g.size := by
  unfold neighbours
  by_cases h : v < g.adjacency.size
  · rw [Array.getD_eq_getD_getElem?, Array.getElem?_eq_getElem h]
    exact g.below _ (Array.getElem_mem h)
  · rw [Array.getD_eq_getD_getElem?, Array.getElem?_eq_none (Nat.le_of_not_lt h)]
    exact ⟨fun _ hw => absurd hw List.not_mem_nil, fun _ hw => absurd hw List.not_mem_nil⟩

theorem lt_size_of_mem_succ {g : Digraph} {u v : NodeId} (h : v ∈ g.succ u) : v < g.size :=
  (g.below_neighbours u).1 v h

theorem lt_size_of_mem_pred {g : Digraph} {u v : NodeId} (h : v ∈ g.pred u) : v < g.size :=
  (g.below_neighbours u).2 v h

theorem neighbours_of_size_le {g : Digraph} {v : NodeId} (h : g.size ≤ v) :
    g.neighbours v = {} := by
  rw [neighbours, Array.getD_eq_getD_getElem?, Array.getElem?_eq_none h, Option.getD_none]

theorem succ_of_size_le {g : Digraph} {v : NodeId} (h : g.size ≤ v) : g.succ v = [] := by
  rw [succ, neighbours_of_size_le h]

theorem pred_of_size_le {g : Digraph} {v : NodeId} (h : g.size ≤ v) : g.pred v = [] := by
  rw [pred, neighbours_of_size_le h]

theorem lt_size_of_succ {g : Digraph} {u v : NodeId} (h : v ∈ g.succ u) : u < g.size := by
  by_cases hu : u < g.size
  · exact hu
  · rw [succ_of_size_le (Nat.le_of_not_lt hu)] at h
    exact absurd h List.not_mem_nil

def edgeCount (g : Digraph) : Nat :=
  (g.nodes.map fun v => (g.succ v).length).foldr (· + ·) 0

/-- Each node is listed as a successor exactly where the converse is listed as a predecessor. -/
def Consistent (g : Digraph) : Prop := ∀ u v, v ∈ g.succ u ↔ u ∈ g.pred v

/-! ## Reversal -/

/-- The graph with all edges turned around. -/
def reverse (g : Digraph) : Digraph where
  adjacency := g.adjacency.map Neighbours.swap
  below := by
    intro l hl
    obtain ⟨m, hm, rfl⟩ := Array.mem_map.mp hl
    rw [Array.size_map]
    exact (g.below m hm).symm

@[simp]
theorem size_reverse (g : Digraph) : g.reverse.size = g.size := Array.size_map

@[simp]
theorem neighbours_reverse (g : Digraph) (v : NodeId) :
    g.reverse.neighbours v = (g.neighbours v).swap := by
  simp only [neighbours, reverse, Array.getD_eq_getD_getElem?, Array.getElem?_map]
  cases g.adjacency[v]? <;> rfl

@[simp]
theorem succ_reverse (g : Digraph) (v : NodeId) : g.reverse.succ v = g.pred v := by
  simp [succ, pred, Neighbours.swap]

@[simp]
theorem pred_reverse (g : Digraph) (v : NodeId) : g.reverse.pred v = g.succ v := by
  simp [succ, pred, Neighbours.swap]

theorem Consistent.reverse {g : Digraph} (h : g.Consistent) : g.reverse.Consistent := by
  intro u v
  rw [succ_reverse, pred_reverse]
  exact (h v u).symm

/-! ## Construction -/

def empty (n : Nat) : Digraph where
  adjacency := Array.replicate n {}
  below := by
    intro l hl
    rw [(Array.mem_replicate.mp hl).2]
    exact ⟨fun _ h => absurd h List.not_mem_nil, fun _ h => absurd h List.not_mem_nil⟩

@[simp]
theorem size_empty (n : Nat) : (empty n).size = n := Array.size_replicate

@[simp]
theorem neighbours_empty (n : Nat) (v : NodeId) : (empty n).neighbours v = {} := by
  simp only [neighbours, empty, Array.getD_eq_getD_getElem?, Array.getElem?_replicate]
  split <;> rfl

def modify (g : Digraph) (v : NodeId) (f : Neighbours → Neighbours)
    (h : ∀ l, l.Below g.size → (f l).Below g.size) : Digraph where
  adjacency := g.adjacency.modify v f
  below := by
    intro l hl
    rw [Array.size_modify]
    obtain ⟨i, hi, rfl⟩ := Array.mem_iff_getElem.mp hl
    rw [Array.size_modify] at hi
    have hb := g.below _ (Array.getElem_mem hi)
    rw [Array.getElem_modify]
    split
    · exact h _ hb
    · exact hb

@[simp]
theorem size_modify {g : Digraph} {v : NodeId} {f : Neighbours → Neighbours}
    {h : ∀ l, l.Below g.size → (f l).Below g.size} : (g.modify v f h).size = g.size :=
  Array.size_modify

theorem neighbours_modify {g : Digraph} {v : NodeId} {f : Neighbours → Neighbours}
    {h : ∀ l, l.Below g.size → (f l).Below g.size} (w : NodeId) :
    (g.modify v f h).neighbours w =
      if w = v ∧ w < g.size then f (g.neighbours w) else g.neighbours w := by
  simp only [neighbours, modify, Array.getD_eq_getD_getElem?, Array.getElem?_modify, size]
  by_cases hw : w < g.adjacency.size
  · by_cases e : v = w
    · simp [hw, e]
    · simp [hw, e, Ne.symm e]
  · simp [hw]

/-- Appends `v` to the successors of `u`, if both are nodes of the graph. -/
def addSuccessor (g : Digraph) (u v : NodeId) : Digraph :=
  if hv : v < g.size then
    g.modify u (.addSucc v) fun _ hl => hl.addSucc hv
  else g

def addPredecessor (g : Digraph) (u v : NodeId) : Digraph :=
  if hu : u < g.size then
    g.modify v (.addPred u) fun _ hl => hl.addPred hu
  else g

/-- Appends an edge in both directions; an edge that is there already is listed again. -/
def addEdge (g : Digraph) (u v : NodeId) : Digraph :=
  (g.addSuccessor u v).addPredecessor u v

/-- Adds an edge in both directions unless it is there already. -/
def insertEdge (g : Digraph) (u v : NodeId) : Digraph :=
  if v ∈ g.succ u then g else g.addEdge u v

@[simp]
theorem size_addSuccessor (g : Digraph) (u v : NodeId) :
    (g.addSuccessor u v).size = g.size := by
  unfold addSuccessor
  split <;> simp

@[simp]
theorem size_addPredecessor (g : Digraph) (u v : NodeId) :
    (g.addPredecessor u v).size = g.size := by
  unfold addPredecessor
  split <;> simp

@[simp]
theorem size_addEdge (g : Digraph) (u v : NodeId) : (g.addEdge u v).size = g.size := by
  simp [addEdge]

@[simp]
theorem size_insertEdge (g : Digraph) (u v : NodeId) : (g.insertEdge u v).size = g.size := by
  unfold insertEdge
  split <;> simp

theorem succ_addSuccessor (g : Digraph) (u v w : NodeId) :
    (g.addSuccessor u v).succ w =
      if w = u ∧ w < g.size ∧ v < g.size then g.succ w ++ [v] else g.succ w := by
  unfold addSuccessor
  split
  · next hv =>
    rw [succ, neighbours_modify]
    by_cases h : w = u ∧ w < g.size
    · rw [if_pos h, if_pos ⟨h.1, h.2, hv⟩]
      rfl
    · rw [if_neg h, if_neg fun h' => h ⟨h'.1, h'.2.1⟩, succ]
  · next hv => rw [if_neg fun h => hv h.2.2]

@[simp]
theorem pred_addSuccessor (g : Digraph) (u v w : NodeId) :
    (g.addSuccessor u v).pred w = g.pred w := by
  unfold addSuccessor
  split
  · rw [pred, neighbours_modify]
    split <;> rfl
  · rfl

theorem pred_addPredecessor (g : Digraph) (u v w : NodeId) :
    (g.addPredecessor u v).pred w =
      if w = v ∧ w < g.size ∧ u < g.size then g.pred w ++ [u] else g.pred w := by
  unfold addPredecessor
  split
  · next hu =>
    rw [pred, neighbours_modify]
    by_cases h : w = v ∧ w < g.size
    · rw [if_pos h, if_pos ⟨h.1, h.2, hu⟩]
      rfl
    · rw [if_neg h, if_neg fun h' => h ⟨h'.1, h'.2.1⟩, pred]
  · next hu => rw [if_neg fun h => hu h.2.2]

@[simp]
theorem succ_addPredecessor (g : Digraph) (u v w : NodeId) :
    (g.addPredecessor u v).succ w = g.succ w := by
  unfold addPredecessor
  split
  · rw [succ, neighbours_modify]
    split <;> rfl
  · rfl

theorem succ_addEdge (g : Digraph) (u v w : NodeId) :
    (g.addEdge u v).succ w =
      if w = u ∧ w < g.size ∧ v < g.size then g.succ w ++ [v] else g.succ w := by
  rw [addEdge, succ_addPredecessor, succ_addSuccessor]

theorem pred_addEdge (g : Digraph) (u v w : NodeId) :
    (g.addEdge u v).pred w =
      if w = v ∧ w < g.size ∧ u < g.size then g.pred w ++ [u] else g.pred w := by
  rw [addEdge, pred_addPredecessor, pred_addSuccessor, size_addSuccessor]

theorem consistent_empty (n : Nat) : (empty n).Consistent := by
  intro u v
  simp [succ, pred]

theorem Consistent.addEdge {g : Digraph} (h : g.Consistent) (u v : NodeId) :
    (g.addEdge u v).Consistent := by
  intro a b
  rw [succ_addEdge, pred_addEdge]
  have hab := h a b
  grind

theorem Consistent.insertEdge {g : Digraph} (h : g.Consistent) (u v : NodeId) :
    (g.insertEdge u v).Consistent := by
  unfold Digraph.insertEdge
  split
  · exact h
  · exact h.addEdge u v

theorem succ_insertEdge_of_ne (g : Digraph) {u v w : NodeId} (h : w ≠ u) :
    (g.insertEdge u v).succ w = g.succ w := by
  unfold insertEdge
  split
  · rfl
  · rw [succ_addEdge, if_neg fun e => h e.1]

/-- The graph on `n` nodes with the given edges, each listed once in each direction, in the
order of first occurrence. -/
def ofEdges (n : Nat) (edges : List (NodeId × NodeId)) : Digraph :=
  edges.foldl (fun g e => g.insertEdge e.1 e.2) (empty n)

theorem ofEdges_induction {n : Nat} {edges : List (NodeId × NodeId)} {P : Digraph → Prop}
    (base : P (empty n))
    (step : ∀ g, ∀ e ∈ edges, P g → P (g.insertEdge e.1 e.2)) : P (ofEdges n edges) := by
  unfold ofEdges
  generalize empty n = g at base
  induction edges generalizing g with
  | nil => exact base
  | cons e es ih =>
    exact ih (fun g' e' he' => step g' e' (List.mem_cons_of_mem e he')) _
      (step g e List.mem_cons_self base)

@[simp]
theorem size_ofEdges (n : Nat) (edges : List (NodeId × NodeId)) :
    (ofEdges n edges).size = n :=
  ofEdges_induction (P := fun g => g.size = n) (size_empty n)
    fun g _ _ h => (size_insertEdge g _ _).trans h

theorem consistent_ofEdges (n : Nat) (edges : List (NodeId × NodeId)) :
    (ofEdges n edges).Consistent :=
  ofEdges_induction (consistent_empty n) fun _ _ _ h => h.insertEdge _ _

theorem succ_ofEdges_of_forall_ne {n : Nat} {edges : List (NodeId × NodeId)} {v : NodeId}
    (h : ∀ e ∈ edges, e.1 ≠ v) : (ofEdges n edges).succ v = [] :=
  ofEdges_induction (P := fun g => g.succ v = []) (by simp [succ])
    fun g e he hg => (g.succ_insertEdge_of_ne (h e he).symm).trans hg

end Digraph

end Slicing
