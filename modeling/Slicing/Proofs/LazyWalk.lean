import Mathlib.Data.Seq.Basic
import Slicing.Proofs.VisitOrder

/-!
# Walking one node at a time

A walk can be stopped after any visit and taken up again. Between two visits it is given by the
pending nodes and the marks (`Search.Walk`). The nodes that it visits are a sequence, and nothing
in the definition of `Digraph.walk` says that this sequence ends.

It does end, and its nodes are those of `Digraph.visitOrder` in the same order (`walk_eq_ofList`).
The finishing order lists the same nodes in another order (`visitOrder_perm_finishOrder`).
-/
namespace Slicing

open Stream' (Seq)

namespace Search

/-- A walk between two visits: the nodes that wait for their turn, the next one first, and the
marks on all nodes that it has met. -/
structure Walk where
  pending : List NodeId
  seen : Marks

namespace Walk

/-- Visits the next node; its unmet neighbours are marked and come before the other pending nodes.
A walk without pending nodes is over. -/
def advance (next : NodeId → List NodeId) (walk : Walk) : Option (NodeId × Walk) :=
  match walk.pending with
  | [] => none
  | v :: rest =>
    let collected := walk.seen.collect (next v)
    some (v, ⟨collected.1 ++ rest, collected.2⟩)

theorem corec_advance (next : NodeId → List NodeId) (pending : List NodeId) (seen : Marks) :
    Seq.corec (advance next) ⟨pending, seen⟩ = Seq.ofList (visit next pending seen) := by
  fun_induction visit next pending seen with
  | case1 seen => rw [Seq.corec_nil _ _ rfl, Seq.ofList_nil]
  | case2 seen v rest collected ih => rw [Seq.corec_cons rfl, ih, Seq.ofList_cons]

end Walk

end Search

namespace Digraph

variable {g : Digraph} {start : NodeId}

/-! ## The nodes of a walk -/

theorem visitOrder_of_size_le (h : g.size ≤ start) : g.visitOrder start = [] := by
  have hmet : ¬(Marks.none g.size).Unmet start := fun hu =>
    Nat.not_lt.mpr h (Marks.unmet_none.mp hu)
  rw [visitOrder, Search.reach, Marks.collect_cons_of_not_unmet _ hmet, Marks.collect_nil,
    Search.visit_nil]

theorem visitOrder_eq_nil_iff : g.visitOrder start = [] ↔ g.size ≤ start := by
  refine ⟨fun hnil => Nat.le_of_not_lt fun h => ?_, visitOrder_of_size_le⟩
  have hmem : start ∈ g.visitOrder start := mem_visitOrder.mpr (.refl h)
  exact List.ne_nil_of_mem hmem hnil

theorem head?_visitOrder_eq_some_iff :
    (g.visitOrder start).head? = some start ↔ start < g.size := by
  refine ⟨fun hhead => Nat.lt_of_not_le fun h => ?_, fun h => (growsFrom_visitOrder h).head⟩
  rw [visitOrder_of_size_le h] at hhead
  cases hhead

theorem exists_before_of_mem_visitOrder {w : NodeId} (hw : w ∈ g.visitOrder start)
    (hne : w ≠ start) : ∃ u, w ∈ g.succ u ∧ [u, w].Sublist (g.visitOrder start) := by
  have hstart : start < g.size := Nat.lt_of_not_le fun h =>
    List.ne_nil_of_mem hw (visitOrder_of_size_le h)
  exact (growsFrom_visitOrder hstart).exists_before w hw hne

/-- The two searches list the same nodes, each once. -/
theorem visitOrder_perm_finishOrder (g : Digraph) (start : NodeId) :
    (g.visitOrder start).Perm (g.finishOrder start) := by
  refine (List.perm_ext_iff_of_nodup (g.nodup_visitOrder start) (g.nodup_finishOrder start)).mpr ?_
  intro w
  rw [mem_visitOrder, mem_finishOrder]

/-! ## The sequence of visits -/

def beginWalk (g : Digraph) (start : NodeId) : Search.Walk :=
  let unmarked := Marks.none g.size
  if unmarked.Unmet start then ⟨[start], unmarked.mark start⟩ else ⟨[], unmarked⟩

/-- The nodes visited from the start on, for as long as there is a next one. -/
def walk (g : Digraph) (start : NodeId) : Seq NodeId :=
  Seq.corec (Search.Walk.advance g.succ) (g.beginWalk start)

theorem walk_eq_ofList (g : Digraph) (start : NodeId) :
    g.walk start = Seq.ofList (g.visitOrder start) := by
  rw [walk, beginWalk]
  by_cases h : start < g.size
  · rw [if_pos (Marks.unmet_none.mpr h), Search.Walk.corec_advance, visitOrder_eq_visit h]
  · rw [if_neg fun hu => h (Marks.unmet_none.mp hu), Search.Walk.corec_advance, Search.visit_nil,
      visitOrder_of_size_le (Nat.le_of_not_lt h)]

theorem terminatedAt_walk (g : Digraph) (start : NodeId) :
    (g.walk start).TerminatedAt g.size := by
  rw [Seq.TerminatedAt, walk_eq_ofList, Seq.ofList_get?]
  refine List.getElem?_eq_none ?_
  rw [(g.visitOrder_perm_finishOrder start).length_eq]
  exact g.length_finishOrder_le start

theorem toList_walk (h : (g.walk start).Terminates) :
    (g.walk start).toList h = g.visitOrder start := by
  refine Seq.ofList_injective ?_
  rw [Seq.ofList_toList, walk_eq_ofList]

/-- A walk ends after at most as many visits as the graph has nodes. Its nodes are those that the
start reaches, each once and the start first; there are none exactly if the start is outside the
graph. Every other node comes after one that it is a successor of. The finishing order is a
permutation of the same nodes. -/
theorem walk_visits_reachable_once (g : Digraph) (start : NodeId) :
    (g.walk start).TerminatedAt g.size ∧
      (∃ h, (g.walk start).toList h = g.visitOrder start) ∧
      (g.visitOrder start = [] ↔ g.size ≤ start) ∧
      (∀ w, w ∈ g.visitOrder start ↔ g.Reaches start w) ∧
      (g.visitOrder start).Nodup ∧
      ((g.visitOrder start).head? = some start ↔ start < g.size) ∧
      (∀ w ∈ g.visitOrder start, w ≠ start →
        ∃ u, w ∈ g.succ u ∧ [u, w].Sublist (g.visitOrder start)) ∧
      (g.visitOrder start).Perm (g.finishOrder start) := by
  have hend : (g.walk start).TerminatedAt g.size := g.terminatedAt_walk start
  exact ⟨hend, ⟨⟨g.size, hend⟩, toList_walk _⟩, visitOrder_eq_nil_iff, fun w => mem_visitOrder,
    g.nodup_visitOrder start, head?_visitOrder_eq_some_iff,
    fun w => exists_before_of_mem_visitOrder, g.visitOrder_perm_finishOrder start⟩

/-- Edges that are listed twice, a node that leads to itself, a way back to the start, and a node
that nothing leads to. -/
def carousel : Digraph :=
  [(0, 2), (0, 1), (0, 2), (2, 2), (2, 3), (3, 1), (1, 0), (3, 1), (4, 3)].foldl
    (fun g e => g.addEdge e.1 e.2) (.empty 5)

theorem carousel_visits_reachable_once :
    carousel.visitOrder 0 = [0, 2, 3, 1] ∧ (∃ h, (carousel.walk 0).toList h = [0, 2, 3, 1]) ∧
      carousel.Reaches 0 1 ∧ ¬carousel.Reaches 0 4 ∧
      (∃ u, 1 ∈ carousel.succ u ∧ [u, 1].Sublist [0, 2, 3, 1]) ∧
      [0, 2, 3, 1].Perm (carousel.finishOrder 0) ∧ carousel.visitOrder 5 = [] := by
  have horder : carousel.visitOrder 0 = [0, 2, 3, 1] := by decide +kernel
  obtain ⟨_, hlist, _, hmem, _, _, hbefore, hperm⟩ := walk_visits_reachable_once carousel 0
  obtain ⟨_, _, hnone, _⟩ := walk_visits_reachable_once carousel 5
  rw [horder] at hlist hmem hbefore hperm
  refine ⟨horder, hlist, (hmem 1).mp (by decide), ?_, hbefore 1 (by decide) (by decide), hperm,
    hnone.mpr (by decide +kernel)⟩
  rw [← hmem]
  decide

end Digraph

end Slicing
