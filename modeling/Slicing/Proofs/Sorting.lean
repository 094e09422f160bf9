import Mathlib.Data.List.Sort
import Slicing.NodeOrder

/-!
# Sorting by a node order

A list becomes a node order exactly if it can be one, that is, if no node stands in it twice. An
order has a position for each node that it lists, and different positions for different nodes.
Hence a list of such nodes has one arrangement by position, and sorting finds it. If no node is
repeated, this arrangement is the order itself without the nodes that are not in the list.
-/
namespace Slicing

theorem mapM_eq_ok {α β ε : Type} {f : α → Except ε β} {k : α → β} {xs : List α}
    (h : ∀ a ∈ xs, f a = .ok (k a)) : xs.mapM f = .ok (xs.map k) := by
  induction xs with
  | nil => rfl
  | cons a xs ih =>
    have htail := ih fun b hb => h b (List.mem_cons_of_mem a hb)
    rw [List.mapM_cons, h a List.mem_cons_self, htail]
    rfl

namespace NodeOrder

variable {o o' : NodeOrder} {xs ys : List NodeId} {v : NodeId}

/-- The list determines the table, so that orders of the same list are equal. -/
theorem eq_of_nodes (h : o.nodes = o'.nodes) : o = o' := by
  have hindices : o.indices = o'.indices := by
    refine NodeTable.ext fun v => Option.ext fun i => ?_
    rw [o.indexes, o'.indexes, h]
  cases o
  cases o'
  congr

/-! ## Orders from lists -/

theorem push_eq_ok_iff : o.push v = .ok o' ↔ o'.nodes = o.nodes ++ [v] := by
  unfold push
  split
  · next i hi =>
    have hv : v ∈ o.nodes := List.mem_of_getElem? ((o.indexes v i).mp hi)
    refine iff_of_false nofun fun hnodes => ?_
    have hnodup : (o.nodes ++ [v]).Nodup := hnodes ▸ o'.nodup
    exact List.disjoint_of_nodup_append hnodup hv List.mem_cons_self
  · rw [Except.ok.injEq]
    constructor
    · intro heq
      rw [← heq]
    · intro hnodes
      exact eq_of_nodes hnodes.symm

theorem foldlM_push_eq_ok_iff : xs.foldlM push o = .ok o' ↔ o'.nodes = o.nodes ++ xs := by
  induction xs generalizing o with
  | nil =>
    rw [List.foldlM_nil, List.append_nil]
    constructor
    · intro heq
      rw [Except.ok.inj heq]
    · intro hnodes
      rw [eq_of_nodes hnodes]
      rfl
  | cons v xs ih =>
    rw [List.foldlM_cons]
    cases hpush : o.push v with
    | ok p =>
      rw [show o.nodes ++ v :: xs = p.nodes ++ xs by rw [push_eq_ok_iff.mp hpush]; simp]
      exact ih
    | error e =>
      refine iff_of_false nofun fun hnodes => ?_
      have hnodup : (o.nodes ++ [v]).Nodup := by
        have hall : (o.nodes ++ [v] ++ xs).Nodup := by simpa [← hnodes] using o'.nodup
        exact hall.of_append_left
      have hok : o.push v = .ok (ofNodup (o.nodes ++ [v]) hnodup) := push_eq_ok_iff.mpr rfl
      exact absurd (hpush.symm.trans hok) nofun

theorem ofList_eq_ok_iff : ofList xs = .ok o ↔ o.nodes = xs := foldlM_push_eq_ok_iff

/-! ## Arrangements by position -/

theorem position_of_mem (hv : v ∈ o.nodes) : o.position v = .ok (o.nodes.idxOf v) := by
  have hindex : o.indices.get? v = some (o.nodes.idxOf v) := by
    rw [o.indexes]
    exact List.getElem?_idxOf hv
  rw [position, hindex]

/-- The positions of the nodes do not decrease along the list. -/
def Ascending (o : NodeOrder) (xs : List NodeId) : Prop :=
  xs.Pairwise fun a b => o.nodes.idxOf a ≤ o.nodes.idxOf b

theorem ascending_nodes (o : NodeOrder) : o.Ascending o.nodes := by
  refine List.pairwise_iff_getElem.mpr fun i j hi hj hij => ?_
  rw [o.nodup.idxOf_getElem, o.nodup.idxOf_getElem]
  exact Nat.le_of_lt hij

/-- Different nodes have different positions, so there is only one ascending arrangement. -/
theorem Ascending.eq_of_perm (hx : o.Ascending xs) (hy : o.Ascending ys)
    (hmem : ∀ v ∈ xs, v ∈ o.nodes) (hperm : xs.Perm ys) : xs = ys := by
  refine hperm.eq_of_pairwise (fun a b ha _ hab hba => ?_) hx hy
  exact (List.idxOf_inj (hmem a ha)).mp (Nat.le_antisymm hab hba)

theorem exists_sort (hmem : ∀ v ∈ xs, v ∈ o.nodes) :
    ∃ ys, o.sort xs = .ok ys ∧ ys.Perm xs ∧ o.Ascending ys := by
  let keyed := xs.map fun v => (o.nodes.idxOf v, v)
  let sorted := keyed.mergeSort fun a b => a.1 ≤ b.1
  have hperm : sorted.Perm keyed := List.mergeSort_perm _ _
  have hkeyed : xs.mapM (fun v => return (← o.position v, v)) = .ok keyed := by
    refine mapM_eq_ok fun v hv => ?_
    rw [position_of_mem (hmem v hv)]
    rfl
  refine ⟨sorted.map Prod.snd, ?_, ?_, ?_⟩
  · rw [sort, hkeyed]
    rfl
  · have hsnd : keyed.map Prod.snd = xs := List.map_map.trans (List.map_id _)
    exact hsnd ▸ hperm.map Prod.snd
  · have hsorted : sorted.Pairwise fun a b => a.1 ≤ b.1 :=
      List.pairwise_mergeSort' (Order.Preimage Prod.fst (· ≤ ·)) keyed
    have hkey : ∀ a ∈ sorted, a.1 = o.nodes.idxOf a.2 := by
      intro a ha
      obtain ⟨v, _, rfl⟩ := List.mem_map.mp (hperm.mem_iff.mp ha)
      rfl
    refine List.pairwise_map.mpr (hsorted.imp_of_mem fun {a b} ha hb hab => ?_)
    rw [← hkey a ha, ← hkey b hb]
    exact hab

/-- Sorting a list without repetition leaves of the order what stands in the list. -/
theorem sort_eq_filter (hnodup : xs.Nodup) (hmem : ∀ v ∈ xs, v ∈ o.nodes) :
    o.sort xs = .ok (o.nodes.filter (· ∈ xs)) := by
  obtain ⟨ys, hsort, hperm, hasc⟩ := exists_sort hmem
  have hfilter : ys.Perm (o.nodes.filter (· ∈ xs)) := by
    refine (List.perm_ext_iff_of_nodup (hperm.nodup_iff.mpr hnodup) (o.nodup.filter _)).mpr ?_
    intro v
    rw [hperm.mem_iff, List.mem_filter, decide_eq_true_iff]
    exact ⟨fun hv => ⟨hmem v hv, hv⟩, And.right⟩
  rw [hsort, hasc.eq_of_perm (List.Pairwise.filter _ o.ascending_nodes)
    (fun v hv => hmem v (hperm.mem_iff.mp hv)) hfilter]

end NodeOrder

end Slicing
