import Mathlib.Data.List.NodupEquivFin
import Slicing.NodeId

/-!
# Which of two nodes comes first

A node comes before another in a list if the two are a sublist of it, that is, if some position of
the first is lower than some position of the second. Where no node is repeated each has one
position, and coming first is a strict order.
-/
namespace Slicing

variable {l l' : List NodeId} {v w x : NodeId} {i j : Nat}

theorem pair_sublist_iff_exists :
    [v, w].Sublist l ↔ ∃ i j : Nat, i < j ∧ l[i]? = some v ∧ l[j]? = some w := by
  constructor
  · intro hs
    obtain ⟨f, hf⟩ := List.sublist_iff_exists_orderEmbedding_getElem?_eq.mp hs
    exact ⟨f 0, f 1, f.lt_iff_lt.mpr Nat.one_pos, (hf 0).symm, (hf 1).symm⟩
  · rintro ⟨i, j, hlt, hi, hj⟩
    obtain ⟨hilt, rfl⟩ := List.getElem?_eq_some_iff.mp hi
    obtain ⟨hjlt, rfl⟩ := List.getElem?_eq_some_iff.mp hj
    have hpairs : l.Pairwise fun a b => [a, b].Sublist l :=
      List.pairwise_iff_forall_sublist.mpr id
    exact List.pairwise_iff_getElem.mp hpairs i j hilt hjlt hlt

theorem position_unique (hn : l.Nodup) (hi : l[i]? = some v) (hj : l[j]? = some v) : i = j := by
  have hlt := (List.getElem?_eq_some_iff.mp hi).1
  exact (List.getElem?_inj hlt hn).mp (hi.trans hj.symm)

theorem lt_of_pair_sublist (hn : l.Nodup) (hs : [v, w].Sublist l) (hi : l[i]? = some v)
    (hj : l[j]? = some w) : i < j := by
  obtain ⟨i', j', hlt, hi', hj'⟩ := pair_sublist_iff_exists.mp hs
  rw [position_unique hn hi hi', position_unique hn hj hj']
  exact hlt

theorem pair_sublist_iff (hn : l.Nodup) (hi : l[i]? = some v) (hj : l[j]? = some w) :
    [v, w].Sublist l ↔ i < j :=
  ⟨fun hs => lt_of_pair_sublist hn hs hi hj,
    fun hlt => pair_sublist_iff_exists.mpr ⟨i, j, hlt, hi, hj⟩⟩

theorem pair_sublist_trans (hn : l.Nodup) (hvw : [v, w].Sublist l) (hwx : [w, x].Sublist l) :
    [v, x].Sublist l := by
  obtain ⟨i, j, hij, hi, hj⟩ := pair_sublist_iff_exists.mp hvw
  obtain ⟨j', k, hjk, hj', hk⟩ := pair_sublist_iff_exists.mp hwx
  rw [position_unique hn hj' hj] at hjk
  exact pair_sublist_iff_exists.mpr ⟨i, k, Nat.lt_trans hij hjk, hi, hk⟩

theorem pair_sublist_irrefl (hn : l.Nodup) : ¬[v, v].Sublist l := by
  intro hs
  exact List.nodup_iff_sublist.mp hn v hs

/-- What is added to a list comes after what it held. -/
theorem pair_sublist_of_isPrefix (h : l <+: l') (hv : v ∈ l) (hw : w ∈ l') (hwl : w ∉ l) :
    [v, w].Sublist l' := by
  obtain ⟨added, rfl⟩ := h
  have hadded : w ∈ added := (List.mem_append.mp hw).resolve_left hwl
  exact (List.singleton_sublist.mpr hv).append (List.singleton_sublist.mpr hadded)

/-- What comes before a node of a list was not added to the list. -/
theorem pair_sublist_of_mem_isPrefix (hn : l'.Nodup) (h : l <+: l') (hw : w ∈ l)
    (hs : [v, w].Sublist l') : [v, w].Sublist l := by
  obtain ⟨added, rfl⟩ := h
  obtain ⟨i, hi⟩ := List.mem_iff_getElem?.mp (hs.subset List.mem_cons_self)
  obtain ⟨j, hj⟩ := List.mem_iff_getElem?.mp hw
  have hjl : j < l.length := (List.getElem?_eq_some_iff.mp hj).1
  have hlt : i < j := by
    refine lt_of_pair_sublist hn hs hi ?_
    rw [List.getElem?_append_left hjl, hj]
  rw [List.getElem?_append_left (Nat.lt_trans hlt hjl)] at hi
  exact pair_sublist_iff_exists.mpr ⟨i, j, hlt, hi, hj⟩

theorem head?_eq_some_iff (hn : l.Nodup) :
    l.head? = some v ↔ v ∈ l ∧ ∀ w, ¬[w, v].Sublist l := by
  rw [List.head?_eq_getElem?]
  constructor
  · intro h
    refine ⟨List.mem_of_getElem? h, fun w hs => ?_⟩
    obtain ⟨i, hi⟩ := List.mem_iff_getElem?.mp (hs.subset List.mem_cons_self)
    exact Nat.not_lt_zero i (lt_of_pair_sublist hn hs hi h)
  · rintro ⟨hv, hnone⟩
    obtain ⟨i, hi⟩ := List.mem_iff_getElem?.mp hv
    cases i with
    | zero => exact hi
    | succ i =>
      have hpos : 0 < l.length := List.length_pos_of_mem hv
      have hs := (pair_sublist_iff hn (List.getElem?_eq_getElem hpos) hi).mpr (Nat.succ_pos i)
      exact absurd hs (hnone _)

theorem getLast?_eq_some_iff (hn : l.Nodup) :
    l.getLast? = some v ↔ v ∈ l ∧ ∀ w, ¬[v, w].Sublist l := by
  rw [List.getLast?_eq_getElem?]
  constructor
  · intro h
    refine ⟨List.mem_of_getElem? h, fun w hs => ?_⟩
    have hw : w ∈ l := hs.subset (List.mem_cons_of_mem v List.mem_cons_self)
    obtain ⟨j, hj⟩ := List.mem_iff_getElem?.mp hw
    have hle : j ≤ l.length - 1 := Nat.le_sub_one_of_lt (List.getElem?_eq_some_iff.mp hj).1
    exact Nat.not_lt_of_le hle (lt_of_pair_sublist hn hs h hj)
  · rintro ⟨hv, hnone⟩
    obtain ⟨i, hi⟩ := List.mem_iff_getElem?.mp hv
    have hlt : i < l.length := (List.getElem?_eq_some_iff.mp hi).1
    have hlast : l.length - 1 < l.length := Nat.sub_one_lt_of_lt hlt
    by_cases heq : i = l.length - 1
    · rw [← heq]
      exact hi
    · have hbelow : i < l.length - 1 := Nat.lt_of_le_of_ne (Nat.le_sub_one_of_lt hlt) heq
      have hs := (pair_sublist_iff hn hi (List.getElem?_eq_getElem hlast)).mpr hbelow
      exact absurd hs (hnone _)

end Slicing
