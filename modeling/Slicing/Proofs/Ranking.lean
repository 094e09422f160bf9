import Slicing.Proofs.Precedence
import Slicing.Proofs.Sorting

/-!
# How an order ranks nodes

An order lists nodes and keeps a table of their positions. Each node is entered in the table as it
is listed, so the two agree, and a node that is met again is reported with both of its positions:
the repetition whose second position is lowest.

Comparing two nodes says which of them is listed first, and fails only if one is not listed at all.
Sorting looks up every position before it arranges anything. If that fails then at the first node
that is not listed; otherwise the result is the one arrangement with positions that do not decrease.
-/
namespace Slicing

/-- A traversal fails where its first failing step does. -/
theorem mapM_eq_error {α β ε : Type} {f : α → Except ε β} {k : α → β} {before after : List α}
    {a : α} {e : ε} (hbefore : ∀ b ∈ before, f b = .ok (k b)) (ha : f a = .error e) :
    (before ++ a :: after).mapM f = .error e := by
  rw [List.mapM_append, mapM_eq_ok hbefore, List.mapM_cons, ha]
  rfl

namespace NodeOrder

variable {o : NodeOrder} {xs ys : List NodeId} {a b c v w : NodeId} {i j k m : Nat}
variable {x : Violation}

/-! ## Repetitions -/

def Repeats (xs : List NodeId) (v : NodeId) (i j : Nat) : Prop :=
  i < j ∧ xs[i]? = some v ∧ xs[j]? = some v

/-- No repetition has a lower second position. -/
def FirstRepeats (xs : List NodeId) (v : NodeId) (i j : Nat) : Prop :=
  Repeats xs v i j ∧ ∀ w k m, Repeats xs w k m → j ≤ m

theorem not_repeats_of_nodup (h : xs.Nodup) : ¬Repeats xs v i j := by
  intro ⟨hlt, hi, hj⟩
  exact Nat.ne_of_lt hlt (position_unique h hi hj)

/-- A node at two positions below the second one of a first repetition would be noticed before. -/
theorem FirstRepeats.unique (h : FirstRepeats xs v i j) (h' : FirstRepeats xs w k m) :
    v = w ∧ i = k ∧ j = m := by
  obtain ⟨⟨hij, hi, hj⟩, hlowest⟩ := h
  obtain ⟨⟨hkm, hk, hm⟩, hlowest'⟩ := h'
  obtain rfl : j = m :=
    Nat.le_antisymm (hlowest w k m ⟨hkm, hk, hm⟩) (hlowest' v i j ⟨hij, hi, hj⟩)
  obtain rfl : v = w := Option.some.inj (hj.symm.trans hm)
  refine ⟨rfl, ?_, rfl⟩
  rcases Nat.lt_trichotomy i k with hlt | heq | hgt
  · exact absurd (hlowest v i k ⟨hlt, hi, hk⟩) (Nat.not_le_of_lt hkm)
  · exact heq
  · exact absurd (hlowest v k i ⟨hgt, hk, hi⟩) (Nat.not_le_of_lt hij)

theorem push_eq_error_iff :
    o.push v = .error x ↔ ∃ i, o.nodes[i]? = some v ∧ x = .repeated v i o.length := by
  unfold push
  split
  · next i hi =>
    have hnode := (o.indexes v i).mp hi
    constructor
    · intro heq
      exact ⟨i, hnode, (Except.error.inj heq).symm⟩
    · rintro ⟨k, hk, rfl⟩
      rw [position_unique o.nodup hk hnode]
  · next hnone =>
    refine iff_of_false nofun ?_
    rintro ⟨i, hi, _⟩
    exact o.indexes.get?_eq_none_iff.mp hnone (List.mem_of_getElem? hi)

theorem firstRepeats_append_cons (hi : o.nodes[i]? = some v) (xs : List NodeId) :
    FirstRepeats (o.nodes ++ v :: xs) v i o.length := by
  have hlt : i < o.nodes.length := (List.getElem?_eq_some_iff.mp hi).1
  refine ⟨⟨hlt, ?_, ?_⟩, ?_⟩
  · rw [List.getElem?_append_left hlt, hi]
  · rw [length, List.getElem?_append_right (Nat.le_refl _), Nat.sub_self, List.getElem?_cons_zero]
  · intro w k m ⟨hkm, hk, hm⟩
    apply Nat.le_of_not_lt
    intro hmlt
    rw [List.getElem?_append_left (Nat.lt_trans hkm hmlt)] at hk
    rw [List.getElem?_append_left hmlt] at hm
    exact not_repeats_of_nodup o.nodup ⟨hkm, hk, hm⟩

theorem exists_firstRepeats (h : xs.foldlM push o = .error x) :
    ∃ v i j, FirstRepeats (o.nodes ++ xs) v i j ∧ x = .repeated v i j := by
  induction xs generalizing o with
  | nil => exact nomatch h
  | cons v xs ih =>
    rw [List.foldlM_cons] at h
    cases hpush : o.push v with
    | ok p =>
      rw [hpush] at h
      have hnodes : o.nodes ++ v :: xs = p.nodes ++ xs := by
        rw [push_eq_ok_iff.mp hpush, List.append_assoc, List.singleton_append]
      rw [hnodes]
      exact ih h
    | error e =>
      rw [hpush] at h
      obtain ⟨i, hi, he⟩ := push_eq_error_iff.mp hpush
      have hx : x = e := (Except.error.inj h).symm
      exact ⟨v, i, o.length, firstRepeats_append_cons hi xs, hx.trans he⟩

theorem exists_ofList_iff : (∃ o, ofList xs = .ok o) ↔ xs.Nodup := by
  constructor
  · intro ⟨o, ho⟩
    rw [← ofList_eq_ok_iff.mp ho]
    exact o.nodup
  · intro h
    exact ⟨ofNodup xs h, ofList_eq_ok_iff.mpr rfl⟩

/-- A list that is not an order is reported with its first repetition. -/
theorem ofList_eq_error_iff :
    ofList xs = .error x ↔ ∃ v i j, FirstRepeats xs v i j ∧ x = .repeated v i j := by
  constructor
  · intro h
    exact exists_firstRepeats h
  · rintro ⟨v, i, j, hfirst, rfl⟩
    cases hlist : ofList xs with
    | ok o => exact absurd hfirst.1 (not_repeats_of_nodup (exists_ofList_iff.mp ⟨o, hlist⟩))
    | error e =>
      obtain ⟨w, k, m, hfirst', rfl⟩ := exists_firstRepeats hlist
      obtain ⟨rfl, rfl, rfl⟩ := hfirst.unique hfirst'
      rfl

example : ofList [4, 0, 2, 0, 4] = .error (.repeated 0 1 3) := rfl

/-! ## Positions and comparison -/

theorem position_eq_ok_iff : o.position v = .ok i ↔ o.nodes[i]? = some v := by
  rw [← o.indexes]
  unfold position
  split
  · next hk => rw [hk, Except.ok.injEq, Option.some.injEq]
  · next hnone => exact iff_of_false nofun (hnone ▸ nofun)

theorem position_of_not_mem (hv : v ∉ o.nodes) : o.position v = .error (.notOrdered v) := by
  rw [position, o.indexes.get?_eq_none_iff.mpr hv]

theorem nodeAt_eq_ok_iff : o.nodeAt i = .ok v ↔ o.nodes[i]? = some v := by
  unfold nodeAt
  split
  · next hw => rw [hw, Except.ok.injEq, Option.some.injEq]
  · next hnone => exact iff_of_false nofun (hnone ▸ nofun)

theorem compare_eq_ok_iff {r : Ordering} :
    o.compare a b = .ok r ↔
      ∃ i j : Nat, Ord.compare i j = r ∧ o.nodes[i]? = some a ∧ o.nodes[j]? = some b := by
  simp only [← position_eq_ok_iff]
  unfold compare
  cases o.position a <;> cases o.position b <;>
    simp [bind, Except.bind, pure, Except.pure]

theorem exists_compare_iff :
    (∃ r, o.compare a b = .ok r) ↔ a ∈ o.nodes ∧ b ∈ o.nodes := by
  simp only [compare_eq_ok_iff, List.mem_iff_getElem?]
  constructor
  · rintro ⟨_, i, j, _, hi, hj⟩
    exact ⟨⟨i, hi⟩, j, hj⟩
  · rintro ⟨⟨i, hi⟩, j, hj⟩
    exact ⟨_, i, j, rfl, hi, hj⟩

theorem compare_eq_lt_iff : o.compare a b = .ok .lt ↔ [a, b].Sublist o.nodes := by
  rw [compare_eq_ok_iff, pair_sublist_iff_exists]
  simp only [Nat.compare_eq_lt]

theorem compare_eq_gt_iff : o.compare a b = .ok .gt ↔ [b, a].Sublist o.nodes := by
  rw [compare_eq_ok_iff, pair_sublist_iff_exists]
  simp only [Nat.compare_eq_gt]
  constructor
  · rintro ⟨i, j, hlt, hi, hj⟩
    exact ⟨j, i, hlt, hj, hi⟩
  · rintro ⟨i, j, hlt, hi, hj⟩
    exact ⟨j, i, hlt, hj, hi⟩

theorem compare_eq_eq_iff : o.compare a b = .ok .eq ↔ a = b ∧ a ∈ o.nodes := by
  simp only [compare_eq_ok_iff, Nat.compare_eq_eq, List.mem_iff_getElem?]
  constructor
  · rintro ⟨i, _, rfl, hi, hj⟩
    exact ⟨Option.some.inj (hi.symm.trans hj), i, hi⟩
  · rintro ⟨rfl, i, hi⟩
    exact ⟨i, i, rfl, hi, hi⟩

theorem precedes_eq_ok_iff {before : Bool} :
    o.precedes a b = .ok before ↔
      ∃ r, o.compare a b = .ok r ∧ (before = true ↔ r = .lt) := by
  unfold precedes
  cases o.compare a b with
  | error e => exact iff_of_false nofun nofun
  | ok r => cases before <;> cases r <;> simp [bind, Except.bind, pure, Except.pure]

/-! ## Sorting -/

theorem sort_of_not_mem {before after : List NodeId} (hbefore : ∀ w ∈ before, w ∈ o.nodes)
    (hv : v ∉ o.nodes) : o.sort (before ++ v :: after) = .error (.notOrdered v) := by
  have hkeyed : (before ++ v :: after).mapM (fun w => return (← o.position w, w)) =
      .error (.notOrdered v) := by
    refine mapM_eq_error (k := fun w => (o.nodes.idxOf w, w)) (fun w hw => ?_) ?_
    · rw [position_of_mem (hbefore w hw)]
      rfl
    · rw [position_of_not_mem hv]
      rfl
  rw [sort, hkeyed]
  rfl

theorem exists_first_not_mem (h : ¬∀ v ∈ xs, v ∈ o.nodes) :
    ∃ before v after, xs = before ++ v :: after ∧ (∀ w ∈ before, w ∈ o.nodes) ∧ v ∉ o.nodes := by
  have hfind : (xs.find? (· ∉ o.nodes)).isSome := by
    rw [List.find?_isSome]
    simpa using h
  obtain ⟨v, hv⟩ := Option.isSome_iff_exists.mp hfind
  obtain ⟨hmissing, before, after, heq, hbefore⟩ := List.find?_eq_some_iff_append.mp hv
  exact ⟨before, v, after, heq, by simpa using hbefore, by simpa using hmissing⟩

theorem sort_eq_error_iff :
    o.sort xs = .error x ↔
      ∃ before v after, xs = before ++ v :: after ∧ (∀ w ∈ before, w ∈ o.nodes) ∧
        v ∉ o.nodes ∧ x = .notOrdered v := by
  constructor
  · intro h
    by_cases hmem : ∀ v ∈ xs, v ∈ o.nodes
    · obtain ⟨ys, hsort, _⟩ := exists_sort hmem
      exact nomatch h.symm.trans hsort
    · obtain ⟨before, v, after, rfl, hbefore, hv⟩ := exists_first_not_mem hmem
      have hx := h.symm.trans (sort_of_not_mem hbefore hv)
      exact ⟨before, v, after, rfl, hbefore, hv, Except.error.inj hx⟩
  · rintro ⟨before, v, after, rfl, hbefore, hv, rfl⟩
    exact sort_of_not_mem hbefore hv

/-- Sorting gives the only arrangement by position. -/
theorem sort_eq_ok_iff :
    o.sort xs = .ok ys ↔ (∀ v ∈ xs, v ∈ o.nodes) ∧ ys.Perm xs ∧ o.Ascending ys := by
  by_cases hmem : ∀ v ∈ xs, v ∈ o.nodes
  · obtain ⟨zs, hsort, hperm, hasc⟩ := exists_sort hmem
    rw [hsort, Except.ok.injEq, and_iff_right hmem]
    constructor
    · rintro rfl
      exact ⟨hperm, hasc⟩
    · intro ⟨hperm', hasc'⟩
      have hlisted : ∀ v ∈ zs, v ∈ o.nodes := fun v hv => hmem v (hperm.mem_iff.mp hv)
      exact hasc.eq_of_perm hasc' hlisted (hperm.trans hperm'.symm)
  · refine iff_of_false (fun hsort => ?_) fun h => hmem h.1
    obtain ⟨before, v, after, rfl, hbefore, hv⟩ := exists_first_not_mem hmem
    exact nomatch hsort.symm.trans (sort_of_not_mem hbefore hv)

def Nondecreasing (o : NodeOrder) (ys : List NodeId) : Prop :=
  ys.Pairwise fun a b => ∃ i j, o.position a = .ok i ∧ o.position b = .ok j ∧ i ≤ j

theorem nondecreasing_iff_ascending (hmem : ∀ v ∈ ys, v ∈ o.nodes) :
    o.Nondecreasing ys ↔ o.Ascending ys := by
  refine List.Pairwise.iff_of_mem fun {a b} ha hb => ?_
  simp [position_of_mem (hmem a ha), position_of_mem (hmem b hb)]

/-- Every arrangement of listed nodes is sorted into the one that is nondecreasing. -/
theorem exists_canonical_sort (hmem : ∀ v ∈ xs, v ∈ o.nodes) :
    ∃ ys, o.sort xs = .ok ys ∧ (∀ zs, zs = ys ↔ zs.Perm xs ∧ o.Nondecreasing zs) ∧
      (∀ zs, zs.Perm xs → o.sort zs = .ok ys) ∧ o.sort ys = .ok ys := by
  obtain ⟨ys, hsort, hperm, hasc⟩ := exists_sort hmem
  have hlisted : ∀ {zs : List NodeId}, zs.Perm xs → ∀ v ∈ zs, v ∈ o.nodes :=
    fun hzs v hv => hmem v (hzs.mem_iff.mp hv)
  refine ⟨ys, hsort, fun zs => ⟨?_, ?_⟩, fun zs hzs => ?_, ?_⟩
  · rintro rfl
    exact ⟨hperm, (nondecreasing_iff_ascending (hlisted hperm)).mpr hasc⟩
  · rintro ⟨hzs, hnondecreasing⟩
    have hasc' := (nondecreasing_iff_ascending (hlisted hzs)).mp hnondecreasing
    exact hasc'.eq_of_perm hasc (hlisted hzs) (hzs.trans hperm.symm)
  · exact sort_eq_ok_iff.mpr ⟨hlisted hzs, hperm.trans hzs.symm, hasc⟩
  · exact sort_eq_ok_iff.mpr ⟨hlisted hperm, .refl ys, hasc⟩

/-- An order is made of a list without repetition, and a list with one is refused at the repetition
whose second position is lowest. The positions that an order keeps are those of its list, which
determines it. Comparing two nodes succeeds if both are listed, and orders the listed nodes strictly
and linearly. Sorting fails at the first node that is not listed; otherwise it gives the only
arrangement of the nodes with positions that do not decrease, whichever arrangement it is given. -/
theorem order_bijective_and_sort_canonical :
    (∀ xs, ((∃ o, ofList xs = .ok o) ↔ xs.Nodup) ∧
      (∀ o, ofList xs = .ok o → o.nodes = xs) ∧
      ∀ x, ofList xs = .error x ↔ ∃ v i j, FirstRepeats xs v i j ∧ x = .repeated v i j) ∧
    (∀ v i j, (Violation.repeated v i j).message =
      s!"node {v.label} appears twice in ordering (positions {i} and {j})") ∧
    ∀ o : NodeOrder,
      ofList o.nodes = .ok o ∧
      (∀ i a, o.nodeAt i = .ok a ↔ o.position a = .ok i) ∧
      (∀ o' : NodeOrder, o = o' ↔ o.nodes = o'.nodes) ∧
      (∀ a b, (∃ r, o.compare a b = .ok r) ↔ a ∈ o.nodes ∧ b ∈ o.nodes) ∧
      (∀ a b, o.compare a b = .ok .eq ↔ a = b ∧ a ∈ o.nodes) ∧
      (∀ a b, o.compare a b = .ok .lt ↔ [a, b].Sublist o.nodes) ∧
      (∀ a b, o.compare a b = .ok .gt ↔ o.compare b a = .ok .lt) ∧
      (∀ a b c, o.compare a b = .ok .lt → o.compare b c = .ok .lt → o.compare a c = .ok .lt) ∧
      (∀ a b before, o.precedes a b = .ok before ↔
        ∃ r, o.compare a b = .ok r ∧ (before = true ↔ r = .lt)) ∧
      (∀ xs x, o.sort xs = .error x ↔ ∃ before v after, xs = before ++ v :: after ∧
        (∀ w ∈ before, w ∈ o.nodes) ∧ v ∉ o.nodes ∧ x = .notOrdered v) ∧
      (∀ v, (Violation.notOrdered v).message = s!"no index for node {v.label}") ∧
      ∀ xs, (∀ v ∈ xs, v ∈ o.nodes) → ∃ ys, o.sort xs = .ok ys ∧
        (∀ zs, zs = ys ↔ zs.Perm xs ∧ o.Nondecreasing zs) ∧
        (∀ zs, zs.Perm xs → o.sort zs = .ok ys) ∧ o.sort ys = .ok ys := by
  refine ⟨fun xs => ⟨exists_ofList_iff, fun o => ofList_eq_ok_iff.mp, fun x => ofList_eq_error_iff⟩,
    fun v i j => rfl, fun o => ⟨ofList_eq_ok_iff.mpr rfl, ?_, ?_, fun a b => exists_compare_iff,
      fun a b => compare_eq_eq_iff, fun a b => compare_eq_lt_iff, ?_, ?_,
      fun a b before => precedes_eq_ok_iff, fun xs x => sort_eq_error_iff, fun v => rfl,
      fun xs => exists_canonical_sort⟩⟩
  · intro i a
    rw [nodeAt_eq_ok_iff, position_eq_ok_iff]
  · intro o'
    exact ⟨congrArg nodes, eq_of_nodes⟩
  · intro a b
    rw [compare_eq_gt_iff, compare_eq_lt_iff]
  · intro a b c
    simp only [compare_eq_lt_iff]
    exact pair_sublist_trans o.nodup

end NodeOrder

end Slicing
