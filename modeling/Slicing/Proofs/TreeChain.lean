import Slicing.Proofs.Sweep

/-!
# Chains of a tree and climbs along estimates

A chain is followed for a limited number of steps. Where some rank rises along the
chain and stays below the limit, the limit is never felt: the chain repeats no node
and ends at a node without a next one.

The numbers of the nodes are such a rank for the tree that final estimates stand for.
The postdominators that the tree gives to a node are then the nodes whose numbers its
climb passes (`postdominates_iff`).
-/
namespace Slicing

namespace PostdominatorTree

variable {t : PostdominatorTree} {v w : NodeId} {n bound : Nat} {rank : NodeId → Nat}

theorem next?_eq_some_iff : t.next? v = some w ↔ t.immediate? v = some w ∧ w ≠ v := by
  simp [next?, Option.filter_eq_some_iff]

theorem climb_of_next?_eq_none (h : t.next? v = none) : t.climb n v = [v] := by
  cases n with
  | zero => rfl
  | succ n => rw [climb, h, Option.elim_none]

theorem climb_succ_of_next?_eq_some (h : t.next? v = some w) :
    t.climb (n + 1) v = v :: t.climb n w := by
  rw [climb, h, Option.elim_some]

/-- Along the tree a rank rises and stays below a bound. -/
def Ranked (t : PostdominatorTree) (rank : NodeId → Nat) (bound : Nat) : Prop :=
  ∀ u w, t.next? u = some w → rank u < rank w ∧ rank w < bound

namespace Ranked

variable (hrank : t.Ranked rank bound)
include hrank

theorem rank_le_of_mem_climb (hw : w ∈ t.climb n v) : rank v ≤ rank w := by
  induction n generalizing v with
  | zero => exact Nat.le_of_eq (congrArg rank (List.mem_singleton.mp hw).symm)
  | succ n ih =>
    cases hv : t.next? v with
    | none =>
      rw [climb_of_next?_eq_none hv, List.mem_singleton] at hw
      exact Nat.le_of_eq (congrArg rank hw.symm)
    | some u =>
      rw [climb_succ_of_next?_eq_some hv] at hw
      cases List.mem_cons.mp hw with
      | inl h => exact Nat.le_of_eq (congrArg rank h.symm)
      | inr h => exact Nat.le_trans (Nat.le_of_lt (hrank v u hv).1) (ih h)

theorem nodup_climb : (t.climb n v).Nodup := by
  induction n generalizing v with
  | zero => exact List.pairwise_singleton _ v
  | succ n ih =>
    cases hv : t.next? v with
    | none =>
      rw [climb_of_next?_eq_none hv]
      exact List.pairwise_singleton _ v
    | some u =>
      rw [climb_succ_of_next?_eq_some hv]
      apply List.nodup_cons.mpr ⟨?_, ih⟩
      intro hm
      have hle := hrank.rank_le_of_mem_climb hm
      have hlt := hrank v u hv
      omega

theorem next?_eq_none (hv : bound ≤ rank v) : t.next? v = none := by
  cases hu : t.next? v with
  | none => rfl
  | some u =>
    have hlt := hrank v u hu
    omega

/-- The climb stops by itself: its last node has no next one. -/
theorem exists_getLast?_climb (hn : bound ≤ rank v + n) :
    ∃ w, (t.climb n v).getLast? = some w ∧ t.next? w = none := by
  induction n generalizing v with
  | zero => exact ⟨v, rfl, hrank.next?_eq_none hn⟩
  | succ n ih =>
    cases hv : t.next? v with
    | none =>
      rw [climb_of_next?_eq_none hv]
      exact ⟨v, rfl, hv⟩
    | some u =>
      have hlt := hrank v u hv
      obtain ⟨w, hw, hnone⟩ := ih (v := u) (by omega)
      refine ⟨w, ?_, hnone⟩
      rw [climb_succ_of_next?_eq_some hv, List.getLast?_cons, hw]
      rfl

theorem exists_getLast?_chain (hsize : bound ≤ t.size) :
    ∃ w, (t.chain v).getLast? = some w ∧ t.next? w = none :=
  hrank.exists_getLast?_climb (by omega)

theorem climb_succ_eq_climb (hn : bound ≤ rank v + n) : t.climb (n + 1) v = t.climb n v := by
  induction n generalizing v with
  | zero =>
    have hnone := hrank.next?_eq_none hn
    rw [climb_of_next?_eq_none hnone, climb_of_next?_eq_none hnone]
  | succ n ih =>
    cases hv : t.next? v with
    | none => rw [climb_of_next?_eq_none hv, climb_of_next?_eq_none hv]
    | some u =>
      have hlt := hrank v u hv
      rw [climb_succ_of_next?_eq_some hv, climb_succ_of_next?_eq_some hv, ih (by omega)]

theorem chain_of_next? (hsize : bound ≤ t.size) (h : t.next? v = some w) :
    t.chain v = v :: t.chain w := by
  have hlt := hrank v w h
  unfold chain
  cases hn : t.size with
  | zero => omega
  | succ n =>
    rw [climb_succ_of_next?_eq_some h, hrank.climb_succ_eq_climb]
    omega

end Ranked

end PostdominatorTree

namespace Digraph

/-- The tree gives each node the parent that the estimates stand for. -/
def Represents (order : List NodeId) (e : Estimates) (t : PostdominatorTree) : Prop :=
  ∀ v, t.immediate? v = parent? order e v

variable {g : Digraph} {order : List NodeId} {e : Estimates} {t : PostdominatorTree}
variable {v w : NodeId} {i j k n p : Nat}

theorem parent?_eq_some_iff (hn : order.Nodup) :
    parent? order e v = some w ↔
      ∃ j p, order[j]? = some v ∧ e.get? j = some p ∧ order[p]? = some w := by
  simp only [parent?, Option.bind_eq_bind, Option.bind_eq_some_iff,
    idxOf?_eq_some_iff_getElem? hn]
  constructor
  · rintro ⟨j, hj, p, hp, hw⟩
    exact ⟨j, p, hj, hp, hw⟩
  · rintro ⟨j, p, hj, hp, hw⟩
    exact ⟨j, hj, p, hp, hw⟩

theorem represents_mk (hn : order.Nodup) (hlt : ∀ v ∈ order, v < g.size) (exit : NodeId)
    (sweeps : Nat) :
    Represents order e ⟨exit, (g.nodes.map (parent? order e)).toArray, sweeps⟩ := by
  intro v
  by_cases hv : v < g.size
  · simp [PostdominatorTree.immediate?, nodes, hv]
  · have hnone : parent? order e v = none := by
      cases hp : parent? order e v with
      | none => rfl
      | some w =>
        obtain ⟨j, p, hj, _⟩ := (parent?_eq_some_iff hn).mp hp
        exact absurd (hlt v (List.mem_of_getElem? hj)) hv
    rw [hnone]
    simp [PostdominatorTree.immediate?, nodes, hv]

section
variable (hn : order.Nodup) (hs : g.Swept order e 0) (hr : Represents order e t)
include hn hs hr

theorem Represents.mem_iff : v ∈ t ↔ v ∈ order := by
  rw [PostdominatorTree.mem_def, hr v, Option.isSome_iff_exists]
  constructor
  · rintro ⟨w, hw⟩
    obtain ⟨j, p, hj, _⟩ := (parent?_eq_some_iff hn).mp hw
    exact List.mem_of_getElem? hj
  · intro hv
    obtain ⟨j, hj⟩ := List.getElem?_of_mem hv
    have hjlt : j < e.size := hs.size_eq ▸ (List.getElem?_eq_some_iff.mp hj).1
    obtain ⟨p, hp⟩ := Option.isSome_iff_exists.mp (hs.isSome (Nat.zero_le j) hjlt)
    have hplt : p < order.length := hs.size_eq ▸ hs.estimate_lt_size hp
    exact ⟨order[p], (parent?_eq_some_iff hn).mpr
      ⟨j, p, hj, hp, List.getElem?_eq_getElem hplt⟩⟩

theorem Represents.next?_eq_some_iff :
    t.next? v = some w ↔ ∃ j p, order[j]? = some v ∧ e.above? j = some p ∧ order[p]? = some w := by
  rw [PostdominatorTree.next?_eq_some_iff, hr v, parent?_eq_some_iff hn]
  constructor
  · rintro ⟨⟨j, p, hj, hp, hw⟩, hne⟩
    refine ⟨j, p, hj, hs.above?_eq hp fun htop => hne ?_, hw⟩
    exact Option.some.inj (hw.symm.trans (hs.eq_of_top hp htop ▸ hj))
  · rintro ⟨j, p, hj, hp, hw⟩
    refine ⟨⟨j, p, hj, (Estimates.above?_eq_some_iff.mp hp).1, hw⟩, ?_⟩
    rintro rfl
    have hjlt := (List.getElem?_eq_some_iff.mp hj).1
    have hjp := (List.getElem?_inj hjlt hn).mp (hj.trans hw.symm)
    exact absurd (Estimates.lt_of_above? hp) (hjp ▸ Nat.lt_irrefl _)

/-- The numbers of the nodes rise along the tree. -/
theorem Represents.ranked : t.Ranked order.idxOf order.length := by
  intro v w h
  obtain ⟨j, p, hj, hp, hw⟩ := (hr.next?_eq_some_iff hn hs).mp h
  obtain ⟨hjlt, rfl⟩ := List.getElem?_eq_some_iff.mp hj
  obtain ⟨hplt, rfl⟩ := List.getElem?_eq_some_iff.mp hw
  simp only [hn.idxOf_getElem j hjlt, hn.idxOf_getElem p hplt]
  exact ⟨Estimates.lt_of_above? hp, hplt⟩

/-- A climb with enough steps passes exactly the nodes whose numbers the climb passes. -/
theorem Represents.mem_climb_iff (hv : order[j]? = some v) (hsteps : order.length ≤ j + n) :
    w ∈ t.climb n v ↔ ∃ i, order[i]? = some w ∧ e.Climbs j i := by
  induction n generalizing j v with
  | zero =>
    have := (List.getElem?_eq_some_iff.mp hv).1
    omega
  | succ n ih =>
    cases hp : e.above? j with
    | none =>
      have hnext : t.next? v = none := by
        cases hu : t.next? v with
        | none => rfl
        | some u =>
          obtain ⟨j', p, hj', hp', _⟩ := (hr.next?_eq_some_iff hn hs).mp hu
          have hjlt := (List.getElem?_eq_some_iff.mp hv).1
          obtain rfl := (List.getElem?_inj hjlt hn).mp (hv.trans hj'.symm)
          exact absurd (hp.symm.trans hp') nofun
      rw [PostdominatorTree.climb_of_next?_eq_none hnext, List.mem_singleton]
      constructor
      · rintro rfl
        exact ⟨j, hv, .refl⟩
      · rintro ⟨i, hi, hc⟩
        cases hc with
        | refl => exact Option.some.inj (hi.symm.trans hv)
        | step hq _ => exact absurd (hp.symm.trans hq) nofun
    | some p =>
      obtain ⟨_, hjp, hps⟩ := Estimates.above?_eq_some_iff.mp hp
      have hplt : p < order.length := hs.size_eq ▸ hps
      have hu : order[p]? = some order[p] := List.getElem?_eq_getElem hplt
      have hnext := (hr.next?_eq_some_iff hn hs).mpr ⟨j, p, hv, hp, hu⟩
      rw [PostdominatorTree.climb_succ_of_next?_eq_some hnext, List.mem_cons,
        ih hu (by omega)]
      constructor
      · rintro (rfl | ⟨i, hi, hc⟩)
        · exact ⟨j, hv, .refl⟩
        · exact ⟨i, hi, .step hp hc⟩
      · rintro ⟨i, hi, hc⟩
        by_cases hij : j = i
        · subst hij
          exact .inl (Option.some.inj (hi.symm.trans hv))
        · exact .inr ⟨i, hi, hc.tail hij hp⟩

theorem Represents.postdominates_iff (hsize : order.length ≤ t.size) (hv : order[j]? = some v) :
    t.Postdominates w v ↔ ∃ i, order[i]? = some w ∧ e.Climbs j i :=
  hr.mem_climb_iff hn hs hv (by omega)

theorem Represents.chain_of_not_mem (hv : v ∉ order) : t.chain v = [v] := by
  apply PostdominatorTree.climb_of_next?_eq_none
  cases hu : t.next? v with
  | none => rfl
  | some u =>
    obtain ⟨j, p, hj, _⟩ := (hr.next?_eq_some_iff hn hs).mp hu
    exact absurd (List.mem_of_getElem? hj) hv

end

end Digraph

end Slicing
