import Slicing.Proofs.Support

/-!
# Reducible graphs need no iteration

An edge to a lower number is ignored in the first sweep, since its target has no estimate yet. If
its source postdominates its target, nothing is lost: a path from the source that takes the edge
has to come back, and after its last visit to the source it goes on to a higher number. So the
climbs of the first sweep pass postdominators only (`Digraph.Confined`). They pass all of them in
any case, hence no later sweep can raise an estimate, and the second sweep is the last one.

A graph without cycles on the way to the exit has no edges to lower numbers at all.
-/
namespace Slicing

namespace Digraph

variable {g : Digraph} {order : List NodeId} {e f : Estimates} {exit a v w : NodeId}
variable {c i j k m n : Nat}

/-- Every edge to a node that comes earlier in the order leaves a postdominator of that node. -/
def Reducible (g : Digraph) (exit : NodeId) : Prop :=
  ∀ v, ∀ w ∈ g.succ v, [w, v].Sublist (g.exitOrder exit) → g.Postdominates exit v w

/-- No cycle leads through a node that reaches the exit. -/
def AcyclicTowards (g : Digraph) (exit : NodeId) : Prop :=
  ∀ v, g.Reaches v exit → ∀ w ∈ g.succ v, ¬g.Reaches w v

theorem AcyclicTowards.not_sublist (hc : g.Consistent) (h : g.AcyclicTowards exit)
    (hw : w ∈ g.succ v) : ¬[w, v].Sublist (g.exitOrder exit) := by
  intro hs
  have hn := nodup_exitOrder g exit
  have hwmem : w ∈ g.exitOrder exit := hs.subset List.mem_cons_self
  have hvmem : v ∈ g.exitOrder exit := hs.subset (List.mem_cons_of_mem w List.mem_cons_self)
  obtain ⟨i, hi⟩ := List.getElem?_of_mem hwmem
  obtain ⟨j, hj⟩ := List.getElem?_of_mem hvmem
  have hpred : v ∈ g.reverse.succ w := by
    rw [succ_reverse]
    exact (hc v w).mp hw
  cases pair_sublist_or_reaches hwmem hpred with
  | inl hs' =>
    have hij := lt_of_pair_sublist hn hs hi hj
    have hji := lt_of_pair_sublist hn hs' hj hi
    omega
  | inr hr => exact h v ((mem_exitOrder hc).mp hvmem) w hw ((reaches_reverse_iff hc).mp hr)

theorem AcyclicTowards.reducible (hc : g.Consistent) (h : g.AcyclicTowards exit) :
    g.Reducible exit :=
  fun _ _ hw hs => absurd hs (h.not_sublist hc hw)

/-- In a reducible graph the successors with higher numbers decide what postdominates a node. -/
theorem Reducible.postdominates_of_forall_higher (hc : g.Consistent) (h : g.Reducible exit)
    (hv : (g.exitOrder exit)[k]? = some v) (hne : v ≠ exit)
    (hall : ∀ s w, k < s → (g.exitOrder exit)[s]? = some w → w ∈ g.succ v →
      g.Postdominates exit a w) : g.Postdominates exit a v := by
  have hn := nodup_exitOrder g exit
  apply Postdominates.of_forall_mem ((mem_exitOrder hc).mp (List.mem_of_getElem? hv))
  intro p hp
  obtain ⟨w, hw, q, hq, hvq, hsub⟩ := hp.exists_leaving hne
  obtain ⟨s, hs⟩ := List.getElem?_of_mem ((mem_exitOrder hc).mpr ⟨q, hq⟩)
  have hks : k < s := by
    apply Nat.lt_of_not_le
    intro hle
    by_cases heq : s = k
    · have hwv : w = v := Option.some.inj (hs.symm.trans (heq ▸ hv))
      exact hvq (hwv ▸ hq.source_mem)
    · have hback := (pair_sublist_iff hn hs hv).mpr (Nat.lt_of_le_of_ne hle heq)
      exact hvq ((h v w hw hback).mem hq)
  exact hsub a ((hall s w hks hs hw).mem hq)

/-! ## The first sweep is exact -/

/-- The climb from a known number passes numbers of postdominators of its node only. -/
def Confined (g : Digraph) (exit : NodeId) (order : List NodeId) (e : Estimates) : Prop :=
  ∀ j i v a, order[j]? = some v → order[i]? = some a → (e.get? j).isSome →
    e.Climbs j i → g.Postdominates exit a v

theorem confined_initial : g.Confined exit order (.initial order.length) := by
  intro j i v a hv ha _ hc
  have heq : j = i := by
    by_contra hne
    obtain ⟨p, hp⟩ := hc.exists_above? hne
    obtain ⟨hget, hlt, _⟩ := Estimates.above?_eq_some_iff.mp hp
    rw [Estimates.get?_initial] at hget
    split at hget
    · exact Nat.ne_of_lt hlt (Option.some.inj hget)
    · exact absurd hget nofun
  exact .inl (Option.some.inj (ha.symm.trans (heq ▸ hv)))

/-- A revision in the first sweep adds a climb of postdominators to those that are there. -/
theorem Confined.set (hc : g.Consistent) (he : exit < g.size) (hred : g.Reducible exit)
    (hst : g.Stage (g.exitOrder exit) 0 (k + 1) e) (hest : g.Estimated (g.exitOrder exit) e k c)
    (h : g.Confined exit (g.exitOrder exit) e) :
    g.Confined exit (g.exitOrder exit) (e.set k c) := by
  have hpos := (exitOrder_last he).1
  have hs := hst.swept (nodup_exitOrder g exit) hpos
  have hk := hst.lt_length hpos
  obtain ⟨hkc, hcs⟩ := hs.lt_estimate (hs.size_eq ▸ hk) hest
  intro j i v a hv ha hsome hclimb
  rcases Nat.lt_trichotomy j k with hlt | heq | hgt
  · rw [Estimates.get?_set, if_neg fun hj => Nat.ne_of_lt hlt hj.1,
      hst.get?_eq_none (Nat.lt_succ_of_lt hlt)] at hsome
    exact absurd hsome nofun
  · subst heq
    by_cases hij : j = i
    · exact .inl (Option.some.inj (ha.symm.trans (hij ▸ hv)))
    · have hci := hclimb.tail hij (Estimates.above?_set_self hkc hcs)
      rw [Estimates.climbs_set_iff hkc] at hci
      apply hred.postdominates_of_forall_higher hc hv ((ne_exit_iff he hv).mpr hk)
      intro s w hjs hw hsucc
      have hl : g.LeadsTo (g.exitOrder exit) j s := ⟨v, w, hv, hw, hsucc⟩
      have hknown := hs.isSome hjs (hs.size_eq ▸ hl.lt_length)
      exact h s i w a hw ha hknown ((hest.climbs hl hknown).trans hci)
  · rw [Estimates.get?_set, if_neg fun hj => Nat.ne_of_gt hgt hj.1] at hsome
    exact h j i v a hv ha hsome ((Estimates.climbs_set_iff hgt).mp hclimb)

theorem Stage.confined (hc : g.Consistent) (he : exit < g.size) (hred : g.Reducible exit)
    (h : g.Stage (g.exitOrder exit) 0 k e) : g.Confined exit (g.exitOrder exit) e := by
  generalize hzero : 0 = n at h
  induction h with
  | start => exact confined_initial
  | revise hst hv hr ih =>
    subst hzero
    obtain ⟨c, hest, rfl⟩ := exists_estimate_of_revise hr
    exact (ih rfl).set hc he hred hst (estimated_of_estimate (nodup_exitOrder g exit) hv hest)
  | turn _ _ => exact absurd hzero (Nat.succ_ne_zero _).symm

/-! ## No later sweep raises an estimate -/

theorem Settles.refines (hn : order.Nodup) (hpos : 0 < order.length)
    (h : g.Settles order e f m) (hst : g.Stage order n (order.length - 1) e) : e.Refines f := by
  induction h generalizing n with
  | unchanged _ => exact .refl _
  | changed hs _ _ ih =>
    obtain ⟨hst', href⟩ := hst.sweep hn hpos hs
    exact href.trans (ih hst'.turn)

theorem Confined.climbs_of_covers (hs : g.Swept order e 0)
    (hf : ∀ j < order.length, (f.get? j).isSome) (he : g.Confined exit order e)
    (hcov : g.Covers exit order f) (hp : e.get? j = some c) : f.Climbs j c := by
  have hj : j < order.length := hs.size_eq ▸ Estimates.lt_size_of_get? hp
  have hc : c < order.length := hs.size_eq ▸ hs.estimate_lt_size hp
  have hv := List.getElem?_eq_getElem hj
  have ha := List.getElem?_eq_getElem hc
  have hclimb : e.Climbs j c := by
    by_cases htop : j + 1 = e.size
    · rw [hs.eq_of_top hp htop]
      exact .refl
    · exact .step (hs.above?_eq hp htop) .refl
  have hsome : (e.get? j).isSome := Option.isSome_iff_exists.mpr ⟨c, hp⟩
  exact hcov j c _ _ hv ha (hf j hj) (he j c _ _ hv ha hsome hclimb)

/-- Estimates that a refinement keeps on its climbs are not changed by it. -/
theorem Swept.eq_of_refines (hse : g.Swept order e 0) (hsf : g.Swept order f 0)
    (href : e.Refines f) (h : ∀ j p, e.get? j = some p → f.Climbs j p) : e = f := by
  apply Estimates.eq_of_get? (hse.size_eq.trans hsf.size_eq.symm)
  intro j hj
  have hjlt : j < e.size := hse.size_eq.trans hsf.size_eq.symm ▸ hj
  obtain ⟨p, hp⟩ := Option.isSome_iff_exists.mp (hse.isSome (Nat.zero_le j) hjlt)
  obtain ⟨q, hq, hpq⟩ := href.exists_le hp
  have hqp : q ≤ p := by
    by_cases htop : j + 1 = f.size
    · rw [hsf.eq_of_top hq htop]
      exact (h j p hp).le
    · have hne : j + 1 ≠ e.size := by rwa [hse.size_eq, ← hsf.size_eq]
      have hjp := (hse.lt_lt hp hne).1
      exact ((h j p hp).tail (Nat.ne_of_lt hjp) (hsf.above?_eq hq htop)).le
  rw [hp, hq, Nat.le_antisymm hpq hqp]

/-- In a reducible graph the first sweep leaves nothing to do. -/
theorem Settles.eq_of_reducible (hc : g.Consistent) (he : exit < g.size) (hred : g.Reducible exit)
    (hst : g.Stage (g.exitOrder exit) 0 0 e) (h : g.Settles (g.exitOrder exit) e f m) : e = f := by
  have hn := nodup_exitOrder g exit
  obtain ⟨hpos, hlast⟩ := exitOrder_last he
  obtain ⟨n, hst'⟩ := h.exists_stage hn hpos hst.turn
  have hs := hst.swept hn hpos
  have hs' := hst'.swept hn hpos
  have hcov := hst'.covers hn hpos (fun _ hx => (mem_exitOrder hc).mp hx) hlast
  have hall : ∀ j < (g.exitOrder exit).length, (f.get? j).isSome := fun j hj =>
    hs'.isSome (Nat.zero_le j) (hs'.size_eq ▸ hj)
  apply hs.eq_of_refines hs' (h.refines hn hpos hst.turn)
  intro j p hp
  exact (hst.confined hc he hred).climbs_of_covers hs hall hcov hp

theorem Settles.eq_one (hn : order.Nodup) (hpos : 0 < order.length)
    (h : g.Settles order e e m) (hst : g.Stage order n (order.length - 1) e) : m = 1 := by
  have hle := h.add_slack_le hn hpos hst
  have hpos : 0 < m := by
    cases h with
    | unchanged _ => exact Nat.one_pos
    | changed _ _ _ => exact Nat.succ_pos _
  omega

theorem sweep_initial_eq_iff (hn : order.Nodup) (hpos : 0 < order.length) :
    g.sweep order (.initial order.length) = .ok (.initial order.length) ↔ order.length = 1 := by
  constructor
  · intro hs
    have hst := (Stage.start.sweep hn hpos hs).1.swept hn hpos
    have hsome := hst.isSome (Nat.le_refl 0) (by rwa [hst.size_eq])
    rw [Estimates.get?_initial] at hsome
    split at hsome
    · next hone => exact hone.symm
    · exact absurd hsome nofun
  · intro hone
    rw [sweep_eq, hone, Nat.sub_self, List.take_zero]
    rfl

theorem length_exitOrder_eq_one_iff (hc : g.Consistent) (he : exit < g.size) :
    (g.exitOrder exit).length = 1 ↔ ∀ v, g.Reaches v exit → v = exit := by
  constructor
  · intro hone v hr
    obtain ⟨j, hj⟩ := List.getElem?_of_mem ((mem_exitOrder hc).mpr hr)
    have hjlt := (List.getElem?_eq_some_iff.mp hj).1
    by_contra hne
    have hlt := (ne_exit_iff he hj).mp hne
    omega
  · intro hall
    have hpos := (exitOrder_last he).1
    have hv := List.getElem?_eq_getElem hpos
    have heq := hall _ ((mem_exitOrder hc).mp (List.mem_of_getElem? hv))
    by_contra hne
    exact (ne_exit_iff he hv).mpr (by omega) heq

/-- On a consistent graph that is reducible, which it is if no cycle leads through a node that
reaches the exit, the first sweep gives the final tree. The computation ends after the second
sweep, or after the first one if no other node reaches the exit. -/
theorem reducible_settles_in_two_sweeps (g : Digraph) (exit : NodeId) (hc : g.Consistent)
    (he : exit < g.size) :
    (g.AcyclicTowards exit → g.Reducible exit) ∧
    (g.Reducible exit → ∃ t e, g.postdominators exit = .ok t ∧
      g.sweep (g.exitOrder exit) (.initial (g.exitOrder exit).length) = .ok e ∧
      t.parents = (g.nodes.map (parent? (g.exitOrder exit) e)).toArray ∧
      ((∀ v, g.Reaches v exit → v = exit) → t.sweeps = 1) ∧
      ((∃ v, g.Reaches v exit ∧ v ≠ exit) → t.sweeps = 2)) := by
  refine ⟨AcyclicTowards.reducible hc, fun hred => ?_⟩
  have hn := nodup_exitOrder g exit
  have hpos := (exitOrder_last he).1
  obtain ⟨x, hsweep, _⟩ | ⟨f, m, hf, hok⟩ := postdominators_cases he
  · obtain ⟨e, hsweep'⟩ := Stage.start.exists_sweep hn hpos (exitOrder_supported hc he)
    exact absurd (hsweep.symm.trans hsweep') nofun
  · refine ⟨_, f, hok, ?_⟩
    cases hf with
    | unchanged hs =>
      have hone := (sweep_initial_eq_iff hn hpos).mp hs
      refine ⟨hs, rfl, fun _ => rfl, fun hex => ?_⟩
      obtain ⟨v, hr, hne⟩ := hex
      exact absurd ((length_exitOrder_eq_one_iff hc he).mp hone v hr) hne
    | @changed _ e _ m hs hne hrest =>
      have hst := (Stage.start.sweep hn hpos hs).1
      have heq := hrest.eq_of_reducible hc he hred hst
      subst heq
      refine ⟨hs, rfl, fun hall => ?_, fun _ => ?_⟩
      · have hone := (length_exitOrder_eq_one_iff hc he).mpr hall
        have hsame := (sweep_initial_eq_iff (g := g) hn hpos).mpr hone
        exact absurd (Except.ok.inj (hs.symm.trans hsame)) hne
      · have hm := hrest.eq_one hn hpos hst.turn
        rw [hm]

/-- A loop with a loop in it, which repeats its own statement, and a node that never ends. -/
def nestedLoops : Digraph :=
  [(0, 1), (1, 2), (2, 3), (3, 2), (3, 3), (2, 4), (4, 1), (1, 5), (0, 6), (6, 6)].foldl
    (fun g e => g.addEdge e.1 e.2) (empty 7)

theorem nestedLoops_settles_in_two_sweeps :
    nestedLoops.Consistent ∧ 5 < nestedLoops.size ∧ nestedLoops.Reducible 5 ∧
      (nestedLoops.Reaches 1 5 ∧ 2 ∈ nestedLoops.succ 1 ∧ nestedLoops.Reaches 2 1) ∧
      ∃ t, nestedLoops.postdominators 5 = .ok t ∧ t.sweeps = 2 := by
  have hc : nestedLoops.Consistent :=
    List.foldlRecOn _ _ (consistent_empty 7) fun _ h e _ => h.addEdge e.1 e.2
  have he : 5 < nestedLoops.size := by decide +kernel
  have hone : nestedLoops.Reaches 1 5 := ⟨[1, 5], .cons (by decide +kernel) (.single he)⟩
  have hcycle : nestedLoops.Reaches 2 1 := ⟨[2, 4, 1],
    .cons (by decide +kernel) (.cons (by decide +kernel) (.single (by decide +kernel)))⟩
  have hback : (nestedLoops.postdominators 5).map (fun t => decide (∀ v < nestedLoops.size,
      ∀ w ∈ nestedLoops.succ v, [w, v].Sublist (nestedLoops.exitOrder 5) → t.Postdominates v w)) =
        .ok true := by decide +kernel
  obtain ⟨t, hok, ht⟩ := exists_exact hc he
  rw [hok] at hback
  have hred : nestedLoops.Reducible 5 := fun v w hw hs =>
    ht.postdominates_iff.mp
      (of_decide_eq_true (Except.ok.inj hback) v (lt_size_of_succ hw) w hw hs)
  obtain ⟨t', e, hok', _, _, _, htwo⟩ :=
    (reducible_settles_in_two_sweeps nestedLoops 5 hc he).2 hred
  exact ⟨hc, he, hred, ⟨hone, by decide +kernel, hcycle⟩, t', hok', htwo ⟨1, hone, by decide⟩⟩

end Digraph

end Slicing
