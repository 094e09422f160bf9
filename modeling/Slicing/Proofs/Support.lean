import Mathlib.Order.Bounds.Defs
import Slicing.Proofs.TreeExact

/-!
# When the computation of postdominators fails

The two directions of the graph may disagree, so that a node is numbered although none of its
edges leads to a higher number. In the first sweep only higher numbers have estimates, and the
sweep goes from the highest number down. It therefore fails at the last such node and nowhere
else. A complete first sweep leaves an estimate at every number, so no later sweep can fail, and
climbs that are asked to meet end at the exit at the latest.
-/
namespace Slicing

namespace Digraph

variable {g : Digraph} {order : List NodeId} {e e' : Estimates} {exit u v w : NodeId}
variable {i j k n : Nat} {x : Violation}

/-! ## Numbers without support -/

/-- The numbers below the last one that no edge leads up from. -/
def gaps (g : Digraph) (order : List NodeId) : Set Nat :=
  {k | k + 1 < order.length ∧ ∀ h, k < h → ¬g.LeadsTo order k h}

namespace Stage

theorem get?_eq_none (h : g.Stage order 0 k e) (hj : j < k) : e.get? j = none := by
  generalize hzero : 0 = n at h
  induction h with
  | start =>
    rw [Estimates.get?_initial, if_neg]
    omega
  | @revise n k v e e' _ _ hr ih =>
    obtain ⟨c, _, hset⟩ := exists_estimate_of_revise hr
    rw [hset, Estimates.get?_set, if_neg fun hjk => Nat.ne_of_lt hj hjk.1]
    exact ih (Nat.lt_succ_of_lt hj) hzero
  | turn _ _ => exact absurd hzero (Nat.succ_ne_zero _).symm

theorem revise_of_mem_gaps (hn : order.Nodup) (h : g.Stage order 0 (k + 1) e)
    (hv : order[k]? = some v) (hk : k ∈ g.gaps order) :
    g.revise order e (v, k) = .error (.noKnownSuccessor v) := by
  have hnil : (g.succ v).filterMap (known? order e) = [] := by
    apply List.eq_nil_iff_forall_not_mem.mpr
    intro s hs
    have hknown := (mem_filterMap_known? hn hv).mp hs
    have hle : s ≤ k := Nat.le_of_not_lt fun hlt => hk.2 s hlt hknown.1
    rw [h.get?_eq_none (Nat.lt_succ_of_le hle)] at hknown
    exact absurd hknown.2 nofun
  rw [Digraph.revise, estimate, hnil]
  rfl

/-- Where a number has no support, the first sweep is still going on. -/
theorem eq_zero_of_mem_gaps (hn : order.Nodup) (hpos : 0 < order.length)
    (h : g.Stage order n (k + 1) e) (hk : k ∈ g.gaps order) : n = 0 := by
  apply Nat.eq_zero_of_not_pos
  intro hone
  obtain ⟨s, hlt, hl⟩ := h.supported hn hpos hone k hk.1
  exact hk.2 s hlt hl

theorem exists_revise_of_not_mem_gaps (hn : order.Nodup) (hpos : 0 < order.length)
    (h : g.Stage order n (k + 1) e) (hv : order[k]? = some v) (hk : k ∉ g.gaps order) :
    ∃ e', g.revise order e (v, k) = .ok e' := by
  have hex : ∃ s, k < s ∧ g.LeadsTo order k s := by
    by_contra hnone
    exact hk ⟨h.lt_length hpos, fun s hlt hl => hnone ⟨s, hlt, hl⟩⟩
  obtain ⟨s, hlt, hl⟩ := hex
  exact h.exists_revise_of_leadsTo hn hpos hv hlt hl

theorem eq_of_revise_eq_error (hn : order.Nodup) (hpos : 0 < order.length)
    (h : g.Stage order n (k + 1) e) (hv : order[k]? = some v)
    (hr : g.revise order e (v, k) = .error x) : n = 0 ∧ x = .noKnownSuccessor v := by
  by_cases hk : k ∈ g.gaps order
  · have hzero := h.eq_zero_of_mem_gaps hn hpos hk
    subst hzero
    have herr := h.revise_of_mem_gaps hn hv hk
    exact ⟨rfl, Except.error.inj (hr.symm.trans herr)⟩
  · obtain ⟨e', hok⟩ := h.exists_revise_of_not_mem_gaps hn hpos hv hk
    exact absurd (hr.symm.trans hok) nofun

/-- The rest of the first sweep fails at the highest number without support that is left. -/
theorem foldlM_eq_error_iff (hn : order.Nodup) (hpos : 0 < order.length)
    (h : g.Stage order 0 k e) :
    (order.zipIdx.take k).reverse.foldlM (g.revise order) e = .error x ↔
      ∃ j v, IsGreatest (g.gaps order ∩ Set.Iio k) j ∧ order[j]? = some v ∧
        x = .noKnownSuccessor v := by
  induction k generalizing e with
  | zero =>
    constructor
    · intro hf
      exact absurd hf nofun
    · rintro ⟨j, _, hj, _⟩
      exact absurd hj.1.2 (Nat.not_lt_zero j)
  | succ k ih =>
    have hlt := h.lt_length hpos
    have hv : order[k]? = some order[k] := List.getElem?_eq_getElem (Nat.lt_of_succ_lt hlt)
    rw [take_succ_zipIdx hv, List.foldlM_cons]
    by_cases hk : k ∈ g.gaps order
    · rw [h.revise_of_mem_gaps hn hv hk]
      have hgreatest : IsGreatest (g.gaps order ∩ Set.Iio (k + 1)) k :=
        ⟨⟨hk, Nat.lt_succ_self k⟩, fun j hj => Nat.le_of_lt_succ hj.2⟩
      constructor
      · intro hf
        exact ⟨k, _, hgreatest, hv, (Except.error.inj hf).symm⟩
      · rintro ⟨j, v, hj, hjv, rfl⟩
        have hjk : j = k := Nat.le_antisymm (hgreatest.2 hj.1) (hj.2 hgreatest.1)
        subst hjk
        rw [Option.some.inj (hjv.symm.trans hv)]
        rfl
    · obtain ⟨e', hr⟩ := h.exists_revise_of_not_mem_gaps hn hpos hv hk
      have hset : g.gaps order ∩ Set.Iio (k + 1) = g.gaps order ∩ Set.Iio k := by
        ext j
        constructor
        · intro hj
          have hne : j ≠ k := fun heq => hk (heq ▸ hj.1)
          exact ⟨hj.1, Nat.lt_of_le_of_ne (Nat.le_of_lt_succ hj.2) hne⟩
        · exact fun hj => ⟨hj.1, Nat.lt_succ_of_lt hj.2⟩
      rw [hr, hset]
      exact ih (h.revise hv hr)

end Stage

/-- The first sweep fails at the highest number without support, if there is one. -/
theorem first_sweep_eq_error_iff (hn : order.Nodup) (hpos : 0 < order.length) :
    g.sweep order (.initial order.length) = .error x ↔
      ∃ k v, IsGreatest (g.gaps order) k ∧ order[k]? = some v ∧
        x = .noKnownSuccessor v := by
  have hset : g.gaps order ∩ Set.Iio (order.length - 1) = g.gaps order := by
    apply Set.inter_eq_left.mpr
    intro k hk
    have hlt := hk.1
    exact Nat.lt_sub_of_add_lt hlt
  rw [sweep_eq, Stage.start.foldlM_eq_error_iff hn hpos, hset]

/-- An error of the computation is an error of its first sweep. -/
theorem postdominators_eq_error_iff (he : exit < g.size) :
    g.postdominators exit = .error x ↔
      g.sweep (g.exitOrder exit) (.initial (g.exitOrder exit).length) = .error x := by
  obtain ⟨y, hsweep, herr⟩ | ⟨f, m, hf, hok⟩ := postdominators_cases he
  · rw [hsweep, herr, Except.error.injEq, Except.error.injEq]
  · rw [hok]
    cases hf with
    | unchanged hs => simp [hs]
    | changed hs _ _ => simp [hs]

theorem exists_first_sweep_error (hn : order.Nodup) (hpos : 0 < order.length)
    (hk : k ∈ g.gaps order) : ∃ x, g.sweep order (.initial order.length) = .error x := by
  cases hs : g.sweep order (.initial order.length) with
  | error x => exact ⟨x, rfl⟩
  | ok e =>
    -- Otherwise the next sweep would begin with all numbers supported.
    have hst := (Stage.start.sweep hn hpos hs).1.turn
    obtain ⟨s, hlt, hl⟩ := hst.supported hn hpos (Nat.le_refl 1) k hk.1
    exact absurd hl (hk.2 s hlt)

/-! ## Nodes without support -/

/-- A node that has a number and is not the exit, none of whose successors comes after it. -/
def Unsupported (g : Digraph) (exit u : NodeId) : Prop :=
  u ∈ g.exitOrder exit ∧ u ≠ exit ∧ ∀ w ∈ g.succ u, ¬[u, w].Sublist (g.exitOrder exit)

/-- The node without support that all others come before. -/
def LastUnsupported (g : Digraph) (exit u : NodeId) : Prop :=
  g.Unsupported exit u ∧
    ∀ v, g.Unsupported exit v → v ≠ u → [v, u].Sublist (g.exitOrder exit)

theorem unsupported_iff (he : exit < g.size) (hv : (g.exitOrder exit)[k]? = some v) :
    g.Unsupported exit v ↔ k ∈ g.gaps (g.exitOrder exit) := by
  have hn := nodup_exitOrder g exit
  have hmem := List.mem_of_getElem? hv
  rw [Unsupported, ne_exit_iff he hv]
  constructor
  · intro hu
    refine ⟨hu.2.1, fun h hlt hl => ?_⟩
    obtain ⟨v', w, hv', hw, hsucc⟩ := hl
    obtain rfl := Option.some.inj (hv.symm.trans hv')
    exact hu.2.2 w hsucc ((pair_sublist_iff hn hv hw).mpr hlt)
  · intro hk
    refine ⟨hmem, hk.1, fun w hw hs => ?_⟩
    obtain ⟨h, hh⟩ := List.getElem?_of_mem (hs.subset (List.mem_cons_of_mem v List.mem_cons_self))
    exact hk.2 h (lt_of_pair_sublist hn hs hv hh) ⟨v, w, hv, hh, hw⟩

theorem lastUnsupported_iff (he : exit < g.size) (hv : (g.exitOrder exit)[k]? = some v) :
    g.LastUnsupported exit v ↔ IsGreatest (g.gaps (g.exitOrder exit)) k := by
  have hn := nodup_exitOrder g exit
  rw [LastUnsupported, unsupported_iff he hv]
  refine and_congr_right fun _ => ⟨fun hlast j hj => ?_, fun hgreatest w hw hne => ?_⟩
  · have hjlt : j < (g.exitOrder exit).length := Nat.lt_of_succ_lt hj.1
    have hw := List.getElem?_eq_getElem hjlt
    by_cases heq : (g.exitOrder exit)[j] = v
    · exact Nat.le_of_eq ((List.getElem?_inj hjlt hn).mp (hw.trans (heq ▸ hv.symm)))
    · have hs := hlast _ ((unsupported_iff he hw).mpr hj) heq
      exact Nat.le_of_lt (lt_of_pair_sublist hn hs hw hv)
  · obtain ⟨j, hj⟩ := List.getElem?_of_mem hw.1
    have hle : j ≤ k := hgreatest ((unsupported_iff he hj).mp hw)
    have hjk : j ≠ k := fun heq => hne (Option.some.inj (hj.symm.trans (heq ▸ hv)))
    exact (pair_sublist_iff hn hj hv).mpr (Nat.lt_of_le_of_ne hle hjk)

theorem not_unsupported_of_size_le (he : g.size ≤ exit) : ¬g.Unsupported exit u := by
  intro hu
  have hmem := hu.1
  rw [exitOrder, finishOrder_of_size_le (by rwa [size_reverse])] at hmem
  exact List.not_mem_nil hmem

theorem postdominators_eq_error_iff_lastUnsupported (he : exit < g.size) :
    g.postdominators exit = .error x ↔
      ∃ u, g.LastUnsupported exit u ∧ x = .noKnownSuccessor u := by
  rw [postdominators_eq_error_iff he,
    first_sweep_eq_error_iff (nodup_exitOrder g exit) (exitOrder_last he).1]
  constructor
  · rintro ⟨k, v, hk, hv, hx⟩
    exact ⟨v, (lastUnsupported_iff he hv).mpr hk, hx⟩
  · rintro ⟨u, hu, hx⟩
    obtain ⟨k, hk⟩ := List.getElem?_of_mem hu.1.1
    exact ⟨k, u, (lastUnsupported_iff he hk).mp hu, hk, hx⟩

theorem exists_postdominators_error (hu : g.Unsupported exit u) :
    ∃ x, g.postdominators exit = .error x := by
  have he : exit < g.size := Nat.lt_of_not_le fun hle => not_unsupported_of_size_le hle hu
  obtain ⟨k, hk⟩ := List.getElem?_of_mem hu.1
  obtain ⟨x, hx⟩ := exists_first_sweep_error (nodup_exitOrder g exit) (exitOrder_last he).1
    ((unsupported_iff he hk).mp hu)
  exact ⟨x, (postdominators_eq_error_iff he).mpr hx⟩

/-- The computation fails exactly if the exit is no node of the graph, or if some node other than
the exit is numbered and no successor comes after it. In the second case the error names the last
such node. A lookup on a climb never fails. An error is always one of the first sweep: at every
stage a revision fails for no other reason than a missing successor, and not in later sweeps. -/
theorem postdominators_fails_iff_unsupported (g : Digraph) (exit : NodeId) :
    ((∃ x, g.postdominators exit = .error x) ↔ g.size ≤ exit ∨ ∃ u, g.Unsupported exit u) ∧
    (∀ x, g.postdominators exit = .error x ↔
      g.size ≤ exit ∧ x = .exitOutside exit g.size ∨
        ∃ u, g.LastUnsupported exit u ∧ x = .noKnownSuccessor u) ∧
    (∀ k, g.postdominators exit ≠ .error (.noEstimate k)) ∧
    (exit < g.size →
      (∀ x, g.postdominators exit = .error x ↔
        g.sweep (g.exitOrder exit) (.initial (g.exitOrder exit).length) = .error x) ∧
      ∀ n k v e x, g.Stage (g.exitOrder exit) n (k + 1) e → (g.exitOrder exit)[k]? = some v →
        g.revise (g.exitOrder exit) e (v, k) = .error x → n = 0 ∧ x = .noKnownSuccessor v) ∧
    ∀ u, (Violation.noKnownSuccessor u).message =
      "node " ++ NodeId.label u ++
        " reaches the exit but none of its successors has a postdominator estimate" := by
  have herror : ∀ x, g.postdominators exit = .error x ↔
      g.size ≤ exit ∧ x = .exitOutside exit g.size ∨
        ∃ u, g.LastUnsupported exit u ∧ x = .noKnownSuccessor u := by
    intro x
    by_cases he : exit < g.size
    · rw [postdominators_eq_error_iff_lastUnsupported he,
        or_iff_right fun h => Nat.not_le_of_lt he h.1]
    · have hle := Nat.le_of_not_lt he
      have hnone : ¬∃ u, g.LastUnsupported exit u ∧ x = .noKnownSuccessor u := by
        rintro ⟨u, hu, _⟩
        exact not_unsupported_of_size_le hle hu.1
      rw [postdominators, if_neg he, or_iff_left hnone, and_iff_right hle, Except.error.injEq]
      exact eq_comm
  refine ⟨⟨?_, ?_⟩, herror, ?_, fun he => ⟨fun x => postdominators_eq_error_iff he, ?_⟩, ?_⟩
  · rintro ⟨x, hx⟩
    cases (herror x).mp hx with
    | inl houtside => exact .inl houtside.1
    | inr hlast => exact .inr ⟨hlast.choose, hlast.choose_spec.1.1⟩
  · intro h
    cases h with
    | inl hle => exact ⟨_, (herror _).mpr (.inl ⟨hle, rfl⟩)⟩
    | inr hex => exact exists_postdominators_error hex.choose_spec
  · intro k hk
    cases (herror _).mp hk with
    | inl houtside => cases houtside.2
    | inr hlast => cases hlast.choose_spec.2
  · intro n k v e x hst hv hr
    exact hst.eq_of_revise_eq_error (nodup_exitOrder g exit) (exitOrder_last he).1 hv hr
  · intro u
    rfl

/-- The exit lists two nodes that do not lead to it and one that does. The later of the two is
named. -/
example :
    ((((empty 4).addPredecessor 0 3).addPredecessor 1 3).addEdge 2 3).postdominators 3 =
      .error (.noKnownSuccessor 1) := by decide +kernel

end Digraph

end Slicing
