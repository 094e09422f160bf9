import Mathlib.Algebra.Order.BigOperators.Group.List
import Mathlib.Algebra.Order.Group.Nat
import Mathlib.Tactic.Ring
import Slicing.Proofs.FinishOrder
import Slicing.Proofs.TreeChain

/-!
# The sweeps come to an end

`Digraph.Settles` says that sweeping until a sweep changes nothing ends, with which
estimates and after how many sweeps. It does not mention how far the estimates can still
rise, which is what `Digraph.settle` looks at; the two agree because a revision never
lowers an estimate, so a sweep that changes something lowers the slack.

After the first sweep each estimate lies above its number and below the number of
nodes. This bounds the slack, and with it the number of sweeps.
-/
namespace Slicing

namespace Estimates

variable {e e' : Estimates} {j p : Nat}

def room (e : Estimates) (j : Nat) : Nat := e.size + 1 - (e.get? j).elim 0 (· + 1)

theorem toList_entries (e : Estimates) : e.entries.toList = (List.range e.size).map e.get? := by
  apply List.ext_getElem
  · simp [size]
  · intro i hi _
    have hlt : i < e.entries.size := by simpa using hi
    simp [get?, hlt]

theorem slack_eq_sum (e : Estimates) : e.slack = ((List.range e.size).map e.room).sum := by
  rw [slack, toList_entries, List.map_map]
  rfl

theorem eq_of_get? (hsize : e.size = e'.size) (h : ∀ j < e'.size, e.get? j = e'.get? j) :
    e = e' := by
  obtain ⟨l⟩ := e
  obtain ⟨m⟩ := e'
  have hlist : l.toList = m.toList := by
    have hl := toList_entries ⟨l⟩
    have hm := toList_entries ⟨m⟩
    rw [hl, hm, hsize]
    exact List.map_congr_left fun j hj => h j (List.mem_range.mp hj)
  rw [Array.toList_inj.mp hlist]

theorem Refines.antisymm (h : e.Refines e') (h' : e'.Refines e) (hsize : e.size = e'.size) :
    e = e' := by
  apply eq_of_get? hsize
  intro j _
  cases hp : e.get? j with
  | none =>
    cases hq : e'.get? j with
    | none => rfl
    | some q =>
      obtain ⟨p, hp', _⟩ := h'.exists_le hq
      exact absurd (hp.symm.trans hp') nofun
  | some p =>
    obtain ⟨q, hq, hle⟩ := h.exists_le hp
    obtain ⟨p', hp', hle'⟩ := h'.exists_le hq
    obtain rfl := Option.some.inj (hp.symm.trans hp')
    rw [hq, Nat.le_antisymm hle hle']

theorem room_eq (h : e.get? j = some p) : e.room j = e.size - p := by
  rw [room, h, Option.elim_some]
  omega

theorem Refines.get?_eq_or_room_lt (h : e.Refines e') (hr : e.Rising) (hsize : e'.size = e.size)
    (j : Nat) : e'.get? j = e.get? j ∨ e'.room j < e.room j := by
  cases hp : e.get? j with
  | none =>
    cases hp' : e'.get? j with
    | none => exact .inl rfl
    | some p' =>
      rw [room_eq hp', room, hp, Option.elim_none]
      omega
  | some p =>
    obtain ⟨p', hp', hpp⟩ := h.exists_le hp
    have hlt := hr.estimate_lt_size hp
    by_cases heq : p = p'
    · rw [hp', heq]
      exact .inl rfl
    · rw [room_eq hp, room_eq hp']
      omega

/-- Estimates that are refined to something new have less slack. -/
theorem Refines.slack_lt (h : e.Refines e') (hr : e.Rising) (hsize : e'.size = e.size)
    (hne : e' ≠ e) : e'.slack < e.slack := by
  rw [slack_eq_sum, slack_eq_sum, hsize]
  apply List.sum_lt_sum
  · intro j _
    cases h.get?_eq_or_room_lt hr hsize j with
    | inl heq => exact Nat.le_of_eq (by rw [room, room, hsize, heq])
    | inr hlt => exact Nat.le_of_lt hlt
  · by_contra hall
    apply hne
    apply eq_of_get? hsize
    intro j hj
    cases h.get?_eq_or_room_lt hr hsize j with
    | inl heq => exact heq
    | inr hlt => exact absurd ⟨j, List.mem_range.mpr hj, hlt⟩ hall

theorem Rising.size_le_slack (hr : e.Rising) : e.size ≤ e.slack := by
  rw [slack_eq_sum]
  have hone : ∀ r ∈ (List.range e.size).map e.room, 1 ≤ r := by
    intro r hmem
    obtain ⟨j, _, rfl⟩ := List.mem_map.mp hmem
    cases hp : e.get? j with
    | none =>
      rw [room, hp, Option.elim_none]
      omega
    | some p =>
      have hlt := hr.estimate_lt_size hp
      rw [room_eq hp]
      omega
  have hlen := List.length_le_sum_of_one_le _ hone
  rw [List.length_map, List.length_range] at hlen
  exact hlen

theorem sum_map_sub_range (m : Nat) : ((List.range m).map (m - ·)).sum * 2 = m * (m + 1) := by
  induction m with
  | zero => rfl
  | succ m ih =>
    rw [List.range_succ_eq_map, List.map_cons, List.map_map, List.sum_cons]
    have hcongr : ((fun j => m + 1 - j) ∘ Nat.succ) = fun j => m - j := by
      funext j
      exact Nat.add_sub_add_right m 1 j
    rw [hcongr, Nat.add_mul, ih, Nat.sub_zero]
    ring

/-- With an estimate at every number, each above its number, little slack is left. -/
theorem Rising.slack_le (hr : e.Rising) (hall : ∀ j < e.size, (e.get? j).isSome) :
    e.slack ≤ (e.size - 1) * e.size / 2 + 1 := by
  obtain ⟨m, hm⟩ : ∃ m, e.size = m + 1 := ⟨e.size - 1, by have := hr.size_pos; omega⟩
  have hlast : e.room m ≤ 1 := by
    have htop := hr.top
    rw [hm, Nat.add_sub_cancel] at htop
    rw [room_eq htop]
    omega
  have hbelow : ∀ j ∈ List.range m, e.room j ≤ m - j := by
    intro j hj
    have hjm := List.mem_range.mp hj
    obtain ⟨p, hp⟩ := Option.isSome_iff_exists.mp (hall j (by omega))
    have hlt := hr.lt_lt hp (by omega)
    rw [room_eq hp]
    omega
  have hsum : _ ≤ ((List.range m).map (m - ·)).sum := List.sum_le_sum hbelow
  have hgauss := sum_map_sub_range m
  rw [slack_eq_sum, hm, List.range_succ, List.map_append, List.sum_append, Nat.add_sub_cancel]
  simp only [List.map_cons, List.map_nil, List.sum_cons, List.sum_nil]
  omega

end Estimates

namespace Digraph

/-- Sweeping goes on until a sweep changes nothing; gives the estimates that are left then, and
the number of sweeps with the last one included. -/
inductive Settles (g : Digraph) (order : List NodeId) : Estimates → Estimates → Nat → Prop where
  | unchanged {e : Estimates} : g.sweep order e = .ok e → Settles g order e e 1
  | changed {e e' f : Estimates} {m : Nat} :
      g.sweep order e = .ok e' → e' ≠ e → Settles g order e' f m → Settles g order e f (m + 1)

variable {g : Digraph} {order : List NodeId} {e e' f : Estimates} {exit v : NodeId} {m n : Nat}

theorem Stage.slack_lt (hn : order.Nodup) (hpos : 0 < order.length)
    (h : g.Stage order n (order.length - 1) e) (hs : g.sweep order e = .ok e') (hne : e' ≠ e) :
    e'.slack < e.slack := by
  obtain ⟨h', href⟩ := h.sweep hn hpos hs
  have hold := h.swept hn hpos
  have hnew := h'.swept hn hpos
  exact href.slack_lt hold.toRising (hnew.size_eq.trans hold.size_eq.symm) hne

/-- Where every number has support, the sweeps settle, and `settle` finds out how. -/
theorem Stage.exists_settles (hn : order.Nodup) (hpos : 0 < order.length)
    (hsup : g.Supported order) (h : g.Stage order n (order.length - 1) e) :
    ∃ f m, g.Settles order e f m ∧ ∀ count, g.settle order e count = .ok (f, count + m) := by
  induction hslack : e.slack using Nat.strongRecOn generalizing e n with
  | _ slack ih =>
    subst hslack
    obtain ⟨e', hs⟩ := h.exists_sweep hn hpos hsup
    by_cases heq : e' = e
    · subst heq
      refine ⟨e', 1, .unchanged hs, fun count => ?_⟩
      exact settle_of_not_slack_lt hs (Nat.lt_irrefl _) count
    · have hlt := h.slack_lt hn hpos hs heq
      obtain ⟨f, m, hf, hcount⟩ := ih e'.slack hlt (h.sweep hn hpos hs).1.turn rfl
      refine ⟨f, m + 1, .changed hs heq hf, fun count => ?_⟩
      rw [settle_of_slack_lt hs hlt, hcount, Nat.add_assoc, Nat.add_comm 1 m]

namespace Settles

theorem sweep_eq (h : g.Settles order e f m) : g.sweep order f = .ok f := by
  induction h with
  | unchanged hs => exact hs
  | changed _ _ _ ih => exact ih

theorem exists_stage (hn : order.Nodup) (hpos : 0 < order.length)
    (h : g.Settles order e f m) (hst : g.Stage order n (order.length - 1) e) :
    ∃ n, g.Stage order n 0 f := by
  induction h generalizing n with
  | unchanged hs => exact ⟨n, (hst.sweep hn hpos hs).1⟩
  | changed hs _ _ ih => exact ih (hst.sweep hn hpos hs).1.turn

/-- Each sweep but the last one uses up some slack. -/
theorem add_slack_le (hn : order.Nodup) (hpos : 0 < order.length)
    (h : g.Settles order e f m) (hst : g.Stage order n (order.length - 1) e) :
    m + f.slack ≤ e.slack + 1 := by
  induction h generalizing n with
  | unchanged _ => omega
  | changed hs hne _ ih =>
    have hlt := hst.slack_lt hn hpos hs hne
    have hle := ih (hst.sweep hn hpos hs).1.turn
    omega

/-- After the first sweep there is little slack, and some of it always remains. -/
theorem le_of_initial (hn : order.Nodup) (hpos : 0 < order.length)
    (h : g.Settles order (.initial order.length) f m) :
    m ≤ 2 + (order.length - 1) * (order.length - 2) / 2 := by
  cases h with
  | unchanged _ => omega
  | @changed _ e _ m hs _ hf =>
    have hst := (Stage.start.sweep hn hpos hs).1.turn
    have hsw := hst.swept hn hpos
    have hsum := hf.add_slack_le hn hpos hst
    have hhigh := hsw.slack_le fun j hj =>
      hst.isSome hn hpos (Nat.le_refl 1) (hsw.size_eq ▸ hj)
    obtain ⟨n, hst'⟩ := hf.exists_stage hn hpos hst
    have hlow := (hst'.swept hn hpos).size_le_slack
    rw [(hst'.swept hn hpos).size_eq] at hlow
    rw [hsw.size_eq] at hhigh
    obtain ⟨l, hl⟩ : ∃ l, order.length = l + 1 := ⟨order.length - 1, by omega⟩
    rw [hl] at hlow hhigh ⊢
    have hprod : l * (l + 1) = l * (l - 1) + 2 * l := by
      cases l with
      | zero => rfl
      | succ l =>
        rw [Nat.add_sub_cancel]
        ring
    have hsub : l + 1 - 2 = l - 1 := by omega
    rw [Nat.add_sub_cancel, hprod] at hhigh
    rw [Nat.add_sub_cancel, hsub]
    omega

end Settles

/-! ## The numbering from the exit -/

theorem nodup_exitOrder (g : Digraph) (exit : NodeId) : (g.exitOrder exit).Nodup :=
  nodup_finishOrder _ _

theorem lt_size_of_mem_exitOrder (h : v ∈ g.exitOrder exit) : v < g.size :=
  size_reverse g ▸ lt_size_of_mem_finishOrder h

theorem length_exitOrder_le (g : Digraph) (exit : NodeId) :
    (g.exitOrder exit).length ≤ g.size :=
  size_reverse g ▸ length_finishOrder_le g.reverse exit

theorem exitOrder_last (he : exit < g.size) :
    0 < (g.exitOrder exit).length ∧
      (g.exitOrder exit)[(g.exitOrder exit).length - 1]? = some exit := by
  obtain ⟨left, hleft⟩ := exists_finishOrder_eq_append (g := g.reverse) (by rwa [size_reverse])
  rw [exitOrder, hleft]
  simp

theorem ne_exit_iff (he : exit < g.size) (hv : (g.exitOrder exit)[k]? = some v) :
    v ≠ exit ↔ k + 1 < (g.exitOrder exit).length := by
  have hlast := (exitOrder_last he).2
  have hklt := (List.getElem?_eq_some_iff.mp hv).1
  constructor
  · intro hne
    by_contra hle
    have hk : k = (g.exitOrder exit).length - 1 := by omega
    exact hne (Option.some.inj (hv.symm.trans (hk ▸ hlast)))
  · intro hlt heq
    have hk := hv.trans ((congrArg some heq).trans hlast.symm)
    rw [List.getElem?_inj hklt (nodup_exitOrder g exit)] at hk
    omega

/-- The computation fails in its first sweep, or its sweeps settle and give the tree. -/
theorem postdominators_cases (he : exit < g.size) :
    (∃ x, g.sweep (g.exitOrder exit) (.initial (g.exitOrder exit).length) = .error x ∧
        g.postdominators exit = .error x) ∨
      ∃ f m, g.Settles (g.exitOrder exit) (.initial (g.exitOrder exit).length) f m ∧
        g.postdominators exit =
          .ok ⟨exit, (g.nodes.map (parent? (g.exitOrder exit) f)).toArray, m⟩ := by
  have hn := nodup_exitOrder g exit
  have hpos := (exitOrder_last he).1
  cases hs : g.sweep (g.exitOrder exit) (.initial (g.exitOrder exit).length) with
  | error x =>
    refine .inl ⟨x, rfl, ?_⟩
    simp only [postdominators, if_pos he, settle_of_error hs]
    rfl
  | ok e =>
    have hsup := (Stage.start.sweep hn hpos hs).1.turn.supported hn hpos (Nat.le_refl 1)
    obtain ⟨f, m, hf, hsettle⟩ := Stage.start.exists_settles hn hpos hsup
    refine .inr ⟨f, m, hf, ?_⟩
    simp only [postdominators, if_pos he, hsettle 0, Nat.zero_add]
    rfl

/-- What the estimates of a settled run and their tree have in common. -/
theorem Settles.represents (he : exit < g.size)
    (h : g.Settles (g.exitOrder exit) (.initial (g.exitOrder exit).length) f m) :
    g.Swept (g.exitOrder exit) f 0 ∧
      Represents (g.exitOrder exit) f
        ⟨exit, (g.nodes.map (parent? (g.exitOrder exit) f)).toArray, m⟩ := by
  have hn := nodup_exitOrder g exit
  obtain ⟨n, hst⟩ := h.exists_stage hn (exitOrder_last he).1 .start
  exact ⟨hst.swept hn (exitOrder_last he).1,
    represents_mk hn (fun _ hv => lt_size_of_mem_exitOrder hv) exit m⟩

theorem Represents.getLast?_chain {t : PostdominatorTree} (he : exit < g.size)
    (hs : g.Swept (g.exitOrder exit) f 0) (hr : Represents (g.exitOrder exit) f t)
    (hsize : (g.exitOrder exit).length ≤ t.size) (hv : v ∈ t) :
    (t.chain v).getLast? = some exit := by
  have hn := nodup_exitOrder g exit
  obtain ⟨w, hw, hnext⟩ := (hr.ranked hn hs).exists_getLast?_chain (v := v) hsize
  obtain ⟨j, hj⟩ := List.getElem?_of_mem ((hr.mem_iff hn hs).mp hv)
  obtain ⟨i, hi, _⟩ := (hr.postdominates_iff hn hs hsize hj).mp (List.mem_of_getLast? hw)
  have hlt : i < f.size := hs.size_eq ▸ (List.getElem?_eq_some_iff.mp hi).1
  obtain ⟨p, hp⟩ := Option.isSome_iff_exists.mp (hs.isSome (Nat.zero_le i) hlt)
  have htop : i + 1 = f.size := by
    by_contra hne
    have hplt : p < (g.exitOrder exit).length := hs.size_eq ▸ (hs.lt_lt hp hne).2
    have hnext' := (hr.next?_eq_some_iff hn hs).mpr
      ⟨i, p, hi, hs.above?_eq hp hne, List.getElem?_eq_getElem hplt⟩
    exact absurd (hnext.symm.trans hnext') nofun
  have hlast := (exitOrder_last he).2
  have hsize' := hs.size_eq
  rw [show (g.exitOrder exit).length - 1 = i by omega, hi] at hlast
  rw [hw, hlast]

theorem Represents.length_chain_le {t : PostdominatorTree} (he : exit < g.size)
    (hs : g.Swept (g.exitOrder exit) f 0) (hr : Represents (g.exitOrder exit) f t)
    (hsize : (g.exitOrder exit).length ≤ t.size) (v : NodeId) :
    (t.chain v).length ≤ g.size := by
  have hn := nodup_exitOrder g exit
  by_cases hv : v ∈ g.exitOrder exit
  · obtain ⟨j, hj⟩ := List.getElem?_of_mem hv
    have hsub : t.chain v ⊆ g.exitOrder exit := by
      intro w hw
      obtain ⟨i, hi, _⟩ := (hr.postdominates_iff hn hs hsize hj).mp hw
      exact List.mem_of_getElem? hi
    have hle := (hr.ranked hn hs).nodup_climb.length_le_of_subset hsub
    exact Nat.le_trans hle (length_exitOrder_le g exit)
  · rw [hr.chain_of_not_mem hn hs hv, List.length_singleton]
    exact Nat.lt_of_le_of_lt (Nat.zero_le exit) he

/-- On every graph, consistent or not: at each stage of the computation estimates lie above
their numbers, so that any two climbs meet; no revision lowers an estimate; sweeping settles
unless the first sweep fails, after a bounded number of sweeps; and in the tree all chains are
free of repetition and stop by themselves, those of members at the exit. -/
theorem estimates_rise_and_settle (g : Digraph) (exit : NodeId) (he : exit < g.size) :
    let order := g.exitOrder exit
    let first := Estimates.initial order.length
    (∀ n k e, g.Stage order n k e →
      (∀ j p, e.get? j = some p → j + 1 ≠ order.length → j < p) ∧
      (∀ a b, (e.get? a).isSome → (e.get? b).isSome → ∃ c, e.meet a b = .ok c)) ∧
    (∀ n k v e e', g.Stage order n (k + 1) e → order[k]? = some v →
      g.revise order e (v, k) = .ok e' →
      ∀ j p, e.get? j = some p → ∃ p', e'.get? j = some p' ∧ p ≤ p') ∧
    ((∃ x, g.sweep order first = .error x ∧ g.postdominators exit = .error x) ∨
      ∃ t f, g.postdominators exit = .ok t ∧ g.Settles order first f t.sweeps ∧
        t.sweeps ≤ 2 + (order.length - 1) * (order.length - 2) / 2 ∧
        ∀ v, (t.chain v).Nodup ∧ (t.chain v).length ≤ g.size ∧
          (∃ w, (t.chain v).getLast? = some w ∧ t.next? w = none) ∧
          (v ∈ t → (t.chain v).getLast? = some exit)) := by
  intro order first
  have hn := nodup_exitOrder g exit
  have hpos := (exitOrder_last he).1
  refine ⟨fun n k e hst => ⟨fun j p hp hj => ?_, fun a b ha hb => ?_⟩, ?_, ?_⟩
  · have hs := hst.swept hn hpos
    exact (hs.lt_lt hp (hs.size_eq ▸ hj)).1
  · have hs := hst.swept hn hpos
    exact Estimates.exists_meet (hs.climbs_top ha) (hs.climbs_top hb)
  · intro n k v e e' hst hv hr j p hp
    exact (hst.refines hn hpos hv hr).exists_le hp
  · rcases postdominators_cases he with herr | ⟨f, m, hf, hok⟩
    · exact .inl herr
    · obtain ⟨hs, hr⟩ := hf.represents he
      have hsize := length_exitOrder_le g exit
      refine .inr ⟨_, f, hok, hf, hf.le_of_initial hn hpos, fun v => ?_⟩
      have hsize' : (g.exitOrder exit).length ≤ PostdominatorTree.size
          ⟨exit, (g.nodes.map (parent? (g.exitOrder exit) f)).toArray, m⟩ := by
        simpa [PostdominatorTree.size, nodes] using hsize
      exact ⟨(hr.ranked hn hs).nodup_climb, hr.length_chain_le he hs hsize' v,
        (hr.ranked hn hs).exists_getLast?_chain hsize',
        hr.getLast?_chain he hs hsize'⟩

/-- A loop that is entered at two places, and an edge that is listed at its source only. -/
def lopsided : Digraph :=
  ([(2, 3), (1, 2), (0, 4), (2, 1), (3, 4), (1, 0), (3, 2)].foldl
    (fun g e => g.addEdge e.1 e.2) (empty 5)).addSuccessor 3 0

theorem lopsided_settles :
    4 < lopsided.size ∧ (0 ∈ lopsided.succ 3 ∧ 3 ∉ lopsided.pred 0) ∧
      ∃ t, lopsided.postdominators 4 = .ok t ∧ t.sweeps = 4 ∧ t.sweeps ≤ 2 + 4 * 3 / 2 ∧
        (t.chain 1).getLast? = some 4 := by
  have hexit : 4 < lopsided.size := by decide +kernel
  refine ⟨hexit, by decide +kernel, ?_⟩
  have hcount : (lopsided.postdominators 4).map PostdominatorTree.sweeps = .ok 4 := by
    decide +kernel
  have hmem : (lopsided.postdominators 4).map (decide <| 1 ∈ ·) = .ok true := by
    decide +kernel
  have hlength : (lopsided.exitOrder 4).length = 5 := by decide +kernel
  obtain ⟨_, _, ⟨x, _, herr⟩ | ⟨t, f, hok, _, hle, hchain⟩⟩ :=
    estimates_rise_and_settle lopsided 4 hexit
  · rw [herr] at hcount
    exact absurd hcount nofun
  · rw [hok] at hcount hmem
    rw [hlength] at hle
    exact ⟨t, hok, Except.ok.inj hcount, hle,
      (hchain 1).2.2.2 (of_decide_eq_true (Except.ok.inj hmem))⟩

end Digraph

end Slicing
