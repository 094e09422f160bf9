import Slicing.Proofs.Convergence
import Slicing.Proofs.Postdominance
import Slicing.Proofs.Precedence

/-!
# The tree is path postdominance

On a consistent graph the nodes that are numbered are those that reach the exit, and
each number but the last has an edge to a higher one.

At every stage the climb from a number passes all postdominators of its node
(`Digraph.Covers`). Replacing an estimate keeps this also for the climbs that pass the
replaced number by mistake: an ascending path leads there, and it cannot meet a
postdominator with a higher number. Settled estimates satisfy the equations of
postdominance, so their climbs pass nothing else.
-/
namespace Slicing

namespace Digraph

variable {g : Digraph} {order : List NodeId} {e f : Estimates} {exit a b d u v w : NodeId}
variable {c i j k m n s : Nat} {t : PostdominatorTree}

/-! ## Numbers of nodes that reach the exit -/

theorem mem_exitOrder (hc : g.Consistent) : v ∈ g.exitOrder exit ↔ g.Reaches v exit := by
  rw [exitOrder, mem_finishOrder, reaches_reverse_iff hc]

/-- Some path from a node to the exit goes through higher numbers only. -/
theorem exists_higher_path (hc : g.Consistent) (hv : (g.exitOrder exit)[j]? = some v) :
    ∃ p, g.Path v p exit ∧ ∀ x ∈ p, x = v ∨ ∃ i, j < i ∧ (g.exitOrder exit)[i]? = some x := by
  obtain ⟨p, hp, hx⟩ := exists_path_of_mem_finishOrder (List.mem_of_getElem? hv)
  refine ⟨p.reverse, hp.reverse hc, fun x hxp => ?_⟩
  rcases hx x (List.mem_reverse.mp hxp) with heq | hs
  · exact .inl heq
  · obtain ⟨i, hi⟩ := List.getElem?_of_mem
      (hs.subset (List.mem_cons_of_mem _ List.mem_cons_self))
    exact .inr ⟨i, lt_of_pair_sublist (nodup_finishOrder _ _) hs hv hi, hi⟩

theorem exitOrder_supported (hc : g.Consistent) (he : exit < g.size) :
    g.Supported (g.exitOrder exit) := by
  intro k hk
  have hlt : k < (g.exitOrder exit).length := Nat.lt_of_succ_lt hk
  have hv : (g.exitOrder exit)[k]? = some (g.exitOrder exit)[k] := List.getElem?_eq_getElem hlt
  have hne : (g.exitOrder exit)[k] ≠ exit := (ne_exit_iff he hv).mpr hk
  obtain ⟨p, hp, hx⟩ := exists_higher_path hc hv
  obtain ⟨w, hw, q, hq, hnot, hsub⟩ := hp.exists_leaving hne
  have hwne : w ≠ (g.exitOrder exit)[k] := fun heq => hnot (heq ▸ hq.source_mem)
  obtain ⟨i, hki, hi⟩ := (hx w (hsub w hq.source_mem)).resolve_left hwne
  exact ⟨i, hki, _, w, hv, hi, hw⟩

/-! ## Climbs pass all postdominators -/

/-- The climb from a known number passes the numbers of all postdominators of its node. -/
def Covers (g : Digraph) (exit : NodeId) (order : List NodeId) (e : Estimates) : Prop :=
  ∀ j i v a, order[j]? = some v → order[i]? = some a → (e.get? j).isSome →
    g.Postdominates exit a v → e.Climbs j i

theorem postdominates_of_ascends (hn : order.Nodup) (horder : ∀ x ∈ order, g.Reaches x exit)
    (h : g.Ascends order j k) (hv : order[j]? = some v) (hu : order[k]? = some u)
    (ha : order[i]? = some a) (hki : k < i) (hd : g.Postdominates exit a v) :
    g.Postdominates exit a u := by
  induction h generalizing v with
  | refl => exact Option.some.inj (hv.symm.trans hu) ▸ hd
  | @step j h k hl hlt hrest ih =>
    obtain ⟨v', w, hv', hw, hsucc⟩ := hl
    obtain rfl := Option.some.inj (hv.symm.trans hv')
    have hhk := hrest.le
    have hne : a ≠ v := by
      intro heq
      have hilt := (List.getElem?_eq_some_iff.mp ha).1
      have := (List.getElem?_inj hilt hn).mp (ha.trans (heq ▸ hv.symm))
      omega
    exact ih hw hu hki (hd.succ hne hsucc (horder w (List.mem_of_getElem? hw)))

/-- Revising a number keeps all postdominators on all climbs. -/
theorem Covers.set (hn : order.Nodup) (horder : ∀ x ∈ order, g.Reaches x exit)
    (hs : g.Swept order e (k + 1)) (hk : k + 1 < e.size) (hest : g.Estimated order e k c)
    (h : g.Covers exit order e) : g.Covers exit order (e.set k c) := by
  obtain ⟨hkc, hcs⟩ := hs.lt_estimate hk hest
  have hself : ∀ {u i a}, order[k]? = some u → order[i]? = some a →
      g.Postdominates exit a u → (e.set k c).Climbs k i := by
    intro u i a hu ha hd
    by_cases heq : a = u
    · have hilt := (List.getElem?_eq_some_iff.mp ha).1
      rw [(List.getElem?_inj hilt hn).mp (ha.trans (heq ▸ hu.symm))]
      exact .refl
    · have hci : e.Climbs c i := by
        apply hest.climbs_of_forall
        intro s hl hsome
        obtain ⟨u', w, hu', hw, hsucc⟩ := hl
        obtain rfl := Option.some.inj (hu.symm.trans hu')
        exact h s i w a hw ha hsome (hd.succ heq hsucc (horder w (List.mem_of_getElem? hw)))
      exact .step (Estimates.above?_set_self hkc hcs) ((Estimates.climbs_set_iff hkc).mpr hci)
  intro j i v a hv ha hsome hd
  by_cases hjk : j = k
  · subst hjk
    exact hself hv ha hd
  · have hold : (e.get? j).isSome := by
      rwa [Estimates.get?_set, if_neg fun hj => hjk hj.1] at hsome
    have hji := h j i v a hv ha hold hd
    by_cases hpass : e.Climbs j k
    · by_cases hik : i ≤ k
      · exact hji.set_of_le hik
      · have hlt : k < order.length := by
          rw [← hs.size_eq]
          omega
        have hu : order[k]? = some order[k] := List.getElem?_eq_getElem hlt
        have hdu := postdominates_of_ascends hn horder (hs.ascends_of_climbs hpass) hv hu ha
          (Nat.lt_of_not_le hik) hd
        exact (hpass.set_of_le (Nat.le_refl k)).trans (hself hu ha hdu)
    · exact hji.set_of_not_climbs hpass

theorem Stage.covers (hn : order.Nodup) (hpos : 0 < order.length)
    (horder : ∀ x ∈ order, g.Reaches x exit)
    (hlast : order[order.length - 1]? = some exit) (h : g.Stage order n k e) :
    g.Covers exit order e := by
  induction h with
  | start =>
    intro j i v a hv ha hsome hd
    rw [Estimates.get?_initial] at hsome
    split at hsome
    · next htop =>
      have hj : j = order.length - 1 := by omega
      have hexit : v = exit := Option.some.inj (hv.symm.trans (hj ▸ hlast))
      have hsize : v < g.size := (horder v (List.mem_of_getElem? hv)).lt_size
      have hav : a = v := by
        subst hexit
        exact List.mem_singleton.mp (hd.mem (.single hsize))
      have hjlt := (List.getElem?_eq_some_iff.mp hv).1
      rw [(List.getElem?_inj hjlt hn).mp (hv.trans (hav ▸ ha.symm))]
      exact .refl
    · exact absurd hsome nofun
  | revise hst hv hr ih =>
    obtain ⟨c, hc, rfl⟩ := exists_estimate_of_revise hr
    have hs := hst.swept hn hpos
    exact ih.set hn horder hs (hs.size_eq ▸ hst.lt_length hpos) (estimated_of_estimate hn hv hc)
  | turn _ ih => exact ih

/-! ## Settled estimates -/

theorem Stage.estimated_of_foldlM (hn : order.Nodup) (hpos : 0 < order.length)
    (h : g.Stage order n k f)
    (hf : (order.zipIdx.take k).reverse.foldlM (g.revise order) f = .ok f) (hj : j < k) :
    ∃ c, f.get? j = some c ∧ g.Estimated order f j c := by
  induction k with
  | zero => omega
  | succ k ih =>
    have hlt := h.lt_length hpos
    have hv : order[k]? = some order[k] := List.getElem?_eq_getElem (Nat.lt_of_succ_lt hlt)
    rw [take_succ_zipIdx hv, List.foldlM_cons] at hf
    cases hr : g.revise order f (order[k], k) with
    | error x =>
      rw [hr] at hf
      exact absurd hf nofun
    | ok f₁ =>
      rw [hr] at hf
      have hst := h.revise hv hr
      have hs := h.swept hn hpos
      -- The estimates rise from `f` to `f₁` and from there to `f` again.
      have heq : f₁ = f := by
        have hsize := (hst.swept hn hpos).size_eq.trans hs.size_eq.symm
        exact (hst.foldlM hn hpos hf).2.antisymm (h.refines hn hpos hv hr) hsize
      subst heq
      by_cases hjk : j = k
      · subst hjk
        obtain ⟨c, hc, heq⟩ := exists_estimate_of_revise hr
        refine ⟨c, ?_, estimated_of_estimate hn hv hc⟩
        rw [heq, Estimates.get?_set, if_pos ⟨rfl, by rw [hs.size_eq]; omega⟩]
      · exact ih hst hf (by omega)

theorem Settles.estimated (hn : order.Nodup) (hpos : 0 < order.length)
    (h : g.Settles order (.initial order.length) f m) (hj : j + 1 < order.length) :
    ∃ c, f.get? j = some c ∧ g.Estimated order f j c := by
  obtain ⟨n, hst⟩ := h.exists_stage hn hpos .start
  exact hst.turn.estimated_of_foldlM hn hpos (Digraph.sweep_eq g order f ▸ h.sweep_eq) (by omega)

/-- Settled climbs pass postdominators only. -/
theorem Settles.mem_of_climbs (hc : g.Consistent) (he : exit < g.size)
    (h : g.Settles (g.exitOrder exit) (.initial (g.exitOrder exit).length) f m)
    {p : List NodeId} (hp : g.Path v p exit) (hv : (g.exitOrder exit)[j]? = some v)
    (ha : (g.exitOrder exit)[i]? = some a) (hji : f.Climbs j i) : a ∈ p := by
  have hn := nodup_exitOrder g exit
  have hpos := (exitOrder_last he).1
  have hs := (h.represents he).1
  -- Along the path the climb from each node still has `i` ahead, or `i` is the node.
  induction hp generalizing j with
  | @single exit hlt =>
    have hjlt := (List.getElem?_eq_some_iff.mp hv).1
    have hj : j = f.size - 1 := by
      rw [hs.size_eq]
      exact (List.getElem?_inj hjlt hn).mp (hv.trans (exitOrder_last hlt).2.symm)
    have hij : j = i := by
      by_contra hne
      obtain ⟨q, hq⟩ := hji.exists_above? hne
      rw [hj, Estimates.above?_top] at hq
      exact absurd hq nofun
    subst hij
    exact List.mem_singleton.mpr (Option.some.inj (ha.symm.trans hv))
  | @cons v w exit p hsucc hp ih =>
    by_cases hij : j = i
    · subst hij
      exact Option.some.inj (hv.symm.trans ha) ▸ List.mem_cons_self
    · obtain ⟨q, hq⟩ := hji.exists_above? hij
      obtain ⟨hget, hlt, hsize⟩ := Estimates.above?_eq_some_iff.mp hq
      rw [hs.size_eq] at hsize
      obtain ⟨c, hcj, hest⟩ := h.estimated hn hpos (j := j) (by omega)
      obtain rfl := Option.some.inj (hget.symm.trans hcj)
      obtain ⟨s, hw⟩ := List.getElem?_of_mem ((mem_exitOrder hc).mpr ⟨p, hp⟩)
      have hsome := hs.isSome (Nat.zero_le s) (hs.size_eq ▸ (List.getElem?_eq_some_iff.mp hw).1)
      have hsq := hest.climbs ⟨v, w, hv, hw, hsucc⟩ hsome
      exact List.mem_cons_of_mem _ (ih he h hw ha (hsq.trans (hji.tail hij hq)) hn hpos hs)

/-- In a settled tree a node's chain passes exactly its postdominators. -/
theorem Settles.postdominates_iff (hc : g.Consistent) (he : exit < g.size)
    (h : g.Settles (g.exitOrder exit) (.initial (g.exitOrder exit).length) f m)
    (hr : Represents (g.exitOrder exit) f t) (hsize : (g.exitOrder exit).length ≤ t.size) :
    t.Postdominates a b ↔ g.Postdominates exit a b := by
  have hn := nodup_exitOrder g exit
  have hs := (h.represents he).1
  have horder : ∀ x ∈ g.exitOrder exit, g.Reaches x exit := fun x => (mem_exitOrder hc).mp
  by_cases hb : b ∈ g.exitOrder exit
  · obtain ⟨j, hj⟩ := List.getElem?_of_mem hb
    have hsome := hs.isSome (Nat.zero_le j) (hs.size_eq ▸ (List.getElem?_eq_some_iff.mp hj).1)
    rw [hr.postdominates_iff hn hs hsize hj]
    constructor
    · intro h'
      obtain ⟨i, hi, hji⟩ := h'
      exact .of_forall_mem (horder b hb) fun p hp => h.mem_of_climbs hc he hp hj hi hji
    · intro hd
      obtain ⟨hpos, hlast⟩ := exitOrder_last he
      obtain ⟨n, hst⟩ := h.exists_stage hn hpos .start
      obtain ⟨p, hp⟩ := horder b hb
      obtain ⟨i, hi⟩ := List.getElem?_of_mem
        ((mem_exitOrder hc).mpr (hp.reaches_of_mem (hd.mem hp)))
      exact ⟨i, hi, hst.covers hn hpos horder hlast j i b a hj hi hsome hd⟩
  · rw [PostdominatorTree.Postdominates, hr.chain_of_not_mem hn hs hb, List.mem_singleton]
    constructor
    · exact .inl
    · intro hd
      exact hd.resolve_right fun h => hb ((mem_exitOrder hc).mpr h.1)

theorem Represents.immediate?_exit (he : exit < g.size) (hs : g.Swept (g.exitOrder exit) f 0)
    (hr : Represents (g.exitOrder exit) f t) : t.immediate? exit = some exit := by
  have hlast := (exitOrder_last he).2
  have htop := hs.top
  rw [hs.size_eq] at htop
  rw [hr exit, parent?_eq_some_iff (nodup_exitOrder g exit)]
  exact ⟨_, _, hlast, htop, hlast⟩

theorem Represents.immediate?_ne (he : exit < g.size) (hs : g.Swept (g.exitOrder exit) f 0)
    (hr : Represents (g.exitOrder exit) f t) (hd : t.immediate? v = some d) (hne : v ≠ exit) :
    d ≠ v := by
  have hn := nodup_exitOrder g exit
  rw [hr v, parent?_eq_some_iff hn] at hd
  obtain ⟨j, p, hj, hp, hdp⟩ := hd
  intro heq
  have hjlt := (List.getElem?_eq_some_iff.mp hj).1
  obtain rfl := (List.getElem?_inj hjlt hn).mp (hj.trans (heq ▸ hdp.symm))
  have htop := (ne_exit_iff he hj).mp hne
  rw [← hs.size_eq] at htop
  exact Nat.lt_irrefl j (hs.lt_lt hp (Nat.ne_of_lt htop)).1

/-! ## Exact trees -/

/-- The tree holds the nodes that reach the exit, and its chains are their postdominators. -/
structure Exact (g : Digraph) (exit : NodeId) (t : PostdominatorTree) : Prop where
  mem_iff : ∀ {v}, v ∈ t ↔ g.Reaches v exit
  postdominates_iff : ∀ {a b}, t.Postdominates a b ↔ g.Postdominates exit a b
  immediate?_exit : t.immediate? exit = some exit
  immediate?_ne : ∀ {v d}, t.immediate? v = some d → v ≠ exit → d ≠ v
  chain_of_next? : ∀ {v w}, t.next? v = some w → t.chain v = v :: t.chain w
  nodup_chain : ∀ v, (t.chain v).Nodup

/-- On a consistent graph the computation succeeds, and its tree is exact. -/
theorem exists_exact (hc : g.Consistent) (he : exit < g.size) :
    ∃ t, g.postdominators exit = .ok t ∧ g.Exact exit t := by
  have hn := nodup_exitOrder g exit
  obtain ⟨x, herr, _⟩ | ⟨f, m, hf, hok⟩ := postdominators_cases he
  · obtain ⟨e, hok⟩ :=
      Stage.start.exists_sweep hn (exitOrder_last he).1 (exitOrder_supported hc he)
    exact absurd (herr.symm.trans hok) nofun
  · obtain ⟨hs, hr⟩ := hf.represents he
    generalize ht : PostdominatorTree.mk exit _ m = t at hok hr
    have hsize : (g.exitOrder exit).length ≤ t.size := by
      have := length_exitOrder_le g exit
      simpa [← ht, PostdominatorTree.size, nodes] using this
    exact ⟨t, hok,
      { mem_iff := (hr.mem_iff hn hs).trans (mem_exitOrder hc)
        postdominates_iff := hf.postdominates_iff hc he hr hsize
        immediate?_exit := hr.immediate?_exit he hs
        immediate?_ne := hr.immediate?_ne he hs
        chain_of_next? := (hr.ranked hn hs).chain_of_next? hsize
        nodup_chain := fun _ => (hr.ranked hn hs).nodup_climb }⟩

namespace Exact

theorem chain_of_immediate? (h : g.Exact exit t) (hd : t.immediate? v = some d) (hne : v ≠ exit) :
    t.chain v = v :: t.chain d :=
  h.chain_of_next? (PostdominatorTree.next?_eq_some_iff.mpr ⟨hd, h.immediate?_ne hd hne⟩)

theorem exists_immediate? (h : g.Exact exit t) (hr : g.Reaches v exit) :
    ∃ d, t.immediate? v = some d :=
  Option.isSome_iff_exists.mp (h.mem_iff.mpr hr)

theorem isImmediatePostdominator (h : g.Exact exit t) (hd : t.immediate? v = some d)
    (hne : v ≠ exit) : g.IsImmediatePostdominator exit d v := by
  have hchain := h.chain_of_immediate? hd hne
  have hself : d ∈ t.chain d := h.postdominates_iff.mpr (.inl rfl)
  refine ⟨⟨h.immediate?_ne hd hne, ?_⟩, fun a ha _ => ?_⟩
  · apply h.postdominates_iff.mp
    rw [PostdominatorTree.Postdominates, hchain]
    exact List.mem_cons_of_mem _ hself
  · have hmem := h.postdominates_iff.mpr ha.2
    rw [PostdominatorTree.Postdominates, hchain] at hmem
    exact h.postdominates_iff.mp ((List.mem_cons.mp hmem).resolve_left ha.1)

end Exact

/-- On every consistent graph with an exit the computation succeeds. Its tree holds exactly the
nodes that reach the exit, postdominance in the tree is postdominance by paths, the exit is its
own parent, and the parent of any other node is its only immediate postdominator. -/
theorem postdominators_eq_path_postdominance (g : Digraph) (exit : NodeId) (hc : g.Consistent)
    (he : exit < g.size) :
    ∃ t, g.postdominators exit = .ok t ∧
      (∀ v, v ∈ t ↔ g.Reaches v exit) ∧
      (∀ a b, t.Postdominates a b ↔
        a = b ∨ g.Reaches b exit ∧ ∀ p, g.Path b p exit → a ∈ p) ∧
      t.immediate? exit = some exit ∧
      ∀ v, v ≠ exit → g.Reaches v exit →
        ∃ d, t.immediate? v = some d ∧ ∀ d', g.IsImmediatePostdominator exit d' v ↔ d' = d := by
  obtain ⟨t, hok, ht⟩ := exists_exact hc he
  refine ⟨t, hok, fun v => ht.mem_iff, fun a b => ht.postdominates_iff, ht.immediate?_exit, ?_⟩
  intro v hne hr
  obtain ⟨d, hd⟩ := ht.exists_immediate? hr
  have himm := ht.isImmediatePostdominator hd hne
  refine ⟨d, hd, fun d' => ⟨fun h => h.unique himm hr, ?_⟩⟩
  intro heq
  rwa [heq]

/-- A loop that is entered at two places, with an edge listed twice, a self loop, an exit with a
successor and a node that never leaves. -/
def tangled : Digraph :=
  [(0, 1), (0, 2), (1, 2), (2, 1), (1, 3), (2, 3), (2, 3), (3, 3), (3, 4), (4, 0), (0, 5),
    (5, 5)].foldl (fun g e => g.addEdge e.1 e.2) (empty 6)

theorem tangled_postdominators :
    tangled.Consistent ∧ 4 < tangled.size ∧
      (tangled.succ 2 = [1, 3, 3] ∧ 3 ∈ tangled.succ 3 ∧ tangled.succ 4 = [0]) ∧
      ∃ t, tangled.postdominators 4 = .ok t ∧ ¬tangled.Reaches 5 4 ∧
        t.immediate? 0 = some 3 ∧ ∀ d, tangled.IsImmediatePostdominator 4 d 0 ↔ d = 3 := by
  have hc : tangled.Consistent :=
    List.foldlRecOn _ _ (consistent_empty 6) fun _ h e _ => h.addEdge e.1 e.2
  have he : 4 < tangled.size := by decide +kernel
  have hpath : tangled.Path 0 [0, 1, 3, 4] 4 :=
    .cons (by decide +kernel) (.cons (by decide +kernel) (.cons (by decide +kernel) (.single he)))
  have hthree : (tangled.postdominators 4).map (·.immediate? 0) = .ok (some 3) := by
    decide +kernel
  have hfive : (tangled.postdominators 4).map (decide <| 5 ∈ ·) = .ok false := by decide +kernel
  obtain ⟨t, hok, hmem, _, _, himm⟩ := postdominators_eq_path_postdominance tangled 4 hc he
  obtain ⟨d, hd, hiff⟩ := himm 0 (by decide) ⟨_, hpath⟩
  rw [hok] at hthree hfive
  have hzero : t.immediate? 0 = some 3 := Except.ok.inj hthree
  have hout : 5 ∉ t := of_decide_eq_false (Except.ok.inj hfive)
  have hd3 : d = 3 := Option.some.inj (hd.symm.trans hzero)
  exact ⟨hc, he, by decide +kernel, t, hok, fun h => hout ((hmem 5).mpr h), hzero, hd3 ▸ hiff⟩

end Digraph

end Slicing
