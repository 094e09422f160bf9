import Slicing.Proofs.FinishOrder
import Slicing.Proofs.Precedence

/-!
# The order in which a search enters nodes

The recursive search enters nodes depth first (`Digraph.Depthwise`): a node that is entered between
another one and a successor of it is listed before this successor, or it is a successor of a node
entered in the meantime. All statements about a search are proved with one case per rule of
`Digraph.Descent`.

This property and the start determine the order (`GrowsFrom.eq_of_depthwise`). Where two orders
part, the latest node that lists one of the two next nodes would have to list each before the other.
-/
namespace Slicing

namespace Digraph

/-- Where a node is visited between another one and a successor of that one, the other one lists it
before the successor, or a node visited in the meantime lists it. -/
def Depthwise (g : Digraph) (order : List NodeId) : Prop :=
  ∀ a b c, c ∈ g.succ a → [a, b].Sublist order → [b, c].Sublist order →
    (g.succ a).idxOf b < (g.succ a).idxOf c ∨
      ∃ d, b ∈ g.succ d ∧ [a, d].Sublist order ∧ [d, b].Sublist order

namespace Descent

variable {g : Digraph} {entered vs entered' left : List NodeId} {a b c w : NodeId}

theorem isPrefix (h : g.Descent entered vs entered' left) : entered <+: entered' := by
  induction h with
  | done => exact List.prefix_refl _
  | skip _ _ ih => exact ih
  | enter _ _ _ ih ih' => exact (List.prefix_append _ _).trans (ih.trans ih')

theorem nodup_entered (h : g.Descent entered vs entered' left) (hn : entered.Nodup) :
    entered'.Nodup := by
  induction h with
  | done => exact hn
  | skip _ _ ih => exact ih hn
  | @enter v _ entered _ _ _ _ hv _ _ ih ih' =>
    have hconcat : (entered ++ [v]).Nodup := List.concat_eq_append ▸ hn.concat hv
    exact ih' (ih hconcat)

theorem pair_sublist_inner {v : NodeId} (h : g.Descent (entered ++ [v]) vs entered' left)
    (hw : w ∈ left) : [v, w].Sublist entered' := by
  have hv : v ∈ entered ++ [v] := List.mem_append_right _ List.mem_cons_self
  have hmem : w ∈ entered' := h.mem_entered_iff.mpr (.inr hw)
  exact pair_sublist_of_isPrefix h.isPrefix hv hmem (h.not_mem_entered hw)

/-- What is entered below a node is a successor of the node or of one that was entered below it. -/
theorem exists_entered_below {v : NodeId} {inner left' : List NodeId}
    (h : g.Descent (entered ++ [v]) (g.succ v) inner left) (hextends : inner <+: entered')
    (hw : w ∈ left)
    (hlisted : w ∈ g.succ v ∨ ∃ u ∈ left, w ∈ g.succ u ∧ [u, w].Sublist inner) :
    ∃ u ∈ left ++ v :: left', w ∈ g.succ u ∧ [u, w].Sublist entered' := by
  rcases hlisted with hsucc | ⟨u, hu, hsucc, hs⟩
  · have hs := (h.pair_sublist_inner hw).trans hextends.sublist
    exact ⟨v, List.mem_append_right _ List.mem_cons_self, hsucc, hs⟩
  · exact ⟨u, List.mem_append_left _ hu, hsucc, hs.trans hextends.sublist⟩

/-- What is entered is listed, or it is entered after a node that it is a successor of. -/
theorem exists_entered_before (h : g.Descent entered vs entered' left) (hw : w ∈ left) :
    w ∈ vs ∨ ∃ u ∈ left, w ∈ g.succ u ∧ [u, w].Sublist entered' := by
  induction h with
  | done => exact absurd hw List.not_mem_nil
  | skip _ _ ih =>
    refine (ih hw).imp_left ?_
    exact List.mem_cons_of_mem _
  | @enter v vs entered inner entered' left left' hv h h' ih ih' =>
    rcases List.mem_append.mp hw with hl | hw
    · exact .inr (h.exists_entered_below h'.isPrefix hl (ih hl))
    · rcases List.mem_cons.mp hw with rfl | hw
      · exact .inl List.mem_cons_self
      · rcases ih' hw with hmem | ⟨u, hu, hsucc, hs⟩
        · exact .inl (List.mem_cons_of_mem v hmem)
        · exact .inr ⟨u, List.mem_append_right _ (List.mem_cons_of_mem v hu), hsucc, hs⟩

theorem not_mem_of_pair_sublist (h : g.Descent entered vs entered' left) (hn : entered'.Nodup)
    (hb : b ∈ left) (hs : [b, c].Sublist entered') : c ∉ entered := by
  intro hc
  have hbc := pair_sublist_of_mem_isPrefix hn h.isPrefix hc hs
  exact h.not_mem_entered hb (hbc.subset List.mem_cons_self)

theorem idxOf_cons_lt_idxOf_cons {v : NodeId} (hb : v ≠ b) (hc : v ≠ c)
    (hlt : vs.idxOf b < vs.idxOf c) : (v :: vs).idxOf b < (v :: vs).idxOf c := by
  rw [List.idxOf_cons_ne _ hb, List.idxOf_cons_ne _ hc]
  exact Nat.succ_lt_succ hlt

/-- What is entered before a listed node is listed before it, or is entered after a node that it is
a successor of. -/
theorem listed_before (h : g.Descent entered vs entered' left) (hn : entered'.Nodup)
    (hb : b ∈ left) (hc : c ∈ vs) (hs : [b, c].Sublist entered') :
    vs.idxOf b < vs.idxOf c ∨ ∃ d ∈ left, b ∈ g.succ d ∧ [d, b].Sublist entered' := by
  induction h with
  | done => exact absurd hb List.not_mem_nil
  | @skip v vs entered entered' left hv h ih =>
    have hvb : v ≠ b := fun heq => h.not_mem_entered hb (heq ▸ hv)
    have hvc : v ≠ c := fun heq => h.not_mem_of_pair_sublist hn hb hs (heq ▸ hv)
    have hc : c ∈ vs := (List.mem_cons.mp hc).resolve_left hvc.symm
    exact (ih hn hb hc hs).imp_left (idxOf_cons_lt_idxOf_cons hvb hvc)
  | @enter v vs entered inner entered' left left' hv h h' ih ih' =>
    have hinner : v ∈ inner :=
      h.mem_entered_iff.mpr (.inl (List.mem_append_right _ List.mem_cons_self))
    rcases List.mem_append.mp hb with hl | hb'
    · exact .inr (h.exists_entered_below h'.isPrefix hl (h.exists_entered_before hl))
    · rcases List.mem_cons.mp hb' with rfl | hl'
      · have hbc : b ≠ c := fun heq => pair_sublist_irrefl hn (heq ▸ hs)
        rw [List.idxOf_cons_self, List.idxOf_cons_ne _ hbc]
        exact .inl (Nat.succ_pos _)
      · have hvb : v ≠ b := fun heq => h'.not_mem_entered hl' (heq ▸ hinner)
        have hvc : v ≠ c := fun heq => h'.not_mem_of_pair_sublist hn hl' hs (heq ▸ hinner)
        have hc : c ∈ vs := (List.mem_cons.mp hc).resolve_left hvc.symm
        rcases ih' hn hl' hc hs with hlt | ⟨d, hd, hsucc, hs⟩
        · exact .inl (idxOf_cons_lt_idxOf_cons hvb hvc hlt)
        · exact .inr ⟨d, List.mem_append_right _ (List.mem_cons_of_mem v hd), hsucc, hs⟩

/-- The nodes that the search enters are entered depth first. -/
theorem depthwise (h : g.Descent entered vs entered' left) (hn : entered'.Nodup)
    (ha : a ∈ left) (hc : c ∈ g.succ a) (hab : [a, b].Sublist entered')
    (hbc : [b, c].Sublist entered') :
    (g.succ a).idxOf b < (g.succ a).idxOf c ∨
      ∃ d, b ∈ g.succ d ∧ [a, d].Sublist entered' ∧ [d, b].Sublist entered' := by
  induction h with
  | done => exact absurd ha List.not_mem_nil
  | skip _ _ ih => exact ih hn ha hab hbc
  | @enter v vs entered inner entered' left left' hv h h' ih ih' =>
    have hsub : inner.Sublist entered' := h'.isPrefix.sublist
    have hninner : inner.Nodup := hn.sublist hsub
    have hlift : ∀ {x y : NodeId}, y ∈ inner → [x, y].Sublist entered' → [x, y].Sublist inner :=
      fun hy hs => pair_sublist_of_mem_isPrefix hn h'.isPrefix hy hs
    rcases List.mem_append.mp ha with hl | ha'
    · have hbc := hlift (h.succ_mem_entered hl hc) hbc
      have hab := hlift (hbc.subset List.mem_cons_self) hab
      rcases ih hninner hl hab hbc with hlt | ⟨d, hsucc, had, hdb⟩
      · exact .inl hlt
      · exact .inr ⟨d, hsucc, had.trans hsub, hdb.trans hsub⟩
    · rcases List.mem_cons.mp ha' with rfl | hl'
      · have hbc := hlift (h.subset_entered hc) hbc
        have hb : b ∈ inner := hbc.subset List.mem_cons_self
        have hb : b ∈ left := by
          refine (h.mem_entered_iff.mp hb).resolve_left fun hbefore => ?_
          have hextends := h.isPrefix.trans h'.isPrefix
          have hlast : (entered ++ [a]).getLast? = some a := List.getLast?_concat
          have hnone := ((getLast?_eq_some_iff (hn.sublist hextends.sublist)).mp hlast).2 b
          exact hnone (pair_sublist_of_mem_isPrefix hn hextends hbefore hab)
        rcases h.listed_before hninner hb hc hbc with hlt | ⟨d, hd, hsucc, hs⟩
        · exact .inl hlt
        · have had := (h.pair_sublist_inner hd).trans hsub
          exact .inr ⟨d, hsucc, had, hs.trans hsub⟩
      · exact ih' hn hl' hab hbc

end Descent

variable {g : Digraph} {order order' : List NodeId} {start a u v w x y : NodeId} {i k m n : Nat}

/-- The list begins with the start, and each other node in it comes after one that it is a
successor of. -/
structure GrowsFrom (g : Digraph) (start : NodeId) (order : List NodeId) : Prop where
  nodup : order.Nodup
  head : order.head? = some start
  exists_before : ∀ w ∈ order, w ≠ start → ∃ u, w ∈ g.succ u ∧ [u, w].Sublist order

theorem exists_latest {P : Nat → Prop} (hi : P i) (hin : i < n) :
    ∃ j < n, P j ∧ ∀ k, j < k → k < n → ¬P k := by
  classical
  have hle : i ≤ n - 1 := Nat.le_sub_one_of_lt hin
  have hlt : n - 1 < n := Nat.sub_one_lt_of_lt hin
  refine ⟨Nat.findGreatest P (n - 1), Nat.lt_of_le_of_lt (Nat.findGreatest_le _) hlt,
    Nat.findGreatest_spec hle hi, fun k hjk hkn => ?_⟩
  exact Nat.findGreatest_is_greatest hjk (Nat.le_sub_one_of_lt hkn)

theorem Depthwise.idxOf_lt (hd : g.Depthwise order) (hn : order.Nodup) (ha : order[i]? = some a)
    (hx : order[k]? = some x) (hy : order[m]? = some y) (hik : i < k) (hkm : k < m)
    (hsucc : y ∈ g.succ a) (hlatest : ∀ j d, i < j → j < k → order[j]? = some d → x ∉ g.succ d) :
    (g.succ a).idxOf x < (g.succ a).idxOf y := by
  have hax : [a, x].Sublist order := (pair_sublist_iff hn ha hx).mpr hik
  have hxy : [x, y].Sublist order := (pair_sublist_iff hn hx hy).mpr hkm
  rcases hd a x y hsucc hax hxy with hlt | ⟨d, hdx, hs, hs'⟩
  · exact hlt
  · obtain ⟨j, hj⟩ := List.mem_iff_getElem?.mp (hs'.subset List.mem_cons_self)
    have hij := lt_of_pair_sublist hn hs ha hj
    have hjk := lt_of_pair_sublist hn hs' hj hx
    exact absurd hdx (hlatest j d hij hjk hj)

/-- Two lists agree up to a position from where they go on with different nodes. The latest node
that lists one of these two lists none of them: otherwise each would be listed before the other. -/
theorem Depthwise.not_mem_succ (hd : g.Depthwise order) (hd' : g.Depthwise order')
    (hn : order.Nodup) (hn' : order'.Nodup) (hagree : ∀ j < n, order[j]? = order'[j]?)
    (ha : order[i]? = some a) (hin : i < n) (hx : order[n]? = some x) (hy : order'[n]? = some y)
    (hyk : order[k]? = some y) (hnk : n < k) (hxm : order'[m]? = some x) (hnm : n < m)
    (hlatest : ∀ j d, i < j → j < n → order[j]? = some d → x ∉ g.succ d ∧ y ∉ g.succ d) :
    y ∉ g.succ a := by
  intro hsucc
  have hxy := hd.idxOf_lt hn ha hx hyk hin hnk hsucc
    fun j d hij hjn hj => (hlatest j d hij hjn hj).1
  have hxsucc : x ∈ g.succ a :=
    List.idxOf_lt_length_iff.mp (Nat.lt_of_lt_of_le hxy List.idxOf_le_length)
  have hyx := hd'.idxOf_lt hn' ((hagree i hin).symm.trans ha) hy hxm hin hnm hxsucc
    fun j d hij hjn hj => (hlatest j d hij hjn ((hagree j hjn).trans hj)).2
  exact Nat.lt_asymm hxy hyx

theorem exists_later (hn : order.Nodup) (hagree : ∀ j < n, order[j]? = order'[j]?)
    (hx : order[n]? = some x) (hmem : x ∈ order') (hne : order'[n]? ≠ some x) :
    ∃ m, n < m ∧ order'[m]? = some x := by
  obtain ⟨m, hm⟩ := List.mem_iff_getElem?.mp hmem
  rcases Nat.lt_trichotomy n m with hlt | heq | hgt
  · exact ⟨m, hlt, hm⟩
  · exact absurd (heq ▸ hm) hne
  · have hm' : order[m]? = some x := (hagree m hgt).trans hm
    exact absurd (position_unique hn hx hm') (Nat.ne_of_gt hgt)

theorem GrowsFrom.exists_earlier (h : g.GrowsFrom start order) (hx : order[n]? = some x)
    (hpos : 0 < n) : ∃ i < n, ∃ u, order[i]? = some u ∧ x ∈ g.succ u := by
  have hstart : order[0]? = some start := by
    rw [← List.head?_eq_getElem?]
    exact h.head
  have hne : x ≠ start := fun heq => Nat.ne_of_gt hpos (position_unique h.nodup (heq ▸ hx) hstart)
  obtain ⟨u, hsucc, hs⟩ := h.exists_before x (List.mem_of_getElem? hx) hne
  obtain ⟨i, hi⟩ := List.mem_iff_getElem?.mp (hs.subset List.mem_cons_self)
  exact ⟨i, lt_of_pair_sublist h.nodup hs hi hx, u, hi, hsucc⟩

/-- Two orders that agree up to a position go on with the same node. -/
theorem GrowsFrom.next_eq (h : g.GrowsFrom start order) (h' : g.GrowsFrom start order')
    (hmem : ∀ v, v ∈ order ↔ v ∈ order') (hd : g.Depthwise order) (hd' : g.Depthwise order')
    (hagree : ∀ j < n, order[j]? = order'[j]?) (hpos : 0 < n) (hx : order[n]? = some x)
    (hy : order'[n]? = some y) : x = y := by
  by_contra hne
  have hagree' : ∀ j < n, order'[j]? = order[j]? := fun j hj => (hagree j hj).symm
  obtain ⟨m, hnm, hxm⟩ := exists_later h.nodup hagree hx
    ((hmem x).mp (List.mem_of_getElem? hx)) fun hx' => hne (Option.some.inj (hx'.symm.trans hy))
  obtain ⟨k, hnk, hyk⟩ := exists_later h'.nodup hagree' hy
    ((hmem y).mpr (List.mem_of_getElem? hy)) fun hy' => hne (Option.some.inj (hx.symm.trans hy'))
  obtain ⟨j, hj, u, hu, hsucc⟩ := h.exists_earlier hx hpos
  -- Of the nodes up to the position the latest one that lists either of the two decides.
  obtain ⟨i, hin, ⟨a, ha, hlisted⟩, hlatest⟩ := exists_latest
    (P := fun j => ∃ d, order[j]? = some d ∧ (x ∈ g.succ d ∨ y ∈ g.succ d))
    ⟨u, hu, .inl hsucc⟩ hj
  have hnone : ∀ j d, i < j → j < n → order[j]? = some d → x ∉ g.succ d ∧ y ∉ g.succ d :=
    fun j d hij hjn hj => not_or.mp fun hor => hlatest j hij hjn ⟨d, hj, hor⟩
  cases hlisted with
  | inl hxa =>
    have ha' : order'[i]? = some a := (hagree' i hin).trans ha
    refine hd'.not_mem_succ hd h'.nodup h.nodup hagree' ha' hin hy hx hxm hnm hyk hnk ?_ hxa
    intro j d hij hjn hj
    exact (hnone j d hij hjn ((hagree j hjn).trans hj)).symm
  | inr hya =>
    exact hd.not_mem_succ hd' h.nodup h'.nodup hagree ha hin hx hy hyk hnk hxm hnm hnone hya

/-- There is only one way to enter the given nodes depth first. -/
theorem GrowsFrom.eq_of_depthwise (h : g.GrowsFrom start order) (h' : g.GrowsFrom start order')
    (hmem : ∀ v, v ∈ order ↔ v ∈ order') (hd : g.Depthwise order) (hd' : g.Depthwise order') :
    order = order' := by
  have hlength : order.length = order'.length :=
    ((List.perm_ext_iff_of_nodup h.nodup h'.nodup).mpr hmem).length_eq
  refine List.ext_getElem? fun n => ?_
  induction n using Nat.strongRecOn with
  | _ n hagree =>
    by_cases hpos : n = 0
    · rw [hpos, ← List.head?_eq_getElem?, ← List.head?_eq_getElem?, h.head, h'.head]
    by_cases hlt : n < order.length
    · have hx := List.getElem?_eq_getElem hlt
      have hy := List.getElem?_eq_getElem (hlength ▸ hlt)
      rw [hx, hy, h.next_eq h' hmem hd hd' hagree (Nat.pos_of_ne_zero hpos) hx hy]
    · rw [List.getElem?_eq_none (Nat.le_of_not_lt hlt),
        List.getElem?_eq_none (hlength ▸ Nat.le_of_not_lt hlt)]

namespace Descent

variable {entered left : List NodeId}

theorem mem_iff_reaches (h : g.Descent [] [start] entered left) (hstart : start < g.size) :
    w ∈ entered ↔ g.Reaches start w := by
  obtain ⟨entered', h'⟩ := descent_finishOrder hstart
  rw [h.mem_entered_iff, or_iff_right List.not_mem_nil, (h.unique h').2, mem_finishOrder]

theorem mem_left_iff (h : g.Descent [] [start] entered left) : w ∈ left ↔ w ∈ entered := by
  rw [h.mem_entered_iff, or_iff_right List.not_mem_nil]

theorem growsFrom (h : g.Descent [] [start] entered left) : g.GrowsFrom start entered where
  nodup := h.nodup_entered List.nodup_nil
  head := by
    cases h with
    | skip hv => exact absurd hv List.not_mem_nil
    | enter _ h h' =>
      obtain ⟨added, rfl⟩ := h.isPrefix.trans h'.isPrefix
      rfl
  exists_before := by
    intro w hw hne
    rcases h.exists_entered_before (h.mem_left_iff.mpr hw) with hstart | ⟨u, _, hu⟩
    · exact absurd (List.mem_singleton.mp hstart) hne
    · exact ⟨u, hu⟩

theorem depthwise_entered (h : g.Descent [] [start] entered left) : g.Depthwise entered := by
  intro a b c hc hab hbc
  have ha : a ∈ left := h.mem_left_iff.mpr (hab.subset List.mem_cons_self)
  exact h.depthwise h.growsFrom.nodup ha hc hab hbc

end Descent

end Digraph

end Slicing
