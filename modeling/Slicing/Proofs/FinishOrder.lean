import Slicing.Digraph.Descent
import Slicing.Digraph.Path

/-!
# What a finishing order says about paths

All statements are proved for the recursive search `Digraph.Descent`, one case per rule,
and carried over to `Digraph.finishOrder` by `descent_finishOrder`. The main one is
`exists_path_of_mem_finishOrder`: a node is left while the nodes of some path to it are
still open, so all of them stand after it. Whatever lies on every path to a node
therefore stands after that node.

The rules of `Digraph.Descent` are deterministic, so that they determine the finishing
order (`finishOrder_eq_leaving_order`).
-/
namespace Slicing

namespace Digraph

namespace Descent

variable {g : Digraph} {entered vs entered' left : List NodeId} {w x : NodeId}

theorem mem_entered_iff (h : g.Descent entered vs entered' left) :
    w ∈ entered' ↔ w ∈ entered ∨ w ∈ left := by
  induction h with
  | done => simp
  | skip _ _ ih => exact ih
  | enter _ _ _ ih ih' =>
    rw [ih', ih]
    simp only [List.mem_append, List.mem_cons, List.not_mem_nil, or_false, or_assoc]
    refine or_congr_right ?_
    exact or_left_comm

theorem not_mem_entered (h : g.Descent entered vs entered' left) (hw : w ∈ left) :
    w ∉ entered := by
  induction h with
  | done => exact absurd hw List.not_mem_nil
  | skip _ _ ih => exact ih hw
  | enter hv h _ ih ih' =>
    rcases List.mem_append.mp hw with hw | hw
    · exact fun he => ih hw (List.mem_append_left _ he)
    · rcases List.mem_cons.mp hw with rfl | hw
      · exact hv
      · exact fun he => ih' hw (h.mem_entered_iff.mpr (.inl (List.mem_append_left _ he)))

theorem nodup (h : g.Descent entered vs entered' left) : left.Nodup := by
  induction h with
  | done => exact List.nodup_nil
  | skip _ _ ih => exact ih
  | @enter v vs entered inner entered' left left' hv h h' ih ih' =>
    have hleft : v ∉ left := fun hm =>
      h.not_mem_entered hm (List.mem_append_right _ (List.mem_singleton.mpr rfl))
    have hinner : v ∈ inner :=
      h.mem_entered_iff.mpr (.inl (List.mem_append_right _ (List.mem_singleton.mpr rfl)))
    have hleft' : v ∉ left' := fun hm => h'.not_mem_entered hm hinner
    refine List.nodup_append.mpr ⟨ih, List.nodup_cons.mpr ⟨hleft', ih'⟩, ?_⟩
    rintro a ha b hb rfl
    rcases List.mem_cons.mp hb with rfl | hb
    · exact hleft ha
    · exact h'.not_mem_entered hb (h.mem_entered_iff.mpr (.inr ha))

theorem subset_entered (h : g.Descent entered vs entered' left) (hw : w ∈ vs) :
    w ∈ entered' := by
  induction h with
  | done => exact absurd hw List.not_mem_nil
  | skip hv h ih =>
    rcases List.mem_cons.mp hw with rfl | hw
    · exact h.mem_entered_iff.mpr (.inl hv)
    · exact ih hw
  | enter _ h h' _ ih' =>
    rcases List.mem_cons.mp hw with rfl | hw
    · have hinner := h.mem_entered_iff.mpr (.inl (List.mem_append_right _ List.mem_cons_self))
      exact h'.mem_entered_iff.mpr (.inl hinner)
    · exact ih' hw

theorem succ_mem_entered (h : g.Descent entered vs entered' left) (hw : w ∈ left)
    (hx : x ∈ g.succ w) : x ∈ entered' := by
  induction h with
  | done => exact absurd hw List.not_mem_nil
  | skip _ _ ih => exact ih hw
  | enter _ h h' ih ih' =>
    rcases List.mem_append.mp hw with hw | hw
    · exact h'.mem_entered_iff.mpr (.inl (ih hw))
    · rcases List.mem_cons.mp hw with rfl | hw
      · exact h'.mem_entered_iff.mpr (.inl (h.subset_entered hx))
      · exact ih' hw

/-- When a node is left, the nodes of some path that leads to it are still open. -/
theorem exists_path (h : g.Descent entered vs entered' left) (hvs : ∀ v ∈ vs, v < g.size)
    (hw : w ∈ left) :
    ∃ v ∈ vs, ∃ p, g.Path v p w ∧ ∀ x ∈ p, x = w ∨ [w, x].Sublist left := by
  induction h with
  | done => exact absurd hw List.not_mem_nil
  | skip _ _ ih =>
    obtain ⟨v, hv, p, hp, hx⟩ := ih (fun u hu => hvs u (List.mem_cons_of_mem _ hu)) hw
    exact ⟨v, List.mem_cons_of_mem _ hv, p, hp, hx⟩
  | @enter v vs entered inner entered' left left' _ h h' ih ih' =>
    rcases List.mem_append.mp hw with hl | hw
    · -- Below the entered node: its own path goes in front, and it is left later.
      obtain ⟨u, hu, p, hp, hx⟩ := ih (fun _ hu => lt_size_of_mem_succ hu) hl
      refine ⟨v, List.mem_cons_self, v :: p, .cons hu hp, fun x hxp => ?_⟩
      rcases List.mem_cons.mp hxp with rfl | hxp
      · have hw : [w].Sublist left := List.singleton_sublist.mpr hl
        have hx : [x].Sublist (x :: left') := List.singleton_sublist.mpr List.mem_cons_self
        exact .inr (hw.append hx)
      · rcases hx x hxp with rfl | hs
        · exact .inl rfl
        · exact .inr (hs.trans (List.sublist_append_left _ _))
    · rcases List.mem_cons.mp hw with rfl | hw
      · refine ⟨w, List.mem_cons_self, [w], .single (hvs w List.mem_cons_self), ?_⟩
        exact fun x hx => .inl (List.mem_singleton.mp hx)
      · obtain ⟨u, hu, p, hp, hx⟩ := ih' (fun u hu => hvs u (List.mem_cons_of_mem _ hu)) hw
        refine ⟨u, List.mem_cons_of_mem _ hu, p, hp, fun x hxp => (hx x hxp).imp_right ?_⟩
        intro hs
        exact (hs.trans (List.sublist_cons_self _ _)).trans (List.sublist_append_right _ _)

/-- When a node is left, each of its successors was entered before the search began, has been left
already, or is open and leads to the node. -/
theorem succ_cases (h : g.Descent entered vs entered' left) (hvs : ∀ v ∈ vs, v < g.size)
    (hw : w ∈ left) (hx : x ∈ g.succ w) :
    x ∈ entered ∨ [x, w].Sublist left ∨ g.Reaches x w := by
  induction h with
  | done => exact absurd hw List.not_mem_nil
  | skip _ _ ih => exact ih (fun u hu => hvs u (List.mem_cons_of_mem _ hu)) hw
  | @enter v vs entered inner entered' left left' _ h h' ih ih' =>
    have hentered : ∀ {u}, u ∈ entered ++ [v] → u ∈ entered ∨ u = v := fun hu =>
      (List.mem_append.mp hu).imp_right List.mem_singleton.mp
    have hinner : x ∈ inner → x ∈ entered ∨ x = v ∨ x ∈ left := by
      intro hmem
      rw [h.mem_entered_iff] at hmem
      exact hmem.elim (fun hu => (hentered hu).imp_right .inl) fun hl => .inr (.inr hl)
    rcases List.mem_append.mp hw with hl | hw
    · rcases ih (fun _ hu => lt_size_of_mem_succ hu) hl with hmem | hs | hr
      · rcases hentered hmem with hmem | rfl
        · exact .inl hmem
        · obtain ⟨u, hu, p, hp, _⟩ := h.exists_path (fun _ hu => lt_size_of_mem_succ hu) hl
          exact .inr (.inr ⟨x :: p, .cons hu hp⟩)
      · exact .inr (.inl (hs.trans (List.sublist_append_left _ _)))
      · exact .inr (.inr hr)
    · rcases List.mem_cons.mp hw with rfl | hw
      · rcases hinner (h.subset_entered hx) with hmem | rfl | hl
        · exact .inl hmem
        · exact .inr (.inr (.refl (lt_size_of_mem_succ hx)))
        · have hpair : [x, w].Sublist (left ++ w :: left') :=
            (List.singleton_sublist.mpr hl).append (List.singleton_sublist.mpr List.mem_cons_self)
          exact .inr (.inl hpair)
      · have hsingle : [w].Sublist left' := List.singleton_sublist.mpr hw
        rcases ih' (fun u hu => hvs u (List.mem_cons_of_mem _ hu)) hw with hmem | hs | hr
        · rcases hinner hmem with hmem | rfl | hl
          · exact .inl hmem
          · exact .inr (.inl ((hsingle.cons_cons x).trans (List.sublist_append_right _ _)))
          · have hpair : [x, w].Sublist (left ++ v :: left') :=
              (List.singleton_sublist.mpr hl).append (hsingle.trans (List.sublist_cons_self _ _))
            exact .inr (.inl hpair)
        · exact .inr (.inl ((hs.trans (List.sublist_cons_self _ _)).trans
            (List.sublist_append_right _ _)))
        · exact .inr (.inr hr)

/-- The rules leave no choice: a search enters and leaves the nodes in one order only. -/
theorem unique {entered₁ entered₂ left₁ left₂ : List NodeId}
    (h₁ : g.Descent entered vs entered₁ left₁) (h₂ : g.Descent entered vs entered₂ left₂) :
    entered₁ = entered₂ ∧ left₁ = left₂ := by
  induction h₁ generalizing entered₂ left₂ with
  | done =>
    cases h₂
    exact ⟨rfl, rfl⟩
  | skip hv _ ih =>
    cases h₂ with
    | skip _ h => exact ih h
    | enter hn => exact absurd hv hn
  | enter hn _ _ ih ih' =>
    cases h₂ with
    | skip hv => exact absurd hv hn
    | enter _ h h' =>
      obtain ⟨rfl, rfl⟩ := ih h
      obtain ⟨rfl, rfl⟩ := ih' h'
      exact ⟨rfl, rfl⟩

def unentered (g : Digraph) (entered : List NodeId) : List NodeId :=
  g.nodes.filter (· ∉ entered)

theorem length_unentered_lt {v : NodeId} (hv : v < g.size) (hn : v ∉ entered)
    (hs : ∀ u ∈ entered, u ∈ entered') (hv' : v ∈ entered') :
    (unentered g entered').length < (unentered g entered).length := by
  have hsub : (unentered g entered').Sublist ((unentered g entered).filter (· ≠ v)) := by
    have : unentered g entered' =
        ((unentered g entered).filter (· ≠ v)).filter (· ∉ entered') := by
      simp only [unentered, List.filter_filter]
      refine List.filter_congr fun u _ => ?_
      grind
    rw [this]
    exact List.filter_sublist
  have hmem : v ∈ unentered g entered := by
    simp [unentered, nodes, hv, hn]
  have hlt : ((unentered g entered).filter (· ≠ v)).length < (unentered g entered).length :=
    List.length_filter_lt_length_iff_exists.mpr ⟨v, hmem, by simp⟩
  exact Nat.lt_of_le_of_lt hsub.length_le hlt

/-- The rules of the search always apply: it enters fewer nodes each time it calls itself. -/
theorem exists_of_lt_size (g : Digraph) (entered vs : List NodeId) (hvs : ∀ v ∈ vs, v < g.size) :
    ∃ entered' left, g.Descent entered vs entered' left := by
  -- Outer induction on what can still be entered, inner one on the listed nodes.
  induction hn : (unentered g entered).length using Nat.strongRecOn generalizing entered vs with
  | _ n ih =>
    subst hn
    induction vs with
    | nil => exact ⟨entered, [], .done⟩
    | cons v vs ihvs =>
      have hrest : ∀ u ∈ vs, u < g.size := fun u hu => hvs u (List.mem_cons_of_mem v hu)
      by_cases hv : v ∈ entered
      · obtain ⟨entered', left, h⟩ := ihvs hrest
        exact ⟨entered', left, .skip hv h⟩
      · have hlt : ∀ l, (∀ u ∈ entered ++ [v], u ∈ l) →
            (unentered g l).length < (unentered g entered).length := fun l hl =>
          length_unentered_lt (hvs v List.mem_cons_self) hv
            (fun u hu => hl u (List.mem_append_left _ hu))
            (hl v (List.mem_append_right _ List.mem_cons_self))
        obtain ⟨inner, left, h⟩ := ih _ (hlt (entered ++ [v]) fun u hu => hu) (entered ++ [v])
          (g.succ v) (fun u hu => lt_size_of_mem_succ hu) rfl
        have hinner := hlt inner fun u hu => h.mem_entered_iff.mpr (.inl hu)
        obtain ⟨entered', left', h'⟩ := ih _ hinner inner vs hrest rfl
        exact ⟨entered', left ++ v :: left', .enter hv h h'⟩

end Descent

variable {g : Digraph} {start v w : NodeId}

/-- The finishing order is the order in which the recursive search leaves the nodes. -/
theorem descent_finishOrder (h : start < g.size) :
    ∃ entered, g.Descent [] [start] entered (g.finishOrder start) := by
  obtain ⟨entered, left, hd⟩ := Descent.exists_of_lt_size g [start] (g.succ start)
    fun v hv => lt_size_of_mem_succ hv
  have hm : Descent.Marked g [] (Marks.none g.size) := fun w => by simp
  obtain ⟨seen, _, hu⟩ := hd.unwind_eq (fun w hw => lt_size_of_mem_succ hw) (hm.mark start)
  have horder : g.finishOrder start = left ++ [start] := by
    rw [finishOrder, if_pos h, hu start [], unwind_nil]
  rw [horder]
  exact ⟨entered, .enter List.not_mem_nil hd .done⟩

theorem finishOrder_of_size_le (h : g.size ≤ start) : g.finishOrder start = [] := by
  rw [finishOrder, if_neg (Nat.not_lt.mpr h)]

theorem nodup_finishOrder (g : Digraph) (start : NodeId) : (g.finishOrder start).Nodup := by
  by_cases h : start < g.size
  · obtain ⟨entered, hd⟩ := descent_finishOrder h
    exact hd.nodup
  · rw [finishOrder_of_size_le (Nat.le_of_not_lt h)]
    exact List.nodup_nil

theorem exists_finishOrder_eq_append (h : start < g.size) :
    ∃ left, g.finishOrder start = left ++ [start] := by
  obtain ⟨entered, hd⟩ := descent_finishOrder h
  generalize g.finishOrder start = order at hd
  cases hd with
  | skip hs => exact absurd hs List.not_mem_nil
  | enter _ _ hr =>
    cases hr
    exact ⟨_, rfl⟩

/-- Every node of some path to a listed node is the node itself or stands after it. -/
theorem exists_path_of_mem_finishOrder (hw : w ∈ g.finishOrder start) :
    ∃ p, g.Path start p w ∧ ∀ x ∈ p, x = w ∨ [w, x].Sublist (g.finishOrder start) := by
  by_cases h : start < g.size
  · obtain ⟨entered, hd⟩ := descent_finishOrder h
    obtain ⟨v, hv, p, hp, hx⟩ := hd.exists_path (fun v hv => List.mem_singleton.mp hv ▸ h) hw
    exact ⟨p, List.mem_singleton.mp hv ▸ hp, hx⟩
  · rw [finishOrder_of_size_le (Nat.le_of_not_lt h)] at hw
    exact absurd hw List.not_mem_nil

theorem mem_finishOrder : w ∈ g.finishOrder start ↔ g.Reaches start w := by
  constructor
  · intro hw
    obtain ⟨p, hp, _⟩ := exists_path_of_mem_finishOrder hw
    exact ⟨p, hp⟩
  · rintro ⟨p, hp⟩
    obtain ⟨entered, hd⟩ := descent_finishOrder (hp.lt_size_of_mem hp.source_mem)
    have hmem : ∀ {u}, u ∈ entered ↔ u ∈ g.finishOrder start := by
      intro u
      rw [hd.mem_entered_iff, or_iff_right List.not_mem_nil]
    have hs : start ∈ g.finishOrder start := hmem.mp (hd.subset_entered List.mem_cons_self)
    have hclosed : ∀ {u q}, u ∈ g.finishOrder start → g.Path u q w → w ∈ g.finishOrder start := by
      intro u q hu hq
      induction hq with
      | single _ => exact hu
      | cons he _ ih => exact ih hp (hmem.mp (hd.succ_mem_entered hu he))
    exact hclosed hs hp

theorem lt_size_of_mem_finishOrder (hw : w ∈ g.finishOrder start) : w < g.size := by
  obtain ⟨p, hp⟩ := mem_finishOrder.mp hw
  exact hp.lt_size_of_mem hp.target_mem

theorem length_finishOrder_le (g : Digraph) (start : NodeId) :
    (g.finishOrder start).length ≤ g.size := by
  have hsub : g.finishOrder start ⊆ List.range g.size := fun w hw =>
    List.mem_range.mpr (lt_size_of_mem_finishOrder hw)
  have hle := (g.nodup_finishOrder start).length_le_of_subset hsub
  rw [List.length_range] at hle
  exact hle

/-- A successor of a listed node stands before it or leads to it. -/
theorem pair_sublist_or_reaches (hv : v ∈ g.finishOrder start) (hw : w ∈ g.succ v) :
    [w, v].Sublist (g.finishOrder start) ∨ g.Reaches w v := by
  by_cases h : start < g.size
  · obtain ⟨entered, hd⟩ := descent_finishOrder h
    have hstart : ∀ u ∈ [start], u < g.size := fun u hu => List.mem_singleton.mp hu ▸ h
    exact (hd.succ_cases hstart hv hw).resolve_left List.not_mem_nil
  · rw [finishOrder_of_size_le (Nat.le_of_not_lt h)] at hv
    exact absurd hv List.not_mem_nil

theorem Path.exists_entering {u : NodeId} {p : List NodeId} (h : g.Path u p v) (hne : u ≠ v) :
    ∃ x ∈ p, x ≠ v ∧ v ∈ g.succ x := by
  induction h with
  | single _ => exact absurd rfl hne
  | @cons u x v p he hp ih =>
    by_cases hx : x = v
    · subst hx
      exact ⟨u, List.mem_cons_self, hne, he⟩
    · obtain ⟨y, hy, hyv, hsucc⟩ := ih hx
      exact ⟨y, List.mem_cons_of_mem u hy, hyv, hsucc⟩

theorem exists_pair_sublist_of_ne (hw : w ∈ g.finishOrder start) (hne : w ≠ start) :
    ∃ u, w ∈ g.succ u ∧ [w, u].Sublist (g.finishOrder start) := by
  obtain ⟨p, hp, hlater⟩ := exists_path_of_mem_finishOrder hw
  obtain ⟨u, hu, huw, hsucc⟩ := hp.exists_entering hne.symm
  exact ⟨u, hsucc, (hlater u hu).resolve_left huw⟩

/-- What lies on all paths to a node is left later. -/
theorem pair_sublist_of_forall_path (hv : g.Reaches start v) (hne : w ≠ v)
    (hall : ∀ p, g.Path start p v → w ∈ p) : [v, w].Sublist (g.finishOrder start) := by
  obtain ⟨p, hp, hlater⟩ := exists_path_of_mem_finishOrder (mem_finishOrder.mpr hv)
  exact (hlater w (hall p hp)).resolve_left hne

/-- The finishing order is the order in which the recursive search from the start leaves the nodes.
It lists what the start reaches, each node once and the start last. Every other node stands before
one that it is a successor of, and after its own successors unless they lead back to it. What lies
on all paths to a node stands after it. -/
theorem finishOrder_eq_leaving_order (h : start < g.size) :
    (∀ left, (∃ entered, g.Descent [] [start] entered left) ↔ left = g.finishOrder start) ∧
      (∀ w, w ∈ g.finishOrder start ↔ g.Reaches start w) ∧
      (g.finishOrder start).Nodup ∧ (g.finishOrder start).getLast? = some start ∧
      (∀ w ∈ g.finishOrder start, w ≠ start →
        ∃ u, w ∈ g.succ u ∧ [w, u].Sublist (g.finishOrder start)) ∧
      (∀ u ∈ g.finishOrder start, ∀ v ∈ g.succ u,
        [v, u].Sublist (g.finishOrder start) ∨ g.Reaches v u) ∧
      ∀ v d, g.Reaches start v → d ≠ v → (∀ p, g.Path start p v → d ∈ p) →
        [v, d].Sublist (g.finishOrder start) := by
  refine ⟨fun left => ⟨?_, ?_⟩, fun w => mem_finishOrder, g.nodup_finishOrder start, ?_,
    fun w => exists_pair_sublist_of_ne, fun u hu v => pair_sublist_or_reaches hu,
    fun v d => pair_sublist_of_forall_path⟩
  · rintro ⟨entered, hd⟩
    obtain ⟨entered', hd'⟩ := descent_finishOrder h
    exact (hd.unique hd').2
  · rintro rfl
    exact descent_finishOrder h
  · obtain ⟨left, hleft⟩ := exists_finishOrder_eq_append h
    rw [hleft, List.getLast?_concat]

/-- A loop with a way around it, a node that leads to itself, and one that nothing leads to. -/
def whorl : Digraph := .ofEdges 5 [(0, 2), (2, 1), (1, 2), (0, 1), (1, 3), (3, 3), (4, 0)]

theorem whorl_leaving_order :
    0 < whorl.size ∧ whorl.finishOrder 0 = [3, 1, 2, 0] ∧
      (∃ entered, whorl.Descent [] [0] entered [3, 1, 2, 0]) ∧
      ¬whorl.Reaches 0 4 ∧ whorl.Reaches 2 1 := by
  have hsize : 0 < whorl.size := by decide +kernel
  have horder : whorl.finishOrder 0 = [3, 1, 2, 0] := by decide +kernel
  have hedge : 2 ∈ whorl.succ 1 := by decide +kernel
  obtain ⟨hleft, hmem, _, _, _, hedges, _⟩ := finishOrder_eq_leaving_order hsize
  rw [horder] at hleft hmem hedges
  refine ⟨hsize, horder, (hleft _).mpr rfl, ?_, ?_⟩
  · rw [← hmem]
    decide
  · exact (hedges 1 (by decide) 2 hedge).resolve_left (by decide)

end Digraph

end Slicing
