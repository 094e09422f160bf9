import Slicing.Digraph.Search
import Slicing.Proofs.EntryOrder

/-!
# The order of a walk

A walk marks nodes when they are listed as successors and not when they are visited. It visits what
the recursive search enters, but not always in the same order. A successor that waits for its turn
may be led to by an earlier one; the recursive search enters it from there, the walk does not.

The order of the walk is that of a search which reserves all successors of a node at once
(`Digraph.Reservation`). It is the order of the recursive search exactly if it is depth first.
-/
namespace Slicing

theorem Search.exists_visited_before {next : NodeId → List NodeId} {pending : List NodeId}
    {seen : Marks} {w : NodeId} (hw : w ∈ visit next pending seen) :
    w ∈ pending ∨ ∃ u, w ∈ next u ∧ [u, w].Sublist (visit next pending seen) := by
  fun_induction visit next pending seen with
  | case1 => exact absurd hw List.not_mem_nil
  | case2 seen v rest collected ih =>
    rcases List.mem_cons.mp hw with rfl | hw
    · exact .inl List.mem_cons_self
    · rcases ih hw with hmem | ⟨u, hu, hs⟩
      · rcases List.mem_append.mp hmem with hcollected | hrest
        · have hnext : w ∈ next v := (Marks.mem_collect.mp hcollected).2
          exact .inr ⟨v, hnext, (List.singleton_sublist.mpr hw).cons_cons v⟩
        · exact .inl (List.mem_cons_of_mem v hrest)
      · exact .inr ⟨u, hu, hs.cons v⟩

namespace Digraph

variable {g : Digraph} {reserved vs order : List NodeId} {start v w : NodeId} {seen : Marks}

/-! ## When the two searches agree -/

theorem visitOrder_eq_visit (h : start < g.size) :
    g.visitOrder start = Search.visit g.succ [start] ((Marks.none g.size).mark start) := by
  rw [visitOrder, Search.reach, Marks.collect_cons_of_unmet _ (Marks.unmet_none.mpr h),
    Marks.collect_nil]

theorem growsFrom_visitOrder (h : start < g.size) : g.GrowsFrom start (g.visitOrder start) where
  nodup := g.nodup_visitOrder start
  head := by
    rw [visitOrder_eq_visit h, Search.visit_cons]
    rfl
  exists_before := by
    intro w hw hne
    rw [visitOrder_eq_visit h] at hw ⊢
    refine (Search.exists_visited_before hw).resolve_left fun hstart => ?_
    exact hne (List.mem_singleton.mp hstart)

/-- A walk that marks nodes when they are listed is a recursive search exactly if it is depth
first. -/
theorem descent_visitOrder_iff (h : start < g.size) :
    (∃ left, g.Descent [] [start] (g.visitOrder start) left) ↔
      g.Depthwise (g.visitOrder start) := by
  constructor
  · rintro ⟨left, hdescent⟩
    exact hdescent.depthwise_entered
  · intro hdepth
    obtain ⟨entered, left, hdescent⟩ := Descent.exists_of_lt_size g [] [start]
      fun v hv => List.mem_singleton.mp hv ▸ h
    have horder : g.visitOrder start = entered := by
      refine (growsFrom_visitOrder h).eq_of_depthwise hdescent.growsFrom (fun v => ?_) hdepth
        hdescent.depthwise_entered
      rw [mem_visitOrder, hdescent.mem_iff_reaches h]
    exact ⟨left, horder ▸ hdescent⟩

/-! ## Reserving successors -/

def unreserved (g : Digraph) (reserved : List NodeId) (v : NodeId) : List NodeId :=
  ((g.succ v).filter (· ∉ reserved)).eraseDups

/-- Visiting the listed nodes in turn, where the nodes of the first list have been reserved before,
extends that list to the third one and visits the nodes of the last one. On a visit all unreserved
successors are reserved before the first of them is visited. -/
inductive Reservation (g : Digraph) :
    List NodeId → List NodeId → List NodeId → List NodeId → Prop where
  | done {reserved : List NodeId} : Reservation g reserved [] reserved []
  | visit {v : NodeId} {vs reserved inner reserved' below rest : List NodeId} :
      Reservation g (reserved ++ g.unreserved reserved v) (g.unreserved reserved v) inner below →
      Reservation g inner vs reserved' rest →
      Reservation g reserved (v :: vs) reserved' (v :: (below ++ rest))

theorem Reservation.unique {reserved₁ reserved₂ order₁ order₂ : List NodeId}
    (h₁ : g.Reservation reserved vs reserved₁ order₁)
    (h₂ : g.Reservation reserved vs reserved₂ order₂) :
    reserved₁ = reserved₂ ∧ order₁ = order₂ := by
  induction h₁ generalizing reserved₂ order₂ with
  | done =>
    cases h₂
    exact ⟨rfl, rfl⟩
  | visit _ _ ih ih' =>
    cases h₂ with
    | visit h h' =>
      obtain ⟨rfl, rfl⟩ := ih h
      obtain ⟨rfl, rfl⟩ := ih' h'
      exact ⟨rfl, rfl⟩

/-- Marking the unmet nodes of a list reserves those that are not reserved. -/
theorem collect_eq_eraseDups (hm : Descent.Marked g reserved seen) (hvs : ∀ w ∈ vs, w < g.size) :
    (seen.collect vs).1 = (vs.filter (· ∉ reserved)).eraseDups := by
  induction vs generalizing reserved seen with
  | nil => rfl
  | cons v vs ih =>
    have hrest : ∀ w ∈ vs, w < g.size := fun w hw => hvs w (List.mem_cons_of_mem v hw)
    by_cases hv : v ∈ reserved
    · rw [Marks.collect_cons_of_not_unmet vs fun hu => ((hm v).mp hu).2 hv, ih hm hrest,
        List.filter_cons_of_neg (by simpa using hv)]
    · have hu : seen.Unmet v := (hm v).mpr ⟨hvs v List.mem_cons_self, hv⟩
      have hfilter : vs.filter (· ∉ reserved ++ [v]) =
          (vs.filter (· ∉ reserved)).filter fun w => !w == v := by
        rw [List.filter_filter]
        refine List.filter_congr fun w _ => Bool.eq_iff_iff.mpr ?_
        simp [and_comm]
      rw [Marks.collect_cons_of_unmet vs hu, ih (hm.mark v) hrest, hfilter,
        List.filter_cons_of_pos (by simpa using hv), List.eraseDups_cons]

theorem marked_collect (hm : Descent.Marked g reserved seen) (v : NodeId) :
    Descent.Marked g (reserved ++ g.unreserved reserved v) (seen.collect (g.succ v)).2 := by
  intro w
  rw [Marks.unmet_collect, hm w, List.mem_append, unreserved, List.mem_eraseDups, List.mem_filter]
  simp only [decide_eq_true_eq]
  tauto

/-- The walk visits pending nodes as the search with reservations does, and then goes on. -/
theorem exists_reservation (hm : Descent.Marked g reserved seen) (vs : List NodeId) :
    ∃ reserved' order seen', g.Reservation reserved vs reserved' order ∧
      Descent.Marked g reserved' seen' ∧ seen'.remaining ≤ seen.remaining ∧
      ∀ rest, Search.visit g.succ (vs ++ rest) seen = order ++ Search.visit g.succ rest seen' := by
  -- Each visit takes one node from the list and reserves as many as it marks.
  induction hcount : seen.remaining + vs.length using Nat.strongRecOn
    generalizing reserved seen vs with
  | _ n ih =>
    subst hcount
    cases vs with
    | nil => exact ⟨reserved, [], seen, .done, hm, Nat.le_refl _, fun rest => rfl⟩
    | cons v vs =>
      have hlist : (seen.collect (g.succ v)).1 = g.unreserved reserved v :=
        collect_eq_eraseDups hm fun w hw => lt_size_of_mem_succ hw
      have hmarks := seen.remaining_collect (g.succ v)
      rw [hlist] at hmarks
      obtain ⟨inner, below, seen₁, hres₁, hm₁, hle₁, hvisit₁⟩ :=
        ih _ (by rw [List.length_cons]; omega) (marked_collect hm v) (g.unreserved reserved v) rfl
      obtain ⟨reserved', after, seen₂, hres₂, hm₂, hle₂, hvisit₂⟩ :=
        ih (seen₁.remaining + vs.length) (by rw [List.length_cons]; omega) hm₁ vs rfl
      refine ⟨reserved', v :: (below ++ after), seen₂, .visit hres₁ hres₂, hm₂, by omega, ?_⟩
      intro rest
      rw [List.cons_append, Search.visit_cons, hlist, hvisit₁, hvisit₂, List.cons_append,
        List.append_assoc]

theorem reservation_visitOrder (h : start < g.size) :
    ∃ reserved, g.Reservation [start] [start] reserved (g.visitOrder start) := by
  have hnone : Descent.Marked g [] (Marks.none g.size) := fun w => by simp
  obtain ⟨reserved, order, seen, hres, _, _, hvisit⟩ :=
    exists_reservation (hnone.mark start) [start]
  have horder := hvisit []
  rw [List.append_nil, ← visitOrder_eq_visit h, Search.visit_nil, List.append_nil] at horder
  exact ⟨reserved, horder ▸ hres⟩

/-- The walk visits nodes in the order of a search that reserves all successors of a node before it
goes on to the first of them. This is the order in which the recursive search enters the nodes
exactly if it is depth first. -/
theorem visitOrder_reserves_successors (h : start < g.size) :
    (∀ order, (∃ reserved, g.Reservation [start] [start] reserved order) ↔
      order = g.visitOrder start) ∧
    ((∃ left, g.Descent [] [start] (g.visitOrder start) left) ↔
      g.Depthwise (g.visitOrder start)) := by
  refine ⟨fun order => ⟨?_, ?_⟩, descent_visitOrder_iff h⟩
  · rintro ⟨reserved, hres⟩
    obtain ⟨reserved', hres'⟩ := reservation_visitOrder h
    exact (hres.unique hres').2
  · rintro rfl
    exact reservation_visitOrder h

/-- Two ways lead to the last node, and the longer one is taken first. -/
def triangle : Digraph := .ofEdges 3 [(0, 1), (0, 2), (1, 2)]

theorem descent_triangle : triangle.Descent [] [0] [0, 1, 2] [2, 1, 0] := by
  have hsucc0 : triangle.succ 0 = [1, 2] := by decide +kernel
  have hsucc1 : triangle.succ 1 = [2] := by decide +kernel
  have hsucc2 : triangle.succ 2 = [] := by decide +kernel
  have h1 : triangle.Descent [0, 1] (triangle.succ 1) [0, 1, 2] [2] := by
    rw [hsucc1]
    exact @Descent.enter _ 2 [] [0, 1] _ _ [] [] (by decide) (hsucc2 ▸ .done) .done
  have h0 : triangle.Descent [0] (triangle.succ 0) [0, 1, 2] [2, 1] := by
    rw [hsucc0]
    exact @Descent.enter _ 1 [2] [0] _ _ [2] [] (by decide) h1 (.skip (by decide) .done)
  exact @Descent.enter _ 0 [] [] _ _ [2, 1] [] (by decide) h0 .done

theorem triangle_reserves_successors :
    0 < triangle.size ∧ triangle.visitOrder 0 = [0, 1, 2] ∧
      (∃ reserved, triangle.Reservation [0] [0] reserved [0, 1, 2]) ∧
      triangle.Depthwise [0, 1, 2] := by
  have hsize : 0 < triangle.size := by decide +kernel
  have horder : triangle.visitOrder 0 = [0, 1, 2] := by decide +kernel
  obtain ⟨hreserved, hdepth⟩ := visitOrder_reserves_successors hsize
  rw [horder] at hreserved hdepth
  exact ⟨hsize, horder, (hreserved _).mpr rfl, hdepth.mp ⟨_, descent_triangle⟩⟩

/-- A node with three successors, the first of which leads to the last. -/
def shortcut : Digraph := .ofEdges 4 [(0, 1), (0, 2), (0, 3), (1, 3), (2, 3)]

theorem descent_shortcut : shortcut.Descent [] [0] [0, 1, 3, 2] [3, 1, 2, 0] := by
  have hsucc0 : shortcut.succ 0 = [1, 2, 3] := by decide +kernel
  have hsucc1 : shortcut.succ 1 = [3] := by decide +kernel
  have hsucc2 : shortcut.succ 2 = [3] := by decide +kernel
  have hsucc3 : shortcut.succ 3 = [] := by decide +kernel
  have h1 : shortcut.Descent [0, 1] (shortcut.succ 1) [0, 1, 3] [3] := by
    rw [hsucc1]
    exact @Descent.enter _ 3 [] [0, 1] _ _ [] [] (by decide) (hsucc3 ▸ .done) .done
  have h2 : shortcut.Descent [0, 1, 3, 2] (shortcut.succ 2) [0, 1, 3, 2] [] := by
    rw [hsucc2]
    exact .skip (by decide) .done
  have hrest : shortcut.Descent [0, 1, 3] [2, 3] [0, 1, 3, 2] [2] :=
    @Descent.enter _ 2 [3] [0, 1, 3] _ _ [] [] (by decide) h2 (.skip (by decide) .done)
  have h0 : shortcut.Descent [0] (shortcut.succ 0) [0, 1, 3, 2] [3, 1, 2] := by
    rw [hsucc0]
    exact @Descent.enter _ 1 [2, 3] [0] _ _ [3] [2] (by decide) h1 hrest
  exact @Descent.enter _ 0 [] [] _ _ [3, 1, 2] [] (by decide) h0 .done

/-- The walk does not enter nodes as the recursive search does. -/
theorem shortcut_not_entered_in_visitOrder :
    shortcut.visitOrder 0 = [0, 1, 2, 3] ∧ (∃ left, shortcut.Descent [] [0] [0, 1, 3, 2] left) ∧
      ¬∃ left, shortcut.Descent [] [0] (shortcut.visitOrder 0) left := by
  have horder : shortcut.visitOrder 0 = [0, 1, 2, 3] := by decide +kernel
  refine ⟨horder, ⟨_, descent_shortcut⟩, ?_⟩
  rintro ⟨left, h⟩
  rw [horder] at h
  exact absurd (h.unique descent_shortcut).1 (by decide)

end Digraph

end Slicing
