import Slicing.Digraph.Path

/-!
# Postdominance by paths

Facts that need neither a search nor a tree. Postdominance passes to successors, it is
antisymmetric where the exit can be reached, and a node on the way to the exit that is
not postdominated has a successor that is not.
-/
namespace Slicing

namespace Digraph

variable {g : Digraph} {exit a b d u v w : NodeId} {p : List NodeId}

namespace Path

theorem lt_size_source (h : g.Path u p v) : u < g.size := h.lt_size_of_mem h.source_mem

theorem reaches_of_mem (h : g.Path u p v) (hw : w ∈ p) : g.Reaches w v := by
  obtain ⟨q, r, _, hr, _⟩ := h.split hw
  exact ⟨r, hr⟩

theorem reverse (hc : g.Consistent) (h : g.reverse.Path u p v) : g.Path v p.reverse u := by
  induction h with
  | single hv => exact .single (size_reverse g ▸ hv)
  | @cons u v w p he _ ih =>
    rw [succ_reverse] at he
    have hu : u ∈ g.succ v := (hc v u).mpr he
    rw [List.reverse_cons]
    exact ih.append (.cons hu (.single (lt_size_of_mem_succ hu)))

/-- The rest of a path from a node other than its first one is shorter. -/
theorem exists_shorter (h : g.Path u p v) (hw : w ∈ p) (hne : w ≠ u) :
    ∃ r, g.Path w r v ∧ r.length < p.length := by
  induction h with
  | single _ => exact absurd (List.mem_singleton.mp hw) hne
  | @cons u v' v p _ hp ih =>
    have hw' : w ∈ p := (List.mem_cons.mp hw).resolve_left hne
    by_cases hwv : w = v'
    · subst hwv
      exact ⟨p, hp, Nat.lt_succ_self _⟩
    · obtain ⟨r, hr, hlt⟩ := ih hw' hwv
      exact ⟨r, hr, Nat.lt_succ_of_lt hlt⟩

/-- A path between different nodes leaves its first node for good at some point. -/
theorem exists_leaving (h : g.Path u p v) (hne : u ≠ v) :
    ∃ w ∈ g.succ u, ∃ q, g.Path w q v ∧ u ∉ q ∧ ∀ x ∈ q, x ∈ p := by
  induction hn : p.length using Nat.strongRecOn generalizing p with
  | _ n ih =>
    subst hn
    cases h with
    | single _ => exact absurd rfl hne
    | @cons _ w _ p he hp =>
      by_cases hu : u ∈ p
      · -- The first node comes again: go on from its next visit.
        obtain ⟨q, r, hq, hr, hqr⟩ := hp.split hu
        have hlen : r.length < (u :: p).length := by
          have hlr : p.length = q.length + r.tail.length := by rw [← hqr, List.length_append]
          have hpos : 0 < q.length := List.length_pos_of_mem hq.source_mem
          rw [List.length_tail] at hlr
          rw [List.length_cons]
          omega
        obtain ⟨w', hw', q', hq', huq, hsub⟩ := ih r.length hlen hr rfl
        refine ⟨w', hw', q', hq', huq, fun x hx => ?_⟩
        rw [← hqr]
        by_cases hxu : x = u
        · exact hxu ▸ List.mem_cons_self
        · have hxr := hsub x hx
          cases hr with
          | single _ => exact absurd (List.mem_singleton.mp hxr) hxu
          | cons _ _ =>
            have hxt := (List.mem_cons.mp hxr).resolve_left hxu
            exact List.mem_cons_of_mem _ (List.mem_append_right _ hxt)
      · exact ⟨w, he, p, hp, hu, fun x hx => List.mem_cons_of_mem _ hx⟩

end Path

theorem Reaches.lt_size (h : g.Reaches u v) : u < g.size := by
  obtain ⟨p, hp⟩ := h
  exact hp.lt_size_source

theorem reaches_reverse_iff (hc : g.Consistent) : g.reverse.Reaches u v ↔ g.Reaches v u := by
  constructor
  · intro ⟨p, hp⟩
    exact ⟨p.reverse, hp.reverse hc⟩
  · intro ⟨p, hp⟩
    have hrr : g.reverse.reverse.Path v p u := by
      induction hp with
      | single hv => exact .single (by rwa [size_reverse, size_reverse])
      | cons he _ ih => exact .cons (by rwa [succ_reverse, pred_reverse]) ih
    exact ⟨p.reverse, hrr.reverse hc.reverse⟩

/-- A node postdominates another one strictly if the two differ. -/
def StrictlyPostdominates (g : Digraph) (exit a b : NodeId) : Prop :=
  a ≠ b ∧ g.Postdominates exit a b

/-- The strict postdominator that all other strict postdominators postdominate. -/
def IsImmediatePostdominator (g : Digraph) (exit d v : NodeId) : Prop :=
  g.StrictlyPostdominates exit d v ∧
    ∀ a, g.StrictlyPostdominates exit a v → a ≠ d → g.Postdominates exit a d

namespace Postdominates

theorem mem (h : g.Postdominates exit a b) (hp : g.Path b p exit) : a ∈ p := by
  rcases h with rfl | ⟨_, h⟩
  · exact hp.source_mem
  · exact h p hp

theorem of_forall_mem (hr : g.Reaches b exit) (h : ∀ p, g.Path b p exit → a ∈ p) :
    g.Postdominates exit a b := .inr ⟨hr, h⟩

theorem lt_size (h : g.Postdominates exit a b) (hb : b < g.size) : a < g.size := by
  cases h with
  | inl heq => exact heq ▸ hb
  | inr hpaths =>
    obtain ⟨⟨p, hp⟩, hmem⟩ := hpaths
    exact hp.lt_size_of_mem (hmem p hp)

theorem succ (h : g.Postdominates exit a v) (hne : a ≠ v) (hw : w ∈ g.succ v)
    (hr : g.Reaches w exit) : g.Postdominates exit a w :=
  of_forall_mem hr fun _ hp => (List.mem_cons.mp (h.mem (.cons hw hp))).resolve_left hne

/-- What postdominates all successors that reach the exit postdominates the node. -/
theorem of_forall_succ (hr : g.Reaches v exit) (hne : v ≠ exit)
    (h : ∀ w ∈ g.succ v, g.Reaches w exit → g.Postdominates exit a w) :
    g.Postdominates exit a v := by
  apply of_forall_mem hr
  intro p hp
  cases hp with
  | single _ => exact absurd rfl hne
  | cons he hp => exact List.mem_cons_of_mem _ ((h _ he ⟨_, hp⟩).mem hp)

theorem antisymm (hab : g.Postdominates exit a b) (hba : g.Postdominates exit b a)
    (hr : g.Reaches a exit) : a = b := by
  by_cases hne : a = b
  · exact hne
  · obtain ⟨p, hp⟩ := hr
    induction hn : p.length using Nat.strongRecOn generalizing p with
    | _ n ih =>
      subst hn
      obtain ⟨q, hq, hlt⟩ := hp.exists_shorter (hba.mem hp) (Ne.symm hne)
      obtain ⟨r, hr, hlt'⟩ := hq.exists_shorter (hab.mem hq) hne
      exact ih r.length (Nat.lt_trans hlt' hlt) r hr rfl

end Postdominates

/-- The strict postdominators of a node are the common postdominators of its successors. -/
theorem strictlyPostdominates_iff_forall_succ (hr : g.Reaches v exit) (hne : v ≠ exit)
    (hsucc : ∀ w ∈ g.succ v, g.Reaches w exit) :
    g.StrictlyPostdominates exit a v ↔ ∀ w ∈ g.succ v, g.Postdominates exit a w := by
  constructor
  · intro h w hw
    exact h.2.succ h.1 hw (hsucc w hw)
  · intro h
    refine ⟨?_, .of_forall_succ hr hne fun w hw _ => h w hw⟩
    intro hav
    obtain ⟨p, hp⟩ := hr
    obtain ⟨w, hw, q, hq, hvq, _⟩ := hp.exists_leaving hne
    exact hvq (hav ▸ (h w hw).mem hq)

theorem IsImmediatePostdominator.unique (h : g.IsImmediatePostdominator exit a v)
    (h' : g.IsImmediatePostdominator exit b v) (hr : g.Reaches v exit) : a = b := by
  by_cases hne : a = b
  · exact hne
  · obtain ⟨p, hp⟩ := hr
    have hra : g.Reaches a exit := hp.reaches_of_mem (h.1.2.mem hp)
    exact (h'.2 a h.1 hne).antisymm (h.2 b h'.1 (Ne.symm hne)) hra

end Digraph

end Slicing
