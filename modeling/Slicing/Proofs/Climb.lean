import Slicing.Postdominators.Estimates

/-!
# Climbing along estimates

`Estimates.Climbs e a b` says that the climb from `a` passes `b`. The climb from one
number is a line, so two climbs that share a number share all that follows it, and
`Estimates.meet` finds the first number that they share (`climbs_of_meet`,
`exists_meet`). `Estimates.Rising` collects what makes all climbs end at the exit.

The last section says which climbs survive when one estimate is replaced.
-/
namespace Slicing

namespace Estimates

variable {e : Estimates} {a b c d i j k p q : Nat}

/-- The climb from the first number passes the second one. -/
inductive Climbs (e : Estimates) : Nat → Nat → Prop where
  | refl {a : Nat} : Climbs e a a
  | step {a p b : Nat} : e.above? a = some p → Climbs e p b → Climbs e a b

theorem lt_of_above? (h : e.above? a = some p) : a < p :=
  (above?_eq_some_iff.mp h).2.1

theorem above?_top (e : Estimates) : e.above? (e.size - 1) = none := by
  cases hp : e.above? (e.size - 1) with
  | none => rfl
  | some p =>
    obtain ⟨_, hlt, hsize⟩ := above?_eq_some_iff.mp hp
    omega

namespace Climbs

theorem le (h : e.Climbs a b) : a ≤ b := by
  induction h with
  | refl => exact Nat.le_refl _
  | step hp _ ih => exact Nat.le_trans (Nat.le_of_lt (lt_of_above? hp)) ih

theorem trans (h : e.Climbs a b) (h' : e.Climbs b c) : e.Climbs a c := by
  induction h with
  | refl => exact h'
  | step hp _ ih => exact .step hp (ih h')

theorem tail (h : e.Climbs a b) (hab : a ≠ b) (hp : e.above? a = some p) : e.Climbs p b := by
  cases h with
  | refl => exact absurd rfl hab
  | step hq h =>
    obtain rfl := Option.some.inj (hp.symm.trans hq)
    exact h

theorem exists_above? (h : e.Climbs a b) (hab : a ≠ b) : ∃ p, e.above? a = some p := by
  cases h with
  | refl => exact absurd rfl hab
  | step hp _ => exact ⟨_, hp⟩

end Climbs

theorem climbs_of_meet (h : e.meet a b = .ok c) :
    e.Climbs a c ∧ e.Climbs b c ∧ ∀ d, e.Climbs a d → e.Climbs b d → e.Climbs c d := by
  fun_induction meet e a b with
  | case1 a =>
    obtain rfl := Except.ok.inj h
    exact ⟨.refl, .refl, fun d hd _ => hd⟩
  | case2 a b hab hp => exact absurd h nofun
  | case3 a b hab p hp _ ih =>
    obtain ⟨hpc, hmc, hd⟩ := ih h
    rcases Nat.lt_or_gt_of_ne hab with hlt | hlt
    · rw [Nat.min_eq_left (Nat.le_of_lt hlt)] at hp
      rw [Nat.max_eq_right (Nat.le_of_lt hlt)] at hmc hd
      refine ⟨.step hp hpc, hmc, fun d had hbd => hd d ?_ hbd⟩
      exact had.tail (Nat.ne_of_lt (Nat.lt_of_lt_of_le hlt hbd.le)) hp
    · rw [Nat.min_eq_right (Nat.le_of_lt hlt)] at hp
      rw [Nat.max_eq_left (Nat.le_of_lt hlt)] at hmc hd
      refine ⟨hmc, .step hp hpc, fun d had hbd => hd d ?_ had⟩
      exact hbd.tail (Nat.ne_of_lt (Nat.lt_of_lt_of_le hlt had.le)) hp

/-- Climbs that share a number meet. -/
theorem exists_meet (ha : e.Climbs a d) (hb : e.Climbs b d) : ∃ c, e.meet a b = .ok c := by
  fun_induction meet e a b with
  | case1 a => exact ⟨a, rfl⟩
  | case2 a b hab hp =>
    have hmin : e.Climbs (min a b) d ∧ min a b ≠ d := by
      have hda := ha.le
      have hdb := hb.le
      rcases Nat.lt_or_gt_of_ne hab with hlt | hlt
      · rw [Nat.min_eq_left (Nat.le_of_lt hlt)]
        exact ⟨ha, by omega⟩
      · rw [Nat.min_eq_right (Nat.le_of_lt hlt)]
        exact ⟨hb, by omega⟩
    obtain ⟨p, hp'⟩ := hmin.1.exists_above? hmin.2
    exact absurd (hp.symm.trans hp') nofun
  | case3 a b hab p hp _ ih =>
    have hda := ha.le
    have hdb := hb.le
    rcases Nat.lt_or_gt_of_ne hab with hlt | hlt
    · rw [Nat.min_eq_left (Nat.le_of_lt hlt)] at hp
      rw [Nat.max_eq_right (Nat.le_of_lt hlt)] at ih
      rw [Nat.max_eq_right (Nat.le_of_lt hlt)]
      exact ih (ha.tail (by omega) hp) hb
    · rw [Nat.min_eq_right (Nat.le_of_lt hlt)] at hp
      rw [Nat.max_eq_left (Nat.le_of_lt hlt)] at ih
      rw [Nat.max_eq_left (Nat.le_of_lt hlt)]
      exact ih (hb.tail (by omega) hp) ha

/-- The climbs from several numbers all pass the point where they meet, and from there on they
are one climb. -/
theorem climbs_of_foldlM_meet {ks : List Nat} (h : ks.foldlM e.meet k = .ok c) :
    (∀ s ∈ k :: ks, e.Climbs s c) ∧ ∀ d, (∀ s ∈ k :: ks, e.Climbs s d) → e.Climbs c d := by
  induction ks generalizing k with
  | nil =>
    obtain rfl := Except.ok.inj h
    exact ⟨fun s hs => List.mem_singleton.mp hs ▸ .refl, fun d hd => hd k List.mem_cons_self⟩
  | cons s ks ih =>
    rw [List.foldlM_cons] at h
    cases hm : e.meet k s with
    | error v =>
      rw [hm] at h
      exact absurd h nofun
    | ok m =>
      rw [hm] at h
      obtain ⟨hc, hd⟩ := ih h
      obtain ⟨hkm, hsm, hmd⟩ := climbs_of_meet hm
      have hmc := hc m List.mem_cons_self
      constructor
      · intro t ht
        rcases List.mem_cons.mp ht with rfl | ht
        · exact hkm.trans hmc
        · rcases List.mem_cons.mp ht with rfl | ht
          · exact hsm.trans hmc
          · exact hc t (List.mem_cons_of_mem _ ht)
      · intro d hall
        have hkd := hall k List.mem_cons_self
        have hsd := hall s (List.mem_cons_of_mem _ List.mem_cons_self)
        refine hd d fun t ht => ?_
        rcases List.mem_cons.mp ht with rfl | ht
        · exact hmd d hkd hsd
        · exact hall t (List.mem_cons_of_mem _ (List.mem_cons_of_mem _ ht))

theorem exists_foldlM_meet {ks : List Nat} (h : ∀ s ∈ k :: ks, e.Climbs s d) :
    ∃ c, ks.foldlM e.meet k = .ok c := by
  induction ks generalizing k with
  | nil => exact ⟨k, rfl⟩
  | cons s ks ih =>
    have hkd := h k List.mem_cons_self
    have hsd := h s (List.mem_cons_of_mem _ List.mem_cons_self)
    obtain ⟨m, hm⟩ := exists_meet hkd hsd
    have hmd := (climbs_of_meet hm).2.2 d hkd hsd
    rw [List.foldlM_cons, hm]
    refine ih fun t ht => ?_
    rcases List.mem_cons.mp ht with rfl | ht
    · exact hmd
    · exact h t (List.mem_cons_of_mem _ (List.mem_cons_of_mem _ ht))

/-- The last number is its own estimate, any other estimate lies above its number, and what
stands above a number with an estimate has one too. -/
structure Rising (e : Estimates) : Prop where
  top : e.get? (e.size - 1) = some (e.size - 1)
  lt_lt : ∀ {j p}, e.get? j = some p → j + 1 ≠ e.size → j < p ∧ p < e.size
  isSome_of_le : ∀ {i j}, i ≤ j → j < e.size → (e.get? i).isSome → (e.get? j).isSome

namespace Rising

theorem size_pos (h : e.Rising) : 0 < e.size := by
  have := lt_size_of_get? h.top
  omega

theorem eq_of_top (h : e.Rising) (hj : e.get? j = some p) (htop : j + 1 = e.size) : p = j := by
  have hj' : j = e.size - 1 := by omega
  exact Option.some.inj (hj.symm.trans (hj' ▸ h.top))

theorem estimate_lt_size (h : e.Rising) (hj : e.get? j = some p) : p < e.size := by
  by_cases htop : j + 1 = e.size
  · have := h.eq_of_top hj htop
    omega
  · exact (h.lt_lt hj htop).2

theorem above?_eq (h : e.Rising) (hj : e.get? j = some p) (hne : j + 1 ≠ e.size) :
    e.above? j = some p :=
  above?_eq_some_iff.mpr ⟨hj, h.lt_lt hj hne⟩

theorem isSome_of_climbs (h : e.Rising) (hi : (e.get? i).isSome) (hc : e.Climbs i d) :
    (e.get? d).isSome := by
  induction hc with
  | refl => exact hi
  | step hp _ ih =>
    obtain ⟨_, hlt, hsize⟩ := above?_eq_some_iff.mp hp
    exact ih (h.isSome_of_le (Nat.le_of_lt hlt) hsize hi)

/-- Every number with an estimate climbs to the last one. -/
theorem climbs_top (h : e.Rising) (hi : (e.get? i).isSome) : e.Climbs i (e.size - 1) := by
  obtain ⟨p, hp⟩ := Option.isSome_iff_exists.mp hi
  have hlt := lt_size_of_get? hp
  induction hn : e.size - i using Nat.strongRecOn generalizing i p with
  | _ n ih =>
    by_cases hi' : i + 1 = e.size
    · have : i = e.size - 1 := by omega
      exact this ▸ .refl
    · obtain ⟨hip, hps⟩ := h.lt_lt hp hi'
      have hsome := h.isSome_of_le (Nat.le_of_lt hip) hps hi
      obtain ⟨q, hq⟩ := Option.isSome_iff_exists.mp hsome
      exact .step (h.above?_eq hp hi') (ih (e.size - p) (by omega) hsome q hq hps rfl)

end Rising

/-! ## Replacing one estimate -/

theorem above?_set_of_ne (h : i ≠ k) : (e.set k c).above? i = e.above? i := by
  simp only [above?, get?_set, size_set, h, false_and, if_false]

theorem above?_set_self (hkc : k < c) (hc : c < e.size) : (e.set k c).above? k = some c := by
  rw [above?_eq_some_iff, get?_set, size_set, if_pos ⟨rfl, Nat.lt_trans hkc hc⟩]
  exact ⟨rfl, hkc, hc⟩

theorem climbs_set_iff (h : k < i) : (e.set k c).Climbs i d ↔ e.Climbs i d := by
  constructor
  · intro hc
    induction hc with
    | refl => exact .refl
    | step hp _ ih =>
      rw [above?_set_of_ne (Nat.ne_of_gt h)] at hp
      exact .step hp (ih (Nat.lt_trans h (lt_of_above? hp)))
  · intro hc
    induction hc with
    | refl => exact .refl
    | step hp _ ih =>
      refine .step ?_ (ih (Nat.lt_trans h (lt_of_above? hp)))
      rw [above?_set_of_ne (Nat.ne_of_gt h)]
      exact hp

theorem Climbs.set_of_le (h : e.Climbs i d) (hd : d ≤ k) : (e.set k c).Climbs i d := by
  induction h with
  | refl => exact .refl
  | step hp h ih =>
    have hlt := Nat.lt_of_lt_of_le (lt_of_above? hp) h.le
    refine .step ?_ (ih hd)
    rw [above?_set_of_ne (by omega)]
    exact hp

theorem Climbs.set_of_not_climbs (h : e.Climbs i d) (hk : ¬e.Climbs i k) :
    (e.set k c).Climbs i d := by
  induction h with
  | refl => exact .refl
  | @step i p d hp _ ih =>
    have hne : i ≠ k := by
      rintro rfl
      exact hk .refl
    refine .step ?_ (ih fun h => hk (.step hp h))
    rw [above?_set_of_ne hne]
    exact hp

/-- Where the new estimate lies on the climb from the old one, no climb gains a number. -/
theorem Climbs.of_set (h : (e.set k c).Climbs i d) (hk : e.Climbs i k → e.Climbs k c)
    (hkc : k < c) (hc : c < e.size) : e.Climbs i d := by
  induction h with
  | refl => exact .refl
  | @step i p d hp h ih =>
    by_cases hik : i = k
    · subst hik
      rw [above?_set_self hkc hc] at hp
      obtain rfl := Option.some.inj hp
      exact (hk .refl).trans ((climbs_set_iff hkc).mp h)
    · rw [above?_set_of_ne hik] at hp
      exact .step hp (ih fun hpk => hk (.step hp hpk))

end Estimates

end Slicing
