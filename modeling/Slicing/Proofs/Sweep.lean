import Slicing.Postdominators.Solve
import Slicing.Proofs.Climb

/-!
# What a sweep preserves

The nodes go by their numbers in a list without repetition. `Digraph.Stage` lists the
estimates that the computation passes through, one revision at a time, and
`Digraph.Swept` is the invariant that all of them satisfy. It needs nothing of the
list and of the two directions of the graph. Its main parts are

* no estimate lies above a number that the climbs from all known successors pass, so a
  revision can only raise it, and
* each estimate is at the end of an ascending path, whose nodes were all revised before
  in the same sweep, so the old estimate climbs to the new one.

The second part is what keeps the first one true: a climb that is rewritten at one
number loses numbers and gains none (`Estimates.Refines`).
-/
namespace Slicing

theorem idxOf?_eq_some_iff_getElem? {order : List NodeId} (hn : order.Nodup) {v : NodeId}
    {k : Nat} : order.idxOf? v = some k ↔ order[k]? = some v := by
  rw [List.idxOf?_eq_some_iff]
  constructor
  · rintro ⟨hk, hv, _⟩
    rw [List.getElem?_eq_getElem hk, hv]
  · intro h
    obtain ⟨hk, hv⟩ := List.getElem?_eq_some_iff.mp h
    refine ⟨hk, hv, fun j hj hjv => ?_⟩
    have hjk : order[j]? = order[k]? := by
      rw [h, List.getElem?_eq_getElem (Nat.lt_trans hj hk), hjv]
    exact absurd ((List.getElem?_inj (Nat.lt_trans hj hk) hn).mp hjk) (Nat.ne_of_lt hj)

/-- The second estimates know more numbers, none of them is lower, and the climbs that existed
before have lost numbers at most. -/
structure Estimates.Refines (e e' : Estimates) : Prop where
  climbs : ∀ {i d}, (e.get? i).isSome → e'.Climbs i d → e.Climbs i d
  exists_le : ∀ {i p}, e.get? i = some p → ∃ p', e'.get? i = some p' ∧ p ≤ p'

namespace Estimates.Refines

variable {e e' e'' : Estimates} {i : Nat}

theorem refl (e : Estimates) : e.Refines e :=
  ⟨fun _ h => h, fun h => ⟨_, h, Nat.le_refl _⟩⟩

theorem isSome (h : e.Refines e') (hi : (e.get? i).isSome) : (e'.get? i).isSome := by
  obtain ⟨p, hp⟩ := Option.isSome_iff_exists.mp hi
  obtain ⟨p', hp', _⟩ := h.exists_le hp
  exact Option.isSome_iff_exists.mpr ⟨p', hp'⟩

theorem trans (h : e.Refines e') (h' : e'.Refines e'') : e.Refines e'' where
  climbs hi hc := h.climbs hi (h'.climbs (h.isSome hi) hc)
  exists_le hp := by
    obtain ⟨p', hp', hle⟩ := h.exists_le hp
    obtain ⟨p'', hp'', hle'⟩ := h'.exists_le hp'
    exact ⟨p'', hp'', Nat.le_trans hle hle'⟩

end Estimates.Refines

namespace Digraph

section
variable (g : Digraph) (order : List NodeId)

/-- An edge leads from the node with the first number to the node with the second one. -/
def LeadsTo (j s : Nat) : Prop :=
  ∃ v w, order[j]? = some v ∧ order[s]? = some w ∧ w ∈ g.succ v

/-- Edges lead from the first number to the second one, each to a higher number. -/
inductive Ascends : Nat → Nat → Prop where
  | refl {j : Nat} : Ascends j j
  | step {j h i : Nat} : g.LeadsTo order j h → j < h → Ascends h i → Ascends j i

/-- Every number but the last one has an edge to a higher number. -/
def Supported : Prop := ∀ k, k + 1 < order.length → ∃ h, k < h ∧ g.LeadsTo order k h

/-- The estimates after a number of complete sweeps, where the numbers from `k` on have been
revised in the current one. -/
inductive Stage : Nat → Nat → Estimates → Prop where
  | start : Stage 0 (order.length - 1) (.initial order.length)
  | revise {n k : Nat} {v : NodeId} {e e' : Estimates} :
      Stage n (k + 1) e → order[k]? = some v → g.revise order e (v, k) = .ok e' → Stage n k e'
  | turn {n : Nat} {e : Estimates} : Stage n 0 e → Stage (n + 1) (order.length - 1) e

/-- The estimates are in order, and the numbers from `k` on were revised in this sweep. -/
structure Swept (e : Estimates) (k : Nat) : Prop extends e.Rising where
  size_eq : e.size = order.length
  isSome : ∀ {j}, k ≤ j → j < e.size → (e.get? j).isSome
  ascends : ∀ {j p}, e.get? j = some p → g.Ascends order j p
  /-- A revised number has its estimate on the climbs from all higher successors. -/
  revised : ∀ {j p h}, k ≤ j → e.above? j = some p → g.LeadsTo order j h → j < h → e.Climbs h p
  /-- No estimate lies above a number that all climbs from the known successors pass. -/
  least : ∀ {j p d}, e.above? j = some p →
    (∀ s, g.LeadsTo order j s → (e.get? s).isSome → e.Climbs s d) → p ≤ d

structure Estimated (e : Estimates) (k c : Nat) : Prop where
  exists_known : ∃ s, g.LeadsTo order k s ∧ (e.get? s).isSome
  climbs : ∀ {s}, g.LeadsTo order k s → (e.get? s).isSome → e.Climbs s c
  climbs_of_forall : ∀ {d}, (∀ s, g.LeadsTo order k s → (e.get? s).isSome → e.Climbs s d) →
    e.Climbs c d

end

variable {g : Digraph} {order : List NodeId} {e e' : Estimates} {c d h i j k n p s : Nat}
variable {v : NodeId}

theorem Ascends.le (h : g.Ascends order i j) : i ≤ j := by
  induction h with
  | refl => exact Nat.le_refl _
  | step _ hlt _ ih => omega

theorem Ascends.trans (h : g.Ascends order i j) (h' : g.Ascends order j k) :
    g.Ascends order i k := by
  induction h with
  | refl => exact h'
  | step hl hlt _ ih => exact .step hl hlt (ih h')

theorem LeadsTo.lt_length (h : g.LeadsTo order j s) : s < order.length := by
  obtain ⟨_, _, _, hw, _⟩ := h
  exact (List.getElem?_eq_some_iff.mp hw).1

/-! ## Estimating one number -/

theorem mem_filterMap_known? (hn : order.Nodup) (hv : order[k]? = some v) :
    s ∈ (g.succ v).filterMap (known? order e) ↔ g.LeadsTo order k s ∧ (e.get? s).isSome := by
  simp only [List.mem_filterMap, known?, Option.filter_eq_some_iff,
    idxOf?_eq_some_iff_getElem? hn]
  constructor
  · rintro ⟨w, hw, hs, hsome⟩
    exact ⟨⟨v, w, hv, hs, hw⟩, hsome⟩
  · rintro ⟨⟨v', w, hv', hs, hw⟩, hsome⟩
    obtain rfl := Option.some.inj (hv.symm.trans hv')
    exact ⟨w, hw, hs, hsome⟩

theorem estimated_of_estimate (hn : order.Nodup) (hv : order[k]? = some v)
    (h : g.estimate order e v = .ok c) : g.Estimated order e k c := by
  have hmem : ∀ s, s ∈ (g.succ v).filterMap (known? order e) ↔ _ := fun s =>
    mem_filterMap_known? hn hv
  unfold estimate at h
  split at h
  · exact absurd h nofun
  · next t ts hts =>
    obtain ⟨hc, hd⟩ := Estimates.climbs_of_foldlM_meet h
    rw [← hts] at hc hd
    refine ⟨⟨t, (hmem t).mp (hts ▸ List.mem_cons_self)⟩, fun hl hs => ?_, fun hall => ?_⟩
    · exact hc _ ((hmem _).mpr ⟨hl, hs⟩)
    · exact hd _ fun s hs => hall s ((hmem s).mp hs).1 ((hmem s).mp hs).2

theorem exists_estimate (hn : order.Nodup) (hv : order[k]? = some v)
    (hs : g.LeadsTo order k s) (hsome : (e.get? s).isSome)
    (hall : ∀ s, g.LeadsTo order k s → (e.get? s).isSome → e.Climbs s d) :
    ∃ c, g.estimate order e v = .ok c := by
  have hmem : ∀ s, s ∈ (g.succ v).filterMap (known? order e) ↔ _ := fun s =>
    mem_filterMap_known? hn hv
  unfold estimate
  split
  · next hnil => exact absurd ((hmem s).mpr ⟨hs, hsome⟩) (hnil ▸ List.not_mem_nil)
  · next t ts hts =>
    refine Estimates.exists_foldlM_meet (d := d) fun u hu => ?_
    rw [← hts] at hu
    exact hall u ((hmem u).mp hu).1 ((hmem u).mp hu).2

theorem exists_estimate_of_revise (h : g.revise order e (v, k) = .ok e') :
    ∃ c, g.estimate order e v = .ok c ∧ e' = e.set k c := by
  unfold revise at h
  cases hc : g.estimate order e v with
  | error x =>
    rw [hc] at h
    exact absurd h nofun
  | ok c =>
    rw [hc] at h
    exact ⟨c, rfl, (Except.ok.inj h).symm⟩

namespace Swept

/-! ## Revising one number -/

theorem ascends_of_climbs (hs : g.Swept order e k) (hc : e.Climbs i d) :
    g.Ascends order i d := by
  induction hc with
  | refl => exact .refl
  | step hp _ ih => exact (hs.ascends (Estimates.above?_eq_some_iff.mp hp).1).trans ih

theorem exists_higher (hs : g.Swept order e (k + 1)) (hk : k + 1 < e.size)
    (he : g.Estimated order e k c) : ∃ h, k < h ∧ g.LeadsTo order k h := by
  cases hp : e.get? k with
  | none =>
    -- In the first sweep only higher numbers have estimates.
    obtain ⟨s, hl, hsome⟩ := he.exists_known
    refine ⟨s, Nat.lt_of_not_le fun hle => ?_, hl⟩
    have := hs.isSome_of_le hle (by omega) hsome
    rw [hp] at this
    exact absurd this nofun
  | some p =>
    have hlt := (hs.lt_lt hp (by omega)).1
    cases hs.ascends hp with
    | refl => omega
    | step hl hlt _ => exact ⟨_, hlt, hl⟩

theorem climbs_higher (hs : g.Swept order e (k + 1)) (he : g.Estimated order e k c)
    (hl : g.LeadsTo order k h) (hlt : k < h) : e.Climbs h c :=
  he.climbs hl (hs.isSome hlt (hs.size_eq ▸ hl.lt_length))

theorem lt_estimate (hs : g.Swept order e (k + 1)) (hk : k + 1 < e.size)
    (he : g.Estimated order e k c) : k < c ∧ c < e.size := by
  obtain ⟨h, hlt, hl⟩ := hs.exists_higher hk he
  have hc := hs.climbs_higher he hl hlt
  have hsome := hs.isSome_of_climbs (hs.isSome hlt (hs.size_eq ▸ hl.lt_length)) hc
  obtain ⟨q, hq⟩ := Option.isSome_iff_exists.mp hsome
  exact ⟨Nat.lt_of_lt_of_le hlt hc.le, Estimates.lt_size_of_get? hq⟩

/-- An ascending path among revised numbers stays on climbs that pass `c` until it passes
`c` itself. -/
theorem climbs_of_ascends (hs : g.Swept order e k) (ha : g.Ascends order i j) (hi : k ≤ i)
    (hj : j ≤ c) (hc : e.Climbs i c) : e.Climbs j c := by
  induction ha with
  | refl => exact hc
  | @step i h j hl hlt ha ih =>
    have hne : i ≠ c := by
      have := ha.le
      omega
    obtain ⟨p, hp⟩ := hc.exists_above? hne
    have hhp := hs.revised hi hp hl hlt
    exact ih (by omega) hj (hhp.trans (hc.tail hne hp))

/-- The old estimate of a number climbs to the new one. -/
theorem climbs_estimate (hs : g.Swept order e (k + 1)) (hk : k + 1 < e.size)
    (he : g.Estimated order e k c) (hp : e.get? k = some p) : e.Climbs p c := by
  have habove := hs.above?_eq hp (by omega)
  have hpc : p ≤ c := hs.least habove fun s hl hsome => he.climbs hl hsome
  have hlt := Estimates.lt_of_above? habove
  cases hs.ascends hp with
  | refl => omega
  | step hl hlt ha =>
    exact hs.climbs_of_ascends ha hlt hpc (hs.climbs_higher he hl hlt)

theorem refines_set (hs : g.Swept order e (k + 1)) (hk : k + 1 < e.size)
    (he : g.Estimated order e k c) : e.Refines (e.set k c) where
  climbs := by
    intro i d hi hc
    obtain ⟨hkc, hcs⟩ := hs.lt_estimate hk he
    refine hc.of_set (fun hik => ?_) hkc hcs
    obtain ⟨p, hp⟩ := Option.isSome_iff_exists.mp (hs.isSome_of_climbs hi hik)
    exact .step (hs.above?_eq hp (by omega)) (hs.climbs_estimate hk he hp)
  exists_le := by
    intro i p hp
    rw [Estimates.get?_set]
    split
    · next hik =>
      rw [hik.1] at hp
      exact ⟨c, rfl, (hs.climbs_estimate hk he hp).le⟩
    · exact ⟨p, hp, Nat.le_refl p⟩

theorem get?_set_cases (h : (e.set k c).get? j = some p) (hk : k < e.size) :
    j = k ∧ p = c ∨ j ≠ k ∧ e.get? j = some p := by
  rw [Estimates.get?_set] at h
  split at h
  · next hj => exact .inl ⟨hj.1, (Option.some.inj h).symm⟩
  · next hj => exact .inr ⟨fun e => hj ⟨e, hk⟩, h⟩

theorem rising_set (hs : g.Swept order e (k + 1)) (hk : k + 1 < e.size)
    (he : g.Estimated order e k c) : (e.set k c).Rising where
  top := by
    rw [Estimates.size_set, Estimates.get?_set, if_neg (by omega)]
    exact hs.top
  lt_lt := by
    intro j p hp hj
    rw [Estimates.size_set] at hj ⊢
    rcases get?_set_cases hp (by omega) with ⟨rfl, rfl⟩ | ⟨_, hp⟩
    · exact hs.lt_estimate hk he
    · exact hs.lt_lt hp hj
  isSome_of_le := by
    intro i j hij hj hi
    rw [Estimates.size_set] at hj
    by_cases hkj : k < j
    · exact (hs.refines_set hk he).isSome (hs.isSome hkj hj)
    · obtain ⟨p, hp⟩ := Option.isSome_iff_exists.mp hi
      rw [Estimates.get?_set]
      split
      · rfl
      · rcases get?_set_cases hp (by omega) with ⟨rfl, _⟩ | ⟨_, hp⟩
        · omega
        · exact hs.isSome_of_le hij hj (Option.isSome_iff_exists.mpr ⟨p, hp⟩)

/-- Revising the next number keeps the invariant. -/
theorem set (hs : g.Swept order e (k + 1)) (hk : k + 1 < e.size)
    (he : g.Estimated order e k c) : g.Swept order (e.set k c) k where
  toRising := hs.rising_set hk he
  size_eq := (Estimates.size_set e k c).trans hs.size_eq
  isSome := by
    intro j hj hjs
    rw [Estimates.size_set] at hjs
    rw [Estimates.get?_set]
    split
    · rfl
    · exact hs.isSome (by omega) hjs
  ascends := by
    intro j p hp
    rcases get?_set_cases hp (by omega) with ⟨rfl, rfl⟩ | ⟨_, hp⟩
    · obtain ⟨h, hlt, hl⟩ := hs.exists_higher hk he
      exact .step hl hlt (hs.ascends_of_climbs (hs.climbs_higher he hl hlt))
    · exact hs.ascends hp
  revised := by
    intro j p h hj hp hl hlt
    rw [Estimates.climbs_set_iff (by omega)]
    by_cases hjk : j = k
    · subst hjk
      rw [Estimates.above?_set_self (hs.lt_estimate hk he).1 (hs.lt_estimate hk he).2] at hp
      obtain rfl := Option.some.inj hp
      exact hs.climbs_higher he hl hlt
    · rw [Estimates.above?_set_of_ne hjk] at hp
      exact hs.revised (by omega) hp hl hlt
  least := by
    intro j p d hp hall
    have hr := hs.refines_set hk he
    have hall' : ∀ s, g.LeadsTo order j s → (e.get? s).isSome → e.Climbs s d :=
      fun s hl hsome => hr.climbs hsome (hall s hl (hr.isSome hsome))
    by_cases hjk : j = k
    · subst hjk
      rw [Estimates.above?_set_self (hs.lt_estimate hk he).1 (hs.lt_estimate hk he).2] at hp
      obtain rfl := Option.some.inj hp
      exact (he.climbs_of_forall hall').le
    · rw [Estimates.above?_set_of_ne hjk] at hp
      exact hs.least hp hall'

end Swept

/-! ## Sweeps -/

theorem swept_initial (hpos : 0 < order.length) :
    g.Swept order (.initial order.length) (order.length - 1) := by
  have hget : ∀ {j p}, (Estimates.initial order.length).get? j = some p →
      j + 1 = order.length ∧ p = j := by
    intro j p hp
    rw [Estimates.get?_initial] at hp
    split at hp
    · next hj => exact ⟨hj, (Option.some.inj hp).symm⟩
    · exact absurd hp nofun
  have habove : ∀ {j p}, (Estimates.initial order.length).above? j ≠ some p := by
    intro j p hp
    obtain ⟨hp, hlt, _⟩ := Estimates.above?_eq_some_iff.mp hp
    exact Nat.ne_of_gt hlt (hget hp).2
  have hsome : ∀ {j}, order.length - 1 ≤ j → j < order.length →
      ((Estimates.initial order.length).get? j).isSome := by
    intro j hj hlt
    rw [Estimates.get?_initial, if_pos (by omega)]
    rfl
  refine
    { top := ?_, lt_lt := ?_, isSome_of_le := ?_, size_eq := Estimates.size_initial _,
      isSome := ?_, ascends := ?_, revised := ?_, least := ?_ }
  · rw [Estimates.size_initial, Estimates.get?_initial, if_pos (by omega)]
  · intro j p hp hj
    rw [Estimates.size_initial] at hj
    exact absurd (hget hp).1 hj
  · intro i j hij hj hi
    rw [Estimates.size_initial] at hj
    obtain ⟨p, hp⟩ := Option.isSome_iff_exists.mp hi
    have := (hget hp).1
    exact hsome (by omega) hj
  · intro j hj hlt
    rw [Estimates.size_initial] at hlt
    exact hsome hj hlt
  · intro j p hp
    rw [(hget hp).2]
    exact .refl
  · exact fun _ hp => absurd hp habove
  · exact fun hp => absurd hp habove

theorem Swept.turn (hs : g.Swept order e 0) : g.Swept order e k where
  toRising := hs.toRising
  size_eq := hs.size_eq
  isSome _ hj := hs.isSome (Nat.zero_le _) hj
  ascends := hs.ascends
  revised _ := hs.revised (Nat.zero_le _)
  least := hs.least

theorem take_succ_zipIdx (hv : order[k]? = some v) :
    (order.zipIdx.take (k + 1)).reverse = (v, k) :: (order.zipIdx.take k).reverse := by
  rw [List.take_add_one, List.getElem?_zipIdx, hv]
  simp

theorem sweep_eq (g : Digraph) (order : List NodeId) (e : Estimates) :
    g.sweep order e =
      (order.zipIdx.take (order.length - 1)).reverse.foldlM (g.revise order) e := by
  rw [sweep, List.dropLast_eq_take, List.length_zipIdx]

namespace Stage

theorem lt_length (hpos : 0 < order.length) (h : g.Stage order n k e) : k < order.length := by
  induction h with
  | start => omega
  | revise _ _ _ ih => omega
  | turn _ _ => omega

theorem swept (hn : order.Nodup) (hpos : 0 < order.length) (h : g.Stage order n k e) :
    g.Swept order e k := by
  induction h with
  | start => exact swept_initial hpos
  | @revise n k v e e' hst hv hr ih =>
    obtain ⟨c, hc, rfl⟩ := exists_estimate_of_revise hr
    have hlt := hst.lt_length hpos
    exact ih.set (ih.size_eq ▸ hlt) (estimated_of_estimate hn hv hc)
  | turn _ ih => exact ih.turn

theorem refines (hn : order.Nodup) (hpos : 0 < order.length) (h : g.Stage order n (k + 1) e)
    (hv : order[k]? = some v) (hr : g.revise order e (v, k) = .ok e') : e.Refines e' := by
  obtain ⟨c, hc, rfl⟩ := exists_estimate_of_revise hr
  have hs := h.swept hn hpos
  exact hs.refines_set (hs.size_eq ▸ h.lt_length hpos) (estimated_of_estimate hn hv hc)

theorem isSome (hn : order.Nodup) (hpos : 0 < order.length) (h : g.Stage order n k e)
    (h1 : 1 ≤ n) (hj : j < order.length) : (e.get? j).isSome := by
  induction h with
  | start => omega
  | revise hst hv hr ih => exact (hst.refines hn hpos hv hr).isSome (ih h1)
  | turn hst _ =>
    have hs := hst.swept hn hpos
    exact hs.isSome (Nat.zero_le j) (hs.size_eq ▸ hj)

theorem supported (hn : order.Nodup) (hpos : 0 < order.length) (h : g.Stage order n k e)
    (h1 : 1 ≤ n) : g.Supported order := by
  intro j hj
  have hs := h.swept hn hpos
  obtain ⟨p, hp⟩ := Option.isSome_iff_exists.mp (h.isSome hn hpos h1 (Nat.lt_of_succ_lt hj))
  have hlt := (hs.lt_lt hp (by rw [hs.size_eq]; omega)).1
  cases hs.ascends hp with
  | refl => omega
  | step hl hlt _ => exact ⟨_, hlt, hl⟩

theorem foldlM (hn : order.Nodup) (hpos : 0 < order.length) (h : g.Stage order n k e)
    (hf : (order.zipIdx.take k).reverse.foldlM (g.revise order) e = .ok e') :
    g.Stage order n 0 e' ∧ e.Refines e' := by
  induction k generalizing e with
  | zero =>
    obtain rfl : e = e' := Except.ok.inj hf
    exact ⟨h, .refl e⟩
  | succ k ih =>
    have hlt := h.lt_length hpos
    have hv : order[k]? = some order[k] := List.getElem?_eq_getElem (Nat.lt_of_succ_lt hlt)
    rw [take_succ_zipIdx hv, List.foldlM_cons] at hf
    cases hr : g.revise order e (order[k], k) with
    | error x =>
      rw [hr] at hf
      exact absurd hf nofun
    | ok e₁ =>
      rw [hr] at hf
      obtain ⟨hst, href⟩ := ih (h.revise hv hr) hf
      exact ⟨hst, (h.refines hn hpos hv hr).trans href⟩

theorem sweep (hn : order.Nodup) (hpos : 0 < order.length)
    (h : g.Stage order n (order.length - 1) e) (hf : g.sweep order e = .ok e') :
    g.Stage order n 0 e' ∧ e.Refines e' :=
  h.foldlM hn hpos (sweep_eq g order e ▸ hf)

theorem exists_revise_of_leadsTo (hn : order.Nodup) (hpos : 0 < order.length)
    (h : g.Stage order n (k + 1) e) (hv : order[k]? = some v) (hlt : k < s)
    (hl : g.LeadsTo order k s) : ∃ e', g.revise order e (v, k) = .ok e' := by
  have hs := h.swept hn hpos
  have hsome := hs.isSome hlt (hs.size_eq ▸ hl.lt_length)
  obtain ⟨c, hc⟩ := exists_estimate hn hv hl hsome fun _ _ ht => hs.climbs_top ht
  exact ⟨e.set k c, by rw [Digraph.revise, hc]; rfl⟩

theorem exists_revise (hn : order.Nodup) (hpos : 0 < order.length) (hsup : g.Supported order)
    (h : g.Stage order n (k + 1) e) (hv : order[k]? = some v) :
    ∃ e', g.revise order e (v, k) = .ok e' := by
  obtain ⟨s, hlt, hl⟩ := hsup k (h.lt_length hpos)
  exact h.exists_revise_of_leadsTo hn hpos hv hlt hl

theorem exists_foldlM (hn : order.Nodup) (hpos : 0 < order.length) (hsup : g.Supported order)
    (h : g.Stage order n k e) :
    ∃ e', (order.zipIdx.take k).reverse.foldlM (g.revise order) e = .ok e' := by
  induction k generalizing e with
  | zero => exact ⟨e, rfl⟩
  | succ k ih =>
    have hlt := h.lt_length hpos
    have hv : order[k]? = some order[k] := List.getElem?_eq_getElem (Nat.lt_of_succ_lt hlt)
    obtain ⟨e₁, hr⟩ := h.exists_revise hn hpos hsup hv
    rw [take_succ_zipIdx hv, List.foldlM_cons, hr]
    exact ih (h.revise hv hr)

/-- Where every number has support, a sweep succeeds. -/
theorem exists_sweep (hn : order.Nodup) (hpos : 0 < order.length) (hsup : g.Supported order)
    (h : g.Stage order n (order.length - 1) e) : ∃ e', g.sweep order e = .ok e' := by
  rw [sweep_eq]
  exact h.exists_foldlM hn hpos hsup

end Stage

end Digraph

end Slicing
