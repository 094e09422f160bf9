import Slicing.Diagnostic

/-!
# Estimates of immediate postdominators

While the postdominators of a graph are computed, its nodes go by their numbers in
a finishing order that puts the exit last. Each number has at most one estimate,
the number of what is currently taken for its immediate postdominator. An estimate
lies above its number, so that following estimates climbs towards the exit, and
two climbs meet (`Estimates.meet`).

`Estimates.slack` measures how far the estimates can still rise.
-/
namespace Slicing

/-- For each number its current estimate, if it has one. -/
structure Estimates where
  entries : Array (Option Nat)
deriving DecidableEq

namespace Estimates

def size (e : Estimates) : Nat := e.entries.size

def get? (e : Estimates) (k : Nat) : Option Nat := e.entries.getD k none

def set (e : Estimates) (k p : Nat) : Estimates := ⟨e.entries.setIfInBounds k (some p)⟩

/-- Of `n` numbers only the last one, the exit, has an estimate, which is itself. -/
def initial (n : Nat) : Estimates := set ⟨Array.replicate n none⟩ (n - 1) (n - 1)

@[simp]
theorem size_set (e : Estimates) (k p : Nat) : (e.set k p).size = e.size :=
  Array.size_setIfInBounds

@[simp]
theorem size_initial (n : Nat) : (initial n).size = n := by
  rw [initial, size_set]
  exact Array.size_replicate

theorem get?_set (e : Estimates) (k p j : Nat) :
    (e.set k p).get? j = if j = k ∧ k < e.size then some p else e.get? j := by
  simp only [get?, set, size, Array.getD_eq_getD_getElem?, Array.getElem?_setIfInBounds]
  by_cases hj : k = j
  · subst hj
    by_cases hk : k < e.entries.size <;> simp [hk]
  · simp [hj, Ne.symm hj]

theorem get?_initial {n k : Nat} :
    (initial n).get? k = if k + 1 = n then some k else none := by
  rw [initial, get?_set]
  have hs : size ⟨Array.replicate n (none : Option Nat)⟩ = n := Array.size_replicate
  have hg : get? ⟨Array.replicate n (none : Option Nat)⟩ k = none := by
    simp only [get?, Array.getD_eq_getD_getElem?, Array.getElem?_replicate]
    split <;> rfl
  rw [hs, hg]
  by_cases h : k + 1 = n
  · rw [if_pos h, if_pos (by omega), ← h]
    rfl
  · rw [if_neg h, if_neg (by omega)]

theorem lt_size_of_get? {e : Estimates} {k p : Nat} (h : e.get? k = some p) : k < e.size := by
  by_cases hk : k < e.size
  · exact hk
  · rw [get?, Array.getD_eq_getD_getElem?, Array.getElem?_eq_none (Nat.le_of_not_lt hk)] at h
    exact absurd h.symm (Option.some_ne_none p)

/-- The estimate of `k`, where it leads upwards to another number. -/
def above? (e : Estimates) (k : Nat) : Option Nat :=
  (e.get? k).filter fun p => k < p ∧ p < e.size

theorem above?_eq_some_iff {e : Estimates} {k p : Nat} :
    e.above? k = some p ↔ e.get? k = some p ∧ k < p ∧ p < e.size := by
  simp [above?, Option.filter_eq_some_iff]

/-- Climbs from both numbers, always from the lower one, until the climbs meet. -/
def meet (e : Estimates) (a b : Nat) : Except Violation Nat :=
  if a = b then .ok a
  else
    match h : e.above? (min a b) with
    | none => .error (.noEstimate (min a b))
    | some p =>
      have := above?_eq_some_iff.mp h
      e.meet p (max a b)
termination_by (e.size - a) + (e.size - b)
decreasing_by omega

@[simp]
theorem meet_self (e : Estimates) (a : Nat) : e.meet a a = .ok a := by
  rw [meet, if_pos rfl]

theorem meet_of_above?_eq_none {e : Estimates} {a b : Nat} (hab : a ≠ b)
    (h : e.above? (min a b) = none) : e.meet a b = .error (.noEstimate (min a b)) := by
  rw [meet, if_neg hab]
  split
  · rfl
  · next h' => exact absurd (h.symm.trans h') nofun

theorem meet_of_above?_eq_some {e : Estimates} {a b p : Nat} (hab : a ≠ b)
    (h : e.above? (min a b) = some p) : e.meet a b = e.meet p (max a b) := by
  rw [meet, if_neg hab]
  split
  · next h' => exact absurd (h'.symm.trans h) nofun
  · next h' =>
    obtain rfl := Option.some.inj (h'.symm.trans h)
    rfl

/-- How far the estimates can still rise. A missing one counts as below all others. -/
def slack (e : Estimates) : Nat :=
  (e.entries.toList.map fun p => e.size + 1 - p.elim 0 (· + 1)).foldr (· + ·) 0

end Estimates

end Slicing
