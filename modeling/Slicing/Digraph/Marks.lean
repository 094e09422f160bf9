import Slicing.NodeId

/-!
# Marks on the nodes of a graph

A search marks the nodes that it has met. `Marks.Unmet` is the view of this type:
a node is unmet if it belongs to the graph and has no mark yet, so a node outside
the graph is never unmet. `Marks.remaining` counts the unmet nodes and bounds how
long a search can go on.
-/
namespace Slicing

/-- One mark per node of a graph. -/
structure Marks where
  met : Array Bool

namespace Marks

def none (n : Nat) : Marks := ⟨Array.replicate n false⟩

/-- The node belongs to the graph and has no mark. -/
def Unmet (m : Marks) (v : NodeId) : Prop := m.met[v]? = some false

instance (m : Marks) (v : NodeId) : Decidable (m.Unmet v) :=
  inferInstanceAs (Decidable (m.met[v]? = some false))

def mark (m : Marks) (v : NodeId) : Marks := ⟨m.met.setIfInBounds v true⟩

def remaining (m : Marks) : Nat := m.met.count false

@[simp]
theorem unmet_none {n : Nat} {v : NodeId} : (none n).Unmet v ↔ v < n := by
  simp [Unmet, none, Array.getElem?_replicate]

@[simp]
theorem unmet_mark {m : Marks} {v w : NodeId} : (m.mark v).Unmet w ↔ m.Unmet w ∧ w ≠ v := by
  simp only [Unmet, mark, Array.getElem?_setIfInBounds]
  by_cases h : v = w
  · subst h
    by_cases hv : v < m.met.size <;> simp [hv]
  · simp [h, Ne.symm h]

theorem remaining_mark {m : Marks} {v : NodeId} (h : m.Unmet v) :
    (m.mark v).remaining + 1 = m.remaining := by
  obtain ⟨hv, hf⟩ := Array.getElem?_eq_some_iff.mp h
  have hpos : 0 < m.met.count false := Array.count_pos_iff.mpr (hf ▸ Array.getElem_mem hv)
  simp only [remaining, mark, Array.setIfInBounds, hv, dite_true, Array.count_set, hf]
  simp only [BEq.rfl, ite_true]
  have : (true == false) = false := rfl
  simp only [this, Bool.false_eq_true, ite_false]
  omega

/-- The list from its first unmet node on. -/
def skip (m : Marks) (vs : List NodeId) : List NodeId := vs.dropWhile (¬m.Unmet ·)

theorem skip_cons_of_unmet {m : Marks} {v : NodeId} (vs : List NodeId) (h : m.Unmet v) :
    m.skip (v :: vs) = v :: vs := by
  simp [skip, h]

theorem skip_cons_of_not_unmet {m : Marks} {v : NodeId} (vs : List NodeId) (h : ¬m.Unmet v) :
    m.skip (v :: vs) = m.skip vs := by
  simp [skip, h]

theorem unmet_of_skip_eq_cons {m : Marks} {vs rest : List NodeId} {v : NodeId}
    (h : m.skip vs = v :: rest) : m.Unmet v := by
  have := List.head?_dropWhile_not (¬m.Unmet ·) vs
  rw [← skip, h] at this
  simpa using this

/-- Marks the unmet nodes of a list, and gives them in order, each once. -/
def collect (m : Marks) : List NodeId → List NodeId × Marks
  | [] => ([], m)
  | v :: vs =>
    if m.Unmet v then
      let r := (m.mark v).collect vs
      (v :: r.1, r.2)
    else m.collect vs

@[simp]
theorem collect_nil (m : Marks) : m.collect [] = ([], m) := rfl

theorem collect_cons_of_unmet {m : Marks} {v : NodeId} (vs : List NodeId) (h : m.Unmet v) :
    m.collect (v :: vs) = (v :: ((m.mark v).collect vs).1, ((m.mark v).collect vs).2) := by
  rw [collect, if_pos h]

theorem collect_cons_of_not_unmet {m : Marks} {v : NodeId} (vs : List NodeId) (h : ¬m.Unmet v) :
    m.collect (v :: vs) = m.collect vs := by
  rw [collect, if_neg h]

theorem mem_collect {m : Marks} {vs : List NodeId} {w : NodeId} :
    w ∈ (m.collect vs).1 ↔ m.Unmet w ∧ w ∈ vs := by
  induction vs generalizing m with
  | nil => simp
  | cons v vs ih =>
    by_cases h : m.Unmet v
    · rw [collect_cons_of_unmet vs h]
      simp only [List.mem_cons, ih, unmet_mark]
      by_cases hw : w = v
      · simp [hw, h]
      · simp [hw]
    · rw [collect_cons_of_not_unmet vs h, ih]
      by_cases hw : w = v
      · simp [hw, h]
      · simp [hw]

theorem unmet_collect {m : Marks} {vs : List NodeId} {w : NodeId} :
    (m.collect vs).2.Unmet w ↔ m.Unmet w ∧ w ∉ vs := by
  induction vs generalizing m with
  | nil => simp
  | cons v vs ih =>
    by_cases h : m.Unmet v
    · rw [collect_cons_of_unmet vs h, ih, unmet_mark, List.mem_cons, not_or, and_assoc]
    · rw [collect_cons_of_not_unmet vs h, ih, List.mem_cons, not_or]
      refine and_congr_right fun hw => (and_iff_right ?_).symm
      rintro rfl
      exact h hw

theorem nodup_collect (m : Marks) (vs : List NodeId) : (m.collect vs).1.Nodup := by
  induction vs generalizing m with
  | nil => exact List.nodup_nil
  | cons v vs ih =>
    by_cases h : m.Unmet v
    · rw [collect_cons_of_unmet vs h]
      refine List.nodup_cons.mpr ⟨fun hv => ?_, ih _⟩
      exact (unmet_mark.mp (mem_collect.mp hv).1).2 rfl
    · rw [collect_cons_of_not_unmet vs h]
      exact ih m

/-- Collecting uses up as many unmet nodes as it gives. -/
theorem remaining_collect (m : Marks) (vs : List NodeId) :
    (m.collect vs).2.remaining + (m.collect vs).1.length = m.remaining := by
  induction vs generalizing m with
  | nil => rfl
  | cons v vs ih =>
    by_cases h : m.Unmet v
    · rw [collect_cons_of_unmet vs h]
      have hr := remaining_mark h
      have := ih (m.mark v)
      simp only [List.length_cons]
      omega
    · rw [collect_cons_of_not_unmet vs h]
      exact ih m

end Marks

end Slicing
