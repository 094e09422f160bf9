/-!
# Finite sets as ascending lists

A set is kept as the strictly ascending list of its members. Two sets with the
same members are therefore the same value (`SortedSet.ext`), equality of sets is
decided by comparing the lists, and listing a set needs no sorting step. Union,
intersection and difference go through both lists once.

Membership is the view of this type: each operation has one lemma that says what
it does to membership, and later modules use only those.
-/
namespace Slicing

/-- A finite set, kept as the strictly ascending list of its members. -/
structure SortedSet (α : Type) [LT α] where
  toList : List α
  ascending : toList.Pairwise (· < ·)
deriving DecidableEq

namespace SortedSet

section
variable {α : Type} [LT α]

instance : Membership α (SortedSet α) := ⟨fun s a => a ∈ s.toList⟩

@[simp]
theorem mem_toList {s : SortedSet α} {a : α} : a ∈ s.toList ↔ a ∈ s := Iff.rfl

instance [DecidableEq α] (a : α) (s : SortedSet α) : Decidable (a ∈ s) :=
  inferInstanceAs (Decidable (a ∈ s.toList))

def empty : SortedSet α := ⟨[], .nil⟩

instance : EmptyCollection (SortedSet α) := ⟨empty⟩

instance : Inhabited (SortedSet α) := ⟨∅⟩

@[simp]
theorem not_mem_empty (a : α) : a ∉ (∅ : SortedSet α) := List.not_mem_nil

def singleton (a : α) : SortedSet α := ⟨[a], List.pairwise_singleton _ a⟩

@[simp]
theorem mem_singleton {a b : α} : a ∈ singleton b ↔ a = b := List.mem_singleton

def size (s : SortedSet α) : Nat := s.toList.length

end

section
variable {α : Type} [LT α] [DecidableLT α] [DecidableEq α]

/-- Goes through two ascending lists and keeps the elements that occur on the left only, in
both, or on the right only, as the three flags say. -/
def combine (left both right : Bool) : List α → List α → List α
  | [], ys => if right then ys else []
  | x :: xs, [] => if left then x :: xs else []
  | x :: xs, y :: ys =>
    if x < y then
      (if left then [x] else []) ++ combine left both right xs (y :: ys)
    else if x = y then
      (if both then [x] else []) ++ combine left both right xs ys
    else
      (if right then [y] else []) ++ combine left both right (x :: xs) ys
termination_by xs ys => xs.length + ys.length

variable [LE α] [Std.IsLinearOrder α] [Std.LawfulOrderLT α]

theorem mem_combine {left both right : Bool} {xs ys : List α} (hx : xs.Pairwise (· < ·))
    (hy : ys.Pairwise (· < ·)) {a : α} :
    a ∈ combine left both right xs ys ↔
      a ∈ xs ∧ a ∈ ys ∧ both ∨ a ∈ xs ∧ a ∉ ys ∧ left ∨ a ∉ xs ∧ a ∈ ys ∧ right := by
  fun_induction combine left both right xs ys with
  | case1 ys h => simp [h]
  | case2 ys h => simp [h]
  | case3 x xs h => simp [h]
  | case4 x xs h => simp [h]
  | case5 x xs y ys hlt ih =>
    obtain ⟨hx', hxs⟩ := List.pairwise_cons.mp hx
    have hle : ∀ b ∈ y :: ys, x < b := by
      intro b hb
      rcases List.mem_cons.mp hb with rfl | hb
      · exact hlt
      · exact Std.lt_trans hlt ((List.pairwise_cons.mp hy).1 b hb)
    have hne : x ∉ y :: ys := fun h => Std.lt_irrefl (hle x h)
    have hnx : x ∉ xs := fun h => Std.lt_irrefl (hx' x h)
    rw [List.mem_append, ih hxs hy]
    by_cases ha : a = x
    · subst ha
      cases left <;> simp [hne, hnx]
    · cases left <;> simp [ha]
  | case6 xs x ys hlt ih =>
    obtain ⟨hx', hxs⟩ := List.pairwise_cons.mp hx
    obtain ⟨hy', hys⟩ := List.pairwise_cons.mp hy
    have hnx : x ∉ xs := fun h => Std.lt_irrefl (hx' x h)
    have hny : x ∉ ys := fun h => Std.lt_irrefl (hy' x h)
    rw [List.mem_append, ih hxs hys]
    by_cases ha : a = x
    · subst ha
      cases both <;> simp [hnx, hny]
    · cases both <;> simp [ha]
  | case7 x xs y ys hlt hne ih =>
    have hyx : y < x := Std.lt_of_le_of_ne (Std.not_lt.mp hlt) (Ne.symm hne)
    obtain ⟨hy', hys⟩ := List.pairwise_cons.mp hy
    have hle : ∀ b ∈ x :: xs, y < b := by
      intro b hb
      rcases List.mem_cons.mp hb with rfl | hb
      · exact hyx
      · exact Std.lt_trans hyx ((List.pairwise_cons.mp hx).1 b hb)
    have hnx : y ∉ x :: xs := fun h => Std.lt_irrefl (hle y h)
    have hny : y ∉ ys := fun h => Std.lt_irrefl (hy' y h)
    rw [List.mem_append, ih hx hys]
    by_cases ha : a = y
    · subst ha
      cases right <;> simp [hnx, hny]
    · cases right <;> simp [ha]

omit [DecidableEq α] [Std.IsLinearOrder α] [Std.LawfulOrderLT α] [LE α] [DecidableLT α] in
theorem pairwise_keep {keep : Bool} {a : α} {l : List α} (hl : l.Pairwise (· < ·))
    (h : ∀ b ∈ l, a < b) : ((if keep then [a] else []) ++ l).Pairwise (· < ·) := by
  cases keep
  · exact hl
  · exact List.pairwise_cons.mpr ⟨h, hl⟩

theorem pairwise_combine (left both right : Bool) {xs ys : List α} (hx : xs.Pairwise (· < ·))
    (hy : ys.Pairwise (· < ·)) : (combine left both right xs ys).Pairwise (· < ·) := by
  fun_induction combine left both right xs ys with
  | case1 => exact hy
  | case2 => exact .nil
  | case3 => exact hx
  | case4 => exact .nil
  | case5 x xs y ys hlt ih =>
    obtain ⟨hx', hxs⟩ := List.pairwise_cons.mp hx
    refine pairwise_keep (ih hxs hy) fun b hb => ?_
    have hb := (mem_combine hxs hy).mp hb
    by_cases h : b ∈ xs
    · exact hx' b h
    · rcases List.mem_cons.mp (by grind : b ∈ y :: ys) with rfl | h
      · exact hlt
      · exact Std.lt_trans hlt ((List.pairwise_cons.mp hy).1 b h)
  | case6 xs x ys hlt ih =>
    obtain ⟨hx', hxs⟩ := List.pairwise_cons.mp hx
    obtain ⟨hy', hys⟩ := List.pairwise_cons.mp hy
    refine pairwise_keep (ih hxs hys) fun b hb => ?_
    have hb := (mem_combine hxs hys).mp hb
    by_cases h : b ∈ xs
    · exact hx' b h
    · exact hy' b (by grind)
  | case7 x xs y ys hlt hne ih =>
    have hyx : y < x := Std.lt_of_le_of_ne (Std.not_lt.mp hlt) (Ne.symm hne)
    obtain ⟨hy', hys⟩ := List.pairwise_cons.mp hy
    refine pairwise_keep (ih hx hys) fun b hb => ?_
    have hb := (mem_combine hx hys).mp hb
    by_cases h : b ∈ ys
    · exact hy' b h
    · rcases List.mem_cons.mp (by grind : b ∈ x :: xs) with rfl | h
      · exact hyx
      · exact Std.lt_trans hyx ((List.pairwise_cons.mp hx).1 b h)

def union (s t : SortedSet α) : SortedSet α :=
  ⟨combine true true true s.toList t.toList, pairwise_combine _ _ _ s.ascending t.ascending⟩

def inter (s t : SortedSet α) : SortedSet α :=
  ⟨combine false true false s.toList t.toList, pairwise_combine _ _ _ s.ascending t.ascending⟩

def diff (s t : SortedSet α) : SortedSet α :=
  ⟨combine true false false s.toList t.toList, pairwise_combine _ _ _ s.ascending t.ascending⟩

@[simp]
theorem mem_union {s t : SortedSet α} {a : α} : a ∈ s.union t ↔ a ∈ s ∨ a ∈ t :=
  (mem_combine s.ascending t.ascending).trans (by simp only [mem_toList]; grind)

@[simp]
theorem mem_inter {s t : SortedSet α} {a : α} : a ∈ s.inter t ↔ a ∈ s ∧ a ∈ t :=
  (mem_combine s.ascending t.ascending).trans (by simp)

@[simp]
theorem mem_diff {s t : SortedSet α} {a : α} : a ∈ s.diff t ↔ a ∈ s ∧ a ∉ t :=
  (mem_combine s.ascending t.ascending).trans (by simp)

theorem mem_foldl_union {s : SortedSet α} {l : List (SortedSet α)} {a : α} :
    a ∈ l.foldl union s ↔ ∃ t ∈ s :: l, a ∈ t := by
  induction l generalizing s with
  | nil => simp
  | cons t l ih => simp [ih, or_assoc]

theorem mem_foldl_inter {s : SortedSet α} {l : List (SortedSet α)} {a : α} :
    a ∈ l.foldl inter s ↔ ∀ t ∈ s :: l, a ∈ t := by
  induction l generalizing s with
  | nil => simp
  | cons t l ih => simp [ih, and_assoc]

def insert (s : SortedSet α) (a : α) : SortedSet α := s.union (singleton a)

@[simp]
theorem mem_insert {s : SortedSet α} {a b : α} : a ∈ s.insert b ↔ a = b ∨ a ∈ s := by
  simp [insert, or_comm]

/-- The elements of a list, sorted by halves. -/
def ofList : List α → SortedSet α
  | [] => ∅
  | [a] => singleton a
  | a :: b :: l =>
    let half := (l.length + 2) / 2
    (ofList ((a :: b :: l).take half)).union (ofList ((a :: b :: l).drop half))
termination_by l => l.length
decreasing_by all_goals simp only [List.length_take, List.length_drop, List.length_cons]; omega

@[simp]
theorem mem_ofList {l : List α} {a : α} : a ∈ ofList l ↔ a ∈ l := by
  fun_induction ofList l with
  | case1 => simp
  | case2 b => simp
  | case3 b c l half ih₁ ih₂ =>
    rw [mem_union, ih₁, ih₂, ← List.mem_append, List.take_append_drop]

def insertMany (s : SortedSet α) (l : List α) : SortedSet α := s.union (ofList l)

@[simp]
theorem mem_insertMany {s : SortedSet α} {l : List α} {a : α} :
    a ∈ s.insertMany l ↔ a ∈ s ∨ a ∈ l := by
  simp [insertMany]

omit [DecidableLT α] [DecidableEq α] in
theorem ext {s t : SortedSet α} (h : ∀ a, a ∈ s ↔ a ∈ t) : s = t := by
  obtain ⟨l, hl⟩ := s
  obtain ⟨m, hm⟩ := t
  have : l = m := by
    induction l generalizing m with
    | nil =>
      cases m with
      | nil => rfl
      | cons b m => exact absurd ((h b).mpr List.mem_cons_self) List.not_mem_nil
    | cons a l ih =>
      cases m with
      | nil => exact absurd ((h a).mp List.mem_cons_self) List.not_mem_nil
      | cons b m =>
        have ha := List.pairwise_cons.mp hl
        have hb := List.pairwise_cons.mp hm
        have hab : a = b := by
          rcases List.mem_cons.mp ((h a).mp List.mem_cons_self) with e | e
          · exact e
          · rcases List.mem_cons.mp ((h b).mpr List.mem_cons_self) with e' | e'
            · exact e'.symm
            · exact absurd (Std.lt_trans (ha.1 b e') (hb.1 a e)) Std.lt_irrefl
        subst hab
        refine congrArg (a :: ·) (ih ha.2 m hb.2 fun x => ?_)
        have hx := h x
        constructor
        · intro hm
          rcases List.mem_cons.mp (hx.mp (List.mem_cons_of_mem a hm)) with e | e
          · exact absurd (e ▸ ha.1 x hm) Std.lt_irrefl
          · exact e
        · intro hm
          rcases List.mem_cons.mp (hx.mpr (List.mem_cons_of_mem a hm)) with e | e
          · exact absurd (e ▸ hb.1 x hm) Std.lt_irrefl
          · exact e
  subst this
  rfl

end

end SortedSet

end Slicing
