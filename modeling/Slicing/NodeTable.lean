import Slicing.NodeId

/-!
# Tables of positions

A table gives each of finitely many nodes a number. Its entries are kept with ascending nodes, so
that tables with the same look-ups are the same value (`NodeTable.ext`).

`NodeTable.Indexes` says when a table holds the positions of a list. A table that is filled from the
numbered list does so if no node stands in the list twice; otherwise later entries would take the
place of earlier ones.
-/
namespace Slicing

/-- Numbers for finitely many nodes. -/
structure NodeTable where
  entries : List (NodeId × Nat)
  ascending : entries.Pairwise (·.1 < ·.1)
deriving DecidableEq

namespace NodeTable

/-- Puts an entry where its node belongs; an entry of the same node gives way to it. -/
def place (v : NodeId) (i : Nat) : List (NodeId × Nat) → List (NodeId × Nat)
  | [] => [(v, i)]
  | e :: es =>
    if v < e.1 then (v, i) :: e :: es
    else if v = e.1 then (v, i) :: es
    else e :: place v i es

theorem mem_place {v : NodeId} {i : Nat} {es : List (NodeId × Nat)} {e : NodeId × Nat}
    (h : e ∈ place v i es) : e = (v, i) ∨ e ∈ es := by
  fun_induction place v i es <;> grind

theorem pairwise_place {v : NodeId} {i : Nat} {es : List (NodeId × Nat)}
    (h : es.Pairwise (·.1 < ·.1)) : (place v i es).Pairwise (·.1 < ·.1) := by
  fun_induction place v i es with
  | case1 => exact List.pairwise_singleton _ _
  | case2 e es hlt =>
    refine List.pairwise_cons.mpr ⟨fun a ha => ?_, h⟩
    cases List.mem_cons.mp ha with
    | inl heq => exact heq ▸ hlt
    | inr hmem => exact Nat.lt_trans hlt (List.rel_of_pairwise_cons h hmem)
  | case3 e es _ heq =>
    obtain ⟨hfirst, hrest⟩ := List.pairwise_cons.mp h
    exact List.pairwise_cons.mpr ⟨fun a ha => heq ▸ hfirst a ha, hrest⟩
  | case4 e es hlt hne ih =>
    obtain ⟨hfirst, hrest⟩ := List.pairwise_cons.mp h
    refine List.pairwise_cons.mpr ⟨fun a ha => ?_, ih hrest⟩
    cases mem_place ha with
    | inl heq => exact heq ▸ Nat.lt_of_le_of_ne (Nat.le_of_not_lt hlt) (Ne.symm hne)
    | inr hmem => exact hfirst a hmem

def empty : NodeTable := ⟨[], .nil⟩

instance : EmptyCollection NodeTable := ⟨empty⟩

instance : Inhabited NodeTable := ⟨∅⟩

/-- Gives a node a number, in place of the one that it had. -/
def insert (t : NodeTable) (v : NodeId) (i : Nat) : NodeTable :=
  ⟨place v i t.entries, pairwise_place t.ascending⟩

def get? (t : NodeTable) (v : NodeId) : Option Nat := t.entries.lookup v

/-- The table of the given entries; of several entries of a node the last one counts. -/
def ofEntries (es : List (NodeId × Nat)) : NodeTable :=
  es.foldl (fun t e => t.insert e.1 e.2) ∅

@[simp]
theorem get?_empty (v : NodeId) : get? ∅ v = none := rfl

theorem get?_insert (t : NodeTable) (v w : NodeId) (i : Nat) :
    (t.insert v i).get? w = if w = v then some i else t.get? w := by
  simp only [get?, insert]
  generalize t.entries = es
  fun_induction place v i es <;> grind

theorem mem_entries {t : NodeTable} {v : NodeId} {i : Nat} :
    (v, i) ∈ t.entries ↔ t.get? v = some i := by
  rw [get?, List.lookup_eq_some_iff]
  constructor
  · intro h
    obtain ⟨before, after, heq⟩ := List.append_of_mem h
    refine ⟨before, after, heq, fun e he => bne_iff_ne.mpr ?_⟩
    have hsorted := t.ascending
    rw [heq, List.pairwise_append] at hsorted
    exact Nat.ne_of_gt (hsorted.2.2 e he (v, i) List.mem_cons_self)
  · intro ⟨before, after, heq, _⟩
    rw [heq]
    exact List.mem_append_right before List.mem_cons_self

theorem ext {s t : NodeTable} (h : ∀ v, s.get? v = t.get? v) : s = t := by
  have hne : ∀ {e f : NodeId × Nat}, e.1 < f.1 → e ≠ f := by
    intro e f hlt heq
    exact Nat.lt_irrefl _ (heq ▸ hlt)
  have hperm : s.entries.Perm t.entries := by
    refine (List.perm_ext_iff_of_nodup (s.ascending.imp hne) (t.ascending.imp hne)).mpr ?_
    intro e
    rw [mem_entries, mem_entries, h]
  have hentries : s.entries = t.entries :=
    hperm.eq_of_pairwise (fun _ _ _ _ hlt hgt => absurd hgt (Nat.lt_asymm hlt))
      s.ascending t.ascending
  cases s
  cases t
  congr

/-- The table holds the positions of the listed nodes, and no others. -/
def Indexes (t : NodeTable) (nodes : List NodeId) : Prop :=
  ∀ v i, t.get? v = some i ↔ nodes[i]? = some v

theorem indexes_empty : Indexes ∅ [] := by
  intro v i
  simp

theorem Indexes.get?_eq_none_iff {t : NodeTable} {nodes : List NodeId} {v : NodeId}
    (h : t.Indexes nodes) : t.get? v = none ↔ v ∉ nodes := by
  rw [Option.eq_none_iff_forall_ne_some, List.mem_iff_getElem?, not_exists]
  exact forall_congr' fun i => not_congr (h v i)

theorem Indexes.concat {t : NodeTable} {nodes : List NodeId} {v : NodeId} (h : t.Indexes nodes)
    (hv : v ∉ nodes) : (t.insert v nodes.length).Indexes (nodes ++ [v]) := by
  intro w i
  rw [get?_insert, List.getElem?_append]
  by_cases hi : i < nodes.length
  · have hne : nodes[i]? = some w → w ≠ v := fun hw heq => hv (heq ▸ List.mem_of_getElem? hw)
    have hw := h w i
    grind
  · have hnone : t.get? w ≠ some i := fun hw =>
      hi (List.getElem?_eq_some_iff.mp ((h w i).mp hw)).1
    grind

theorem Indexes.foldl_insert {t : NodeTable} {nodes more : List NodeId} (h : t.Indexes nodes)
    (hnodup : (nodes ++ more).Nodup) :
    ((more.zipIdx nodes.length).foldl (fun t e => t.insert e.1 e.2) t).Indexes (nodes ++ more) := by
  induction more generalizing t nodes with
  | nil => simpa using h
  | cons v more ih =>
    have hv : v ∉ nodes := fun hmem =>
      (List.nodup_append.mp hnodup).2.2 v hmem v List.mem_cons_self rfl
    rw [List.append_cons] at hnodup ⊢
    have hrest := ih (h.concat hv) hnodup
    rw [List.length_append] at hrest
    exact hrest

theorem indexes_ofEntries {nodes : List NodeId} (h : nodes.Nodup) :
    (ofEntries nodes.zipIdx).Indexes nodes :=
  indexes_empty.foldl_insert h

theorem Indexes.nodup {t : NodeTable} {nodes : List NodeId} (h : t.Indexes nodes) :
    nodes.Nodup := by
  refine List.pairwise_iff_getElem.mpr fun i j hi hj hij heq => ?_
  have hfirst := (h _ i).mpr (List.getElem?_eq_getElem hi)
  have hsecond := (h _ j).mpr (List.getElem?_eq_getElem hj)
  rw [heq, hsecond] at hfirst
  exact Nat.ne_of_gt hij (Option.some.inj hfirst)

end NodeTable

end Slicing
