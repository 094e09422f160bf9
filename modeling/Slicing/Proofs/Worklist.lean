import Mathlib.Algebra.BigOperators.Group.Finset.Basic
import Mathlib.Logic.Relation
import Slicing.NodeId

/-!
# Worklists

A worklist keeps the nodes that have been visited and a list of nodes that are to be visited,
in which a node may stand more than once. A turn takes the node on top. A node that has been
visited is dropped; any other node is visited, and those of its neighbours that have not been
visited are pushed. Nothing is said about the order in which they are pushed, so that what is
proved of all runs holds for every order.

A turn uses up one pending node, and the neighbours of a node are pushed once at most. A run
from one node is therefore no longer than one turn for that node and one for each neighbour in
the lists of all nodes. When no node is pending, the visited nodes are those that can be reached
from the first one.
-/
namespace Slicing

/-- The nodes that wait to be visited, the top one first, and those that have been visited. -/
structure Worklist where
  pending : List NodeId
  visited : NodeSet

namespace Worklist

variable {next : NodeId → List NodeId} {c v w : NodeId} {k n : Nat} {s t : Worklist}

def start (c : NodeId) : Worklist := ⟨[c], ∅⟩

/-- One turn. The unvisited neighbours of a node are pushed in any order. -/
inductive Turn (next : NodeId → List NodeId) : Worklist → Worklist → Prop where
  | drop {v : NodeId} {rest : List NodeId} {visited : NodeSet} :
      v ∈ visited → Turn next ⟨v :: rest, visited⟩ ⟨rest, visited⟩
  | visit {v : NodeId} {rest pushed : List NodeId} {visited : NodeSet} :
      v ∉ visited → pushed.Perm ((next v).filter (· ∉ visited.insert v)) →
      Turn next ⟨v :: rest, visited⟩ ⟨pushed ++ rest, visited.insert v⟩

inductive Run (next : NodeId → List NodeId) : Nat → Worklist → Worklist → Prop where
  | done {s : Worklist} : Run next 0 s s
  | turn {k : Nat} {s t u : Worklist} : Run next k s t → Turn next t u → Run next (k + 1) s u

theorem exists_turn (next : NodeId → List NodeId) (h : s.pending ≠ []) : ∃ t, Turn next s t := by
  obtain ⟨pending, visited⟩ := s
  cases pending with
  | nil => exact absurd rfl h
  | cons v rest =>
    by_cases hv : v ∈ visited
    · exact ⟨_, .drop hv⟩
    · exact ⟨_, .visit hv (.refl _)⟩

/-! ## What is found -/

/-- The node is pending or has been visited. -/
def Knows (s : Worklist) (v : NodeId) : Prop := v ∈ s.pending ∨ v ∈ s.visited

theorem Turn.knows (h : Turn next s t) (hw : s.Knows w) : t.Knows w := by
  cases h with
  | drop hv =>
    cases hw with
    | inl hpending =>
      cases List.mem_cons.mp hpending with
      | inl hwv => exact .inr (hwv ▸ hv)
      | inr hrest => exact .inl hrest
    | inr hvisited => exact .inr hvisited
  | visit hv hpushed =>
    cases hw with
    | inl hpending =>
      cases List.mem_cons.mp hpending with
      | inl hwv => exact .inr (SortedSet.mem_insert.mpr (.inl hwv))
      | inr hrest => exact .inl (List.mem_append_right _ hrest)
    | inr hvisited => exact .inr (SortedSet.mem_insert.mpr (.inr hvisited))

theorem Turn.knows_or_mem_next (h : Turn next s t) (hw : t.Knows w) :
    s.Knows w ∨ ∃ v, s.Knows v ∧ w ∈ next v := by
  cases h with
  | drop hv => exact .inl (hw.imp_left (List.mem_cons_of_mem _))
  | @visit v rest pushed visited hv hpushed =>
    have htop : Knows ⟨v :: rest, visited⟩ v := .inl List.mem_cons_self
    cases hw with
    | inl hpending =>
      cases List.mem_append.mp hpending with
      | inl hmem => exact .inr ⟨v, htop, (List.mem_filter.mp (hpushed.mem_iff.mp hmem)).1⟩
      | inr hrest => exact .inl (.inl (List.mem_cons_of_mem _ hrest))
    | inr hvisited =>
      cases SortedSet.mem_insert.mp hvisited with
      | inl hwv => exact .inl (hwv ▸ htop)
      | inr hold => exact .inl (.inr hold)

theorem Turn.knows_of_mem_next (h : Turn next s t) (hv : v ∈ t.visited) (hw : w ∈ next v) :
    v ∈ s.visited ∨ t.Knows w := by
  cases h with
  | drop _ => exact .inl hv
  | @visit u rest pushed visited hu hpushed =>
    cases SortedSet.mem_insert.mp hv with
    | inr hold => exact .inl hold
    | inl hvu =>
      by_cases hvisited : w ∈ visited.insert u
      · exact .inr (.inr hvisited)
      · have hmem : w ∈ (next u).filter (· ∉ visited.insert u) :=
          List.mem_filter.mpr ⟨hvu ▸ hw, decide_eq_true hvisited⟩
        exact .inr (.inl (List.mem_append_left _ (hpushed.mem_iff.mpr hmem)))

/-- The known nodes can be reached from the first one, which is one of them, and with a visited
node all its neighbours are known. -/
structure Searches (next : NodeId → List NodeId) (c : NodeId) (s : Worklist) : Prop where
  reaches : ∀ {w}, s.Knows w → Relation.ReflTransGen (fun v w => w ∈ next v) c w
  knows : s.Knows c
  knows_next : ∀ {v w}, v ∈ s.visited → w ∈ next v → s.Knows w

namespace Searches

theorem start (next : NodeId → List NodeId) (c : NodeId) : Searches next c (start c) where
  reaches hw := by
    cases hw with
    | inl hpending => exact List.mem_singleton.mp hpending ▸ .refl
    | inr hvisited => exact absurd hvisited (SortedSet.not_mem_empty _)
  knows := .inl List.mem_cons_self
  knows_next hv := absurd hv (SortedSet.not_mem_empty _)

theorem turn (hs : Searches next c s) (h : Turn next s t) : Searches next c t where
  reaches hw := by
    cases h.knows_or_mem_next hw with
    | inl hold => exact hs.reaches hold
    | inr hnew =>
      obtain ⟨v, hv, hwv⟩ := hnew
      exact (hs.reaches hv).tail hwv
  knows := h.knows hs.knows
  knows_next hv hw := by
    cases h.knows_of_mem_next hv hw with
    | inl hold => exact h.knows (hs.knows_next hold hw)
    | inr hnew => exact hnew

theorem run (hs : Searches next c s) (h : Run next k s t) : Searches next c t := by
  induction h with
  | done => exact hs
  | turn _ ht ih => exact (ih hs).turn ht

/-- When no node is pending, the visited nodes are those that can be reached. -/
theorem mem_visited_iff (hs : Searches next c s) (h : s.pending = []) :
    w ∈ s.visited ↔ Relation.ReflTransGen (fun v w => w ∈ next v) c w := by
  have hvisited : ∀ {w}, s.Knows w → w ∈ s.visited := by
    intro w hw
    exact hw.resolve_left fun hpending => List.not_mem_nil (h ▸ hpending)
  constructor
  · intro hw
    exact hs.reaches (.inr hw)
  · intro hreach
    induction hreach with
    | refl => exact hvisited hs.knows
    | tail _ hw ih => exact hvisited (hs.knows_next ih hw)

end Searches

/-! ## How long it takes -/

/-- The pending nodes, and all neighbours that nodes below `n` can still push. -/
def budget (n : Nat) (next : NodeId → List NodeId) (s : Worklist) : Nat :=
  s.pending.length + ∑ v ∈ Finset.range n with v ∉ s.visited, (next v).length

theorem budget_start (n : Nat) (next : NodeId → List NodeId) (c : NodeId) :
    (start c).budget n next = 1 + ∑ v ∈ Finset.range n, (next v).length := by
  simp [budget, start]

theorem sum_unvisited_insert {visited : NodeSet} (hnext : n ≤ v → next v = [])
    (hv : v ∉ visited) :
    (next v).length + ∑ u ∈ Finset.range n with u ∉ visited.insert v, (next u).length =
      ∑ u ∈ Finset.range n with u ∉ visited, (next u).length := by
  have herase : (Finset.range n).filter (· ∉ visited.insert v) =
      ((Finset.range n).filter (· ∉ visited)).erase v := by
    ext u
    simp only [Finset.mem_filter, Finset.mem_erase, SortedSet.mem_insert, not_or]
    tauto
  rw [herase]
  by_cases hn : v < n
  · have hmem : v ∈ (Finset.range n).filter (· ∉ visited) :=
      Finset.mem_filter.mpr ⟨Finset.mem_range.mpr hn, hv⟩
    exact Finset.add_sum_erase _ (fun u => (next u).length) hmem
  · have hnot : v ∉ (Finset.range n).filter (· ∉ visited) := fun hmem =>
      hn (Finset.mem_range.mp (Finset.mem_filter.mp hmem).1)
    rw [Finset.erase_eq_of_notMem hnot, hnext (Nat.le_of_not_lt hn), List.length_nil, Nat.zero_add]

theorem Turn.budget_lt (hnext : ∀ v, n ≤ v → next v = []) (h : Turn next s t) :
    t.budget n next < s.budget n next := by
  cases h with
  | drop _ =>
    simp only [budget, List.length_cons]
    omega
  | @visit v rest pushed visited hv hpushed =>
    have hlength : pushed.length ≤ (next v).length :=
      hpushed.length_eq ▸ List.length_filter_le _ _
    have hsum := sum_unvisited_insert (hnext v) hv
    simp only [budget, List.length_append, List.length_cons]
    omega

theorem Run.add_budget_le (hnext : ∀ v, n ≤ v → next v = []) (h : Run next k s t) :
    k + t.budget n next ≤ s.budget n next := by
  induction h with
  | done => exact Nat.le_of_eq (Nat.zero_add _)
  | turn _ ht ih =>
    have hlt := ht.budget_lt hnext
    omega

end Worklist

end Slicing
