import Slicing.Digraph.Marks
import Slicing.Digraph.Path

/-!
# Searching a graph

`Search.visit` is a walk over any neighbour function. It keeps a stack of pending
nodes, each marked when it is pushed, so that every node is pushed at most once. A
visit marks all unmet neighbours of the node and pushes them, the first one on top.
A pending node is reserved: it keeps its place on the stack even if a node that is
visited before it lists it again, so the order of the visits need not be depth first.

Each step takes one node from the stack and pushes exactly as many nodes as it
marks, so unmet nodes and stack together shrink by one.

A search finds exactly what it should, each node once: `Search.mem_reach` and
`Search.nodup_reach` say so for any neighbour function, and
`Digraph.mem_visitOrder` for the successors in a graph.
-/
namespace Slicing

namespace Search

/-- Visits the pending nodes and all that follows from them. A visit reserves the unmet neighbours
of the node, ahead of the other pending nodes. -/
def visit (next : NodeId → List NodeId) (pending : List NodeId) (seen : Marks) :
    List NodeId :=
  match pending with
  | [] => []
  | v :: rest =>
    let collected := seen.collect (next v)
    v :: visit next (collected.1 ++ rest) collected.2
termination_by seen.remaining + pending.length
decreasing_by
  have := seen.remaining_collect (next v)
  simp only [List.length_append, List.length_cons]
  omega

/-- The nodes below `n` that can be reached from the seeds, in the order of the visit. -/
def reach (n : Nat) (next : NodeId → List NodeId) (seeds : List NodeId) : List NodeId :=
  let collected := (Marks.none n).collect seeds
  visit next collected.1 collected.2

variable {next : NodeId → List NodeId}

@[simp]
theorem visit_nil (seen : Marks) : visit next [] seen = [] := by
  rw [visit]

theorem visit_cons (v : NodeId) (rest : List NodeId) (seen : Marks) :
    visit next (v :: rest) seen =
      v :: visit next ((seen.collect (next v)).1 ++ rest) (seen.collect (next v)).2 := by
  rw [visit]

/-- A node is pending, or follows from pending nodes through unmet ones. -/
inductive Follows (next : NodeId → List NodeId) (pending : List NodeId) (seen : Marks) :
    NodeId → Prop where
  | pending {w : NodeId} : w ∈ pending → Follows next pending seen w
  | step {v w : NodeId} :
      Follows next pending seen v → w ∈ next v → seen.Unmet w → Follows next pending seen w

theorem follows_cons {v w : NodeId} {rest : List NodeId} {seen : Marks} :
    Follows next (v :: rest) seen w ↔
      w = v ∨ Follows next ((seen.collect (next v)).1 ++ rest) (seen.collect (next v)).2 w := by
  constructor
  · intro h
    induction h with
    | pending h =>
      rcases List.mem_cons.mp h with rfl | h
      · exact .inl rfl
      · exact .inr (.pending (List.mem_append_right _ h))
    | @step u w _ hw hu ih =>
      by_cases hv : w ∈ next v
      · exact .inr (.pending (List.mem_append_left _ (Marks.mem_collect.mpr ⟨hu, hv⟩)))
      · rcases ih with rfl | ih
        · exact absurd hw hv
        · exact .inr (.step ih hw (Marks.unmet_collect.mpr ⟨hu, hv⟩))
  · rintro (rfl | h)
    · exact .pending List.mem_cons_self
    · induction h with
      | pending h =>
        rcases List.mem_append.mp h with h | h
        · obtain ⟨hu, hv⟩ := Marks.mem_collect.mp h
          exact .step (.pending List.mem_cons_self) hv hu
        · exact .pending (List.mem_cons_of_mem v h)
      | step _ hw hu ih => exact .step ih hw (Marks.unmet_collect.mp hu).1

theorem mem_visit {pending : List NodeId} {seen : Marks} {w : NodeId} :
    w ∈ visit next pending seen ↔ Follows next pending seen w := by
  fun_induction visit next pending seen with
  | case1 seen =>
    refine ⟨fun h => absurd h List.not_mem_nil, fun h => ?_⟩
    induction h with
    | pending h => exact h
    | step _ _ _ ih => exact absurd ih List.not_mem_nil
  | case2 seen v rest collected ih => rw [List.mem_cons, ih, follows_cons]

theorem nodup_visit {pending : List NodeId} {seen : Marks} (hp : pending.Nodup)
    (hm : ∀ v ∈ pending, ¬seen.Unmet v) : (visit next pending seen).Nodup := by
  fun_induction visit next pending seen with
  | case1 seen => exact List.nodup_nil
  | case2 seen v rest collected ih =>
    obtain ⟨hv, hr⟩ := List.nodup_cons.mp hp
    have hunmet : ¬seen.Unmet v := hm v List.mem_cons_self
    have hmem : v ∉ collected.1 ++ rest := by
      intro h
      rcases List.mem_append.mp h with h | h
      · exact hunmet (Marks.mem_collect.mp h).1
      · exact hv h
    refine List.nodup_cons.mpr ⟨fun h => ?_, ih ?_ ?_⟩
    · cases mem_visit.mp h with
      | pending h => exact hmem h
      | step _ _ h => exact hunmet (Marks.unmet_collect.mp h).1
    · refine List.nodup_append.mpr ⟨seen.nodup_collect _, hr, fun a ha b hb => ?_⟩
      rintro rfl
      exact hm a (List.mem_cons_of_mem v hb) (Marks.mem_collect.mp ha).1
    · intro w hw hu
      have hu := Marks.unmet_collect.mp hu
      rcases List.mem_append.mp hw with hw | hw
      · exact hu.2 (Marks.mem_collect.mp hw).2
      · exact hm w (List.mem_cons_of_mem v hw) hu.1

/-- A node below `n` is a seed, or a neighbour of one that is reachable. -/
inductive Reachable (n : Nat) (next : NodeId → List NodeId) (seeds : List NodeId) :
    NodeId → Prop where
  | seed {w : NodeId} : w ∈ seeds → w < n → Reachable n next seeds w
  | step {v w : NodeId} :
      Reachable n next seeds v → w ∈ next v → w < n → Reachable n next seeds w

/-- A search finds exactly the reachable nodes. -/
theorem mem_reach {n : Nat} {seeds : List NodeId} {w : NodeId} :
    w ∈ reach n next seeds ↔ Reachable n next seeds w := by
  rw [reach, mem_visit]
  constructor
  · intro h
    induction h with
    | pending h =>
      obtain ⟨hu, hs⟩ := Marks.mem_collect.mp h
      exact .seed hs (Marks.unmet_none.mp hu)
    | step _ hw hu ih => exact .step ih hw (Marks.unmet_none.mp (Marks.unmet_collect.mp hu).1)
  · intro h
    induction h with
    | seed hs hn => exact .pending (Marks.mem_collect.mpr ⟨Marks.unmet_none.mpr hn, hs⟩)
    | @step v w _ hw hn ih =>
      have hu := Marks.unmet_none.mpr hn
      by_cases hs : w ∈ seeds
      · exact .pending (Marks.mem_collect.mpr ⟨hu, hs⟩)
      · exact .step ih hw (Marks.unmet_collect.mpr ⟨hu, hs⟩)

theorem nodup_reach (n : Nat) (next : NodeId → List NodeId) (seeds : List NodeId) :
    (reach n next seeds).Nodup :=
  nodup_visit (Marks.nodup_collect _ _) fun _ hv hu =>
    (Marks.unmet_collect.mp hu).2 (Marks.mem_collect.mp hv).2

end Search

namespace Digraph

/-- The nodes reachable from `start`, each once, in the order of a walk that reserves a node when
it is first listed as a successor; a start outside the graph gives none. -/
def visitOrder (g : Digraph) (start : NodeId) : List NodeId :=
  Search.reach g.size g.succ [start]

theorem nodup_visitOrder (g : Digraph) (start : NodeId) : (g.visitOrder start).Nodup :=
  Search.nodup_reach _ _ _

/-- The walk visits exactly the nodes that its start reaches. -/
theorem mem_visitOrder {g : Digraph} {start w : NodeId} :
    w ∈ g.visitOrder start ↔ g.Reaches start w := by
  rw [visitOrder, Search.mem_reach]
  constructor
  · intro h
    induction h with
    | seed hs hn => exact List.mem_singleton.mp hs ▸ .refl hn
    | step _ hw _ ih => exact ih.tail hw
  · rintro ⟨p, hp⟩
    suffices ∀ u, Search.Reachable g.size g.succ [start] u → g.Path u p w →
        Search.Reachable g.size g.succ [start] w from
      this start (.seed List.mem_cons_self (hp.lt_size_of_mem hp.source_mem)) hp
    clear hp
    intro u hu hp
    induction hp with
    | single _ => exact hu
    | cons he _ ih => exact ih (.step hu he (lt_size_of_mem_succ he))

end Digraph

end Slicing
