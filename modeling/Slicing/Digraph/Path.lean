import Slicing.Digraph.Basic

/-!
# Paths

A path lists the nodes that it visits, both ends included. Reachability and
postdominance are stated by paths, without reference to any search or tree.
-/
namespace Slicing

namespace Digraph

/-- The listed nodes lead from the first node to the last one along edges of the graph. -/
inductive Path (g : Digraph) : NodeId → List NodeId → NodeId → Prop where
  | single {v : NodeId} : v < g.size → Path g v [v] v
  | cons {u v w : NodeId} {p : List NodeId} :
      v ∈ g.succ u → Path g v p w → Path g u (u :: p) w

namespace Path

variable {g : Digraph} {u v w : NodeId} {p q : List NodeId}

theorem source_mem (h : g.Path u p v) : u ∈ p := by
  cases h with
  | single _ => exact List.mem_singleton.mpr rfl
  | cons _ _ => exact List.mem_cons_self

theorem target_mem (h : g.Path u p v) : v ∈ p := by
  induction h with
  | single _ => exact List.mem_singleton.mpr rfl
  | cons _ _ ih => exact List.mem_cons_of_mem _ ih

theorem lt_size_of_mem (h : g.Path u p v) (hw : w ∈ p) : w < g.size := by
  induction h with
  | single hv => exact List.mem_singleton.mp hw ▸ hv
  | cons he _ ih =>
    rcases List.mem_cons.mp hw with rfl | hw
    · exact lt_size_of_succ he
    · exact ih hw

/-- Two paths that meet end to end make one; the shared node is listed once. -/
theorem append (h : g.Path u p v) (h' : g.Path v q w) : g.Path u (p ++ q.tail) w := by
  induction h with
  | single _ =>
    cases h' with
    | single hv => exact .single hv
    | cons he h' => exact .cons he h'
  | cons he _ ih => exact .cons he (ih h')

theorem split (h : g.Path u p v) (hw : w ∈ p) :
    ∃ q r, g.Path u q w ∧ g.Path w r v ∧ q ++ r.tail = p := by
  induction h with
  | @single v hv =>
    obtain rfl := List.mem_singleton.mp hw
    exact ⟨[w], [w], .single hv, .single hv, rfl⟩
  | @cons u v z p he hp ih =>
    rcases List.mem_cons.mp hw with rfl | hw
    · exact ⟨[w], w :: p, .single (lt_size_of_succ he), .cons he hp, rfl⟩
    · obtain ⟨q, r, hq, hr, rfl⟩ := ih hw
      exact ⟨u :: q, r, .cons he hq, hr, rfl⟩

end Path

def Reaches (g : Digraph) (u v : NodeId) : Prop := ∃ p, g.Path u p v

namespace Reaches

variable {g : Digraph} {u v w : NodeId}

theorem refl (h : v < g.size) : g.Reaches v v := ⟨[v], .single h⟩

theorem trans (h : g.Reaches u v) (h' : g.Reaches v w) : g.Reaches u w :=
  let ⟨p, hp⟩ := h
  let ⟨q, hq⟩ := h'
  ⟨p ++ q.tail, hp.append hq⟩

theorem head (h : v ∈ g.succ u) (h' : g.Reaches v w) : g.Reaches u w :=
  let ⟨p, hp⟩ := h'
  ⟨u :: p, .cons h hp⟩

theorem tail (h : g.Reaches u v) (h' : w ∈ g.succ v) : g.Reaches u w :=
  h.trans (.head h' (.refl (lt_size_of_mem_succ h')))

end Reaches

/-- A node postdominates itself, and any node that reaches the exit only through it. -/
def Postdominates (g : Digraph) (exit a b : NodeId) : Prop :=
  a = b ∨ g.Reaches b exit ∧ ∀ p, g.Path b p exit → a ∈ p

end Digraph

end Slicing
