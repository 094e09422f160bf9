import Slicing.Digraph.Finish

/-!
# Recursive depth-first search

The rules of a depth-first search that calls itself on the successors of a node: a
node is entered when it is met for the first time, then its successors are
searched one after another, and then it is left. `Descent.unwind_eq` says that the
search with an explicit stack leaves the nodes in the same order.
-/
namespace Slicing

namespace Digraph

/-- Searching the listed nodes in turn, where the nodes of the first list have been entered
before, extends that list to the third one and leaves the nodes of the last one. -/
inductive Descent (g : Digraph) :
    List NodeId → List NodeId → List NodeId → List NodeId → Prop where
  | done {entered : List NodeId} : Descent g entered [] entered []
  | skip {v : NodeId} {vs entered entered' left : List NodeId} :
      v ∈ entered → Descent g entered vs entered' left →
      Descent g entered (v :: vs) entered' left
  | enter {v : NodeId} {vs entered inner entered' left left' : List NodeId} :
      v ∉ entered → Descent g (entered ++ [v]) (g.succ v) inner left →
      Descent g inner vs entered' left' →
      Descent g entered (v :: vs) entered' (left ++ v :: left')

namespace Descent

/-- The marks stand for the entered nodes. -/
def Marked (g : Digraph) (entered : List NodeId) (seen : Marks) : Prop :=
  ∀ w, seen.Unmet w ↔ w < g.size ∧ w ∉ entered

theorem Marked.mark {g : Digraph} {entered : List NodeId} {seen : Marks}
    (h : Marked g entered seen) (v : NodeId) : Marked g (entered ++ [v]) (seen.mark v) := by
  intro w
  rw [Marks.unmet_mark, h w, List.mem_append, List.mem_singleton, not_or, and_assoc]

/-- The stack machine leaves the nodes as the recursive search does, and goes on below. -/
theorem unwind_eq {g : Digraph} {entered vs entered' left : List NodeId}
    (h : g.Descent entered vs entered' left) (hvs : ∀ w ∈ vs, w < g.size) {seen : Marks}
    (hm : Marked g entered seen) :
    ∃ seen', Marked g entered' seen' ∧ ∀ v below,
      g.unwind ((v, vs) :: below) seen = left ++ v :: g.unwind below seen' := by
  induction h generalizing seen with
  | done => exact ⟨seen, hm, fun v below => unwind_of_skip_eq_nil rfl⟩
  | @skip w vs entered _ _ hw _ ih =>
    obtain ⟨seen', hm', h'⟩ := ih (fun x hx => hvs x (List.mem_cons_of_mem w hx)) hm
    refine ⟨seen', hm', fun v below => ?_⟩
    rw [unwind_cons_of_not_unmet fun hu => ((hm w).mp hu).2 hw, h']
  | @enter w vs entered _ _ _ _ hw _ _ ih ih' =>
    have hu : seen.Unmet w := (hm w).mpr ⟨hvs w List.mem_cons_self, hw⟩
    obtain ⟨seen₁, hm₁, h₁⟩ := ih (fun _ hx => lt_size_of_mem_succ hx) (hm.mark w)
    obtain ⟨seen₂, hm₂, h₂⟩ := ih' (fun x hx => hvs x (List.mem_cons_of_mem w hx)) hm₁
    refine ⟨seen₂, hm₂, fun v below => ?_⟩
    rw [unwind_cons_of_unmet hu, h₁, h₂, List.append_assoc, List.cons_append]

end Descent

end Digraph

end Slicing
