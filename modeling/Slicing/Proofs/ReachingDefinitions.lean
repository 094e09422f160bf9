import Slicing.Dependence.Data

/-!
# Data dependence by reaching definitions

A value that a node gives to a symbol stays there until the symbol is assigned again. It
arrives at the nodes to which some way leads without another assignment strictly between its
ends; the last node may assign the symbol itself, and it may be the first node again.

The search for the readers of the value marks each node once and does not go on from a node
that assigns the symbol. It finds exactly the nodes at which the value arrives: a way without
an assignment in between is followed to its end, and the nodes by which a node was found make
such a way.
-/
namespace Slicing

theorem Digraph.Path.uncons {g : Digraph} {u v w : NodeId} {p : List NodeId}
    (h : g.Path u (u :: v :: p) w) : v ∈ g.succ u ∧ g.Path v (v :: p) w := by
  cases h with
  | cons hsucc hrest =>
    cases hrest with
    | single hw => exact ⟨hsucc, .single hw⟩
    | cons hsucc' hrest' => exact ⟨hsucc, .cons hsucc' hrest'⟩

namespace FlowGraph

variable {cfg : FlowGraph} {u v w : NodeId} {x : Symbol} {inner : List NodeId}

/-- Some way of at least one edge leads from the first node to the second, and no node strictly
between its ends assigns the symbol. -/
def Carries (cfg : FlowGraph) (x : Symbol) (v w : NodeId) : Prop :=
  ∃ inner, cfg.Path v (v :: inner ++ [w]) w ∧ ∀ u ∈ inner, x ∉ cfg.defs u

theorem mem_flowOn : w ∈ cfg.flowOn x v ↔ x ∉ cfg.defs v ∧ w ∈ cfg.succ v := by
  unfold flowOn
  split
  · next hx => simp [hx]
  · next hx => simp [hx]

namespace Carries

theorem of_mem_succ (h : w ∈ cfg.succ v) : cfg.Carries x v w :=
  ⟨[], .cons h (.single (Digraph.lt_size_of_mem_succ h)), fun _ hu => absurd hu List.not_mem_nil⟩

theorem tail (h : cfg.Carries x v u) (hw : w ∈ cfg.flowOn x u) : cfg.Carries x v w := by
  obtain ⟨inner, hpath, hclear⟩ := h
  obtain ⟨hu, hsucc⟩ := mem_flowOn.mp hw
  refine ⟨inner ++ [u], ?_, ?_⟩
  · have hedge : cfg.Path u [u, w] w := .cons hsucc (.single (Digraph.lt_size_of_mem_succ hsucc))
    exact hpath.append hedge
  · intro y hy
    cases List.mem_append.mp hy with
    | inl hinner => exact hclear y hinner
    | inr hlast => exact List.mem_singleton.mp hlast ▸ hu

theorem lt_size (h : cfg.Carries x v w) : v < cfg.size := by
  obtain ⟨_, hpath, _⟩ := h
  exact hpath.lt_size_of_mem hpath.source_mem

end Carries

/-- If the search has found all successors of a node, it finds the end of every way from the node
on which no node strictly between the ends assigns the symbol. -/
theorem reachable_of_path {seeds : List NodeId}
    (hfound : ∀ y ∈ cfg.succ u, Search.Reachable cfg.size (cfg.flowOn x) seeds y)
    (hpath : cfg.Path u (u :: inner ++ [w]) w) (hclear : ∀ y ∈ inner, x ∉ cfg.defs y) :
    Search.Reachable cfg.size (cfg.flowOn x) seeds w := by
  induction inner generalizing u with
  | nil => exact hfound w hpath.uncons.1
  | cons y inner ih =>
    obtain ⟨hsucc, hrest⟩ := hpath.uncons
    have hy : x ∉ cfg.defs y := hclear y List.mem_cons_self
    apply ih _ hrest fun z hz => hclear z (List.mem_cons_of_mem y hz)
    intro z hz
    exact .step (hfound y hsucc) (mem_flowOn.mpr ⟨hy, hz⟩) (Digraph.lt_size_of_mem_succ hz)

theorem reachable_flowOn_iff :
    Search.Reachable cfg.size (cfg.flowOn x) (cfg.succ v) w ↔ cfg.Carries x v w := by
  constructor
  · intro h
    induction h with
    | seed hs _ => exact .of_mem_succ hs
    | step _ hw _ ih => exact ih.tail hw
  · intro ⟨inner, hpath, hclear⟩
    apply reachable_of_path _ hpath hclear
    intro y hy
    exact .seed hy (Digraph.lt_size_of_mem_succ hy)

/-- The nodes that a node feeds are the readers of its definitions: the node is in the graph, it
assigns a symbol that the other one reads, and some way of at least one edge leads from it to the
other one on which no node strictly between the ends assigns the symbol. -/
theorem mem_fedBy_iff_definition_reaches (cfg : FlowGraph) (v w : NodeId) :
    w ∈ cfg.fedBy v ↔
      v < cfg.size ∧ ∃ x ∈ cfg.defs v, x ∈ cfg.uses w ∧
        ∃ inner, cfg.Path v (v :: inner ++ [w]) w ∧ ∀ u ∈ inner, x ∉ cfg.defs u := by
  rw [mem_fedBy]
  simp only [mem_readersOf, reachable_flowOn_iff]
  constructor
  · intro ⟨x, hdef, hcarries, huse⟩
    exact ⟨hcarries.lt_size, x, hdef, huse, hcarries⟩
  · intro ⟨_, x, hdef, huse, hcarries⟩
    exact ⟨x, hdef, hcarries, huse⟩

end FlowGraph

end Slicing
