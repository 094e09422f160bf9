import Slicing.FlowGraph.Basic

/-!
# Execution of flow graphs

A flow graph says which symbols a node reads and assigns and where it may lead, but not
what it computes. An interpretation adds that: from the values of the symbols that a node
reads it gives a value for each symbol that the node assigns, and a successor. A run
executes node after node and stays at the finish. What is observed of a run is the list of
its visits to some nodes of interest, each with the values that were read there.
-/
namespace Slicing

universe u

/-- A node with values for the symbols that it reads. -/
structure Visit (cfg : FlowGraph) (Val : Type u) where
  node : NodeId
  values : {x // x ∈ cfg.uses node} → Val

/-- What the nodes of a flow graph compute. -/
structure Interpretation (cfg : FlowGraph) (Val : Type u) where
  assign : (a : Visit cfg Val) → {x // x ∈ cfg.defs a.node} → Val
  next : Visit cfg Val → NodeId
  next_mem : ∀ a, a.node < cfg.size → a.node ≠ cfg.finish → next a ∈ cfg.succ a.node

/-- A node of the graph, with a value for every symbol. -/
structure State (cfg : FlowGraph) (Val : Type u) where
  node : NodeId
  node_lt : node < cfg.size
  store : Symbol → Val

variable {cfg : FlowGraph} {Val : Type u} {s t : State cfg Val}

namespace State

def initial (cfg : FlowGraph) (store : Symbol → Val) : State cfg Val :=
  ⟨cfg.start, cfg.start_lt, store⟩

/-- What the node of a state sees of the store. -/
def visit (s : State cfg Val) : Visit cfg Val := ⟨s.node, fun x => s.store x.1⟩

/-- The visit, if it is to a node of interest. -/
def visits (S : NodeSet) (s : State cfg Val) : List (Visit cfg Val) :=
  if s.node ∈ S then [s.visit] else []

theorem visit_eq_visit (hnode : s.node = t.node)
    (hstore : ∀ x ∈ cfg.uses s.node, s.store x = t.store x) : s.visit = t.visit := by
  obtain ⟨v, hv, σ⟩ := s
  obtain ⟨w, hw, τ⟩ := t
  obtain rfl : v = w := hnode
  have hvalues : (fun x : {x // x ∈ cfg.uses v} => σ x.1) = fun x => τ x.1 :=
    funext fun x => hstore x.1 x.2
  simp only [visit, hvalues]

end State

namespace Interpretation

variable {I J : Interpretation cfg Val} {S : NodeSet}

/-- The value of a symbol after a visit, given its value before. -/
def write (I : Interpretation cfg Val) (a : Visit cfg Val) (x : Symbol) (old : Val) : Val :=
  if h : x ∈ cfg.defs a.node then I.assign a ⟨x, h⟩ else old

/-- Executes one node; nothing happens at the finish. -/
def step (I : Interpretation cfg Val) (s : State cfg Val) : State cfg Val :=
  if h : s.node = cfg.finish then s
  else
    { node := I.next s.visit
      node_lt := Digraph.lt_size_of_mem_succ (I.next_mem s.visit s.node_lt h)
      store := fun x => I.write s.visit x (s.store x) }

def run (I : Interpretation cfg Val) : Nat → State cfg Val → State cfg Val
  | 0, s => s
  | k + 1, s => I.run k (I.step s)

/-- The visits to the nodes of interest in the course of some steps, both ends included. -/
def record (I : Interpretation cfg Val) (S : NodeSet) : Nat → State cfg Val → List (Visit cfg Val)
  | 0, s => s.visits S
  | k + 1, s => s.visits S ++ I.record S k (I.step s)

/-- Two interpretations do the same at the nodes of a set. -/
def AgreesOn (I : Interpretation cfg Val) (S : NodeSet) (J : Interpretation cfg Val) : Prop :=
  ∀ a, a.node ∈ S → I.assign a = J.assign a ∧ I.next a = J.next a

theorem write_of_not_mem {a : Visit cfg Val} {x : Symbol} {old : Val}
    (h : x ∉ cfg.defs a.node) : I.write a x old = old := dif_neg h

theorem write_of_mem {a : Visit cfg Val} {x : Symbol} {old old' : Val}
    (h : x ∈ cfg.defs a.node) : I.write a x old = I.write a x old' := by
  rw [write, write, dif_pos h, dif_pos h]

theorem AgreesOn.write_eq (h : I.AgreesOn S J) {a : Visit cfg Val} (ha : a.node ∈ S) :
    I.write a = J.write a := by
  funext x old
  rw [write, write, (h a ha).1]

theorem step_of_eq_finish (h : s.node = cfg.finish) : I.step s = s := dif_pos h

theorem node_step (h : s.node ≠ cfg.finish) : (I.step s).node = I.next s.visit := by
  rw [step, dif_neg h]

theorem store_step (h : s.node ≠ cfg.finish) (x : Symbol) :
    (I.step s).store x = I.write s.visit x (s.store x) := by
  rw [step, dif_neg h]

theorem node_step_mem_succ (h : s.node ≠ cfg.finish) : (I.step s).node ∈ cfg.succ s.node := by
  rw [node_step h]
  exact I.next_mem s.visit s.node_lt h

theorem record_succ_of_not_mem (h : s.node ∉ S) (k : Nat) :
    I.record S (k + 1) s = I.record S k (I.step s) := by
  rw [record, State.visits, if_neg h, List.nil_append]

theorem record_succ_of_mem (h : s.node ∈ S) (k : Nat) :
    I.record S (k + 1) s = s.visit :: I.record S k (I.step s) := by
  rw [record, State.visits, if_pos h, List.singleton_append]

theorem exists_record_eq_cons (h : s.node ∈ S) (k : Nat) :
    ∃ rest, I.record S k s = s.visit :: rest := by
  cases k with
  | zero => exact ⟨[], if_pos h⟩
  | succ k => exact ⟨_, record_succ_of_mem h k⟩

end Interpretation

end Slicing
