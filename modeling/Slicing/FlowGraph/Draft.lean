import Slicing.FlowGraph.Basic

/-!
# Drafts of flow graphs

A draft collects statements and edges in any order; edges may name nodes that are
added later. Each terminal is either designated or the only statement of its kind.
Building checks the terminals first and then the edges in the order in which they
were added, and it reports the first defect that it meets.
-/
namespace Slicing

structure Draft where
  statements : Array Statement := #[]
  edges : Array (NodeId × NodeId) := #[]
  start? : Option NodeId := none
  finish? : Option NodeId := none
deriving DecidableEq, Inhabited

namespace Draft

def size (d : Draft) : Nat := d.statements.size

/-- Adds a statement; its node is the size of the draft before. -/
def addStatement (d : Draft) (s : Statement) : Draft :=
  { d with statements := d.statements.push s }

def addEdge (d : Draft) (source target : NodeId) : Draft :=
  { d with edges := d.edges.push (source, target) }

/-- Makes a node a terminal, whatever its kind. -/
def designate (d : Draft) (t : Terminal) (v : NodeId) : Draft :=
  match t with
  | .start => { d with start? := some v }
  | .finish => { d with finish? := some v }

def designated? (d : Draft) : Terminal → Option NodeId
  | .start => d.start?
  | .finish => d.finish?

/-- The nodes whose statements have the given kind, in order. -/
def ofKind (d : Draft) (k : StatementKind) : List NodeId :=
  (List.range d.size).filter fun v => d.statements[v]?.any (·.kind = k)

/-- Finds a terminal: the designated node, or else the only one of its kind. -/
def findTerminal (d : Draft) (t : Terminal) : Except Defect NodeId :=
  match d.designated? t with
  | some v => if v < d.size then .ok v else .error (.terminalOutside t v d.size)
  | none =>
    match d.ofKind t.kind with
    | [] => .error (.noTerminal t)
    | [v] => .ok v
    | v :: w :: _ => .error (.severalTerminals t v w)

theorem lt_size_of_findTerminal {d : Draft} {t : Terminal} {v : NodeId}
    (h : d.findTerminal t = .ok v) : v < d.size := by
  unfold findTerminal at h
  split at h
  · split at h
    · next hv => exact Except.ok.inj h ▸ hv
    · exact absurd h nofun
  · split at h
    · exact absurd h nofun
    · next w hw =>
      have hmem : w ∈ d.ofKind t.kind := hw ▸ List.mem_singleton.mpr rfl
      exact Except.ok.inj h ▸ List.mem_range.mp (List.mem_filter.mp hmem).1
    · exact absurd h nofun

/-- What is wrong with an edge, given the finish. -/
def edgeDefect? (d : Draft) (finish : NodeId) (e : NodeId × NodeId) : Option Defect :=
  if e.1 < d.size ∧ e.2 < d.size then
    if e.1 = finish then some (.edgeFromFinish e.1 e.2) else none
  else some (.edgeOutside e.1 e.2 d.size)

def firstEdgeDefect? (d : Draft) (finish : NodeId) : Option Defect :=
  d.edges.toList.findSome? (d.edgeDefect? finish)

theorem source_ne_of_firstEdgeDefect? {d : Draft} {finish : NodeId}
    (h : d.firstEdgeDefect? finish = none) : ∀ e ∈ d.edges.toList, e.1 ≠ finish := by
  intro e he hf
  have := List.findSome?_eq_none_iff.mp h e he
  rw [edgeDefect?, if_pos hf] at this
  split at this <;> exact absurd this (Option.some_ne_none _)

/-- Turns a draft into a flow graph. -/
def build (d : Draft) : Except Defect FlowGraph :=
  match hs : d.findTerminal .start, hf : d.findTerminal .finish with
  | .error e, _ => .error e
  | .ok _, .error e => .error e
  | .ok start, .ok finish =>
    if hne : start = finish then .error (.sameTerminals start)
    else
      match he : d.firstEdgeDefect? finish with
      | some e => .error e
      | none =>
        .ok (.ofEdges d.statements d.edges.toList start finish
          ⟨lt_size_of_findTerminal hs, lt_size_of_findTerminal hf, hne,
            source_ne_of_firstEdgeDefect? he⟩)

end Draft

end Slicing
