import Slicing.NodeId
import Slicing.Statement

/-!
# What can go wrong

Each error is a cause, given by the nodes and numbers it is about; the wording of
all of them stands in this module. A `Defect` is found in a draft of a flow graph.
A `Violation` is a requirement of an analysis that its input does not meet.
-/
namespace Slicing

/-- One of the two terminal nodes of a flow graph. -/
inductive Terminal where
  | start
  | finish
deriving DecidableEq

def Terminal.kind : Terminal → StatementKind
  | start => .start
  | finish => .finish

instance : ToString Terminal := ⟨fun t => toString t.kind⟩

/-- Why a draft is not a flow graph. -/
inductive Defect where
  | noTerminal (t : Terminal)
  | severalTerminals (t : Terminal) (first second : NodeId)
  | terminalOutside (t : Terminal) (v : NodeId) (size : Nat)
  | sameTerminals (v : NodeId)
  | edgeOutside (source target : NodeId) (size : Nat)
  | edgeFromFinish (source target : NodeId)
deriving DecidableEq

def Defect.message : Defect → String
  | noTerminal t => s!"graph has no {t} node"
  | severalTerminals t a b =>
    s!"graph has more than one {t} node ({a.label} and {b.label})"
  | terminalOutside t v n =>
    s!"designated {t} node {v.label} is outside the graph ({n} nodes)"
  | sameTerminals v => s!"start and end must be distinct nodes (both are {v.label})"
  | edgeOutside u v n =>
    s!"edge {u.label} -> {v.label} refers to a node outside the graph ({n} nodes)"
  | edgeFromFinish u v =>
    s!"end node {u.label} can not have successors (edge {u.label} -> {v.label})"

/-- A requirement of an analysis that its input does not meet. -/
inductive Violation where
  | unreachable (start v : NodeId)
  | endless (finish v : NodeId)
  | exitOutside (exit : NodeId) (size : Nat)
  | noKnownSuccessor (v : NodeId)
  | noEstimate (number : Nat)
  | repeated (v : NodeId) (first second : Nat)
  | notOrdered (v : NodeId)
  | indexOutside (index length : Nat)
  | foreign (v : NodeId)
deriving DecidableEq

def Violation.message : Violation → String
  | unreachable s v => s!"node {v.label} is not reachable from start {s.label}"
  | endless e v => s!"end {e.label} is not reachable from node {v.label}"
  | exitOutside e n => s!"exit node {e.label} is not part of the graph ({n} nodes)"
  | noKnownSuccessor v =>
    s!"node {v.label} reaches the exit but none of its successors has a postdominator estimate"
  | noEstimate k => s!"postorder number {k} has no estimate"
  | repeated v i j => s!"node {v.label} appears twice in ordering (positions {i} and {j})"
  | notOrdered v => s!"no index for node {v.label}"
  | indexOutside i n => s!"index {i} out of range for ordering of {n} nodes"
  | foreign v => s!"node {v.label} is not part of the graph"

structure Site where
  file : String
  line : Nat

/-- An error as it is shown: a violation names the place of the check. -/
inductive Diagnostic where
  | defect (message : String)
  | violation (message : String) (site : Site)

instance : ToString Diagnostic where
  toString
    | .defect m => m
    | .violation m s => s!"Invariant violated - {s.file}:{s.line}: {m}"

def Defect.diagnostic (d : Defect) : Diagnostic := .defect d.message

def Violation.diagnostic (v : Violation) (site : Site) : Diagnostic := .violation v.message site

end Slicing
