import Slicing.NodeId

/-!
# Edges of a dependence graph

An edge is the far end of a dependence, with its kind. Edges are ordered by kind,
data before control, and then by node. An `EdgeSet` keeps the edges of one node;
its list is ascending in that order.
-/
namespace Slicing

/-- Why one statement depends on another. -/
inductive Dependence where
  | data
  | control
deriving DecidableEq, Inhabited

namespace Dependence

instance : ToString Dependence where
  toString
    | data => "data"
    | control => "control"

def detail : Dependence → String
  | data => "Data"
  | control => "Control"

def all : List Dependence := [data, control]

end Dependence

/-- The far end of a dependence. -/
structure Edge where
  kind : Dependence
  node : NodeId
deriving DecidableEq, Inhabited

namespace Edge

def detail (e : Edge) : String := s!"{e.kind.detail}({e.node.detail})"

instance : LT Edge :=
  ⟨fun a b => a.kind = .data ∧ b.kind = .control ∨ a.kind = b.kind ∧ a.node < b.node⟩

instance : DecidableLT Edge := fun a b =>
  inferInstanceAs
    (Decidable (a.kind = .data ∧ b.kind = .control ∨ a.kind = b.kind ∧ a.node < b.node))

instance : Ord Edge := ⟨fun a b => compareOfLessAndEq a b⟩

end Edge

/-- The edges of one node, by kind. -/
structure EdgeSet where
  data : NodeSet := ∅
  control : NodeSet := ∅
deriving DecidableEq, Inhabited

namespace EdgeSet

def ofKind (s : EdgeSet) : Dependence → NodeSet
  | .data => s.data
  | .control => s.control

instance : Membership Edge EdgeSet := ⟨fun s e => e.node ∈ s.ofKind e.kind⟩

theorem mem_def {s : EdgeSet} {e : Edge} : e ∈ s ↔ e.node ∈ s.ofKind e.kind := Iff.rfl

instance (e : Edge) (s : EdgeSet) : Decidable (e ∈ s) :=
  inferInstanceAs (Decidable (e.node ∈ s.ofKind e.kind))

def insert (s : EdgeSet) (e : Edge) : EdgeSet :=
  match e.kind with
  | .data => { s with data := s.data.insert e.node }
  | .control => { s with control := s.control.insert e.node }

def toList (s : EdgeSet) : List Edge :=
  s.data.toList.map (.mk .data) ++ s.control.toList.map (.mk .control)

/-- Number of edges; two kinds of dependence on one node count twice. -/
def size (s : EdgeSet) : Nat := s.data.size + s.control.size

def nodes (s : EdgeSet) : List NodeId := s.toList.map Edge.node

@[simp]
theorem mem_insert {s : EdgeSet} {e f : Edge} : f ∈ s.insert e ↔ f = e ∨ f ∈ s := by
  obtain ⟨k, v⟩ := e
  obtain ⟨l, w⟩ := f
  cases k <;> cases l <;> simp [mem_def, insert, ofKind]

@[simp]
theorem mem_toList {s : EdgeSet} {e : Edge} : e ∈ s.toList ↔ e ∈ s := by
  obtain ⟨k, v⟩ := e
  cases k <;> simp [mem_def, toList, ofKind]

theorem length_toList (s : EdgeSet) : s.toList.length = s.size := by
  simp [toList, size, SortedSet.size]

theorem not_mem_empty (e : Edge) : e ∉ ({} : EdgeSet) := by
  rw [mem_def]
  cases e.kind <;> exact SortedSet.not_mem_empty e.node

theorem ext {s t : EdgeSet} (h : ∀ e, e ∈ s ↔ e ∈ t) : s = t := by
  obtain ⟨data, control⟩ := s
  obtain ⟨data', control'⟩ := t
  have hdata : data = data' := SortedSet.ext fun v => h ⟨.data, v⟩
  have hcontrol : control = control' := SortedSet.ext fun v => h ⟨.control, v⟩
  rw [hdata, hcontrol]

end EdgeSet

end Slicing
