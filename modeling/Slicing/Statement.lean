import Slicing.SortedSet
import Slicing.Source

/-!
# Statements

A statement is what one node of a flow graph stands for: its role, its place in
the source, the symbols that it may assign and may read, and optionally its text.
Symbols alias exactly when their names are equal.
-/
namespace Slicing

/-- The name of something that a statement assigns or reads. -/
abbrev Symbol := String

def Symbol.detail (x : Symbol) : String := s!"Symbol({x})"

/-- The role of a statement: the synthetic first or last one, or a real one. -/
inductive StatementKind where
  | start
  | finish
  | other
deriving DecidableEq, Inhabited

namespace StatementKind

instance : ToString StatementKind where
  toString
    | start => "start"
    | finish => "end"
    | other => "other"

def detail : StatementKind → String
  | start => "Start"
  | finish => "End"
  | other => "Other"

def all : List StatementKind := [start, finish, other]

/-- Reads a kind back from its name, which is matched letter for letter. -/
def ofString? (name : String) : Option StatementKind := all.find? (toString · = name)

def unknownMessage : String := "Matching variant not found"

end StatementKind

structure Statement where
  kind : StatementKind := .other
  range : SourceRange := {}
  /-- The symbols that the statement may assign. -/
  defs : SortedSet Symbol := ∅
  /-- The symbols that the statement may read. -/
  uses : SortedSet Symbol := ∅
  text : Option String := none
deriving DecidableEq, Inhabited

namespace Statement

def start : Statement := { kind := .start }

def finish : Statement := { kind := .finish }

def addDefs (s : Statement) (symbols : List Symbol) : Statement :=
  { s with defs := s.defs.insertMany symbols }

def addUses (s : Statement) (symbols : List Symbol) : Statement :=
  { s with uses := s.uses.insertMany symbols }

def setText (s : Statement) (text : String) : Statement := { s with text := some text }

@[simp]
theorem mem_defs_addDefs {s : Statement} {l : List Symbol} {x : Symbol} :
    x ∈ (s.addDefs l).defs ↔ x ∈ s.defs ∨ x ∈ l := SortedSet.mem_insertMany

@[simp]
theorem mem_uses_addUses {s : Statement} {l : List Symbol} {x : Symbol} :
    x ∈ (s.addUses l).uses ↔ x ∈ s.uses ∨ x ∈ l := SortedSet.mem_insertMany

/-- Real statements show their text, or their range when they have none. -/
instance : ToString Statement where
  toString s :=
    match s.kind with
    | .start => "START"
    | .finish => "END"
    | .other => s.text.getD s!"<{s.range}>"

end Statement

end Slicing
