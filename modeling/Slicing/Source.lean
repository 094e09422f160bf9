/-!
# Places in a source text

Locations are ordered by line and then by column, ranges by their start and then
by their end. A range includes both of its end points; a range whose start lies
after its end contains no location.
-/
namespace Slicing

/-- A line and a column. -/
structure SourceLocation where
  line : Nat := 0
  column : Nat := 0
deriving DecidableEq, Inhabited

namespace SourceLocation

instance : LT SourceLocation :=
  ⟨fun a b => a.line < b.line ∨ a.line = b.line ∧ a.column < b.column⟩

instance : LE SourceLocation :=
  ⟨fun a b => a.line < b.line ∨ a.line = b.line ∧ a.column ≤ b.column⟩

theorem lt_def {a b : SourceLocation} :
    a < b ↔ a.line < b.line ∨ a.line = b.line ∧ a.column < b.column := Iff.rfl

theorem le_def {a b : SourceLocation} :
    a ≤ b ↔ a.line < b.line ∨ a.line = b.line ∧ a.column ≤ b.column := Iff.rfl

instance : DecidableLT SourceLocation := fun a b =>
  inferInstanceAs (Decidable (a.line < b.line ∨ a.line = b.line ∧ a.column < b.column))

instance : DecidableLE SourceLocation := fun a b =>
  inferInstanceAs (Decidable (a.line < b.line ∨ a.line = b.line ∧ a.column ≤ b.column))

instance : Ord SourceLocation := ⟨fun a b => compareOfLessAndEq a b⟩

instance : ToString SourceLocation := ⟨fun l => s!"{l.line}:{l.column}"⟩

def detail (l : SourceLocation) : String :=
  s!"SourceLocation \x7b line: {l.line}, column: {l.column} \x7d"

end SourceLocation

/-- A stretch of source text, both ends included. -/
structure SourceRange where
  start : SourceLocation := {}
  stop : SourceLocation := {}
deriving DecidableEq, Inhabited

namespace SourceRange

instance : LT SourceRange :=
  ⟨fun a b => a.start < b.start ∨ a.start = b.start ∧ a.stop < b.stop⟩

theorem lt_def {a b : SourceRange} :
    a < b ↔ a.start < b.start ∨ a.start = b.start ∧ a.stop < b.stop := Iff.rfl

instance : DecidableLT SourceRange := fun a b =>
  inferInstanceAs (Decidable (a.start < b.start ∨ a.start = b.start ∧ a.stop < b.stop))

instance : Ord SourceRange := ⟨fun a b => compareOfLessAndEq a b⟩

instance : Membership SourceLocation SourceRange := ⟨fun r l => r.start ≤ l ∧ l ≤ r.stop⟩

theorem mem_def {l : SourceLocation} {r : SourceRange} :
    l ∈ r ↔ r.start ≤ l ∧ l ≤ r.stop := Iff.rfl

instance (l : SourceLocation) (r : SourceRange) : Decidable (l ∈ r) :=
  inferInstanceAs (Decidable (r.start ≤ l ∧ l ≤ r.stop))

instance : ToString SourceRange := ⟨fun r => s!"{r.start}-{r.stop}"⟩

def detail (r : SourceRange) : String :=
  s!"SourceRange \x7b start: {r.start.detail}, end: {r.stop.detail} \x7d"

end SourceRange

end Slicing
