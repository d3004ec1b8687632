/-!
# Locations in a feature file

A location is a line and a column, both counted from `1`. The number `0` is a legal value of
either and stands for one that is not known: moving a location to column `0` leaves it where it
is, so that a fragment of a line without a column of its own is placed where its line starts.

## Main definitions

* `Gherkin.Location` : a line and a column, ordered by line first.
* `Gherkin.Location.atColumn` : another column of the same line.
* `Gherkin.Location.text` : the form in which messages show a location.
-/

namespace Gherkin

/-- A position in a feature file. -/
structure Location where
  line : UInt32
  column : UInt32
  deriving DecidableEq, Repr

namespace Location

/-- The location of a thing that stands nowhere. -/
instance : Inhabited Location := ⟨⟨0, 0⟩⟩

/-- Locations are compared by line, and by column on one line. -/
instance : Ord Location where
  compare a b := (compare a.line b.line).then (compare a.column b.column)

/-- The location in column `column` of the same line; column `0` is no column, and keeps the
location as it is. -/
def atColumn (l : Location) (column : UInt32) : Location :=
  if column = 0 then l else { l with column := column }

/-- A location as messages show it, such as `(3:9)`. -/
def text (l : Location) : String :=
  "(" ++ l.line.toNat.repr ++ ":" ++ l.column.toNat.repr ++ ")"

@[simp]
theorem atColumn_zero (l : Location) : l.atColumn 0 = l := by
  simp [atColumn]

@[simp]
theorem line_atColumn (l : Location) (column : UInt32) : (l.atColumn column).line = l.line := by
  unfold atColumn
  split <;> rfl

/-- The column reached is the one asked for, unless that is `0`. -/
theorem column_atColumn (l : Location) (column : UInt32) :
    (l.atColumn column).column = if column = 0 then l.column else column := by
  unfold atColumn
  split <;> rfl

end Location

end Gherkin
