import Gherkin.Document.Basic
import Gherkin.Token

/-!
# Tables read off tokens

Each line of a table is a row and each fragment of the line a cell. A table is rectangular when its
rows have the same number of cells; one that is not is refused at the first row that differs from
the first.

## Main definitions

* `Gherkin.Row.ofToken` : the row of a line.
* `Gherkin.Row.Rectangular` : rows with the same number of cells.
* `Gherkin.Ragged`, `Gherkin.Row.ragged?` : the row at which rows are found not to be rectangular.
* `Gherkin.Row.ofTokens` : the rows of a table.

## Main results

* `Gherkin.Row.ragged?_eq_none_iff` : no row is found exactly when the rows are rectangular.
-/

namespace Gherkin

/-- A row whose number of cells is not that of the first row. -/
structure Ragged where
  location : Location
  /-- The number of cells of the row. -/
  cells : Nat
  /-- The number of cells of the first row. -/
  expected : Nat
  deriving DecidableEq, Repr

/-- What is said of a table with such a row. -/
def Ragged.reason : String := "inconsistent cell count within the table"

namespace Row

/-- The row of a line: a cell for every fragment, at the column of the fragment. -/
def ofToken (t : Token) : Row where
  location := t.location
  cells := t.items.map fun s => ⟨t.locate s.column, s.text⟩

/-- All rows have the same number of cells. -/
def Rectangular (rows : List Row) : Prop := ∀ r ∈ rows, ∀ r' ∈ rows, r.size = r'.size

instance (rows : List Row) : Decidable (Rectangular rows) :=
  inferInstanceAs (Decidable (∀ r ∈ rows, ∀ r' ∈ rows, r.size = r'.size))

/-- The first row whose number of cells is not that of the first row. -/
def ragged? : List Row → Option Ragged
  | [] => none
  | first :: rest =>
    (rest.find? fun r => r.size ≠ first.size).map fun r => ⟨r.location, r.size, first.size⟩

/-- The rows of a table, one for each line. -/
def ofTokens (ts : List Token) : Except Ragged (List Row) :=
  match ragged? (ts.map ofToken) with
  | none => .ok (ts.map ofToken)
  | some x => .error x

@[simp]
theorem size_ofToken (t : Token) : (ofToken t).size = t.items.length := by
  simp [ofToken, size]

/-- Rows are rectangular when they all agree with the first. -/
theorem rectangular_cons_iff {first : Row} {rest : List Row} :
    Rectangular (first :: rest) ↔ ∀ r ∈ rest, r.size = first.size := by
  constructor
  · intro h r hr
    exact h r (List.mem_cons_of_mem _ hr) first List.mem_cons_self
  · intro h
    have hall : ∀ r ∈ first :: rest, r.size = first.size := by simpa using h
    intro r hr r' hr'
    rw [hall r hr, hall r' hr']

theorem ragged?_eq_none_iff {rows : List Row} : ragged? rows = none ↔ Rectangular rows := by
  cases rows with
  | nil => simp [ragged?, Rectangular]
  | cons first rest => simp [ragged?, rectangular_cons_iff]

/-- The rows of a table are those of its lines, and they are rectangular. -/
theorem ofTokens_eq_ok_iff {ts : List Token} {rows : List Row} :
    ofTokens ts = .ok rows ↔ rows = ts.map ofToken ∧ Rectangular rows := by
  unfold ofTokens
  cases h : ragged? (ts.map ofToken) with
  | none =>
    rw [ragged?_eq_none_iff] at h
    simp only [Except.ok.injEq]
    exact ⟨fun e => ⟨e.symm, e ▸ h⟩, fun e => e.1.symm⟩
  | some x =>
    simp only [reduceCtorEq, false_iff, not_and]
    rintro rfl hr
    simp [ragged?_eq_none_iff.mpr hr] at h

end Row

end Gherkin
