import Gherkin.Document.Table
import Gherkin.Text.Lines

/-!
# Well-formed documents

What is true of a document besides the types of its parts: tables are rectangular and their cells
are placed on the line of their row, a description is empty or has a line with content, a content
type is not empty, examples have a body exactly when they have a header, and a background comes
first.

## Main definitions

* `Gherkin.Document.WellFormed`, and the same for the parts of a document.
-/

namespace Gherkin

/-- A cell is on the line of its row, and has no column only if its row has none. -/
def Row.Placed (r : Row) : Prop :=
  ∀ c ∈ r.cells, c.location.line = r.location.line ∧
    (c.location.column = 0 → r.location.column = 0)

/-- A table is rectangular and its cells are placed. -/
structure Row.WellFormed (rows : List Row) : Prop where
  rectangular : Row.Rectangular rows
  placed : ∀ r ∈ rows, r.Placed

/-- A text is empty or has content. -/
def Text.Trimmed (text : String) : Prop := isBlank text = true → text = ""

/-- A table is well formed, and a content type is not empty. -/
def Argument.WellFormed : Argument → Prop
  | dataTable t => Row.WellFormed t.rows
  | docString s => s.contentType ≠ some ""

/-- The argument of a step is well formed. -/
def Step.WellFormed (s : Step) : Prop := ∀ a ∈ s.argument, a.WellFormed

/-- The description and the steps of a block are well formed. -/
structure Block.WellFormed (b : Block) : Prop where
  description : Text.Trimmed b.description
  steps : ∀ s ∈ b.steps, s.WellFormed

/-- The rows of the table of a block of examples. -/
def Examples.rows (e : Examples) : List Row := e.header.toList ++ e.body.getD []

/-- The description and the table of a block of examples are well formed, and the table has both a
header and a body or neither. -/
structure Examples.WellFormed (e : Examples) : Prop where
  description : Text.Trimmed e.description
  rows : Row.WellFormed e.rows
  header_iff_body : e.header = none ↔ e.body = none

/-- The block and the examples of a child are well formed. -/
structure Child.WellFormed (c : Child) : Prop where
  block : c.block.WellFormed
  examples : ∀ e ∈ c.examples, e.WellFormed

/-- The description and the children of a feature are well formed, and no child but the first is a
background. -/
structure Feature.WellFormed (f : Feature) : Prop where
  description : Text.Trimmed f.description
  children : ∀ c ∈ f.children, c.WellFormed
  background_first : ∀ c ∈ f.children.tail, c.background? = none

/-- The feature of a document is well formed. -/
def Document.WellFormed (d : Document) : Prop := ∀ f ∈ d.feature, f.WellFormed

/-! ### Deciding well-formedness -/

instance (r : Row) : Decidable r.Placed :=
  inferInstanceAs (Decidable (∀ c ∈ r.cells, c.location.line = r.location.line ∧
    (c.location.column = 0 → r.location.column = 0)))

instance (rows : List Row) : Decidable (Row.WellFormed rows) :=
  decidable_of_iff (Row.Rectangular rows ∧ ∀ r ∈ rows, r.Placed)
    ⟨fun h => ⟨h.1, h.2⟩, fun h => ⟨h.rectangular, h.placed⟩⟩

instance (text : String) : Decidable (Text.Trimmed text) :=
  inferInstanceAs (Decidable (Text.isBlank text = true → text = ""))

instance : (a : Argument) → Decidable a.WellFormed
  | .dataTable t => inferInstanceAs (Decidable (Row.WellFormed t.rows))
  | .docString s => inferInstanceAs (Decidable (s.contentType ≠ some ""))

instance (s : Step) : Decidable s.WellFormed :=
  inferInstanceAs (Decidable (∀ a ∈ s.argument, a.WellFormed))

instance (b : Block) : Decidable b.WellFormed :=
  decidable_of_iff (Text.Trimmed b.description ∧ ∀ s ∈ b.steps, s.WellFormed)
    ⟨fun h => ⟨h.1, h.2⟩, fun h => ⟨h.description, h.steps⟩⟩

instance (e : Examples) : Decidable e.WellFormed :=
  decidable_of_iff
    (Text.Trimmed e.description ∧ Row.WellFormed e.rows ∧ (e.header = none ↔ e.body = none))
    ⟨fun h => ⟨h.1, h.2.1, h.2.2⟩, fun h => ⟨h.description, h.rows, h.header_iff_body⟩⟩

instance (c : Child) : Decidable c.WellFormed :=
  decidable_of_iff (c.block.WellFormed ∧ ∀ e ∈ c.examples, e.WellFormed)
    ⟨fun h => ⟨h.1, h.2⟩, fun h => ⟨h.block, h.examples⟩⟩

instance (f : Feature) : Decidable f.WellFormed :=
  decidable_of_iff
    (Text.Trimmed f.description ∧ (∀ c ∈ f.children, c.WellFormed) ∧
      ∀ c ∈ f.children.tail, c.background? = none)
    ⟨fun h => ⟨h.1, h.2.1, h.2.2⟩, fun h => ⟨h.description, h.children, h.background_first⟩⟩

instance (d : Document) : Decidable d.WellFormed :=
  inferInstanceAs (Decidable (∀ f ∈ d.feature, f.WellFormed))

/-! ### Backgrounds -/

/-- Where no child but the first is a background, the children are the background and then the
scenarios. -/
theorem Feature.children_eq_of_background_first {f : Feature}
    (h : ∀ c ∈ f.children.tail, c.background? = none) :
    f.children = (f.background?.map Child.background).toList ++ f.scenarios := by
  unfold Feature.background? Feature.scenarios
  cases hc : f.children with
  | nil => simp
  | cons c cs =>
    rw [hc, List.tail_cons] at h
    have hnone : cs.findSome? Child.background? = none := List.findSome?_eq_none_iff.mpr h
    have hfirst : (c :: cs).findSome? Child.background? = c.background? := by
      cases hb : c.background? <;> simp [hb, hnone]
    have hfilter : (cs.filter fun c => c.background?.isNone) = cs := by
      rw [List.filter_eq_self]
      intro d hd
      simp [h d hd]
    rw [hfirst, List.filter_cons, hfilter]
    cases c <;> rfl

end Gherkin
