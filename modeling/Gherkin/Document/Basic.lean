import Gherkin.Location

/-!
# Documents

A document is what a feature file says: its comments and, where the file has a usable header, a
feature. A feature holds blocks of steps, which are its background, its scenarios and its
scenario outlines; an outline is run once for every row of its examples.

Every part knows the place in the file where it starts.

## Main definitions

* `Gherkin.Document`, `Gherkin.Feature`, `Gherkin.Child`, `Gherkin.Block`, `Gherkin.Examples`,
  `Gherkin.Step`, `Gherkin.Argument`, `Gherkin.DataTable`, `Gherkin.DocString`, `Gherkin.Row`,
  `Gherkin.Cell`, `Gherkin.Tag`, `Gherkin.Comment` : a document and its parts.
* `Gherkin.Feature.background?`, `Gherkin.Feature.scenarios` : the two sorts of children.
* `Gherkin.DataTable.location` : where a table starts.
-/

namespace Gherkin

/-- A line that starts with `#`. -/
structure Comment where
  location : Location
  /-- The whole line. -/
  text : String
  deriving DecidableEq, Repr

/-- A tag, with its sign. -/
structure Tag where
  location : Location
  name : String
  deriving DecidableEq, Repr

/-! ### Tables and doc strings -/

/-- A cell of a row. -/
structure Cell where
  location : Location
  value : String
  deriving DecidableEq, Repr

/-- A row of a table. -/
structure Row where
  location : Location
  cells : List Cell
  deriving DecidableEq, Repr

namespace Row

/-- The number of cells of a row. -/
def size (r : Row) : Nat := r.cells.length

/-- Whether a row has no cells. -/
def isEmpty (r : Row) : Bool := r.cells.isEmpty

theorem isEmpty_iff {r : Row} : r.isEmpty = true ↔ r.size = 0 := by
  simp [isEmpty, size]

end Row

/-- A table given to a step. -/
structure DataTable where
  rows : List Row
  deriving DecidableEq, Repr

/-- A table starts where its first row does; a table without rows stands nowhere. -/
def DataTable.location (t : DataTable) : Location :=
  match t.rows with
  | [] => default
  | r :: _ => r.location

/-- A text of several lines given to a step. -/
structure DocString where
  /-- Where the opening fence stands. -/
  location : Location
  /-- The text after the opening fence, such as `json`; none where it is empty. -/
  contentType : Option String
  /-- The lines between the fences, joined by line feeds. -/
  content : String
  deriving DecidableEq, Repr

/-- What a step is given besides its line. -/
inductive Argument where
  | dataTable (t : DataTable)
  | docString (s : DocString)
  deriving DecidableEq, Repr

/-! ### Steps and their blocks -/

/-- A step, such as `Given two cucumbers`. -/
structure Step where
  location : Location
  keyword : String
  text : String
  argument : Option Argument
  deriving DecidableEq, Repr

/-- A named and described sequence of steps. -/
structure Block where
  location : Location
  keyword : String
  name : String
  description : String
  steps : List Step
  deriving DecidableEq, Repr

/-- The rows that a scenario outline is run with. -/
structure Examples where
  tags : List Tag
  location : Location
  keyword : String
  name : String
  description : String
  /-- The first row of the table. -/
  header : Option Row
  /-- The other rows; none where there is no table, or a table without rows. -/
  body : Option (List Row)
  deriving DecidableEq, Repr

/-- A block of steps with its place in the feature. -/
inductive Child where
  /-- Steps that are run before each scenario. -/
  | background (block : Block)
  | scenario (tags : List Tag) (block : Block)
  | outline (tags : List Tag) (block : Block) (examples : List Examples)
  deriving DecidableEq, Repr

namespace Child

/-- The steps of a child, with their line and their description. -/
def block : Child → Block
  | background b => b
  | scenario _ b => b
  | outline _ b _ => b

/-- The tags of a child; a background has none. -/
def tags : Child → List Tag
  | background _ => []
  | scenario ts _ => ts
  | outline ts _ _ => ts

/-- The examples of a child; only an outline has them. -/
def examples : Child → List Examples
  | outline _ _ es => es
  | _ => []

/-- The block of a background. -/
def background? : Child → Option Block
  | background b => some b
  | _ => none

@[simp]
theorem background?_background (b : Block) : (background b).background? = some b := rfl

@[simp]
theorem background?_scenario (ts : List Tag) (b : Block) : (scenario ts b).background? = none := rfl

@[simp]
theorem background?_outline (ts : List Tag) (b : Block) (es : List Examples) :
    (outline ts b es).background? = none := rfl

end Child

/-! ### Features and documents -/

/-- A feature. -/
structure Feature where
  tags : List Tag
  location : Location
  /-- The language of the dialect that the feature is written in. -/
  language : String
  keyword : String
  name : String
  description : String
  /-- The background, where there is one, and then the scenarios and outlines. -/
  children : List Child
  deriving DecidableEq, Repr

namespace Feature

/-- The first background among the children of a feature. -/
def background? (f : Feature) : Option Block := f.children.findSome? Child.background?

/-- The children of a feature that are no backgrounds. -/
def scenarios (f : Feature) : List Child := f.children.filter fun c => c.background?.isNone

end Feature

/-- What a feature file says. -/
structure Document where
  feature : Option Feature
  comments : List Comment
  deriving DecidableEq, Repr

end Gherkin
