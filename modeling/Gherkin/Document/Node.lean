import Gherkin.Document.Basic

/-!
# The nodes of a document

The parts of a document in the order in which a reader meets them: the comments, the feature and
its tags, and then for every child its tags, the child, its steps and its examples. A step is
followed by its argument, a block of examples by its tags and its table, a table by its rows, and
a row by its cells.

## Main definitions

* `Gherkin.Node` : a part of a document.
* `Gherkin.Node.location` : where it starts.
* `Gherkin.Document.nodes` : the parts of a document in reading order.
-/

namespace Gherkin

/-- A part of a document. -/
inductive Node where
  | comment (c : Comment)
  | tag (t : Tag)
  | feature (f : Feature)
  | child (c : Child)
  | step (s : Step)
  | dataTable (t : DataTable)
  | docString (s : DocString)
  | examples (e : Examples)
  | row (r : Row)
  | cell (c : Cell)
  deriving DecidableEq

namespace Node

/-- Where a part of a document starts. -/
def location : Node → Location
  | comment c => c.location
  | tag t => t.location
  | feature f => f.location
  | child c => c.block.location
  | step s => s.location
  | dataTable t => t.location
  | docString s => s.location
  | examples e => e.location
  | row r => r.location
  | cell c => c.location

/-- The row that a part is, if it is one. -/
def row? : Node → Option Row
  | row r => some r
  | _ => none

end Node

/-! ### Reading order -/

/-- A row and its cells. -/
def Row.nodes (r : Row) : List Node := .row r :: r.cells.map .cell

/-- A table with its rows, or a doc string. -/
def Argument.nodes : Argument → List Node
  | .dataTable t => .dataTable t :: t.rows.flatMap Row.nodes
  | .docString s => [.docString s]

/-- A step and its argument. -/
def Step.nodes (s : Step) : List Node := .step s :: s.argument.elim [] Argument.nodes

/-- A block of examples, its tags, its header and its other rows. -/
def Examples.nodes (e : Examples) : List Node :=
  .examples e :: e.tags.map .tag ++ (e.header.toList ++ e.body.getD []).flatMap Row.nodes

/-- The tags of a child, the child, its steps and its examples. -/
def Child.nodes (c : Child) : List Node :=
  c.tags.map .tag ++ .child c :: c.block.steps.flatMap Step.nodes ++
    c.examples.flatMap Examples.nodes

/-- A feature, its tags and its children. -/
def Feature.nodes (f : Feature) : List Node :=
  .feature f :: f.tags.map .tag ++ f.children.flatMap Child.nodes

/-- The parts of a document in reading order. -/
def Document.nodes (d : Document) : List Node :=
  d.comments.map .comment ++ d.feature.elim [] Feature.nodes

end Gherkin
