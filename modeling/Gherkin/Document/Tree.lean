import Gherkin.Document.Basic
import Gherkin.Event.Tree

/-!
# Documents as trees

Every document can be written as a tree of events. Each part of it becomes a rule with the line of
the part, and with trees for what it consists of; tags, descriptions and the tables of examples have
rules of their own, which are left out where there is nothing in them. A description, like the
content of a doc string, is written as one token, whatever line feeds are in it.

## Main definitions

* `Gherkin.Document.tree` : the tree of a document.
* `Gherkin.Document.events` : its events.
-/

namespace Gherkin

/-- A token with a keyword and a text. -/
def Token.line (kind : TokenKind) (location : Location) (keyword text : String) : Token where
  kind := kind
  location := location
  keyword := some keyword
  text := text

/-- The token of a comment. -/
def Comment.tree (c : Comment) : Tree :=
  .token { kind := .comment, location := c.location, text := c.text }

/-- The tree of a list of tags, a line for each tag. -/
def Tag.forest : List Tag → Forest
  | [] => []
  | tags => [.node .tags (tags.map fun t =>
      .token { kind := .tagLine, location := t.location, items := [⟨0, t.name⟩] })]

/-- The tree of a text that stands in the rule around it. -/
def Text.tree (text : String) : Tree :=
  .token { kind := .other, location := default, text := text }

/-- The tree of a description. -/
def Text.forest (description : String) : Forest :=
  if description = "" then [] else [.node .description [Text.tree description]]

/-- The line of a row. -/
def Row.tree (r : Row) : Tree :=
  .token {
    kind := .tableRow
    location := r.location
    items := r.cells.map fun c => ⟨c.location.column, c.value⟩ }

/-- The tree of an argument. -/
def Argument.tree : Argument → Tree
  | dataTable t => .node .dataTable (t.rows.map Row.tree)
  | docString s =>
    let fence := s.contentType.getD ""
    .node .docString [
      .token { kind := .docStringSeparator, location := s.location, text := fence },
      Text.tree s.content,
      .token { kind := .docStringSeparator, location := default }]

/-- The tree of a step. -/
def Step.tree (s : Step) : Tree :=
  .node .step
    (.token (.line .stepLine s.location s.keyword s.text) :: (s.argument.map Argument.tree).toList)

/-- The trees of a block whose line is of the kind `kind`. -/
def Block.forest (kind : TokenKind) (b : Block) : Forest :=
  .token (.line kind b.location b.keyword b.name) ::
    (Text.forest b.description ++ b.steps.map Step.tree)

/-- The tree of a block of examples. -/
def Examples.tree (e : Examples) : Tree :=
  let table : Forest :=
    match e.header with
    | none => []
    | some h => [.node .examplesTable ((h :: e.body.getD []).map Row.tree)]
  .node .examplesDefinition (Tag.forest e.tags ++ [.node .examples
    (.token (.line .examplesLine e.location e.keyword e.name) ::
      (Text.forest e.description ++ table))])

/-- The tree of a child. -/
def Child.tree : Child → Tree
  | background b => .node .background (b.forest .backgroundLine)
  | scenario tags b =>
    .node .scenarioDefinition (Tag.forest tags ++ [.node .scenario (b.forest .scenarioLine)])
  | outline tags b examples =>
    .node .scenarioDefinition (Tag.forest tags ++
      [.node .outline (b.forest .outlineLine ++ examples.map Examples.tree)])

/-- The tree of a feature. -/
def Feature.tree (f : Feature) : Tree :=
  let line :=
    { Token.line .featureLine f.location f.keyword f.name with dialect := some f.language }
  .node .feature
    (.node .featureHeader (Tag.forest f.tags ++ .token line :: Text.forest f.description) ::
      f.children.map Child.tree)

/-- The tree of a document. -/
def Document.tree (d : Document) : Tree :=
  .node .document (d.comments.map Comment.tree ++ (d.feature.map Feature.tree).toList)

/-- The events of a document. -/
def Document.events (d : Document) : List Event := d.tree.events

end Gherkin
