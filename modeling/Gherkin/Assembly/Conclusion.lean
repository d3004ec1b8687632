import Gherkin.Assembly.Value
import Gherkin.Document.OfToken
import Gherkin.Document.Table

/-!
# What a rule becomes

When a rule is left its frame is read and becomes a value. Each rule has its own reading: it asks
for the tokens and the children that it knows of, and passes over all others. Of a line, a
description, a list of tags or a table it takes the first; of steps, examples and scenarios it takes
all, in the order in which they came.

A reading fails where the events break the contract of the grammar, and where a table is not
rectangular.

## Main definitions

* `Gherkin.Rejection` : why a rule cannot be left, and the fault that is reported.
* `Gherkin.Frame.step`, `Gherkin.Frame.block`, `Gherkin.Frame.examplesDefinition`,
  `Gherkin.Frame.feature` and their like : the readings of a frame.
* `Gherkin.Frame.conclude` : the value of a frame.
-/

namespace Gherkin

/-- Why a rule cannot be left. -/
inductive Rejection where
  /-- The events break the contract of the grammar. -/
  | violation (v : Violation)
  /-- A table is not rectangular. -/
  | ragged (x : Ragged)
  deriving DecidableEq, Repr

/-- The fault that is reported when a rule cannot be left. -/
def Rejection.fault : Rejection → Fault
  | violation v => .violation v
  | ragged x => .invalid x.location Ragged.reason

namespace Frame

variable (f : Frame Value)

/-! ### Descriptions, tags and tables -/

/-- The description in a frame, empty where there is none. A helper around the description is no
child of any rule that has a description. -/
def description : Except Violation String := do
  f.forbid .descriptionHelper
  return (← f.child? .description Value.description?).getD ""

/-- The tags in a frame: those of the lines of its first child from the rule `Gherkin.Rule.tags`. -/
def tags : Except Violation (List Tag) := do
  match ← f.child? .tags Value.frame? with
  | none => return []
  | some g => return (g.tokensOf .tagLine).flatMap Tag.ofToken

/-- The rows of the lines of a table in a frame. -/
def rows : Except Ragged (List Row) := Row.ofTokens (f.tokensOf .tableRow)

/-! ### Steps and blocks of steps -/

/-- The doc string of a frame, opened by its first fence. -/
def docString : Except Violation DocString := do
  let fence ← f.token .docStringSeparator
  return .ofTokens fence (f.tokensOf .other)

/-- The step of a frame. A table is its argument before a doc string is, wherever they stand. The
argument is a child of its own rule; a rule around it is no child of a step. -/
def step : Except Violation Step := do
  f.forbid .stepArgument
  let line ← f.token .stepLine
  let table ← f.child? .dataTable Value.dataTable?
  let text ← f.child? .docString Value.docString?
  return .ofLine line (table.map .dataTable <|> text.map .docString)

/-- The block of steps of a frame whose line is of the kind `kind`. -/
def block (kind : TokenKind) : Except Violation Block := do
  let line ← f.token kind
  let description ← f.description
  let steps ← f.childrenOf .step Value.step?
  return .ofLine line description steps

/-- The outline of a frame: a block of steps and its examples. -/
def outline : Except Violation (Block × List Examples) := do
  let block ← f.block .outlineLine
  let examples ← f.childrenOf .examplesDefinition Value.examples?
  return (block, examples)

/-- The scenario in a frame, or else the outline in it, with the tags of the frame. -/
def scenarioDefinition : Except Violation Child := do
  let tags ← f.tags
  let scenario ← f.child? .scenario Value.tagged?
  let outline ← f.child? .outline Value.tagged?
  match scenario <|> outline with
  | some child => return child tags
  | none => throw (.missingChild f.rule .scenario)

/-! ### Examples -/

/-- The examples in a frame, with the tags of the frame. The first row of the table is the
header. -/
def examplesDefinition : Except Violation Examples := do
  let tags ← f.tags
  let inner ← f.child .examples Value.frame?
  let line ← inner.token .examplesLine
  let description ← inner.description
  let rows ← inner.child? .examplesTable Value.rows?
  return {
    tags
    location := line.location
    keyword := line.keywordText
    name := line.text
    description
    header := (rows.getD []).head?
    body := (rows.getD []).tail? }

/-! ### Features -/

/-- The feature of a frame. Its line, its tags and its description are in its header, or in the
frame itself where there is no header; its background comes before its scenarios, wherever it
stands. -/
def feature : Except Violation (Except Absence Feature) := do
  let background ← f.child? .background Value.background?
  let scenarios ← f.childrenOf .scenarioDefinition Value.child?
  let header := (← f.child? .featureHeader Value.frame?).getD f
  match header.token? .featureLine with
  | none => return .error .noLine
  | some line =>
    match line.dialect with
    | none => return .error (.noDialect line.location)
    | some language =>
      let tags ← header.tags
      let description ← header.description
      return .ok {
        tags
        location := line.location
        language
        keyword := line.keywordText
        name := line.text
        description
        children := (background.map Child.background).toList ++ scenarios }

/-- The document of a frame, with the comments that were met until then. -/
def document (comments : Array Comment) : Except Violation Document := do
  let feature ← f.child? .feature Value.feature?
  return ⟨feature.bind Except.toOption, comments.toList⟩

/-! ### Every rule -/

/-- The value of a frame. The comments are those that were met until then and are in no document
yet; a document takes them. -/
def conclude (comments : Array Comment) : Except Rejection Value :=
  match f.rule with
  | .document => ((f.document comments).map .document).mapError .violation
  | .feature => (f.feature.map .feature).mapError .violation
  | .background => ((f.block .backgroundLine).map .background).mapError .violation
  | .scenarioDefinition => (f.scenarioDefinition.map .child).mapError .violation
  | .scenario => ((f.block .scenarioLine).map .scenario).mapError .violation
  | .outline => (f.outline.map fun o => .outline o.1 o.2).mapError .violation
  | .examplesDefinition => (f.examplesDefinition.map .examples).mapError .violation
  | .examplesTable => (f.rows.map .rows).mapError .ragged
  | .step => (f.step.map .step).mapError .violation
  | .dataTable => (f.rows.map fun rs => .dataTable ⟨rs⟩).mapError .ragged
  | .docString => (f.docString.map .docString).mapError .violation
  | .description => .ok (.description (Text.description (f.tokensOf .other)))
  | .outermost | .featureHeader | .examples | .stepArgument | .tags | .descriptionHelper =>
    .ok (.frame f)

end Frame

end Gherkin
