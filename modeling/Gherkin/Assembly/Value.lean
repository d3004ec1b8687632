import Gherkin.Assembly.Frame
import Gherkin.Document.Basic

/-!
# Values of rules

A rule that is left becomes a value, and the rule around it files that value as a child. Most rules
become a part of the document. A rule that says something only to the rule around it, such as the
header of a feature, is kept as the frame that it was.

A feature can come to nothing: without a line of its own, or without a dialect on that line, there
is no feature, and the value keeps the cause.

## Main definitions

* `Gherkin.Value` : what a rule becomes when it is left.
* `Gherkin.Absence` : why a document has no feature although one was begun.
* `Gherkin.Value.step?` and its like : the readings of a value as one sort of value.
-/

namespace Gherkin

/-- Why a document has no feature although one was begun. -/
inductive Absence where
  /-- The feature has no line of its own. -/
  | noLine
  /-- The line of the feature, at a location, has no dialect. -/
  | noDialect (location : Location)
  deriving DecidableEq, Repr

/-- The cause of an absence in words. -/
def Absence.message : Absence → String
  | noLine => "feature has no feature line; document has no feature"
  | noDialect location =>
    "feature line at " ++ location.text ++ " has no resolved dialect; document has no feature"

/-- What a rule becomes when it is left. -/
inductive Value where
  /-- A step with its argument. -/
  | step (s : Step)
  /-- The table of a step. -/
  | dataTable (t : DataTable)
  /-- The doc string of a step. -/
  | docString (s : DocString)
  /-- The lines of a description. -/
  | description (text : String)
  /-- A background. -/
  | background (b : Block)
  /-- A scenario, still without its tags. -/
  | scenario (b : Block)
  /-- An outline, still without its tags. -/
  | outline (b : Block) (es : List Examples)
  /-- A scenario or an outline with its tags. -/
  | child (c : Child)
  /-- The rows of the table of a block of examples. -/
  | rows (rs : List Row)
  /-- A block of examples with its tags. -/
  | examples (e : Examples)
  /-- A feature, or the cause of there being none. -/
  | feature (f : Except Absence Feature)
  /-- A document. -/
  | document (d : Document)
  /-- A rule that is kept as it is, for the rule around it to read. -/
  | frame (f : Frame Value)

namespace Value

/-! ### Readings of a value -/

/-- The step that a value is. -/
def step? : Value → Option Step
  | step s => some s
  | _ => none

/-- The table that a value is. -/
def dataTable? : Value → Option DataTable
  | dataTable t => some t
  | _ => none

/-- The doc string that a value is. -/
def docString? : Value → Option DocString
  | docString s => some s
  | _ => none

/-- The description that a value is. -/
def description? : Value → Option String
  | description text => some text
  | _ => none

/-- The background that a value is. -/
def background? : Value → Option Block
  | background b => some b
  | _ => none

/-- The scenario or the outline that a value is, with the tags that it is given. -/
def tagged? : Value → Option (List Tag → Child)
  | scenario b => some fun tags => .scenario tags b
  | outline b es => some fun tags => .outline tags b es
  | _ => none

/-- The child of a feature that a value is. -/
def child? : Value → Option Child
  | child c => some c
  | _ => none

/-- The rows that a value is. -/
def rows? : Value → Option (List Row)
  | rows rs => some rs
  | _ => none

/-- The block of examples that a value is. -/
def examples? : Value → Option Examples
  | examples e => some e
  | _ => none

/-- The feature, or the cause of its absence, that a value is. -/
def feature? : Value → Option (Except Absence Feature)
  | feature f => some f
  | _ => none

/-- The document that a value is. -/
def document? : Value → Option Document
  | document d => some d
  | _ => none

/-- The frame that a value is. -/
def frame? : Value → Option (Frame Value)
  | frame f => some f
  | _ => none

end Value

end Gherkin
