import Gherkin.Grammar.Rule
import Gherkin.Grammar.TokenKind

/-!
# What a rule reads

Whatever is met in a rule is filed: a line in the slot of its kind, and a rule in it in the slot of
that rule. When the rule is left it does not read all that was filed. Some slots it takes as a
whole, of some it takes what came first, of some it only sees whether they are empty, and all others
it does not look at. A rule that is kept as it is reads nothing itself; its slots are read by the
rule around it.

## Main definitions

* `Gherkin.Slot` : what lines and rules are filed under.
* `Gherkin.Share` : how much of a slot is read.
* `Gherkin.Rule.lineShare`, `Gherkin.Rule.childShare` : how much is read of the slots of a rule.
-/

namespace Gherkin

/-- What is met in a rule is filed under its kind if it is a line, and under its rule otherwise. -/
inductive Slot where
  | line (k : TokenKind)
  | child (r : Rule)
  deriving DecidableEq, Repr

/-- How much of a slot is read. -/
inductive Share where
  /-- The slot is not looked at. -/
  | nothing
  /-- It matters only whether there is anything in the slot. -/
  | presence
  /-- What came first is read, and the rest is dropped. -/
  | first
  /-- All is read, in order. -/
  | all
  deriving DecidableEq, Repr

namespace Rule

/-- How much is read of the lines of a kind in a rule. -/
def lineShare : Rule → TokenKind → Share
  | feature, .featureLine => .first
  | featureHeader, .featureLine => .first
  | background, .backgroundLine => .first
  | scenario, .scenarioLine => .first
  | outline, .outlineLine => .first
  | examples, .examplesLine => .first
  | examplesTable, .tableRow => .all
  | step, .stepLine => .first
  | dataTable, .tableRow => .all
  | docString, .docStringSeparator => .first
  | docString, .other => .all
  | tags, .tagLine => .all
  | description, .other => .all
  | _, _ => .nothing

/-- How much is read of the children from a rule in another. A rule that must not have a child of
some rule looks for one. -/
def childShare : Rule → Rule → Share
  | outermost, document => .first
  | document, feature => .first
  | feature, background => .first
  | feature, scenarioDefinition => .all
  | feature, featureHeader => .first
  | feature, tags => .first
  | feature, descriptionHelper => .presence
  | feature, description => .first
  | featureHeader, tags => .first
  | featureHeader, descriptionHelper => .presence
  | featureHeader, description => .first
  | background, descriptionHelper => .presence
  | background, description => .first
  | background, step => .all
  | scenarioDefinition, tags => .first
  | scenarioDefinition, scenario => .first
  | scenarioDefinition, outline => .first
  | scenario, descriptionHelper => .presence
  | scenario, description => .first
  | scenario, step => .all
  | outline, descriptionHelper => .presence
  | outline, description => .first
  | outline, step => .all
  | outline, examplesDefinition => .all
  | examplesDefinition, tags => .first
  | examplesDefinition, examples => .first
  | examples, descriptionHelper => .presence
  | examples, description => .first
  | examples, examplesTable => .first
  | step, stepArgument => .presence
  | step, dataTable => .first
  | step, docString => .first
  | _, _ => .nothing

/-- How much is read of a slot of a rule. -/
def share (r : Rule) : Slot → Share
  | .line k => r.lineShare k
  | .child q => r.childShare q

end Rule

end Gherkin
