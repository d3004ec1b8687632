/-!
# Rules of the grammar

A rule brackets a part of a feature file: the lines matched and the rules followed while it was
open. The rules have a fixed order, and each has the name by which messages call it.

## Main definitions

* `Gherkin.Rule` : the rules.
* `Gherkin.Rule.all`, `Gherkin.Rule.index` : the rules in order, and the place of each.
* `Gherkin.Rule.name`, `Gherkin.Rule.ofName?` : the name of a rule, and the way back.
-/

namespace Gherkin

/-- A rule of the grammar. -/
inductive Rule where
  /-- No rule: what stands outside every rule is filed under it. -/
  | outermost
  /-- The whole document. -/
  | document
  /-- A feature: its header, its background, its scenarios. -/
  | feature
  /-- The tags, the line and the description of a feature. -/
  | featureHeader
  /-- A background. -/
  | background
  /-- Tags with a scenario or an outline. -/
  | scenarioDefinition
  /-- A scenario. -/
  | scenario
  /-- A scenario outline. -/
  | outline
  /-- Tags with a block of examples. -/
  | examplesDefinition
  /-- A block of examples. -/
  | examples
  /-- The table of a block of examples. -/
  | examplesTable
  /-- A step with its argument. -/
  | step
  /-- The argument of a step. -/
  | stepArgument
  /-- A table given to a step. -/
  | dataTable
  /-- A doc string given to a step. -/
  | docString
  /-- The lines of tags before a feature, a scenario or a block of examples. -/
  | tags
  /-- Comments and a description between a line and what follows it. -/
  | descriptionHelper
  /-- The lines of a description. -/
  | description
  deriving DecidableEq, Repr, Inhabited

namespace Rule

/-- Every rule, in order. -/
def all : List Rule :=
  [outermost, document, feature, featureHeader, background, scenarioDefinition, scenario, outline,
    examplesDefinition, examples, examplesTable, step, stepArgument, dataTable, docString, tags,
    descriptionHelper, description]

/-- The place of a rule in `all`, counted from `0`. -/
def index (r : Rule) : Nat := r.ctorIdx

/-- The name of a rule in the grammar. -/
def name : Rule → String
  | outermost => "None"
  | document => "GherkinDocument"
  | feature => "Feature"
  | featureHeader => "Feature_Header"
  | background => "Background"
  | scenarioDefinition => "Scenario_Definition"
  | scenario => "Scenario"
  | outline => "ScenarioOutline"
  | examplesDefinition => "Examples_Definition"
  | examples => "Examples"
  | examplesTable => "Examples_Table"
  | step => "Step"
  | stepArgument => "Step_Arg"
  | dataTable => "DataTable"
  | docString => "DocString"
  | tags => "Tags"
  | descriptionHelper => "Description_Helper"
  | description => "Description"

/-- The rule of a given name. -/
def ofName? (s : String) : Option Rule := all.find? fun r => r.name == s

/-- Rules are ordered by their place. -/
instance : Ord Rule where
  compare a b := compare a.index b.index

theorem mem_all (r : Rule) : r ∈ all := by
  cases r <;> decide

theorem all_getElem?_index (r : Rule) : all[r.index]? = some r := by
  cases r <;> rfl

@[simp]
theorem ofName?_name (r : Rule) : ofName? r.name = some r := by
  cases r <;> decide

/-- No two rules share a name. -/
theorem name_injective {q r : Rule} (h : q.name = r.name) : q = r := by
  simpa using congrArg ofName? h

end Rule

end Gherkin
