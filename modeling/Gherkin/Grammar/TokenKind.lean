/-!
# Kinds of tokens

A token of the Gherkin grammar is a whole line, and its kind says what the line was matched as.
The kinds have a fixed order, and each has the name by which messages call it.

## Main definitions

* `Gherkin.TokenKind` : the kinds of tokens.
* `Gherkin.TokenKind.all`, `Gherkin.TokenKind.index` : the kinds in order, and the place of each.
* `Gherkin.TokenKind.name`, `Gherkin.TokenKind.ofName?` : the name of a kind, and the way back.
* `Gherkin.TokenKind.isComment` : whether a line belongs to the document but to no part of it.
-/

namespace Gherkin

/-- What a line was matched as. -/
inductive TokenKind where
  /-- Not matched yet. -/
  | unmatched
  /-- The end of the file. -/
  | eof
  /-- A blank line. -/
  | empty
  /-- A line that starts with `#`. -/
  | comment
  /-- A line of `@tags`. -/
  | tagLine
  /-- The line `Feature:` with the name of the feature. -/
  | featureLine
  /-- The line `Background:`. -/
  | backgroundLine
  /-- The line `Scenario:` with the name of the scenario. -/
  | scenarioLine
  /-- The line `Scenario Outline:` with the name of the outline. -/
  | outlineLine
  /-- The line `Examples:`. -/
  | examplesLine
  /-- A step, such as `Given two cucumbers`. -/
  | stepLine
  /-- The fence that opens or closes a doc string. -/
  | docStringSeparator
  /-- A row of a table, such as `| a | b |`. -/
  | tableRow
  /-- The directive `# language:`. -/
  | language
  /-- Any other line: a line of a description or of a doc string. -/
  | other
  deriving DecidableEq, Repr, Inhabited

namespace TokenKind

/-- Every kind, in order. -/
def all : List TokenKind :=
  [unmatched, eof, empty, comment, tagLine, featureLine, backgroundLine, scenarioLine, outlineLine,
    examplesLine, stepLine, docStringSeparator, tableRow, language, other]

/-- The place of a kind in `all`, counted from `0`. -/
def index (k : TokenKind) : Nat := k.ctorIdx

/-- The name of a kind in the grammar. -/
def name : TokenKind → String
  | unmatched => "None"
  | eof => "EOF"
  | empty => "Empty"
  | comment => "Comment"
  | tagLine => "TagLine"
  | featureLine => "FeatureLine"
  | backgroundLine => "BackgroundLine"
  | scenarioLine => "ScenarioLine"
  | outlineLine => "ScenarioOutlineLine"
  | examplesLine => "ExamplesLine"
  | stepLine => "StepLine"
  | docStringSeparator => "DocStringSeparator"
  | tableRow => "TableRow"
  | language => "Language"
  | other => "Other"

/-- The kind of a given name. -/
def ofName? (s : String) : Option TokenKind := all.find? fun k => k.name == s

/-- Kinds are ordered by their place. -/
instance : Ord TokenKind where
  compare a b := compare a.index b.index

/-- Whether tokens of this kind are kept with the document as a whole and not with the rule that
they stand in. -/
def isComment : TokenKind → Bool
  | comment => true
  | _ => false

theorem mem_all (k : TokenKind) : k ∈ all := by
  cases k <;> decide

theorem all_getElem?_index (k : TokenKind) : all[k.index]? = some k := by
  cases k <;> rfl

@[simp]
theorem isComment_iff {k : TokenKind} : k.isComment = true ↔ k = comment := by
  cases k <;> decide

@[simp]
theorem ofName?_name (k : TokenKind) : ofName? k.name = some k := by
  cases k <;> decide

/-- No two kinds share a name. -/
theorem name_injective {j k : TokenKind} (h : j.name = k.name) : j = k := by
  simpa using congrArg ofName? h

end TokenKind

end Gherkin
