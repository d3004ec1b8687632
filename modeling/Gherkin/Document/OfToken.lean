import Gherkin.Document.Basic
import Gherkin.Text.Lines
import Gherkin.Token

/-!
# Parts of a document read off tokens

A comment is a line, and a line of tags has a tag for every fragment. Steps, blocks, examples and
features take their place, their keyword and their name from one line, and what else they have from
the rules around it. The lines of a description and of a doc string are tokens of the kind
`Gherkin.TokenKind.other`.

## Main definitions

* `Gherkin.Comment.ofToken`, `Gherkin.Tag.ofToken` : a comment and tags.
* `Gherkin.Step.ofLine`, `Gherkin.Block.ofLine` : a step and a block with a given line.
* `Gherkin.DocString.ofTokens`, `Gherkin.Text.description` : a doc string and a description.
-/

namespace Gherkin

/-- The comment of a line. -/
def Comment.ofToken (t : Token) : Comment := ⟨t.location, t.text⟩

/-- The tags of a line, each at the column of its fragment. -/
def Tag.ofToken (t : Token) : List Tag := t.items.map fun s => ⟨t.locate s.column, s.text⟩

/-- The step with the line `line`. -/
def Step.ofLine (line : Token) (argument : Option Argument) : Step where
  location := line.location
  keyword := line.keywordText
  text := line.text
  argument := argument

/-- The block with the line `line`. -/
def Block.ofLine (line : Token) (description : String) (steps : List Step) : Block where
  location := line.location
  keyword := line.keywordText
  name := line.text
  description := description
  steps := steps

/-- The doc string that `fence` opens. Its content is `lines`, none of which is dropped; a fence
without a text gives no content type. -/
def DocString.ofTokens (fence : Token) (lines : List Token) : DocString where
  location := fence.location
  contentType := if fence.text = "" then none else some fence.text
  content := Text.ofLines (lines.map (·.text))

/-- The description in `lines`, up to the last line that is not blank. -/
def Text.description (lines : List Token) : String := ofLines (trimEnd (lines.map (·.text)))

end Gherkin
