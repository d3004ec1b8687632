import Gherkin.Grammar.TokenKind
import Gherkin.Location

/-!
# Tokens

A token is a matched line. Besides its kind and its place it has the keyword it was matched with,
the text after the keyword, the fragments of the line (the cells of a row, the tags of a line of
tags), and on a feature line the language of the dialect whose keywords are in use.

## Main definitions

* `Gherkin.Span` : a fragment of a line and the column where it starts.
* `Gherkin.Token` : a matched line.
* `Gherkin.Token.locate` : the place of a fragment of the line.
* `Gherkin.Token.keywordText` : the keyword, empty where there is none.
-/

namespace Gherkin

/-- A fragment of a line: a cell of a row, or a tag. -/
structure Span where
  column : UInt32
  text : String
  deriving DecidableEq, Repr

/-- A matched line. -/
structure Token where
  kind : TokenKind
  /-- Where the line starts. -/
  location : Location
  /-- The keyword that the line was matched with. -/
  keyword : Option String := none
  /-- The text after the keyword, or the whole line where there is no keyword. -/
  text : String := ""
  /-- The cells of a row, or the tags of a line of tags. -/
  items : List Span := []
  /-- The language of the dialect in use, where one was found. -/
  dialect : Option String := none
  /-- The width of the blank space before the text. -/
  indent : UInt32 := 0
  deriving DecidableEq, Repr

namespace Token

/-- The location of the fragment of a token that starts in `column`. -/
def locate (t : Token) (column : UInt32) : Location := t.location.atColumn column

/-- The keyword of a token, empty where there is none. -/
def keywordText (t : Token) : String := t.keyword.getD ""

end Token

end Gherkin
