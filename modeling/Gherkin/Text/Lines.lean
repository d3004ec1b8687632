/-!
# Texts of several lines

A description and a doc string are given line by line and kept as one text. The lines of a
description end with its last line that is not blank.

## Main definitions

* `Gherkin.Text.isBlank` : whether a line holds nothing but blank characters.
* `Gherkin.Text.trimEnd` : lines less the blank ones at their end.
* `Gherkin.Text.ofLines` : one text made from its lines.
-/

namespace Gherkin.Text

/-- The blank characters: space, tab, line feed, vertical tab, form feed and carriage return.
Any other white space, such as a space that allows no line break, is content. -/
def isBlankChar (c : Char) : Bool :=
  c == ' ' || c == '\t' || c == '\n' || c == '\x0b' || c == '\x0c' || c == '\r'

/-- Whether a line holds nothing but blank characters. -/
def isBlank (line : String) : Bool := line.toList.all isBlankChar

/-- The lines up to the last one that is not blank. -/
def trimEnd (lines : List String) : List String := (lines.reverse.dropWhile isBlank).reverse

/-- The text whose lines are given: a line feed between each and the next. -/
def ofLines (lines : List String) : String := "\n".intercalate lines

@[simp]
theorem trimEnd_nil : trimEnd [] = [] := rfl

/-- A blank line at the end is dropped. -/
theorem trimEnd_concat_of_isBlank {line : String} (h : isBlank line = true)
    (lines : List String) : trimEnd (lines ++ [line]) = trimEnd lines := by
  simp [trimEnd, h]

/-- A line at the end that is not blank keeps every line before it. -/
theorem trimEnd_concat_of_not_isBlank {line : String} (h : isBlank line = false)
    (lines : List String) : trimEnd (lines ++ [line]) = lines ++ [line] := by
  simp [trimEnd, h]

end Gherkin.Text
