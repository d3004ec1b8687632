import Gherkin.Document.OfToken
import Gherkin.Document.WellFormed

/-!
# Blank texts

A text of several lines is blank when each of its lines is: the line feeds between them are blank
themselves. So a description, whose last line is not blank, is not blank either, unless it has no
lines at all.

## Main results

* `Gherkin.Text.isBlank_ofLines` : when a text of several lines is blank.
* `Gherkin.Text.trimmed_description` : a description is empty or has a line with content.
-/

namespace Gherkin.Text

@[simp]
theorem isBlank_empty : isBlank "" = true := rfl

theorem isBlank_append (s t : String) : isBlank (s ++ t) = (isBlank s && isBlank t) := by
  simp [isBlank]

/-- A text made of lines is blank when all of them are. -/
theorem isBlank_ofLines (lines : List String) : isBlank (ofLines lines) = lines.all isBlank := by
  have hfeed : isBlank "\n" = true := rfl
  induction lines with
  | nil => rfl
  | cons line lines ih =>
    cases lines with
    | nil => simp [ofLines]
    | cons next lines =>
      rw [ofLines, String.intercalate_cons_cons, isBlank_append, isBlank_append, hfeed,
        Bool.and_true, List.all_cons, ← ih, ofLines]

/-- The last of the lines that are kept is not blank. -/
theorem isBlank_getLast_trimEnd {lines : List String} (h : trimEnd lines ≠ []) :
    isBlank ((trimEnd lines).getLast h) = false := by
  simp only [trimEnd, List.getLast_reverse]
  exact List.head_dropWhile_not isBlank _

/-- A description is empty or has a line with content. -/
theorem trimmed_description (lines : List Token) : Trimmed (description lines) := by
  intro hblank
  rw [description, isBlank_ofLines, List.all_eq_true] at hblank
  by_cases hnil : trimEnd (lines.map (·.text)) = []
  · rw [description, hnil]
    rfl
  · have hlast := hblank _ (List.getLast_mem hnil)
    rw [isBlank_getLast_trimEnd hnil] at hlast
    exact absurd hlast Bool.false_ne_true

end Gherkin.Text
