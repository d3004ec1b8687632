import Gherkin.Proofs.Lines
import Mathlib.Data.List.Basic
import Mathlib.Data.List.Induction

/-!
# The lines that a description keeps

A description drops the blank lines at its end and keeps its last line with content, with all lines
before it. That rule is said here of the lines alone, and the lines that are computed follow it.
What is kept can be found again in the text that is made of it, as long as no line has a line feed
of its own: lines are recovered where the text is split, and no lines at all make the only blank
text that a description can be.

## Main definitions

* `Gherkin.Text.Blank` : a text of blank characters.
* `Gherkin.Text.Kept` : the lines that a description keeps.
* `Gherkin.Text.split` : the lines of a text.

## Main results

* `Gherkin.Text.kept_trimEnd`, `Gherkin.Text.Kept.unique` : the lines that are kept are those that
  are computed, and no others.
* `Gherkin.Text.Kept.again` : lines that are kept are kept again.
* `Gherkin.Text.split_ofLines`, `Gherkin.Text.intercalate_inj` : lines recovered from a text, and
  texts compared by their parts.
* `Gherkin.Text.Kept.ofLines_eq_iff` : descriptions with the same text keep the same lines.
-/

namespace Gherkin.Text

/-! ### Kept lines -/

/-- A text has no characters but spaces, tabs, line feeds, vertical tabs, form feeds and carriage
returns. -/
def Blank (text : String) : Prop :=
  ∀ c ∈ text.toList, c ∈ [' ', '\t', '\n', '\x0b', '\x0c', '\r']

theorem isBlank_iff {text : String} : isBlank text = true ↔ Blank text := by
  simp [isBlank, isBlankChar, Blank, or_assoc]

instance (text : String) : Decidable (Blank text) := decidable_of_iff _ isBlank_iff

/-- Of lines that are all blank none is kept, and otherwise all up to the last that is not blank. -/
inductive Kept (lines : List String) : List String → Prop
  | none (h : ∀ line ∈ lines, Blank line) : Kept lines []
  | upTo {k : Nat} {line : String} (hk : lines[k]? = some line) (hline : ¬Blank line)
      (hrest : ∀ line ∈ lines.drop (k + 1), Blank line) : Kept lines (lines.take (k + 1))

/-- One more blank line is not kept. -/
theorem Kept.concat_blank {lines kept : List String} (h : Kept lines kept) {line : String}
    (hline : Blank line) : Kept (lines ++ [line]) kept := by
  cases h with
  | none h =>
    refine .none fun l hl => ?_
    rcases List.mem_append.mp hl with hl | hl
    · exact h l hl
    · exact List.mem_singleton.mp hl ▸ hline
  | @upTo k last hk hlast hrest =>
    have hlt : k < lines.length := (List.getElem?_eq_some_iff.mp hk).1
    have htake : (lines ++ [line]).take (k + 1) = lines.take (k + 1) :=
      List.take_append_of_le_length hlt
    rw [← htake]
    refine .upTo ((List.getElem?_append_left hlt).trans hk) hlast fun l hl => ?_
    rw [List.drop_append_of_le_length hlt] at hl
    rcases List.mem_append.mp hl with hl | hl
    · exact hrest l hl
    · exact List.mem_singleton.mp hl ▸ hline

/-- **What is computed is what is kept.** -/
theorem kept_trimEnd (lines : List String) : Kept lines (trimEnd lines) := by
  induction lines using List.reverseRecOn with
  | nil => exact .none fun l hl => absurd hl List.not_mem_nil
  | append_singleton lines line ih =>
    cases hline : isBlank line with
    | true =>
      rw [trimEnd_concat_of_isBlank hline]
      exact ih.concat_blank (isBlank_iff.mp hline)
    | false =>
      have hkept : Kept (lines ++ [line]) ((lines ++ [line]).take (lines.length + 1)) :=
        .upTo List.getElem?_concat_length (by simp [← isBlank_iff, hline]) (by simp)
      rw [trimEnd_concat_of_not_isBlank hline]
      rwa [List.take_of_length_le (by simp)] at hkept

namespace Kept

variable {lines lines' kept kept' : List String}

/-- A line with content is not after the last such line. -/
theorem le_of_blank {j k : Nat} {line : String} (hj : lines[j]? = some line)
    (hline : ¬Blank line) (hrest : ∀ line ∈ lines.drop (k + 1), Blank line) : j ≤ k := by
  refine Nat.le_of_not_lt fun hlt => hline (hrest line ?_)
  rw [List.mem_iff_getElem?]
  exact ⟨j - (k + 1), by rw [List.getElem?_drop, Nat.add_sub_cancel' hlt, hj]⟩

/-- Which lines are kept is settled by the lines. -/
theorem unique (h : Kept lines kept) (h' : Kept lines kept') : kept = kept' := by
  cases h with
  | none h =>
    cases h' with
    | none _ => rfl
    | upTo hk hline _ => exact absurd (h _ (List.mem_of_getElem? hk)) hline
  | @upTo j _ hj hline hrest =>
    cases h' with
    | none h' => exact absurd (h' _ (List.mem_of_getElem? hj)) hline
    | @upTo k _ hk hline' hrest' =>
      obtain rfl : j = k := Nat.le_antisymm (le_of_blank hj hline hrest')
        (le_of_blank hk hline' hrest)
      rfl

/-- Lines that are kept are kept again. -/
theorem again (h : Kept lines kept) : Kept kept kept := by
  cases h with
  | none _ => exact .none fun l hl => absurd hl List.not_mem_nil
  | @upTo k line hk hline _ =>
    have hlt : k < lines.length := (List.getElem?_eq_some_iff.mp hk).1
    have hlength : (lines.take (k + 1)).length = k + 1 := List.length_take_of_le hlt
    have hagain : Kept (lines.take (k + 1)) ((lines.take (k + 1)).take (k + 1)) := by
      refine .upTo (by rw [List.getElem?_take_of_lt (Nat.lt_succ_self k), hk]) hline ?_
      rw [List.drop_of_length_le (Nat.le_of_eq hlength)]
      exact fun l hl => absurd hl List.not_mem_nil
    rwa [List.take_of_length_le (Nat.le_of_eq hlength)] at hagain

/-- A line that is kept is one of the lines. -/
theorem subset (h : Kept lines kept) : kept ⊆ lines := by
  cases h with
  | none _ => exact List.nil_subset _
  | upTo _ _ _ => exact List.take_subset _ _

/-- Where a line has content, lines are kept. -/
theorem ne_nil (h : Kept lines kept) (hline : ∃ line ∈ lines, ¬Blank line) : kept ≠ [] := by
  obtain ⟨line, hmem, hline⟩ := hline
  cases h with
  | none hblank => exact absurd (hblank line hmem) hline
  | upTo _ _ _ => simp [List.ne_nil_of_mem hmem]

/-- A text made of lines that are kept is blank only where none is kept. -/
theorem eq_nil_of_isBlank (h : Kept lines kept) (hblank : isBlank (ofLines kept) = true) :
    kept = [] := by
  rw [isBlank_ofLines, List.all_eq_true] at hblank
  exact h.again.unique (.none fun line hline => isBlank_iff.mp (hblank line hline))

end Kept

/-! ### Lines recovered -/

/-- Parts of a text are recovered where they are separated by a character that is in none of them,
unless there are none. -/
theorem splitOn_intercalate (c : Char) {parts : List String} (hne : parts ≠ [])
    (h : ∀ part ∈ parts, c ∉ part.toList) :
    ((String.singleton c).intercalate parts).toList.splitOn c = parts.map String.toList := by
  have hparts : ∀ l ∈ parts.map String.toList, c ∉ l := by
    intro l hl
    obtain ⟨part, hpart, rfl⟩ := List.mem_map.mp hl
    exact h part hpart
  rw [String.toList_intercalate, String.toList_singleton,
    List.splitOn_intercalate c hparts (by simpa using hne)]

/-- Texts made of such parts are the same only where their parts are. -/
theorem intercalate_inj (c : Char) {parts parts' : List String} (hne : parts ≠ [])
    (hne' : parts' ≠ []) (h : ∀ part ∈ parts, c ∉ part.toList)
    (h' : ∀ part ∈ parts', c ∉ part.toList) :
    (String.singleton c).intercalate parts = (String.singleton c).intercalate parts' ↔
      parts = parts' := by
  refine ⟨fun heq => ?_, congrArg _⟩
  have hparts : parts.map String.toList = parts'.map String.toList := by
    rw [← splitOn_intercalate c hne h, heq, splitOn_intercalate c hne' h']
  exact List.map_injective_iff.mpr (fun _ _ => String.toList_injective) hparts

/-- The lines of a text, which end where there is a line feed. -/
def split (text : String) : List String := (text.toList.splitOn '\n').map String.ofList

/-- **Lines recovered.** A text made of lines without line feeds is split into these lines, unless
there are none. -/
theorem split_ofLines {lines : List String} (hne : lines ≠ [])
    (h : ∀ line ∈ lines, '\n' ∉ line.toList) : split (ofLines lines) = lines := by
  have hsplit : (ofLines lines).toList.splitOn '\n' = lines.map String.toList :=
    splitOn_intercalate '\n' hne h
  rw [split, hsplit, List.map_map]
  simp [Function.comp_def]

/-- **Descriptions compared.** Where no line has a line feed, descriptions have the same text
exactly when they keep the same lines. -/
theorem Kept.ofLines_eq_iff {lines lines' kept kept' : List String} (h : Kept lines kept)
    (h' : Kept lines' kept') (hfeeds : ∀ line ∈ lines, '\n' ∉ line.toList)
    (hfeeds' : ∀ line ∈ lines', '\n' ∉ line.toList) :
    ofLines kept = ofLines kept' ↔ kept = kept' := by
  refine ⟨fun heq => ?_, congrArg ofLines⟩
  have hblank : isBlank (ofLines []) = true := rfl
  by_cases hnil : kept = []
  · subst hnil
    exact (h'.eq_nil_of_isBlank (heq ▸ hblank)).symm
  · by_cases hnil' : kept' = []
    · subst hnil'
      exact h.eq_nil_of_isBlank (heq ▸ hblank)
    · exact (intercalate_inj '\n' hnil hnil' (fun line hline => hfeeds line (h.subset hline))
        fun line hline => hfeeds' line (h'.subset hline)).mp heq

end Gherkin.Text
