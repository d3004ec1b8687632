import Gherkin.Proofs.Composition
import Gherkin.Proofs.Siblings

/-!
# Descriptions

A description can always be left, and its text is that of the lines it keeps, whatever else stands
in its rule. The lines that are kept are kept again, so a description of them has the same text, and
they can be read off the text where no line has a line feed of its own.

## Main definitions

* `Gherkin.Forest.texts` : the texts of the lines of a description or of a doc string.
* `Gherkin.Call.describing` : the calls that enter a description and give it lines.

## Main results

* `Gherkin.Assembly.leave_description` : the text of a description.
* `Gherkin.Assembly.description_of_texts` : descriptions follow their lines, and lines their
  descriptions.
-/

namespace Gherkin

/-- The texts of the lines of a description, or of a doc string, with a forest in it. -/
def Forest.texts (ts : Forest) : List String := (lines .other ts).map Token.text

namespace Nesting

/-- What is wrong with an end of the innermost rule is what is wrong with what stands in it. -/
theorem fault?_of_innermost {n : Nesting} {r : Rule} (h : n.innermost = r) (hr : r ≠ .outermost) :
    n.fault? r = Forest.fault? r n.here := by
  obtain ⟨here, _ | ⟨⟨before, o⟩, around⟩⟩ := n
  · exact absurd h.symm hr
  · exact if_pos h

/-! ### Lines given to a description -/

/-- Lines are met one after another in the innermost rule. -/
theorem foldl_perform_tokens (n : Nesting) (us : List Token) :
    (us.map fun t => Call.event (.token t)).foldl perform n =
      { n with here := n.here ++ us.map .token } := by
  induction us generalizing n with
  | nil => simp
  | cons t us ih =>
    rw [List.map_cons, List.foldl_cons, ih]
    simp [perform, step]

end Nesting

/-- The calls that enter a description and give it lines. -/
def Call.describing (us : List Token) : List Call :=
  .event (.enter .description) :: us.map fun t => .event (.token t)

section Describing

variable (before : List Call) {us : List Token}

theorem Nesting.ofCalls_describing :
    ofCalls (before ++ Call.describing us) =
      ⟨us.map .token, ((ofCalls before).here, .description) :: (ofCalls before).around⟩ := by
  rw [ofCalls, List.foldl_append, Call.describing, List.foldl_cons, foldl_perform_tokens]
  rfl

/-- The lines that a description is given are its lines. -/
theorem Nesting.texts_describing (hus : ∀ t ∈ us, t.kind = .other) :
    (ofCalls (before ++ Call.describing us)).here.texts = us.map Token.text := by
  have htokens : Forest.tokens (us.map Tree.token) = us := by
    rw [Forest.tokens, List.filterMap_map]
    exact List.filterMap_some
  have hother : Forest.lines .other (us.map Tree.token) = us := by
    rw [Forest.lines, htokens]
    exact List.filter_eq_self.mpr fun t ht => decide_eq_true (hus t ht)
  rw [ofCalls_describing, Forest.texts, hother]

end Describing

/-! ### Descriptions -/

namespace Assembly

variable {cs : List Call} {kept : List String}

/-- **Descriptions.** A description can be left after any calls, and its text is that of the lines
it keeps. -/
theorem leave_description (h : (Nesting.ofCalls cs).innermost = .description)
    (hkept : Text.Kept (Nesting.ofCalls cs).here.texts kept) :
    ((ofCalls cs).leave .description).1 = .ok (.description (Text.ofLines kept)) := by
  have hfault : (Nesting.ofCalls cs).fault? .description = none :=
    Nesting.fault?_of_innermost h Rule.noConfusion
  obtain ⟨v, hv⟩ := Nesting.exists_leave hfault
  obtain ⟨text, rfl, kept', hkept', rfl⟩ :=
    Forest.gives_description.of_leave .description hv
  obtain rfl := hkept.unique hkept'
  exact hv

/-- **Descriptions and their lines.** A description that is left after any calls has the text of its
lines up to the last that is not blank. Where it has such a line, and no line has a line feed, these
lines are what the text is split into; and a description that is given them has the same text.
Descriptions of lines without line feeds have the same text where they keep the same lines, and
nowhere else. -/
theorem description_of_texts :
    (∀ cs, (Nesting.ofCalls cs).innermost = .description →
      ∃ kept, Text.Kept (Nesting.ofCalls cs).here.texts kept ∧
        ((ofCalls cs).leave .description).1 = .ok (.description ("\n".intercalate kept)) ∧
        ((∃ line ∈ (Nesting.ofCalls cs).here.texts, ¬Text.Blank line) →
          (∀ line ∈ (Nesting.ofCalls cs).here.texts, '\n' ∉ line.toList) →
          Text.split ("\n".intercalate kept) = kept) ∧
        ∀ before us, (∀ t ∈ us, t.kind = .other) → us.map Token.text = kept →
          ((ofCalls (before ++ Call.describing us)).leave .description).1 =
            ((ofCalls cs).leave .description).1) ∧
    ∀ cs cs' kept kept', (Nesting.ofCalls cs).innermost = .description →
      (Nesting.ofCalls cs').innermost = .description →
      (∀ line ∈ (Nesting.ofCalls cs).here.texts, '\n' ∉ line.toList) →
      (∀ line ∈ (Nesting.ofCalls cs').here.texts, '\n' ∉ line.toList) →
      Text.Kept (Nesting.ofCalls cs).here.texts kept →
      Text.Kept (Nesting.ofCalls cs').here.texts kept' →
      (((ofCalls cs).leave .description).1 = ((ofCalls cs').leave .description).1 ↔
        kept = kept') := by
  refine ⟨fun cs h => ?_, fun cs cs' kept kept' h h' hfeeds hfeeds' hkept hkept' => ?_⟩
  · have hkept := Text.kept_trimEnd (Nesting.ofCalls cs).here.texts
    have hleave := leave_description h hkept
    refine ⟨_, hkept, hleave, fun hline hfeeds => ?_, fun before us hus htexts => ?_⟩
    · exact Text.split_ofLines (hkept.ne_nil hline) fun line hline =>
        hfeeds line (hkept.subset hline)
    · have hinnermost : (Nesting.ofCalls (before ++ Call.describing us)).innermost =
          .description := by
        rw [Nesting.ofCalls_describing]
        rfl
      rw [hleave]
      refine leave_description hinnermost ?_
      rw [Nesting.texts_describing before hus, htexts]
      exact hkept.again
  · rw [leave_description h hkept, leave_description h' hkept', ← hkept.ofLines_eq_iff hkept' hfeeds
      hfeeds', Except.ok.injEq, Value.description.injEq]

/-- Calls up to the end of a description with some lines, after an end that is refused, and with a
comment and a rule among the lines. -/
def callsOfDescription (texts : List String) : List Call :=
  let line (text : String) : Call := .event (.token { kind := .other, location := ⟨1, 1⟩, text })
  let comment : Call := .event (.token { kind := .comment, location := ⟨2, 1⟩, text := "b" })
  [.event (.leave .step), .event (.enter .description), comment] ++ texts.map line ++
    [.event (.enter .tags), .event (.leave .tags)]

theorem description_of_callsOfDescription :
    let cs := callsOfDescription ["", " a", "\u00a0", " \t", ""]
    let cs' := callsOfDescription ["", " a", "\u00a0", "\r"]
    let us : List Token := ["", " a", "\u00a0"].map fun text =>
      { kind := .other, location := ⟨5, 1⟩, text }
    ((ofCalls cs).leave .description).1 = .ok (.description "\n a\n\u00a0") ∧
      (∃ kept, Text.Kept (Nesting.ofCalls cs).here.texts kept ∧
        ((ofCalls cs).leave .description).1 = .ok (.description ("\n".intercalate kept)) ∧
        Text.split ("\n".intercalate kept) = kept) ∧
      ((ofCalls (Call.describing us)).leave .description).1 = ((ofCalls cs).leave .description).1 ∧
      ((ofCalls cs).leave .description).1 = ((ofCalls cs').leave .description).1 := by
  intro cs cs' us
  have hkept : Text.Kept (Nesting.ofCalls cs).here.texts ["", " a", "\u00a0"] :=
    .upTo (k := 2) rfl (by decide) (by decide)
  have hkept' : Text.Kept (Nesting.ofCalls cs').here.texts ["", " a", "\u00a0"] :=
    .upTo (k := 2) rfl (by decide) (by decide)
  obtain ⟨kept, hkept'', hleave, hsplit, hagain⟩ := description_of_texts.1 cs rfl
  obtain rfl := hkept''.unique hkept
  have htext : "\n".intercalate ["", " a", "\u00a0"] = "\n a\n\u00a0" := by decide
  exact ⟨htext ▸ hleave, ⟨_, hkept, hleave, hsplit (by decide) (by decide)⟩,
    hagain [] us (by decide) rfl,
    (description_of_texts.2 cs cs' _ _ rfl rfl (by decide) (by decide) hkept hkept').mpr rfl⟩

end Assembly

end Gherkin
