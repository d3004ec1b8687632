import Gherkin.Proofs.Soundness

/-!
# Why frames are refused

No reading of a sound frame fails over a child that is there and wanted. What is left are few
reasons, each of which can be said of a frame at once: a token or a child that is missing, a child
that should not be there, or the ragged rows of a table.

## Main results

* `Gherkin.Frame.Sound.reason?_step`, `Gherkin.Frame.Sound.reason?_block` and their like : why a
  reading of a sound frame fails.
-/

namespace Gherkin

namespace Frame

variable {f : Frame Value}

theorem reason?_docString : f.docString.reason? = (f.token .docStringSeparator).reason? :=
  Except.reason?_bind_of_none fun _ => rfl

theorem reason?_rows : f.rows.reason? = Row.ragged? ((f.tokens.get .tableRow).map Row.ofToken) := by
  rw [rows, tokensOf_eq, Row.ofTokens]
  cases Row.ragged? ((f.tokens.get .tableRow).map Row.ofToken) <;> rfl

namespace Sound

variable (hf : f.Sound)

include hf

/-- Nothing is read where nothing is filed. -/
theorem first?_eq_none_iff {r : Rule} {β : Type} {as? : Value → Option β} {P : β → Prop}
    (h : Value.Reading r as? P) : f.first? r as? = none ↔ f.children.get r = [] := by
  rw [first?, List.head?_eq_none_iff, all, List.filterMap_eq_nil_iff]
  constructor
  · intro hnone
    refine List.eq_nil_iff_forall_not_mem.mpr fun v hv => ?_
    obtain ⟨b, hb, -⟩ := h.sound (hf.children r v hv)
    rw [hnone v hv] at hb
    cases hb
  · intro hnil v hv
    rw [hnil] at hv
    cases hv

theorem reason?_description :
    f.description.reason? = (f.forbid .descriptionHelper).reason? := by
  rw [Frame.description, hf.child?_eq .description]
  exact Except.reason?_bind_of_none fun _ => rfl

/-- No list of tags is refused. -/
theorem reason?_tags : f.tags.reason? = none := by
  rw [Frame.tags, hf.child?_eq .tags]
  cases f.first? .tags Value.frame? <;> rfl

/-- An argument in a rule of its own comes before a missing line. -/
theorem reason?_step : f.step.reason? =
    (f.forbid .stepArgument).reason?.or (f.token .stepLine).reason? := by
  rw [Frame.step, hf.child?_eq .dataTable, hf.child?_eq .docString]
  exact Except.reason?_bind fun _ => Except.reason?_bind_of_none fun _ => rfl

/-- A missing line comes before a helper around the description. -/
theorem reason?_block (kind : TokenKind) : (f.block kind).reason? =
    (f.token kind).reason?.or (f.forbid .descriptionHelper).reason? := by
  rw [Frame.block, hf.childrenOf_eq .step, ← hf.reason?_description]
  exact Except.reason?_bind fun _ => Except.reason?_bind_of_none fun _ => rfl

theorem reason?_outline : f.outline.reason? =
    (f.token .outlineLine).reason?.or (f.forbid .descriptionHelper).reason? := by
  rw [Frame.outline, hf.childrenOf_eq .examplesDefinition, ← hf.reason?_block]
  exact Except.reason?_bind_of_none fun _ => rfl

theorem reason?_scenarioDefinition : f.scenarioDefinition.reason? =
    if f.children.get .scenario = [] ∧ f.children.get .outline = []
      then some (.missingChild f.rule .scenario) else none := by
  simp only [← hf.first?_eq_none_iff .scenario, ← hf.first?_eq_none_iff .outline]
  rw [Frame.scenarioDefinition, hf.child?_eq .scenario, hf.child?_eq .outline]
  refine Except.reason?_bind_of_eq_none hf.reason?_tags fun tags => ?_
  cases f.first? .scenario Value.tagged? <;> cases f.first? .outline Value.tagged? <;> rfl

/-- Examples are read in their own rule, and it is that rule which lacks a line. -/
theorem reason?_examplesDefinition : f.examplesDefinition.reason? =
    match f.first? .examples Value.frame? with
    | none => some (.missingChild f.rule .examples)
    | some g => (g.token .examplesLine).reason?.or (g.forbid .descriptionHelper).reason? := by
  rw [Frame.examplesDefinition, Frame.child, hf.child?_eq .examples]
  refine Except.reason?_bind_of_eq_none hf.reason?_tags fun tags => ?_
  cases hg : f.first? .examples Value.frame? with
  | none => rfl
  | some g =>
    have hgs : g.Sound := hf.of_first?_eq_some .examples hg
    dsimp only
    rw [Except.ok_bind, hgs.child?_eq .examplesTable, ← hgs.reason?_description]
    exact Except.reason?_bind fun _ => Except.reason?_bind_of_none fun _ => rfl

theorem reason?_document (cs : Array Comment) : (f.document cs).reason? = none := by
  rw [Frame.document, hf.child?_eq .feature]
  rfl

/-- A feature that comes to nothing is not refused, whatever stands in it. -/
theorem reason?_feature : f.feature.reason? =
    let header := (f.first? .featureHeader Value.frame?).getD f
    match (header.token? .featureLine).bind Token.dialect with
    | none => none
    | some _ => (header.forbid .descriptionHelper).reason? := by
  rw [Frame.feature, hf.child?_eq .background, hf.childrenOf_eq .scenarioDefinition,
    hf.child?_eq .featureHeader, Except.ok_bind, Except.ok_bind, Except.ok_bind]
  have hheader : ((f.first? .featureHeader Value.frame?).getD f).Sound := by
    cases hh : f.first? .featureHeader Value.frame? with
    | none => exact hf
    | some k => exact hf.of_first?_eq_some .featureHeader hh
  revert hheader
  generalize (f.first? .featureHeader Value.frame?).getD f = header
  intro hheader
  dsimp only
  cases header.token? .featureLine with
  | none => rfl
  | some line =>
    cases hdialect : line.dialect with
    | none => simp [hdialect, Except.pure_eq_ok]
    | some language =>
      simp only [Option.bind_some, hdialect]
      rw [← hheader.reason?_description]
      refine Except.reason?_bind_of_eq_none hheader.reason?_tags fun tags => ?_
      exact Except.reason?_bind_of_none fun _ => rfl

end Sound

end Frame

end Gherkin
