import Gherkin.Proofs.Readings

/-!
# What a rule became

The converse of the readings: where a sound frame has a value, the value is the plain expression in
the first line of a kind and in the children from a rule that the reading stands for. Tags and
descriptions are in the frame itself, or in the frame that was read in its place.

## Main results

* `Gherkin.Frame.Sound.eq_of_step`, `Gherkin.Frame.Sound.eq_of_block` and their like : what a
  reading that succeeds has read.
* `Gherkin.Frame.exists_of_conclude` : which reading the value of a frame is made of.
-/

namespace Gherkin

namespace Frame

variable {f : Frame Value}

theorem token?_eq_of_token {k : TokenKind} {t : Token} (h : f.token k = .ok t) :
    f.token? k = some t := by
  unfold token at h
  cases ht : f.token? k with
  | none => simp [ht] at h
  | some u => simpa [ht] using h

/-- The rows of a table are those of its lines. -/
theorem eq_of_rows {rs : List Row} (h : f.rows = .ok rs) :
    rs = (f.tokens.get .tableRow).map Row.ofToken :=
  (Row.ofTokens_eq_ok_iff.mp h).1

theorem eq_of_docString {s : DocString} (h : f.docString = .ok s) :
    ∃ fence, f.token? .docStringSeparator = some fence ∧
      s = .ofTokens fence (f.tokens.get .other) := by
  obtain ⟨fence, hfence, h⟩ := Except.bind_eq_ok_iff.mp h
  exact ⟨fence, token?_eq_of_token hfence, (Except.ok.inj h).symm⟩

namespace Sound

variable (hf : f.Sound)

include hf

theorem eq_of_description {text : String} (h : f.description = .ok text) :
    text = f.descriptionOf := by
  rw [Frame.description, hf.child?_eq .description] at h
  obtain ⟨-, -, h⟩ := Except.bind_eq_ok_iff.mp h
  exact (Except.ok.inj h).symm

theorem eq_of_step {s : Step} (h : f.step = .ok s) :
    ∃ line, f.token? .stepLine = some line ∧
      s = .ofLine line ((f.first? .dataTable Value.dataTable?).map .dataTable <|>
        (f.first? .docString Value.docString?).map .docString) := by
  rw [Frame.step, hf.child?_eq .dataTable, hf.child?_eq .docString] at h
  obtain ⟨-, -, h⟩ := Except.bind_eq_ok_iff.mp h
  obtain ⟨line, hline, h⟩ := Except.bind_eq_ok_iff.mp h
  exact ⟨line, token?_eq_of_token hline, (Except.ok.inj h).symm⟩

theorem eq_of_block {k : TokenKind} {b : Block} (h : f.block k = .ok b) :
    ∃ line, f.token? k = some line ∧
      b = .ofLine line f.descriptionOf (f.all .step Value.step?) := by
  rw [Frame.block, hf.childrenOf_eq .step] at h
  obtain ⟨line, hline, h⟩ := Except.bind_eq_ok_iff.mp h
  obtain ⟨text, htext, h⟩ := Except.bind_eq_ok_iff.mp h
  obtain rfl := hf.eq_of_description htext
  exact ⟨line, token?_eq_of_token hline, (Except.ok.inj h).symm⟩

theorem eq_of_outline {b : Block} {es : List Examples} (h : f.outline = .ok (b, es)) :
    f.block .outlineLine = .ok b ∧ es = f.all .examplesDefinition Value.examples? := by
  rw [Frame.outline, hf.childrenOf_eq .examplesDefinition] at h
  obtain ⟨block, hblock, h⟩ := Except.bind_eq_ok_iff.mp h
  obtain ⟨rfl, rfl⟩ := Prod.mk.inj (Except.ok.inj h)
  exact ⟨hblock, rfl⟩

theorem eq_of_scenarioDefinition {c : Child} (h : f.scenarioDefinition = .ok c) :
    ∃ child, (f.first? .scenario Value.tagged? <|> f.first? .outline Value.tagged?) = some child ∧
      c = child f.tagsOf := by
  rw [Frame.scenarioDefinition, hf.tags_eq, hf.child?_eq .scenario, hf.child?_eq .outline] at h
  simp only [Except.ok_bind] at h
  cases hchild : f.first? .scenario Value.tagged? <|> f.first? .outline Value.tagged? with
  | none =>
    rw [hchild] at h
    cases h
  | some child =>
    rw [hchild] at h
    exact ⟨child, rfl, (Except.ok.inj h).symm⟩

theorem eq_of_examplesDefinition {e : Examples} (h : f.examplesDefinition = .ok e) :
    ∃ g line, f.first? .examples Value.frame? = some g ∧ g.token? .examplesLine = some line ∧
      e = {
        tags := f.tagsOf
        location := line.location
        keyword := line.keywordText
        name := line.text
        description := g.descriptionOf
        header := ((g.first? .examplesTable Value.rows?).getD []).head?
        body := ((g.first? .examplesTable Value.rows?).getD []).tail? } := by
  rw [Frame.examplesDefinition, hf.tags_eq, Frame.child, hf.child?_eq .examples] at h
  cases hg : f.first? .examples Value.frame? with
  | none =>
    rw [hg] at h
    cases h
  | some g =>
    rw [hg] at h
    have hgs : g.Sound := hf.of_first?_eq_some .examples hg
    simp only [Except.ok_bind, hgs.child?_eq .examplesTable] at h
    obtain ⟨line, hline, h⟩ := Except.bind_eq_ok_iff.mp h
    obtain ⟨text, htext, h⟩ := Except.bind_eq_ok_iff.mp h
    obtain rfl := hgs.eq_of_description htext
    exact ⟨g, line, rfl, token?_eq_of_token hline, (Except.ok.inj h).symm⟩

/-- The frame that the line, the tags and the description of a feature are read in. -/
theorem sound_header : ((f.first? .featureHeader Value.frame?).getD f).Sound := by
  cases hg : f.first? .featureHeader Value.frame? with
  | none => exact hf
  | some g => exact hf.of_first?_eq_some .featureHeader hg

theorem eq_of_feature {g : Feature} (h : f.feature = .ok (.ok g)) :
    ∃ header line language, header = (f.first? .featureHeader Value.frame?).getD f ∧
      header.token? .featureLine = some line ∧ line.dialect = some language ∧
      g = {
        tags := header.tagsOf
        location := line.location
        language
        keyword := line.keywordText
        name := line.text
        description := header.descriptionOf
        children := ((f.first? .background Value.background?).map Child.background).toList ++
          f.all .scenarioDefinition Value.child? } := by
  have hheader := hf.sound_header
  rw [Frame.feature, hf.child?_eq .background, hf.childrenOf_eq .scenarioDefinition,
    hf.child?_eq .featureHeader] at h
  simp only [Except.ok_bind] at h
  generalize (f.first? .featureHeader Value.frame?).getD f = header at h hheader
  cases hline : header.token? .featureLine with
  | none =>
    rw [hline] at h
    cases h
  | some line =>
    cases hlanguage : line.dialect with
    | none =>
      simp only [hline, hlanguage] at h
      cases h
    | some language =>
      simp only [hline, hlanguage, hheader.tags_eq, Except.ok_bind] at h
      obtain ⟨text, htext, h⟩ := Except.bind_eq_ok_iff.mp h
      obtain rfl := hheader.eq_of_description htext
      exact ⟨header, line, language, rfl, hline, hlanguage,
        (Except.ok.inj (Except.ok.inj h)).symm⟩

theorem eq_of_document {cs : Array Comment} {d : Document} (h : f.document cs = .ok d) :
    d = ⟨(f.first? .feature Value.feature?).bind Except.toOption, cs.toList⟩ := by
  rw [Frame.document, hf.child?_eq .feature] at h
  exact (Except.ok.inj h).symm

end Sound

/-! ### The value of a frame -/

/-- **Values and readings.** A frame that has a value has the reading of its rule, and the value is
made of that; a frame that is kept is its own value. -/
theorem exists_of_conclude {cs : Array Comment} {v : Value} (h : f.conclude cs = .ok v) :
    match f.rule with
    | .document => ∃ d, f.document cs = .ok d ∧ v = .document d
    | .feature => ∃ g, f.feature = .ok g ∧ v = .feature g
    | .background => ∃ b, f.block .backgroundLine = .ok b ∧ v = .background b
    | .scenarioDefinition => ∃ c, f.scenarioDefinition = .ok c ∧ v = .child c
    | .scenario => ∃ b, f.block .scenarioLine = .ok b ∧ v = .scenario b
    | .outline => ∃ b es, f.outline = .ok (b, es) ∧ v = .outline b es
    | .examplesDefinition => ∃ e, f.examplesDefinition = .ok e ∧ v = .examples e
    | .examplesTable => ∃ rs, f.rows = .ok rs ∧ v = .rows rs
    | .step => ∃ s, f.step = .ok s ∧ v = .step s
    | .dataTable => ∃ rs, f.rows = .ok rs ∧ v = .dataTable ⟨rs⟩
    | .docString => ∃ s, f.docString = .ok s ∧ v = .docString s
    | .description => v = .description (Text.description (f.tokens.get .other))
    | _ => v = .frame f := by
  unfold conclude at h
  cases hr : f.rule <;>
    simp only [hr, Except.mapError_eq_ok_iff, Except.map_eq_ok_iff, Except.ok.injEq,
      Prod.exists] at h ⊢
  case outline => obtain ⟨b, es, ho, rfl⟩ := h; exact ⟨b, es, ho, rfl⟩
  case description => exact h.symm
  case outermost | featureHeader | examples | stepArgument | tags | descriptionHelper =>
    exact h.symm
  all_goals obtain ⟨a, ha, rfl⟩ := h; exact ⟨a, ha, rfl⟩

end Frame

end Gherkin
