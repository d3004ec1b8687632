import Gherkin.Proofs.Composition

/-!
# The feature of a document

A document takes its feature from its first feature rule alone, and has none where the heading of
that rule has no line, or no dialect on its first line. A feature with a header has its heading in
the header, so lines of a feature, tags and descriptions that stand beside the header are never
used, not even where the header leaves the feature without a line.

## Main definitions

* `Gherkin.Document.FeatureOf` : the feature of a document with a forest in it.
* `Gherkin.Forest.besideHeading` : what stands in a feature apart from a heading of its own.

## Main results

* `Gherkin.Document.FeatureOf.unique` : the forest leaves nothing of the feature open.
* `Gherkin.Document.FeatureOf.of_besideHeading` : a feature with a header does not depend on a
  heading beside it.
* `Gherkin.Assembly.feature_of_document` : the feature of a document that is complete.
-/

namespace Gherkin

open Forest

/-! ### Features and what they come of -/

/-- The feature of a document with a forest in it comes of the first feature rule, whatever comes
after that. -/
structure Document.FeatureOf (feature : Option Feature) (ts : Forest) : Prop where
  /-- There is a feature exactly where the heading has a line and its first line has a dialect, be
  it without a name. -/
  isSome_iff : feature.isSome = true ↔ ∃ inner line, first? .feature ts = some inner ∧
    line? .featureLine (header inner).2 = some line ∧ line.dialect.isSome = true
  madeOf : ∀ f, feature = some f → ∃ inner, first? .feature ts = some inner ∧ f.MadeOf inner

/-- A feature does not come to nothing exactly where its heading has a line with a dialect. -/
theorem Forest.absence?_eq_none_iff {ts : Forest} :
    absence? ts = none ↔
      ∃ line, line? .featureLine (header ts).2 = some line ∧ line.dialect.isSome = true := by
  rw [absence?, ← line?]
  cases line? .featureLine (header ts).2 with
  | none => simp
  | some line => simp [Option.isSome_iff_ne_none]

/-- What comes of a document rule has the feature of what stands in the rule. -/
theorem Forest.Becomes.featureOf {ts : Forest} {v : Value} (h : Becomes .document ts v) :
    ∃ d, v = .document d ∧ Document.FeatureOf d.feature ts := by
  obtain ⟨comments, vs, cs, hin, hv⟩ := h
  obtain ⟨d, hd, rfl⟩ := Frame.exists_of_conclude hv
  obtain rfl := (sound_contents hin _).eq_of_document hd
  refine ⟨_, rfl, ?_⟩
  have hfirst := gives_feature.first? hin .document (tokens ts)
  dsimp only
  generalize (Frame.ofContents .document (tokens ts) vs).first? .feature Value.feature? = x?,
    hinner : Forest.first? .feature ts = inner? at hfirst
  cases hfirst with
  | none => exact ⟨by simp [hinner], fun f hf => by cases hf⟩
  | @some x inner hx =>
    obtain ⟨habsence, hmade⟩ := hx
    cases x with
    | error a =>
      -- The first feature rule comes to nothing, and no other one is looked at.
      refine ⟨⟨fun h => absurd h Bool.noConfusion, ?_⟩, fun f hf => by cases hf⟩
      rintro ⟨inner', line, hinner', hline⟩
      obtain rfl : inner = inner' := Option.some.inj (hinner.symm.trans hinner')
      rw [absence?_eq_none_iff.mpr ⟨line, hline⟩] at habsence
      cases habsence
    | ok f =>
      obtain ⟨line, hline⟩ := absence?_eq_none_iff.mp habsence
      refine ⟨⟨fun _ => ⟨inner, line, hinner, hline⟩, fun _ => rfl⟩, ?_⟩
      rintro g hg
      obtain rfl := Option.some.inj hg
      exact ⟨inner, hinner, hmade f rfl⟩

/-! ### Headings beside a header -/

/-- A part of a heading: a line of a feature, tags, or a description. -/
def Tree.isHeading : Tree → Bool
  | .token t => t.kind = .featureLine
  | .node r _ => r = .tags ∨ r = .description

/-- What stands in a feature, without the parts of a heading that stand directly in it. -/
def Forest.besideHeading (ts : Forest) : Forest := ts.filter fun t => !t.isHeading

/-- Rules that are no part of a heading stand beside it. -/
theorem Forest.under_besideHeading (ts : Forest) {r : Rule} (htags : r ≠ .tags)
    (hdescription : r ≠ .description) : under r ts.besideHeading = under r ts := by
  rw [under, besideHeading, List.filterMap_filter]
  refine List.filterMap_congr fun t _ => ?_
  cases t with
  | token t => simp [Tree.under?]
  | node q inner =>
    by_cases hq : q = r
    · simp [Tree.isHeading, hq, htags, hdescription]
    · simp [Tree.under?, hq]

/-- Features that differ in a heading have the same other rules. -/
theorem Forest.under_eq_of_besideHeading {ts us : Forest} (h : ts.besideHeading = us.besideHeading)
    {r : Rule} (htags : r ≠ .tags) (hdescription : r ≠ .description) : under r ts = under r us := by
  rw [← under_besideHeading ts htags hdescription, h, under_besideHeading us htags hdescription]

/-- Features with a header have their heading in the first one. -/
theorem Forest.header_eq_of_under {ts us : Forest} (h : under .featureHeader ts ≠ [])
    (heq : under .featureHeader ts = under .featureHeader us) : header ts = header us := by
  rw [header, header, ← heq]
  cases hunder : under .featureHeader ts with
  | nil => exact absurd hunder h
  | cons _ _ => rfl

/-- Of a feature the heading, the first background and all definitions are read. -/
theorem Feature.MadeOf.congr {f : Feature} {ts us : Forest} (hf : f.MadeOf ts)
    (hheader : Forest.header ts = Forest.header us)
    (hbackground : under .background ts = under .background us)
    (hdefinitions : under .scenarioDefinition ts = under .scenarioDefinition us) :
    f.MadeOf us := by
  obtain ⟨background, scenarios, hchildren, hfirst, hall⟩ := hf.children
  rw [first?, hbackground] at hfirst
  exact ⟨hheader ▸ hf.line, hheader ▸ hf.tags, hheader ▸ hf.description, background, scenarios,
    hchildren, hfirst, hdefinitions ▸ hall⟩

namespace Document.FeatureOf

variable {x y : Option Feature} {ts us : Forest}

/-- The forest leaves nothing of the feature open. -/
theorem unique (hx : FeatureOf x ts) (hy : FeatureOf y ts) : x = y := by
  have hsome : x.isSome = true ↔ y.isSome = true := hx.isSome_iff.trans hy.isSome_iff.symm
  cases x with
  | none =>
    cases y with
    | none => rfl
    | some g => exact absurd (hsome.mpr rfl) Bool.noConfusion
  | some f =>
    cases y with
    | none => exact absurd (hsome.mp rfl) Bool.noConfusion
    | some g =>
      obtain ⟨inner, hinner, hf⟩ := hx.madeOf f rfl
      obtain ⟨inner', hinner', hg⟩ := hy.madeOf g rfl
      obtain rfl : inner = inner' := Option.some.inj (hinner.symm.trans hinner')
      rw [hf.unique hg]

/-- A feature with a header does not depend on a heading beside the header. -/
theorem of_besideHeading (hx : FeatureOf x ts) {F G : Forest} (hF : first? .feature ts = some F)
    (hG : first? .feature us = some G) (hheader : under .featureHeader F ≠ [])
    (hFG : F.besideHeading = G.besideHeading) : FeatureOf x us := by
  have heading : header F = header G :=
    header_eq_of_under hheader (under_eq_of_besideHeading hFG Rule.noConfusion Rule.noConfusion)
  refine ⟨?_, fun f hf => ?_⟩
  · rw [hx.isSome_iff, hF, hG]
    simp [heading]
  · obtain ⟨inner, hinner, hmade⟩ := hx.madeOf f hf
    obtain rfl : F = inner := Option.some.inj (hF.symm.trans hinner)
    exact ⟨G, hG, hmade.congr heading
      (under_eq_of_besideHeading hFG Rule.noConfusion Rule.noConfusion)
      (under_eq_of_besideHeading hFG Rule.noConfusion Rule.noConfusion)⟩

end Document.FeatureOf

/-! ### Documents -/

namespace Assembly

/-- What a document rule that is left after any calls has for a feature. -/
theorem featureOf_of_leave {cs : List Call} {v : Value}
    (hv : ((ofCalls cs).leave .document).1 = .ok v) :
    ∃ d, v = .document d ∧ Document.FeatureOf d.feature (Nesting.ofCalls cs).here := by
  obtain ⟨w, hw, hagree⟩ := Nesting.exists_becomes hv
  obtain ⟨d, rfl, hd⟩ := hw.featureOf
  cases hagree with
  | same hd' _ => cases hd'
  | document hfeature _ => exact ⟨_, rfl, hfeature ▸ hd⟩

/-- **The feature of a document.** A document rule that is left after any calls, whatever was
refused before, gives a document with the feature of what stands in the rule. Two such documents
have the same feature where their first feature rules have a header and differ only in a heading
beside it. -/
theorem feature_of_document :
    (∀ cs v, ((ofCalls cs).leave .document).1 = .ok v →
      ∃ d, v = .document d ∧ Document.FeatureOf d.feature (Nesting.ofCalls cs).here) ∧
    ∀ cs cs' d d' F G, ((ofCalls cs).leave .document).1 = .ok (.document d) →
      ((ofCalls cs').leave .document).1 = .ok (.document d') →
      first? .feature (Nesting.ofCalls cs).here = some F →
      first? .feature (Nesting.ofCalls cs').here = some G →
      under .featureHeader F ≠ [] → F.besideHeading = G.besideHeading →
      d.feature = d'.feature := by
  refine ⟨fun cs v hv => featureOf_of_leave hv, ?_⟩
  intro cs cs' d d' F G hd hd' hF hG hheader hFG
  obtain ⟨e, he, hfeature⟩ := featureOf_of_leave hd
  obtain ⟨e', he', hfeature'⟩ := featureOf_of_leave hd'
  obtain rfl := Value.document.inj he
  obtain rfl := Value.document.inj he'
  exact (hfeature.of_besideHeading hF hG hheader hFG).unique hfeature'

/-- Calls up to the end of a document: a feature with a heading, then with a scenario, a header and
a background, and after it another feature. -/
def callsWithHeading (heading : List Event) : List Call :=
  let line (kind : TokenKind) (n : UInt32) : Event :=
    .token { kind, location := ⟨n, 1⟩, dialect := some "" }
  let inside (r : Rule) (es : List Event) : List Event := .enter r :: (es ++ [.leave r])
  (.enter .document :: inside .feature (heading ++
      inside .scenarioDefinition (inside .scenario [line .scenarioLine 5]) ++
      inside .featureHeader [line .featureLine 6, line .featureLine 7] ++
      inside .background [line .backgroundLine 8]) ++
    inside .feature [line .featureLine 9]).map .event

/-- A heading with a line, with tags and a comment among them, and with a description. -/
def strayHeading : List Event :=
  let line (kind : TokenKind) (n : UInt32) : Event :=
    .token { kind, location := ⟨n, 1⟩, text := "a", items := [⟨1, "@a"⟩], dialect := some "en" }
  [line .featureLine 1, .enter .tags, line .tagLine 2, line .comment 3, .leave .tags,
    .enter .description, line .other 4, .leave .description]

/-- The document that comes of these calls, with some comments. -/
def documentOfHeader (comments : List Comment) : Document :=
  ⟨some ⟨[], ⟨6, 1⟩, "", "", "", "", [.background ⟨⟨8, 1⟩, "", "", "", []⟩,
    .scenario [] ⟨⟨5, 1⟩, "", "", "", []⟩]⟩, comments⟩

theorem feature_of_callsWithHeading :
    let cs := callsWithHeading strayHeading
    let d := documentOfHeader [⟨⟨3, 1⟩, "a"⟩]
    ((ofCalls cs).leave .document).1 = .ok (.document d) ∧
      ((ofCalls (callsWithHeading [])).leave .document).1 = .ok (.document (documentOfHeader [])) ∧
      (∃ d', .document d = Value.document d' ∧
        Document.FeatureOf d'.feature (Nesting.ofCalls cs).here) ∧
      d.feature = (documentOfHeader []).feature := by
  intro cs d
  have hd : ((ofCalls cs).leave .document).1 = .ok (.document d) := by rfl
  have hd' : ((ofCalls (callsWithHeading [])).leave .document).1 =
      .ok (.document (documentOfHeader [])) := by rfl
  exact ⟨hd, hd', feature_of_document.1 _ _ hd,
    feature_of_document.2 _ _ _ _ _ _ hd hd' rfl rfl (List.cons_ne_nil _ _) rfl⟩

end Assembly

end Gherkin
