import Gherkin.Assembly.Conclusion
import Gherkin.Proofs.Lines
import Gherkin.Proofs.Outcome

/-!
# Sound values

The frames of an assembly are not typed: a child is filed under the rule that it comes from, and
only the reading of the frame around it asks for a value of one sort. A value is sound under a rule
when it is of the sort that the rule becomes and well formed; a frame that is kept as it is counts
as sound when its tokens are filed under their kinds, none of them is a comment, its own children
are sound, and no key in it is in use for nothing. Readings of sound frames ask for nothing that is
not there, and what a sound frame becomes is sound again.

## Main definitions

* `Gherkin.Rule.isKept` : the rules that are kept as they are.
* `Gherkin.Value.Sound`, `Gherkin.Frame.Sound` : soundness.
* `Gherkin.Value.Reading` : the readings that are made of the values of each rule.
* `Gherkin.Frame.all`, `Gherkin.Frame.first?` : what the readings of a sound frame give.

## Main results

* `Gherkin.Value.Reading.sound` : a sound value is of the sort that its readers ask for.
* `Gherkin.Frame.childrenOf_eq_ok_iff` : when the children from a rule can be read.
* `Gherkin.Frame.Sound.childrenOf_eq`, `Gherkin.Frame.Sound.child?_eq` : no reading of the children
  of a sound frame fails.
* `Gherkin.Frame.Sound.conclude` : a sound frame becomes a sound value.
-/

namespace Gherkin

/-- Whether a rule is kept as it is when it is left, for the rule around it to read. -/
def Rule.isKept : Rule → Bool
  | outermost | featureHeader | examples | stepArgument | tags | descriptionHelper => true
  | _ => false

/-- The value of a rule is of the sort that the rule becomes, and well formed. -/
inductive Value.Sound : Rule → Value → Prop
  | document {d : Document} (h : d.WellFormed) : Sound .document (.document d)
  | feature {f : Except Absence Feature} (h : ∀ g, f = .ok g → g.WellFormed) :
      Sound .feature (.feature f)
  | background {b : Block} (h : b.WellFormed) : Sound .background (.background b)
  | scenarioDefinition {c : Child} (h : c.WellFormed) (hb : c.background? = none) :
      Sound .scenarioDefinition (.child c)
  | scenario {b : Block} (h : b.WellFormed) : Sound .scenario (.scenario b)
  | outline {b : Block} {es : List Examples} (h : b.WellFormed) (he : ∀ e ∈ es, e.WellFormed) :
      Sound .outline (.outline b es)
  | examplesDefinition {e : Examples} (h : e.WellFormed) :
      Sound .examplesDefinition (.examples e)
  | examplesTable {rs : List Row} (h : Row.WellFormed rs) : Sound .examplesTable (.rows rs)
  | step {s : Step} (h : s.WellFormed) : Sound .step (.step s)
  | dataTable {t : DataTable} (h : Row.WellFormed t.rows) : Sound .dataTable (.dataTable t)
  | docString {s : DocString} (h : s.contentType ≠ some "") : Sound .docString (.docString s)
  | description {text : String} (h : Text.Trimmed text) : Sound .description (.description text)
  | kept {r : Rule} {f : Frame Value} (hr : f.rule = r) (hk : r.isKept = true)
      (ht : ∀ k, ∀ t ∈ f.tokens.get k, t.kind = k ∧ t.kind.isComment = false)
      (hc : ∀ q, ∀ v ∈ f.children.get q, Sound q v) (hft : f.tokens.Filled)
      (hfc : f.children.Filled) : Sound r (.frame f)

/-- The tokens of a frame are filed under their kinds and none is a comment, its children are sound,
and no key is in use for nothing. -/
structure Frame.Sound (f : Frame Value) : Prop where
  tokens : ∀ k, ∀ t ∈ f.tokens.get k, t.kind = k ∧ t.kind.isComment = false
  children : ∀ r, ∀ v ∈ f.children.get r, v.Sound r
  filled_tokens : f.tokens.Filled
  filled_children : f.children.Filled

namespace Value

/-- The readings that are made of the values of each rule, and what is true of all that they give
of a sound value. -/
inductive Reading : Rule → {β : Type} → (Value → Option β) → (β → Prop) → Prop
  | document : Reading .document document? Document.WellFormed
  | feature : Reading .feature feature? fun f => ∀ g, f = .ok g → g.WellFormed
  | featureHeader : Reading .featureHeader frame? Frame.Sound
  | background : Reading .background background? Block.WellFormed
  | scenarioDefinition :
      Reading .scenarioDefinition child? fun c => c.WellFormed ∧ c.background? = none
  | scenario : Reading .scenario tagged? fun g => ∀ tags,
      (g tags).WellFormed ∧ (g tags).background? = none
  | outline : Reading .outline tagged? fun g => ∀ tags,
      (g tags).WellFormed ∧ (g tags).background? = none
  | examplesDefinition : Reading .examplesDefinition examples? Examples.WellFormed
  | examples : Reading .examples frame? Frame.Sound
  | examplesTable : Reading .examplesTable rows? Row.WellFormed
  | step : Reading .step step? Step.WellFormed
  | dataTable : Reading .dataTable dataTable? fun t => Row.WellFormed t.rows
  | docString : Reading .docString docString? fun s => s.contentType ≠ some ""
  | tags : Reading .tags frame? Frame.Sound
  | description : Reading .description description? Text.Trimmed

/-- **Readers and rules agree.** A sound value is of the sort that its readers ask for, and they
get something well formed. -/
theorem Reading.sound {r : Rule} {β : Type} {as? : Value → Option β} {P : β → Prop}
    (h : Reading r as? P) {v : Value} (hv : v.Sound r) : ∃ b, as? v = some b ∧ P b := by
  cases h with
  | scenario =>
    cases hv with
    | scenario hb => exact ⟨_, rfl, fun tags => ⟨⟨hb, by simp [Child.examples]⟩, rfl⟩⟩
    | kept hr hk => contradiction
  | outline =>
    cases hv with
    | outline hb he => exact ⟨_, rfl, fun tags => ⟨⟨hb, he⟩, rfl⟩⟩
    | kept hr hk => contradiction
  | scenarioDefinition =>
    cases hv with
    | scenarioDefinition hc hb => exact ⟨_, rfl, hc, hb⟩
    | kept hr hk => contradiction
  | featureHeader | examples | tags =>
    cases hv with
    | kept hr hk ht hc hft hfc => exact ⟨_, rfl, ht, hc, hft, hfc⟩
  | _ => cases hv <;> first | contradiction | exact ⟨_, rfl, by assumption⟩

end Value

namespace Frame

variable {β τ γ : Type} [OrderedMap γ Rule (Array Value)]

/-- The children from the rule `r` of the sort that `as?` looks for. -/
def all (f : Frame Value τ γ) (r : Rule) (as? : Value → Option β) : List β :=
  (f.children.get r).filterMap as?

/-- The first child from the rule `r` of the sort that `as?` looks for. -/
def first? (f : Frame Value τ γ) (r : Rule) (as? : Value → Option β) : Option β :=
  (f.all r as?).head?

theorem mem_all {f : Frame Value τ γ} {r : Rule} {as? : Value → Option β} {b : β} :
    b ∈ f.all r as? ↔ ∃ v ∈ f.children.get r, as? v = some b :=
  List.mem_filterMap

/-- Of children that are all of the sort asked for none is passed over. -/
theorem map_eq_all {f : Frame Value τ γ} {r : Rule} {as? : Value → Option β}
    (h : ∀ v ∈ f.children.get r, (as? v).isSome = true) :
    (f.children.get r).map as? = (f.all r as?).map some := by
  rw [all]
  generalize f.children.get r = vs at h
  induction vs with
  | nil => rfl
  | cons v vs ih =>
    obtain ⟨b, hb⟩ := Option.isSome_iff_exists.mp (h v List.mem_cons_self)
    rw [List.map_cons, List.filterMap_cons, hb, ih fun w hw => h w (List.mem_cons_of_mem _ hw)]
    rfl

variable [LawfulOrderedMap γ]

/-- Children are read in order, each as one value of the sort that is asked for, or not at all. -/
theorem childrenOf_eq_ok_iff {f : Frame Value τ γ} {r : Rule} {as? : Value → Option β}
    {bs : List β} :
    f.childrenOf r as? = .ok bs ↔ (f.children.get r).map as? = bs.map some := by
  rw [childrenOf_eq_readEach, readEach]
  generalize f.children.get r = vs
  induction vs generalizing bs with
  | nil => cases bs <;> simp [Except.pure_eq_ok]
  | cons v vs ih =>
    rw [List.mapM_cons, List.map_cons]
    cases hv : as? v with
    | none => cases bs <;> simp [Except.bind_eq_ok_iff]
    | some b =>
      simp only [Except.bind_eq_ok_iff, Except.pure_eq_ok, Except.ok.injEq, ih]
      cases bs with
      | nil => simp
      | cons c bs =>
        simp only [List.map_cons, List.cons.injEq, Option.some.injEq, ← and_assoc, exists_eq_right]

/-- Children that are all of the sort asked for are read. -/
theorem childrenOf_eq_ok {f : Frame Value τ γ} {r : Rule} {as? : Value → Option β}
    (h : ∀ v ∈ f.children.get r, (as? v).isSome = true) :
    f.childrenOf r as? = .ok (f.all r as?) :=
  childrenOf_eq_ok_iff.mpr (map_eq_all h)

/-- Where the children can be read, none is passed over. -/
theorem all_eq_of_childrenOf {f : Frame Value τ γ} {r : Rule} {as? : Value → Option β} {bs : List β}
    (h : f.childrenOf r as? = .ok bs) : f.all r as? = bs := by
  have hmap := congrArg (List.filterMap id) (childrenOf_eq_ok_iff.mp h)
  simpa [List.filterMap_map, all] using hmap

namespace Sound

variable {f : Frame Value} {r : Rule} {as? : Value → Option β} {P : β → Prop}

/-- No reading of the children of a sound frame fails. -/
theorem childrenOf_eq (hf : f.Sound) (h : Value.Reading r as? P) :
    f.childrenOf r as? = .ok (f.all r as?) := by
  refine childrenOf_eq_ok fun v hv => ?_
  obtain ⟨b, hb, -⟩ := h.sound (hf.children r v hv)
  exact Option.isSome_of_eq_some hb

/-- No reading of a child of a sound frame fails. -/
theorem child?_eq (hf : f.Sound) (h : Value.Reading r as? P) :
    f.child? r as? = .ok (f.first? r as?) := by
  rw [child?_eq_map, hf.childrenOf_eq h]
  rfl

/-- What is read of a sound frame is well formed. -/
theorem of_mem_all (hf : f.Sound) (h : Value.Reading r as? P) {b : β} (hb : b ∈ f.all r as?) :
    P b := by
  obtain ⟨v, hv, hb⟩ := mem_all.mp hb
  obtain ⟨b', hb', hP⟩ := h.sound (hf.children r v hv)
  obtain rfl : b' = b := Option.some.inj (hb'.symm.trans hb)
  exact hP

theorem of_first?_eq_some (hf : f.Sound) (h : Value.Reading r as? P) {b : β}
    (hb : f.first? r as? = some b) : P b :=
  hf.of_mem_all h (List.mem_of_head? hb)

end Sound

end Frame

/-! ### Parts made of tokens -/

/-- The cells of a row are placed where the fragments of its line are. -/
theorem Row.placed_ofToken (t : Token) : (Row.ofToken t).Placed := by
  intro c hc
  obtain ⟨s, -, rfl⟩ := List.mem_map.mp hc
  refine ⟨Location.line_atColumn _ _, fun h => ?_⟩
  rw [Token.locate, Location.column_atColumn] at h
  split at h
  · exact h
  · contradiction

/-- The content type of a doc string is not empty. -/
theorem DocString.contentType_ofTokens_ne (fence : Token) (lines : List Token) :
    (DocString.ofTokens fence lines).contentType ≠ some "" := by
  unfold ofTokens
  split <;> simp_all

/-! ### What a sound frame becomes -/

namespace Frame

variable {f : Frame Value}

theorem wellFormed_of_rows {rs : List Row} (h : f.rows = .ok rs) : Row.WellFormed rs := by
  obtain ⟨rfl, hrect⟩ := Row.ofTokens_eq_ok_iff.mp h
  refine ⟨hrect, fun r hr => ?_⟩
  obtain ⟨t, -, rfl⟩ := List.mem_map.mp hr
  exact Row.placed_ofToken t

theorem contentType_ne_of_docString {s : DocString} (h : f.docString = .ok s) :
    s.contentType ≠ some "" := by
  obtain ⟨fence, -, h⟩ := Except.bind_eq_ok_iff.mp h
  cases h
  exact DocString.contentType_ofTokens_ne _ _

namespace Sound

variable (hf : f.Sound)

include hf

theorem trimmed_of_description {text : String} (h : f.description = .ok text) :
    Text.Trimmed text := by
  simp only [Frame.description, hf.child?_eq .description, Except.bind_eq_ok_iff,
    Except.ok_bind] at h
  obtain ⟨-, -, h⟩ := h
  cases h
  cases hd : f.first? .description Value.description? with
  | none => exact fun _ => rfl
  | some text => exact hf.of_first?_eq_some .description hd

theorem wellFormed_of_step {s : Step} (h : f.step = .ok s) : s.WellFormed := by
  simp only [Frame.step, hf.child?_eq .dataTable, hf.child?_eq .docString,
    Except.bind_eq_ok_iff, Except.ok_bind] at h
  obtain ⟨-, -, line, -, h⟩ := h
  cases h
  intro a ha
  simp only [Step.ofLine, Option.mem_def, Option.orElse_eq_orElse, Option.orElse_eq_or,
    Option.or_eq_some_iff, Option.map_eq_some_iff] at ha
  obtain ⟨t, ht, rfl⟩ | ⟨-, s, hs, rfl⟩ := ha
  · exact hf.of_first?_eq_some .dataTable ht
  · exact hf.of_first?_eq_some .docString hs

theorem wellFormed_of_block {kind : TokenKind} {b : Block} (h : f.block kind = .ok b) :
    b.WellFormed := by
  simp only [Frame.block, hf.childrenOf_eq .step, Except.bind_eq_ok_iff, Except.ok_bind] at h
  obtain ⟨line, -, text, htext, h⟩ := h
  cases h
  exact ⟨hf.trimmed_of_description htext, fun s hs => hf.of_mem_all .step hs⟩

theorem wellFormed_of_outline {b : Block} {es : List Examples} (h : f.outline = .ok (b, es)) :
    b.WellFormed ∧ ∀ e ∈ es, e.WellFormed := by
  simp only [Frame.outline, hf.childrenOf_eq .examplesDefinition, Except.bind_eq_ok_iff,
    Except.ok_bind] at h
  obtain ⟨block, hblock, h⟩ := h
  cases h
  exact ⟨hf.wellFormed_of_block hblock, fun e he => hf.of_mem_all .examplesDefinition he⟩

theorem wellFormed_of_scenarioDefinition {c : Child} (h : f.scenarioDefinition = .ok c) :
    c.WellFormed ∧ c.background? = none := by
  simp only [Frame.scenarioDefinition, hf.child?_eq .scenario, hf.child?_eq .outline,
    Except.bind_eq_ok_iff, Except.ok_bind] at h
  obtain ⟨tags, -, h⟩ := h
  cases hg : f.first? .scenario Value.tagged? <|> f.first? .outline Value.tagged? with
  | none =>
    rw [hg] at h
    cases h
  | some g =>
    rw [hg] at h
    cases h
    simp only [Option.orElse_eq_orElse, Option.orElse_eq_or, Option.or_eq_some_iff] at hg
    obtain hs | ⟨-, ho⟩ := hg
    · exact hf.of_first?_eq_some .scenario hs tags
    · exact hf.of_first?_eq_some .outline ho tags

theorem wellFormed_of_examplesDefinition {e : Examples} (h : f.examplesDefinition = .ok e) :
    e.WellFormed := by
  simp only [Frame.examplesDefinition, Frame.child, hf.child?_eq .examples, Except.bind_eq_ok_iff]
    at h
  obtain ⟨tags, -, g, hg, line, -, text, htext, rows, hrows, h⟩ := h
  have hgs : g.Sound := by
    split at hg <;> cases hg
    next hfirst => exact hf.of_first?_eq_some .examples (Except.ok.inj hfirst)
  obtain rfl : g.first? .examplesTable Value.rows? = rows := by
    simpa [hgs.child?_eq .examplesTable] using hrows
  cases h
  refine ⟨hgs.trimmed_of_description htext, ?_, ?_⟩
  · cases hr : g.first? .examplesTable Value.rows? with
    | none => exact ⟨by simp [Row.Rectangular, Examples.rows], by simp [Examples.rows]⟩
    | some rs =>
      have hrs : Row.WellFormed rs := hgs.of_first?_eq_some .examplesTable hr
      cases rs <;> simpa [Examples.rows] using hrs
  · cases (g.first? .examplesTable Value.rows?).getD [] <;> simp

theorem wellFormed_of_feature {g : Feature} (h : f.feature = .ok (.ok g)) : g.WellFormed := by
  simp only [Frame.feature, hf.child?_eq .background, hf.childrenOf_eq .scenarioDefinition,
    hf.child?_eq .featureHeader, Except.ok_bind] at h
  generalize hg : (f.first? .featureHeader Value.frame?).getD f = header at h
  have hheader : header.Sound := by
    cases hh : f.first? .featureHeader Value.frame? with
    | none => simpa [← hg, hh] using hf
    | some k => simpa [← hg, hh] using hf.of_first?_eq_some .featureHeader hh
  cases hline : header.token? .featureLine with
  | none =>
    rw [hline] at h
    cases h
  | some line =>
    cases hdialect : line.dialect with
    | none =>
      simp only [hline, hdialect] at h
      cases h
    | some language =>
      simp only [hline, hdialect, Except.bind_eq_ok_iff] at h
      obtain ⟨tags, -, text, htext, h⟩ := h
      cases h
      refine ⟨hheader.trimmed_of_description htext, fun c hc => ?_, fun c hc => ?_⟩
      · rcases List.mem_append.mp hc with hc | hc
        · obtain ⟨b, hb, rfl⟩ := Option.map_eq_some_iff.mp (Option.mem_toList.mp hc)
          exact ⟨hf.of_first?_eq_some .background hb, by simp [Child.examples]⟩
        · exact (hf.of_mem_all .scenarioDefinition hc).1
      · have hs : c ∈ f.all .scenarioDefinition Value.child? := by
          cases hb : f.first? .background Value.background? with
          | none => exact List.mem_of_mem_tail (by simpa [hb] using hc)
          | some b => simpa [hb] using hc
        exact (hf.of_mem_all .scenarioDefinition hs).2

theorem wellFormed_of_document {cs : Array Comment} {d : Document}
    (h : f.document cs = .ok d) : d.WellFormed := by
  simp only [Frame.document, hf.child?_eq .feature, Except.ok_bind] at h
  cases h
  intro g hg
  obtain ⟨g', hg', hg⟩ := Option.bind_eq_some_iff.mp hg
  cases g' <;> cases hg
  exact hf.of_first?_eq_some .feature hg' _ rfl

/-- **Soundness is kept.** What a sound frame becomes is sound under its rule. -/
theorem conclude {cs : Array Comment} {v : Value} (h : f.conclude cs = .ok v) : v.Sound f.rule := by
  unfold Frame.conclude at h
  cases hr : f.rule <;>
    simp only [hr, Except.mapError_eq_ok_iff, Except.map_eq_ok_iff, Except.ok.injEq] at h
  case document => obtain ⟨d, hd, rfl⟩ := h; exact .document (hf.wellFormed_of_document hd)
  case feature =>
    obtain ⟨g, hg, rfl⟩ := h
    exact .feature fun g' hg' => hf.wellFormed_of_feature (hg' ▸ hg)
  case background => obtain ⟨b, hb, rfl⟩ := h; exact .background (hf.wellFormed_of_block hb)
  case scenarioDefinition =>
    obtain ⟨c, hc, rfl⟩ := h
    have hcs := hf.wellFormed_of_scenarioDefinition hc
    exact .scenarioDefinition hcs.1 hcs.2
  case scenario => obtain ⟨b, hb, rfl⟩ := h; exact .scenario (hf.wellFormed_of_block hb)
  case outline =>
    obtain ⟨o, ho, rfl⟩ := h
    have hos := hf.wellFormed_of_outline ho
    exact .outline hos.1 hos.2
  case examplesDefinition =>
    obtain ⟨e, he, rfl⟩ := h
    exact .examplesDefinition (hf.wellFormed_of_examplesDefinition he)
  case examplesTable => obtain ⟨rs, hrs, rfl⟩ := h; exact .examplesTable (wellFormed_of_rows hrs)
  case step => obtain ⟨s, hs, rfl⟩ := h; exact .step (hf.wellFormed_of_step hs)
  case dataTable => obtain ⟨rs, hrs, rfl⟩ := h; exact .dataTable (wellFormed_of_rows hrs)
  case docString => obtain ⟨s, hs, rfl⟩ := h; exact .docString (contentType_ne_of_docString hs)
  case description => subst h; exact .description (Text.trimmed_description _)
  all_goals subst h; exact .kept hr rfl hf.tokens hf.children hf.filled_tokens hf.filled_children

end Sound

end Frame

end Gherkin
