import Gherkin.Proofs.Agreement
import Gherkin.Proofs.Readings

/-!
# What frames that agree become

A reading asks a frame for lines and children, and each request comes back with the same from two
sound frames that agree, as long as it asks for no more than the share of a slot that the rule of
the frames reads. So all readings of the frames come out alike: with the same value, or with the
same reason why there is none.

## Main results

* `Gherkin.Frame.Agree.token`, `Gherkin.Frame.Agree.child?_eq`, `Gherkin.Frame.Agree.first?_frame`
  and their like : single requests.
* `Gherkin.Frame.Agree.step_eq`, `Gherkin.Frame.Agree.block_eq` and their like : readings.
* `Gherkin.Frame.Agree.conclude` : sound frames that agree become values that agree, or are
  rejected for the same reason.
-/

namespace Gherkin

variable {K : List Comment → List Comment → Prop}

/-! ### Lines that are used alike -/

namespace Token.Agree

variable {t u : Token}

theorem stepOfLine (h : Token.Agree .stepLine t u) (a : Option Argument) :
    Step.ofLine t a = Step.ofLine u a := by
  obtain ⟨hl, hk, ht⟩ := h
  rw [Step.ofLine, Step.ofLine, hl, hk, ht]

/-- The line of a block is of one of three kinds. -/
theorem blockOfLine {k : TokenKind}
    (hk : k = .backgroundLine ∨ k = .scenarioLine ∨ k = .outlineLine) (h : Token.Agree k t u)
    (text : String) (steps : List Step) :
    Block.ofLine t text steps = Block.ofLine u text steps := by
  have hline : t.location = u.location ∧ t.keywordText = u.keywordText ∧ t.text = u.text := by
    rcases hk with rfl | rfl | rfl <;> exact h
  obtain ⟨hl, hk, ht⟩ := hline
  rw [Block.ofLine, Block.ofLine, hl, hk, ht]

theorem docStringOfTokens (h : Token.Agree .docStringSeparator t u) {ts us : List Token}
    (hs : ts.map (·.text) = us.map (·.text)) :
    DocString.ofTokens t ts = DocString.ofTokens u us := by
  obtain ⟨hl, ht⟩ := h
  rw [DocString.ofTokens, DocString.ofTokens, hl, ht, hs]

theorem tagOfToken (h : Token.Agree .tagLine t u) : Tag.ofToken t = Tag.ofToken u := by
  obtain ⟨hl, hi⟩ := h
  simp only [Tag.ofToken, Token.locate, hl, hi]

theorem rowOfToken (h : Token.Agree .tableRow t u) : Row.ofToken t = Row.ofToken u := by
  obtain ⟨hl, hi⟩ := h
  simp only [Row.ofToken, Token.locate, hl, hi]

end Token.Agree

/-! ### Values that are read alike -/

/-- What becomes a part of a document is equal where it is read alike. -/
theorem Value.Reading.eq_of_agree {r : Rule} {β : Type} {as? : Value → Option β} {P : β → Prop}
    (h : Value.Reading r as? P) (hk : r.isKept = false) (hr : r ≠ .document) {v w : Value}
    (hvw : v.Agree K w) : as? v = as? w := by
  cases hvw with
  | same _ _ => rfl
  | document _ _ => cases h <;> first | rfl | contradiction
  | frame _ _ _ => cases h <;> first | rfl | contradiction

theorem Value.Agree.frame? {v w : Value} (h : v.Agree K w) :
    Option.Rel (Frame.Agree K) v.frame? w.frame? := by
  cases h with
  | same _ hf =>
    rw [hf]
    exact .none
  | document _ _ => exact .none
  | frame hr ht hc => exact .some ⟨hr, ht, hc⟩

theorem Value.Agree.document? {v w : Value} (h : v.Agree K w) :
    Option.Rel (fun d e => d.feature = e.feature ∧ K d.comments e.comments)
      v.document? w.document? := by
  cases h with
  | same hd _ =>
    rw [hd]
    exact .none
  | document hf hc => exact .some ⟨hf, hc⟩
  | frame _ _ _ => exact .none

namespace Frame

/-- The first child is the first of all values from a rule. -/
theorem Sound.first?_eq_bind {f : Frame Value} (hf : f.Sound) {r : Rule} {β : Type}
    {as? : Value → Option β} {P : β → Prop} (h : Value.Reading r as? P) :
    f.first? r as? = (f.children.get r).head?.bind as? := by
  rw [first?, all]
  cases hget : f.children.get r with
  | nil => rfl
  | cons v vs =>
    obtain ⟨b, hb, -⟩ := h.sound (hf.children r v (by simp [hget]))
    simp [hb]

/-- A frame among the children is filed under its own rule. -/
theorem Sound.rule_of_first?_eq_some {f k : Frame Value} (hf : f.Sound) {r : Rule}
    (h : f.first? r Value.frame? = some k) : k.rule = r := by
  obtain ⟨v, hv, hk⟩ := mem_all.mp (List.mem_of_head? h)
  cases hf.children r v hv with
  | kept hr => exact Option.some.inj hk ▸ hr
  | _ => cases hk

namespace Agree

variable {f g : Frame Value} (h : f.Agree K g)

include h

/-! ### Single requests -/

section Requests

variable {o : Rule} (ho : f.rule = o)

include ho

theorem token? {k : TokenKind} (hk : o.lineShare k = .first) :
    Option.Rel (Token.Agree k) (f.token? k) (g.token? k) := by
  have htokens := h.tokens k
  rw [ho, hk] at htokens
  exact htokens.head?

theorem token {k : TokenKind} (hk : o.lineShare k = .first) :
    Except.Agree (Token.Agree k) (f.token k) (g.token k) := by
  have htoken := h.token? ho hk
  unfold Frame.token
  rw [h.rule]
  generalize f.token? k = x, g.token? k = y at htoken
  cases htoken with
  | some htu => exact .ok htu
  | none => exact .error _

theorem map_tokens_eq {k : TokenKind} (hk : o.lineShare k = .all) {γ : Type} {F : Token → γ}
    (hF : ∀ t u, Token.Agree k t u → F t = F u) :
    (f.tokens.get k).map F = (g.tokens.get k).map F := by
  have htokens := h.tokens k
  rw [ho, hk] at htokens
  exact Token.map_eq_of_forall₂ hF htokens.forall₂

theorem forbid_eq {q : Rule} (hq : o.childShare q = .presence) : f.forbid q = g.forbid q := by
  have hchildren := h.children q
  rw [ho, hq] at hchildren
  rw [forbid, forbid, hchildren.isEmpty_eq, h.rule]

section Children

variable {r : Rule} {β : Type} {as? : Value → Option β} {P : β → Prop}
  (hread : Value.Reading r as? P)

include hread

theorem childrenOf_eq (hk : r.isKept = false) (hr : r ≠ .document)
    (hshare : o.childShare r = .all) : f.childrenOf r as? = g.childrenOf r as? := by
  have hchildren := h.children r
  rw [ho, hshare] at hchildren
  have hall := hchildren.forall₂
  rw [childrenOf_eq_readEach, childrenOf_eq_readEach, readEach, readEach, h.rule]
  generalize f.children.get r = vs, g.children.get r = ws at hall
  induction hall with
  | nil => rfl
  | cons hvw _ ih => rw [List.mapM_cons, List.mapM_cons, ih, hread.eq_of_agree hk hr hvw]

variable (hf : f.Sound) (hg : g.Sound)

include hf hg

theorem first?_rel {Q : β → β → Prop}
    (hQ : ∀ v w, v.Agree K w → Option.Rel Q (as? v) (as? w))
    (hshare : o.childShare r = .first) : Option.Rel Q (f.first? r as?) (g.first? r as?) := by
  have hchildren := h.children r
  rw [ho, hshare] at hchildren
  rw [hf.first?_eq_bind hread, hg.first?_eq_bind hread]
  have hhead := hchildren.head?
  generalize (f.children.get r).head? = x, (g.children.get r).head? = y at hhead
  cases hhead with
  | some hvw => exact hQ _ _ hvw
  | none => exact .none

theorem child?_eq (hk : r.isKept = false) (hr : r ≠ .document)
    (hshare : o.childShare r = .first) : f.child? r as? = g.child? r as? := by
  have hequal : ∀ v w, v.Agree K w → Option.Rel Eq (as? v) (as? w) := fun v w hvw => by
    rw [hread.eq_of_agree hk hr hvw]
    cases as? w with
    | some b => exact .some rfl
    | none => exact .none
  have hfirst := h.first?_rel ho hread hf hg hequal hshare
  rw [hf.child?_eq hread, hg.child?_eq hread]
  generalize f.first? r as? = x, g.first? r as? = y at hfirst
  cases hfirst with
  | some hab => rw [hab]
  | none => rfl

end Children

/-- The first frames that are kept from a rule agree, where they are read. -/
theorem first?_frame {r : Rule} (hframe : Value.Reading r Value.frame? Frame.Sound)
    (hf : f.Sound) (hg : g.Sound) (hshare : o.childShare r = .first) :
    Option.Rel (fun k l => k.Agree K l ∧ k.Sound ∧ l.Sound ∧ k.rule = r)
      (f.first? r Value.frame?) (g.first? r Value.frame?) := by
  have hrel := h.first?_rel ho hframe hf hg (fun _ _ hvw => hvw.frame?) hshare
  rcases hk : f.first? r Value.frame? with _ | k <;>
    rcases hl : g.first? r Value.frame? with _ | l <;> rw [hk, hl] at hrel <;> cases hrel
  · exact .none
  · next hkl =>
    exact .some ⟨hkl, hf.of_first?_eq_some hframe hk, hg.of_first?_eq_some hframe hl,
      hf.rule_of_first?_eq_some hk⟩

/-! ### Descriptions, tags, tables and blocks -/

theorem rows_eq (hshare : o.lineShare .tableRow = .all) : f.rows = g.rows := by
  have hrows := h.map_tokens_eq ho hshare fun _ _ => Token.Agree.rowOfToken
  rw [rows, rows, tokensOf_eq, tokensOf_eq, Row.ofTokens, Row.ofTokens, hrows]

variable (hf : f.Sound) (hg : g.Sound)

include hf hg

theorem description_eq (hhelper : o.childShare .descriptionHelper = .presence)
    (htext : o.childShare .description = .first) : f.description = g.description := by
  rw [description, description, h.forbid_eq ho hhelper,
    h.child?_eq ho .description hf hg rfl Rule.noConfusion htext]

theorem tags_eq (hshare : o.childShare .tags = .first) : f.tags = g.tags := by
  have hfirst := h.first?_frame ho .tags hf hg hshare
  rw [hf.tags_eq, hg.tags_eq, tagsOf, tagsOf]
  generalize f.first? .tags Value.frame? = x, g.first? .tags Value.frame? = y at hfirst
  cases hfirst with
  | none => rfl
  | some hkl =>
    obtain ⟨hkl, -, -, hr⟩ := hkl
    have htags := hkl.map_tokens_eq (k := .tagLine) hr rfl fun _ _ => Token.Agree.tagOfToken
    simp only [Option.map_some, Option.getD_some, List.flatMap_def, htags]

theorem block_eq {k : TokenKind}
    (hk : k = .backgroundLine ∨ k = .scenarioLine ∨ k = .outlineLine)
    (hline : o.lineShare k = .first) (hhelper : o.childShare .descriptionHelper = .presence)
    (htext : o.childShare .description = .first) (hsteps : o.childShare .step = .all) :
    f.block k = g.block k := by
  rw [block, block, h.description_eq ho hf hg hhelper htext,
    h.childrenOf_eq ho .step rfl Rule.noConfusion hsteps]
  refine Except.agree_eq_iff.mp (.bind (h.token ho hline) fun t u htu => ?_)
  simp only [htu.blockOfLine hk]
  exact Except.agree_eq_iff.mpr rfl

end Requests

/-! ### Every rule -/

theorem docString_eq (hr : f.rule = .docString) : f.docString = g.docString := by
  have hlines := h.map_tokens_eq (k := .other) hr rfl (F := Token.text) fun _ _ ht => ht
  refine Except.agree_eq_iff.mp (.bind (h.token hr rfl) fun t u htu => ?_)
  exact .ok (htu.docStringOfTokens hlines)

variable (hf : f.Sound) (hg : g.Sound)

include hf hg

theorem step_eq (hr : f.rule = .step) : f.step = g.step := by
  rw [step, step, h.forbid_eq hr rfl, h.child?_eq hr .dataTable hf hg rfl Rule.noConfusion rfl,
    h.child?_eq hr .docString hf hg rfl Rule.noConfusion rfl]
  refine Except.agree_eq_iff.mp ?_
  refine .bind (Except.agree_eq_iff.mpr rfl) fun _ _ _ => ?_
  refine .bind (h.token hr rfl) fun t u htu => ?_
  simp only [htu.stepOfLine]
  exact Except.agree_eq_iff.mpr rfl

theorem outline_eq (hr : f.rule = .outline) : f.outline = g.outline := by
  rw [outline, outline, h.block_eq hr hf hg (.inr (.inr rfl)) rfl rfl rfl rfl,
    h.childrenOf_eq hr .examplesDefinition rfl Rule.noConfusion rfl]

theorem scenarioDefinition_eq (hr : f.rule = .scenarioDefinition) :
    f.scenarioDefinition = g.scenarioDefinition := by
  rw [scenarioDefinition, scenarioDefinition, h.tags_eq hr hf hg rfl,
    h.child?_eq hr .scenario hf hg rfl Rule.noConfusion rfl,
    h.child?_eq hr .outline hf hg rfl Rule.noConfusion rfl, h.rule]

/-- The rule that examples are read in is the first of its kind, and there has to be one. -/
theorem child_examples (hr : f.rule = .examplesDefinition) :
    Except.Agree (fun k l => k.Agree K l ∧ k.Sound ∧ l.Sound ∧ k.rule = .examples)
      (f.child .examples Value.frame?) (g.child .examples Value.frame?) := by
  have hfirst := h.first?_frame hr .examples hf hg rfl
  rw [child, child, hf.child?_eq .examples, hg.child?_eq .examples, h.rule]
  generalize f.first? .examples Value.frame? = x, g.first? .examples Value.frame? = y at hfirst
  cases hfirst with
  | some hkl => exact .ok hkl
  | none => exact .error _

theorem examplesDefinition_eq (hr : f.rule = .examplesDefinition) :
    f.examplesDefinition = g.examplesDefinition := by
  rw [examplesDefinition, examplesDefinition, h.tags_eq hr hf hg rfl]
  refine Except.agree_eq_iff.mp ?_
  refine .bind (Except.agree_eq_iff.mpr rfl) fun tags _ htags => ?_
  subst htags
  refine .bind (h.child_examples hf hg hr) fun k l hkl => ?_
  obtain ⟨hkl, hk, hl, hkr⟩ := hkl
  rw [hkl.description_eq hkr hk hl rfl rfl,
    hkl.child?_eq hkr .examplesTable hk hl rfl Rule.noConfusion rfl]
  refine .bind (hkl.token hkr rfl) fun t u htu => ?_
  obtain ⟨hlocation, hkeyword, htext⟩ := htu
  simp only [hlocation, hkeyword, htext]
  exact Except.agree_eq_iff.mpr rfl

/-- The line, the tags and the description of a feature are read in frames that agree: in headers,
or in the features themselves. -/
theorem header (hr : f.rule = .feature) :
    ∃ k l, (f.first? .featureHeader Value.frame?).getD f = k ∧
      (g.first? .featureHeader Value.frame?).getD g = l ∧ k.Agree K l ∧ k.Sound ∧ l.Sound ∧
      (k.rule = .feature ∨ k.rule = .featureHeader) := by
  have hfirst := h.first?_frame hr .featureHeader hf hg rfl
  generalize f.first? .featureHeader Value.frame? = x, g.first? .featureHeader Value.frame? = y
    at hfirst
  cases hfirst with
  | none => exact ⟨f, g, rfl, rfl, h, hf, hg, .inl hr⟩
  | some hkl =>
    obtain ⟨hkl, hk, hl, hkr⟩ := hkl
    exact ⟨_, _, rfl, rfl, hkl, hk, hl, .inr hkr⟩

theorem feature_eq (hr : f.rule = .feature) : f.feature = g.feature := by
  obtain ⟨k, l, hkf, hlg, hkl, hk, hl, hkr⟩ := h.header hf hg hr
  have hline : Option.Rel (Token.Agree .featureLine) (k.token? .featureLine)
      (l.token? .featureLine) := by
    rcases hkr with hkr | hkr <;> exact hkl.token? hkr rfl
  have htags : k.tags = l.tags := by
    rcases hkr with hkr | hkr <;> exact hkl.tags_eq hkr hk hl rfl
  have htext : k.description = l.description := by
    rcases hkr with hkr | hkr <;> exact hkl.description_eq hkr hk hl rfl rfl
  rw [feature, feature, h.child?_eq hr .background hf hg rfl Rule.noConfusion rfl,
    h.childrenOf_eq hr .scenarioDefinition rfl Rule.noConfusion rfl, hf.child?_eq .featureHeader,
    hg.child?_eq .featureHeader]
  simp only [Except.ok_bind, hkf, hlg, htags, htext]
  generalize k.token? .featureLine = x, l.token? .featureLine = y at hline
  cases hline with
  | none => rfl
  | some htu =>
    obtain ⟨hlocation, hkeyword, htext, hdialect⟩ := htu
    simp only [hlocation, hkeyword, htext, hdialect]

/-- Documents have the same feature, and the comments that waited. -/
theorem document_agree (hr : f.rule = .document) {cs ds : Array Comment}
    (hcs : K cs.toList ds.toList) :
    Except.Agree (fun d e => Value.Agree K (.document d) (.document e)) (f.document cs)
      (g.document ds) := by
  rw [document, document, h.child?_eq hr .feature hf hg rfl Rule.noConfusion rfl]
  refine .bind (Except.agree_eq_iff.mpr rfl) fun x _ hx => ?_
  subst hx
  exact .ok (.document rfl hcs)

/-- **Frames that agree.** Sound frames that are read alike become values that are read alike, or
are rejected for the same reason. -/
theorem conclude {cs ds : Array Comment} (hcs : K cs.toList ds.toList) :
    Except.Agree (Value.Agree K) (f.conclude cs) (g.conclude ds) := by
  have hequal {ε α : Type} {x y : Except ε α} (hxy : x = y) {value : α → Value}
      (hvalue : ∀ a, (value a).Agree K (value a)) (n : ε → Rejection) :
      Except.Agree (Value.Agree K) ((x.map value).mapError n) ((y.map value).mapError n) :=
    (Except.agree_eq_iff.mpr hxy).rename (fun a b hab => hab ▸ hvalue a) n
  unfold Frame.conclude
  rw [← h.rule]
  cases hr : f.rule with
  | document => exact (h.document_agree hf hg hr hcs).rename (fun _ _ hde => hde) _
  | feature => exact hequal (h.feature_eq hf hg hr) (fun _ => .same rfl rfl) _
  | background =>
    have hblock := h.block_eq hr hf hg (.inl rfl) rfl rfl rfl rfl
    exact hequal hblock (fun _ => .same rfl rfl) _
  | scenarioDefinition =>
    exact hequal (h.scenarioDefinition_eq hf hg hr) (fun _ => .same rfl rfl) _
  | scenario =>
    have hblock := h.block_eq hr hf hg (.inr (.inl rfl)) rfl rfl rfl rfl
    exact hequal hblock (fun _ => .same rfl rfl) _
  | outline => exact hequal (h.outline_eq hf hg hr) (fun _ => .same rfl rfl) _
  | examplesDefinition =>
    exact hequal (h.examplesDefinition_eq hf hg hr) (fun _ => .same rfl rfl) _
  | examplesTable => exact hequal (h.rows_eq hr rfl) (fun _ => .same rfl rfl) _
  | step => exact hequal (h.step_eq hf hg hr) (fun _ => .same rfl rfl) _
  | dataTable => exact hequal (h.rows_eq hr rfl) (fun _ => .same rfl rfl) _
  | docString => exact hequal (h.docString_eq hr) (fun _ => .same rfl rfl) _
  | description =>
    have hlines := h.map_tokens_eq (k := .other) hr rfl (F := Token.text) fun _ _ ht => ht
    simp only [Text.description, tokensOf_eq, hlines]
    exact .ok (.same rfl rfl)
  | _ => exact .ok h.value

end Agree

end Frame

end Gherkin
