import Gherkin.Proofs.Journals
import Gherkin.Proofs.Makeup

/-!
# Rules and the parts that come of them

A rule that is left becomes a part of the document which is made of what stands in the rule. It is
shown rule by rule, from the inside of a document to the outside: a frame gives its lines by kind,
and for each rule in it the part that has come of that rule, so what is read of a frame is what is
said of its rule. Calls that go on after refusals make no difference, as each open frame is read
like what stands in its rule.

## Main definitions

* `Gherkin.Forest.Gives` : what is read of the value of a rule is made of what stands in it.
* `Gherkin.Value.Part` : the rules that become parts, and how these are made and read.

## Main results

* `Gherkin.Forest.Gives.all`, `Gherkin.Forest.Gives.first?` : what a frame gives.
* `Gherkin.Forest.gives_step`, `Gherkin.Forest.gives_child`, `Gherkin.Forest.gives_feature` and
  their like : what comes of each rule.
* `Gherkin.Nesting.Shown.exists_becomes` : what an end makes of the innermost open rule.
* `Gherkin.Nesting.exists_leave` : a rule with nothing wrong becomes something.
* `Gherkin.Forest.Gives.of_leave` : the part that comes of an end after any calls.
-/

namespace Gherkin

/-! ### Lines -/

theorem Token.locate_eq_place (t : Token) (s : Span) : t.locate s.column = t.place s := by
  unfold locate Location.atColumn place
  split <;> rfl

theorem Row.ofToken_eq (t : Token) :
    ofToken t = ⟨t.location, t.items.map fun s => ⟨t.place s, s.text⟩⟩ := by
  simp only [ofToken, Token.locate_eq_place]

theorem Tag.ofToken_eq (t : Token) : ofToken t = t.items.map fun s => ⟨t.place s, s.text⟩ := by
  simp only [ofToken, Token.locate_eq_place]

namespace Forest

section Lines

variable (r : Rule) (ts : Forest) (vs : List (Rule × Value)) {k : TokenKind}

theorem tokens_get_eq_lines (hk : k ≠ .comment) :
    (Frame.ofContents r (tokens ts) vs).tokens.get k = lines k ts :=
  Frame.tokens_get_ofContents_of_ne _ _ _ hk

theorem token?_eq_line? (hk : k ≠ .comment) :
    (Frame.ofContents r (tokens ts) vs).token? k = line? k ts :=
  token?_ofContents r ts vs hk

/-- The rows in a frame that is not refused for them. -/
theorem eq_rows_of_rows {rs : List Row} (h : (Frame.ofContents r (tokens ts) vs).rows = .ok rs) :
    rs = rows ts := by
  rw [Frame.eq_of_rows h, tokens_get_eq_lines r ts vs TokenKind.noConfusion]
  exact List.map_congr_left fun t _ => Row.ofToken_eq t

end Lines

/-! ### What a frame gives -/

/-- What `as?` reads of a value that comes of the rule `q` is related by `R` to what stands in the
rule. -/
def Gives {β : Type} (q : Rule) (as? : Value → Option β) (R : β → Forest → Prop) : Prop :=
  ∀ inner v, Becomes q inner v → ∃ b, as? v = some b ∧ R b inner

section Given

variable {ts : Forest} {vs : List (Rule × Value)} {c cs : Array Comment}
  (h : Forest.values c ts = .ok (vs, cs)) (r : Rule) (us : List Token)

include h

section Parts

variable {β : Type} {q : Rule} {as? : Value → Option β} {R : β → Forest → Prop} (hq : Gives q as? R)

include hq

/-- The children from a rule are made of what stands in the rules of that sort, one of each. -/
theorem Gives.all : List.Forall₂ R ((Frame.ofContents r us vs).all q as?) (under q ts) := by
  have hunder := forall₂_under h r us q
  rw [Frame.all]
  generalize under q ts = inners, (Frame.ofContents r us vs).children.get q = ws at hunder
  induction hunder with
  | nil => exact .nil
  | cons hv _ ih =>
    obtain ⟨b, hb, hR⟩ := hq _ _ hv
    rw [List.filterMap_cons, hb]
    exact .cons hR ih

/-- The first child from a rule is made of what stands in the first rule of that sort. -/
theorem Gives.first? :
    Option.Rel R ((Frame.ofContents r us vs).first? q as?) (Forest.first? q ts) := by
  have hall := Gives.all h r us hq
  rw [Frame.first?, Forest.first?]
  generalize (Frame.ofContents r us vs).all q as? = bs, under q ts = inners at hall
  cases hall with
  | nil => exact .none
  | cons hR _ => exact .some hR

end Parts

/-- The first frame that is kept from a rule holds what stands in the first rule of that sort. -/
theorem first?_frame {q : Rule} (hq : q.isKept = true) :
    Option.Rel (fun f inner => ∃ comments ws cs, Forest.values comments inner = .ok (ws, cs) ∧
      f = .ofContents q (tokens inner) ws)
      ((Frame.ofContents r us vs).first? q Value.frame?) (Forest.first? q ts) := by
  refine Gives.first? h r us fun inner v hv => ?_
  obtain ⟨comments, ws, cs, hin, rfl⟩ := hv.of_isKept hq
  exact ⟨_, rfl, comments, ws, cs, hin, rfl⟩

omit h in
theorem gives_description : Gives .description Value.description? fun text inner =>
    inner.Says text := by
  rintro inner v ⟨comments, ws, cs, -, hv⟩
  have hv := Frame.exists_of_conclude hv
  subst hv
  refine ⟨_, rfl, _, Text.kept_trimEnd _, ?_⟩
  rw [tokens_get_eq_lines _ _ _ TokenKind.noConfusion]
  rfl

/-- The description in a frame. -/
theorem describes : ts.Describes (Frame.ofContents r us vs).descriptionOf := by
  have hfirst := gives_description.first? h r us
  rw [Frame.descriptionOf, Describes]
  generalize (Frame.ofContents r us vs).first? .description Value.description? = text?,
    Forest.first? .description ts = inner? at hfirst
  cases hfirst with
  | none => rfl
  | some hsays => exact hsays

/-- The tags in a frame. -/
theorem tagsOf_eq : (Frame.ofContents r us vs).tagsOf = tags ts := by
  have hfirst := first?_frame h r us (q := .tags) rfl
  rw [Frame.tagsOf, tags]
  generalize (Frame.ofContents r us vs).first? .tags Value.frame? = f?,
    Forest.first? .tags ts = inner? at hfirst
  cases hfirst with
  | none => rfl
  | some hf =>
    obtain ⟨comments, ws, cs', -, rfl⟩ := hf
    rw [Option.map_some, Option.getD_some, tokens_get_eq_lines _ _ _ TokenKind.noConfusion]
    exact List.flatMap_congr fun t _ => Tag.ofToken_eq t

end Given

/-! ### Steps and blocks -/

theorem gives_dataTable : Gives .dataTable Value.dataTable? fun t inner => t.rows = inner.rows := by
  rintro inner v ⟨comments, ws, cs, -, hv⟩
  obtain ⟨rs, hrs, rfl⟩ := Frame.exists_of_conclude hv
  exact ⟨_, rfl, eq_rows_of_rows _ _ _ hrs⟩

theorem gives_examplesTable : Gives .examplesTable Value.rows? fun rs inner => rs = inner.rows := by
  rintro inner v ⟨comments, ws, cs, -, hv⟩
  obtain ⟨rs, hrs, rfl⟩ := Frame.exists_of_conclude hv
  exact ⟨_, rfl, eq_rows_of_rows _ _ _ hrs⟩

theorem gives_docString : Gives .docString Value.docString? DocString.MadeOf := by
  rintro inner v ⟨comments, ws, cs, -, hv⟩
  obtain ⟨s, hs, rfl⟩ := Frame.exists_of_conclude hv
  obtain ⟨fence, hfence, rfl⟩ := Frame.eq_of_docString hs
  rw [token?_eq_line? _ _ _ TokenKind.noConfusion] at hfence
  refine ⟨_, rfl, ⟨fence, hfence, rfl, rfl⟩, ?_⟩
  rw [tokens_get_eq_lines _ _ _ TokenKind.noConfusion]
  rfl

theorem gives_step : Gives .step Value.step? Step.MadeOf := by
  rintro inner v ⟨comments, ws, cs, hin, hv⟩
  obtain ⟨s, hs, rfl⟩ := Frame.exists_of_conclude hv
  obtain ⟨line, hline, rfl⟩ := (sound_contents hin _).eq_of_step hs
  rw [token?_eq_line? _ _ _ TokenKind.noConfusion] at hline
  refine ⟨_, rfl, ⟨line, hline, rfl, rfl, rfl⟩, ?_⟩
  have htable := gives_dataTable.first? hin .step (tokens inner)
  have hstring := gives_docString.first? hin .step (tokens inner)
  rw [Step.ofLine]
  generalize (Frame.ofContents .step (tokens inner) ws).first? .dataTable Value.dataTable? = t?,
    hti : Forest.first? .dataTable inner = table? at htable
  generalize (Frame.ofContents .step (tokens inner) ws).first? .docString Value.docString? = s?,
    hsi : Forest.first? .docString inner = string? at hstring
  -- A table goes before a doc string, so the doc string matters only where there is no table.
  cases htable with
  | some hrows => exact .dataTable hti hrows
  | none =>
    cases hstring with
    | some hmade => exact .docString hti hsi hmade
    | none => exact .none hti hsi

section Blocks

variable {ts : Forest} {vs : List (Rule × Value)} {c cs : Array Comment}
  (h : Forest.values c ts = .ok (vs, cs))

include h

/-- The block in a frame that is not refused for it. -/
theorem madeOf_of_block {r : Rule} {k : TokenKind} (hk : k ≠ .comment) {b : Block}
    (hb : (Frame.ofContents r (tokens ts) vs).block k = .ok b) : b.MadeOf k ts := by
  obtain ⟨line, hline, rfl⟩ := (sound_contents h r).eq_of_block hb
  rw [token?_eq_line? _ _ _ hk] at hline
  exact ⟨⟨line, hline, rfl, rfl, rfl⟩, describes h r _, gives_step.all h r _⟩

/-- What is read of the table in a rule of examples. -/
theorem getD_rows_eq (r : Rule) (us : List Token) :
    ((Frame.ofContents r us vs).first? .examplesTable Value.rows?).getD [] = ts.tableRows := by
  have hfirst := gives_examplesTable.first? h r us
  rw [tableRows]
  generalize (Frame.ofContents r us vs).first? .examplesTable Value.rows? = rows?,
    Forest.first? .examplesTable ts = inner? at hfirst
  cases hfirst with
  | none => rfl
  | some hrows => exact hrows

end Blocks

theorem gives_background : Gives .background Value.background? fun b inner =>
    b.MadeOf .backgroundLine inner := by
  rintro inner v ⟨comments, ws, cs, hin, hv⟩
  obtain ⟨b, hb, rfl⟩ := Frame.exists_of_conclude hv
  exact ⟨b, rfl, madeOf_of_block hin TokenKind.noConfusion hb⟩

/-! ### Examples, scenarios and outlines -/

theorem gives_examples : Gives .examplesDefinition Value.examples? Examples.MadeOf := by
  rintro inner v ⟨comments, ws, cs, hin, hv⟩
  obtain ⟨e, he, rfl⟩ := Frame.exists_of_conclude hv
  obtain ⟨g, line, hg, hline, rfl⟩ := (sound_contents hin _).eq_of_examplesDefinition he
  refine ⟨_, rfl, tagsOf_eq hin _ _, ?_⟩
  have hfirst := first?_frame hin .examplesDefinition (tokens inner) (q := .examples) rfl
  rw [hg] at hfirst
  generalize Forest.first? .examples inner = examples? at hfirst ⊢
  cases hfirst with
  | @some _ examples hframe =>
    obtain ⟨comments', ws', cs', hin', rfl⟩ := hframe
    rw [token?_eq_line? _ _ _ TokenKind.noConfusion] at hline
    refine ⟨examples, rfl, ⟨line, hline, rfl, rfl, rfl⟩, describes hin' _ _, ?_⟩
    dsimp only
    rw [getD_rows_eq hin']
    cases examples.tableRows <;> simp

/-- A scenario takes the tags of its definition. -/
theorem gives_scenario : Gives .scenario Value.tagged? fun child inner =>
    ∃ b : Block, (child = fun tags => .scenario tags b) ∧ b.MadeOf .scenarioLine inner := by
  rintro inner v ⟨comments, ws, cs, hin, hv⟩
  obtain ⟨b, hb, rfl⟩ := Frame.exists_of_conclude hv
  exact ⟨_, rfl, b, rfl, madeOf_of_block hin TokenKind.noConfusion hb⟩

/-- An outline takes the tags of its definition, and none of its own. -/
theorem gives_outline : Gives .outline Value.tagged? fun child inner =>
    ∃ (b : Block) (es : List Examples), (child = fun tags => .outline tags b es) ∧
      b.MadeOf .outlineLine inner ∧
      List.Forall₂ Examples.MadeOf es (under .examplesDefinition inner) := by
  rintro inner v ⟨comments, ws, cs, hin, hv⟩
  obtain ⟨b, es, ho, rfl⟩ := Frame.exists_of_conclude hv
  obtain ⟨hb, rfl⟩ := (sound_contents hin _).eq_of_outline ho
  exact ⟨_, rfl, b, _, rfl, madeOf_of_block hin TokenKind.noConfusion hb,
    gives_examples.all hin _ _⟩

theorem gives_child : Gives .scenarioDefinition Value.child? Child.MadeOf := by
  rintro inner v ⟨comments, ws, cs, hin, hv⟩
  obtain ⟨c, hc, rfl⟩ := Frame.exists_of_conclude hv
  obtain ⟨child, hchild, rfl⟩ := (sound_contents hin _).eq_of_scenarioDefinition hc
  refine ⟨_, rfl, ?_⟩
  rw [tagsOf_eq hin]
  have hscenario := gives_scenario.first? hin .scenarioDefinition (tokens inner)
  have houtline := gives_outline.first? hin .scenarioDefinition (tokens inner)
  generalize (Frame.ofContents .scenarioDefinition (tokens inner) ws).first? .scenario
    Value.tagged? = scenario?, hsi : Forest.first? .scenario inner = s? at hscenario hchild
  generalize (Frame.ofContents .scenarioDefinition (tokens inner) ws).first? .outline
    Value.tagged? = outline?, hoi : Forest.first? .outline inner = o? at houtline hchild
  -- A scenario goes before an outline, also where the outline was met first.
  cases hscenario with
  | some hmade =>
    obtain ⟨b, rfl, hb⟩ := hmade
    obtain rfl := Option.some.inj hchild
    exact .scenario hsi hb
  | none =>
    cases houtline with
    | some hmade =>
      obtain ⟨b, es, rfl, hb, hes⟩ := hmade
      obtain rfl := Option.some.inj hchild
      exact .outline hsi hoi hb hes
    | none => cases hchild

/-! ### Features -/

/-- A feature comes to nothing for the cause that its line shows, and is otherwise made of what
stands in it. -/
theorem gives_feature : Gives .feature Value.feature? fun x inner =>
    absence? inner = Except.reason? x ∧ ∀ f, x = .ok f → f.MadeOf inner := by
  rintro inner v ⟨comments, ws, cs, hin, hv⟩
  obtain ⟨x, hx, rfl⟩ := Frame.exists_of_conclude hv
  refine ⟨x, rfl, absence?_of_feature hin hx, ?_⟩
  rintro f rfl
  obtain ⟨comments', ws', cs', hin', hframe⟩ := header_frame hin
  obtain ⟨header, line, language, rfl, hline, hlanguage, rfl⟩ :=
    (sound_contents hin _).eq_of_feature hx
  rw [hframe] at hline ⊢
  rw [token?_eq_line? _ _ _ TokenKind.noConfusion] at hline
  exact ⟨⟨line, hline, hlanguage, rfl, rfl, rfl⟩, tagsOf_eq hin' _ _, describes hin' _ _,
    _, _, rfl, gives_background.first? hin _ _, gives_child.all hin _ _⟩

end Forest

/-! ### Ends after any calls -/

/-- What is filed at an end comes of the innermost open rule, up to the comments of documents. -/
theorem Nesting.Shown.exists_becomes {n : Nesting} {s : Assembly} (hn : n.Shown s.frames)
    (hs : s.Sound) {r : Rule} {v : Value} (hv : (s.leave r).1 = .ok v) :
    ∃ w, Forest.Becomes r n.here w ∧ w.Agree AnyComments v := by
  rcases s.leave_cases r with ⟨x, hx⟩ | ⟨f, fs, v', hfs, rfl, hconclude, hleave⟩
  · rw [hx] at hv
    cases hv
  · obtain rfl : v' = v := by simpa [hleave] using hv
    have hf : f ∈ s.frames := hfs ▸ List.mem_cons_self
    rw [hfs] at hn
    cases hn with
    | inside _ hshows =>
      obtain ⟨vs, cs, hvs, hagree⟩ := hshows.conclude (hs.frames f hf) #[] s.comments
      rw [hconclude] at hagree
      generalize hx : (Frame.ofContents f.rule _ vs).conclude cs = x at hagree
      cases hagree with
      | @ok w _ hwv => exact ⟨w, ⟨#[], vs, cs, hvs, hx⟩, hwv⟩

/-- A rule with nothing wrong becomes something, whatever was refused before. -/
theorem Nesting.exists_leave {cs : List Call} {r : Rule} (h : (ofCalls cs).fault? r = none) :
    ∃ v, ((Assembly.ofCalls cs).leave r).1 = .ok v := by
  have hfault := ((shown_ofCalls cs).leave (Assembly.sound_ofCalls cs) r).1
  rw [h, Option.map_eq_none_iff] at hfault
  cases hv : ((Assembly.ofCalls cs).leave r).1 with
  | error x =>
    rw [hv] at hfault
    cases hfault
  | ok v => exact ⟨v, rfl⟩

/-- What is filed at an end after any calls. -/
theorem Nesting.exists_becomes {cs : List Call} {r : Rule} {v : Value}
    (hv : ((Assembly.ofCalls cs).leave r).1 = .ok v) :
    ∃ w, Forest.Becomes r (ofCalls cs).here w ∧ w.Agree AnyComments v :=
  (shown_ofCalls cs).exists_becomes (Assembly.sound_ofCalls cs) hv

/-- The rules that become parts of a document, with how the value of each is made of the part and
how the part is read of the value. -/
inductive Value.Part : Rule → {β : Type} → (β → Value) → (Value → Option β) → Prop
  | step : Part .step step step?
  | dataTable : Part .dataTable dataTable dataTable?
  | docString : Part .docString docString docString?
  | description : Part .description description description?
  | background : Part .background background background?
  | scenarioDefinition : Part .scenarioDefinition child child?
  | examplesDefinition : Part .examplesDefinition examples examples?
  | examplesTable : Part .examplesTable rows rows?
  | feature : Part .feature feature feature?

section Parts

variable {r : Rule} {β : Type} {mk : β → Value} {as? : Value → Option β}

/-- A value that a part is read of was made of that part. -/
theorem Value.Part.eq_of_eq_some (h : Value.Part r mk as?) {v : Value} {b : β}
    (hb : as? v = some b) : v = mk b := by
  cases h <;> cases v <;> cases hb <;> rfl

/-- The value of a part is equal to all that is read like it. -/
theorem Value.Part.eq_of_agree (h : Value.Part r mk as?) {K : List Comment → List Comment → Prop}
    {b : β} {v : Value} (hv : (mk b).Agree K v) : v = mk b := by
  cases h <;> cases hv <;> rfl

/-- The part of a document that comes of an end after any calls. -/
theorem Forest.Gives.of_leave {R : β → Forest → Prop} (hr : Gives r as? R)
    (hpart : Value.Part r mk as?) {cs : List Call} {v : Value}
    (hv : ((Assembly.ofCalls cs).leave r).1 = .ok v) :
    ∃ b, v = mk b ∧ R b (Nesting.ofCalls cs).here := by
  obtain ⟨w, hw, hagree⟩ := Nesting.exists_becomes hv
  obtain ⟨b, hb, hR⟩ := hr _ w hw
  obtain rfl := hpart.eq_of_eq_some hb
  exact ⟨b, hpart.eq_of_agree hagree, hR⟩

end Parts

end Gherkin
