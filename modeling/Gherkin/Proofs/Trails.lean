import Gherkin.Proofs.Conclusions
import Gherkin.Proofs.Leaves
import Mathlib.Data.List.Basic

/-!
# Parts of a document in the order of their lines

The parts of a document are read from frames, and a frame gives its lines and its children by kind
and by rule, in the order in which they came. So the parts of one sort, read off a document from
its start to its end, go along the lines of one kind from which they are made: some lines are
passed over, none is used for two parts, and no part comes before one whose line is earlier.

A trail is what is noted of the lines of some kinds. It is shown rule by rule, from the inside, that
what is noted of the parts of a value are notes of the lines that stand in its rule.

## Main definitions

* `Gherkin.Trail` : notes of the lines of some kinds.
* `Gherkin.Trail.Covers` : what is noted of the values of a rule goes along a trail.
* `Gherkin.Event.lines` : the lines of some kinds among events.
* `Gherkin.Feature.Follows` : the parts of a feature are made of lines of events, in their order.

## Main results

* `Gherkin.Trail.Covers.all`, `Gherkin.Trail.sublist_along` : what a frame gives goes along its
  lines.
* `Gherkin.Trail.Covers.scenarioDefinition`, `Gherkin.Trail.Covers.feature`,
  `Gherkin.Trail.Covers.document` : from the inside of a document to the whole.
* `Gherkin.Assembly.follows_of_replay` : the parts of a document in the order of their lines.
-/

namespace Gherkin

/-! ### What is noted of lines and of parts -/

/-- The lines of some kinds among events. -/
def Event.lines (kinds : List TokenKind) (es : List Event) : List Token :=
  (es.filterMap Event.token?).filter fun t => t.kind ∈ kinds

/-- The place of a line, its keyword, which is empty where there is none, and its text. -/
def Token.heading (t : Token) : Location × String × String :=
  (t.location, t.keyword.getD "", t.text)

/-- The place of a line and its fragments. -/
def Token.fragments (t : Token) : Location × List String := (t.location, t.items.map Span.text)

/-- The place of a row and its cells. -/
def Row.contents (r : Row) : Location × List String := (r.location, r.cells.map Cell.value)

theorem Row.contents_ofToken (t : Token) : (ofToken t).contents = t.fragments := by
  simp [contents, ofToken, Token.fragments]

namespace Step

/-- The place, the keyword and the text of a step. -/
def heading (s : Step) : Location × String × String := (s.location, s.keyword, s.text)

/-- The table of a step. -/
def table? (s : Step) : Option DataTable :=
  match s.argument with
  | some (.dataTable t) => some t
  | _ => none

/-- The doc string of a step. -/
def docString? (s : Step) : Option DocString :=
  match s.argument with
  | some (.docString s) => some s
  | _ => none

variable (line : Token) (t? : Option DataTable) (s? : Option DocString)

theorem table?_ofLine :
    (ofLine line (t?.map .dataTable <|> s?.map .docString)).table? = t? := by
  cases t? <;> cases s? <;> rfl

/-- A doc string is no argument of a step that has a table. -/
theorem docString?_ofLine :
    (ofLine line (t?.map .dataTable <|> s?.map .docString)).docString? =
      t?.elim s? fun _ => none := by
  cases t? <;> cases s? <;> rfl

end Step

/-- The place of a doc string and its content type, empty where there is none. -/
def DocString.opening (s : DocString) : Location × String := (s.location, s.contentType.getD "")

theorem DocString.opening_ofTokens (fence : Token) (lines : List Token) :
    (ofTokens fence lines).opening = (fence.location, fence.text) := by
  by_cases htext : fence.text = "" <;> simp [opening, ofTokens, htext]

/-- The place, the keyword and the name of a block of examples. -/
def Examples.heading (e : Examples) : Location × String × String := (e.location, e.keyword, e.name)

/-- The kind of the line of a child. -/
def Child.kind : Child → TokenKind
  | background _ => .backgroundLine
  | scenario _ _ => .scenarioLine
  | outline _ _ _ => .outlineLine

/-- The kind of the line of a child, with its place, its keyword and its name. -/
def Child.heading (c : Child) : TokenKind × Location × String × String :=
  (c.kind, c.block.location, c.block.keyword, c.block.name)

namespace Feature

/-- The steps of the scenarios of a feature. -/
def steps (f : Feature) : List Step := f.scenarios.flatMap fun c => c.block.steps

/-- The blocks of examples of the outlines of a feature. -/
def examples (f : Feature) : List Examples := f.scenarios.flatMap Child.examples

end Feature

/-! ### Trails -/

/-- What is noted of the lines of some kinds. -/
structure Trail (κ : Type) where
  kinds : List TokenKind
  mark : Token → κ

namespace Trail

variable {κ : Type} (T : Trail κ)

/-- What is noted of the lines of a list. -/
def along (ts : List Token) : List κ := (ts.filter fun t => t.kind ∈ T.kinds).map T.mark

@[simp]
theorem along_append (ts us : List Token) : T.along (ts ++ us) = T.along ts ++ T.along us := by
  simp [along]

theorem along_sublist {ts us : List Token} (h : ts.Sublist us) :
    (T.along ts).Sublist (T.along us) :=
  (h.filter _).map _

/-- What `g` notes of a value that is read by `as?`, and that comes of the rule `r`, goes along the
trail of the lines in that rule. -/
def Covers {β : Type} (r : Rule) (as? : Value → Option β) (g : β → List κ) : Prop :=
  ∀ inner v b, Forest.Becomes r inner v → as? v = some b →
    (g b).Sublist (T.along (Forest.leaves inner))

variable {β : Type} {r q : Rule} {as? : Value → Option β} {g : β → List κ}
  {comments cs : Array Comment} {inner : Forest} {vs : List (Rule × Value)}

/-! ### What a frame gives -/

/-- Lines of one kind are given in their order. -/
theorem sublist_along (r : Rule) (inner : Forest) (vs : List (Rule × Value)) {k : TokenKind}
    (hk : k ∈ T.kinds) (hne : k ≠ .comment) :
    (((Frame.ofContents r (Forest.tokens inner) vs).tokens.get k).map T.mark).Sublist
      (T.along (Forest.leaves inner)) := by
  rw [Frame.tokens_get_ofContents_of_ne _ _ _ hne]
  have hkind : ((Forest.tokens inner).filter fun t => t.kind = k).Sublist
      ((Forest.tokens inner).filter fun t => t.kind ∈ T.kinds) := by
    refine List.monotone_filter_right _ fun t ht => ?_
    have htk : t.kind = k := by simpa using ht
    simpa [htk] using hk
  exact (hkind.map T.mark).trans (T.along_sublist (Forest.tokens_sublist_leaves inner))

/-- The first line of a kind is one of them. -/
theorem singleton_sublist_along (r : Rule) (inner : Forest) (vs : List (Rule × Value))
    {k : TokenKind} (hk : k ∈ T.kinds) (hne : k ≠ .comment) {line : Token}
    (hline : (Frame.ofContents r (Forest.tokens inner) vs).token? k = some line) :
    [T.mark line].Sublist (T.along (Forest.leaves inner)) := by
  refine List.Sublist.trans ?_ (T.sublist_along r inner vs hk hne)
  rw [List.singleton_sublist]
  exact List.mem_map_of_mem (List.mem_of_head? hline)

namespace Covers

variable {T}

/-- Values that come of forests one after the other go along their lines. -/
theorem forall₂ (h : T.Covers q as? g) {inners : List Forest} {ws : List Value}
    (hws : List.Forall₂ (Forest.Becomes q) inners ws) :
    ((ws.filterMap as?).flatMap g).Sublist (T.along (inners.flatMap Forest.leaves)) := by
  induction hws with
  | nil => exact List.Sublist.slnil
  | @cons inner w inners ws hw _ ih =>
    rw [List.flatMap_cons, along_append, List.filterMap_cons]
    cases hb : as? w with
    | none => exact ih.trans (List.sublist_append_right _ _)
    | some b => exact (h inner w b hw hb).append ih

/-- Children from one rule are given in the order of their lines. -/
theorem all (h : T.Covers q as? g) (hin : Forest.values comments inner = .ok (vs, cs)) :
    (((Frame.ofContents r (Forest.tokens inner) vs).all q as?).flatMap g).Sublist
      (T.along (Forest.leaves inner)) :=
  (h.forall₂ (Forest.forall₂_under hin r _ q)).trans
    (T.along_sublist (Forest.flatMap_under_sublist q inner))

theorem of_first?_eq_some (h : T.Covers q as? g)
    (hin : Forest.values comments inner = .ok (vs, cs)) {b : β}
    (hb : (Frame.ofContents r (Forest.tokens inner) vs).first? q as? = some b) :
    (g b).Sublist (T.along (Forest.leaves inner)) := by
  obtain ⟨bs, hbs⟩ := List.head?_eq_some_iff.mp hb
  have hall := h.all hin (r := r)
  rw [hbs, List.flatMap_cons] at hall
  exact (List.sublist_append_left _ _).trans hall

/-- The first child from a rule, if there is one. -/
theorem first? (h : T.Covers q as? g) (hin : Forest.values comments inner = .ok (vs, cs)) :
    (((Frame.ofContents r (Forest.tokens inner) vs).first? q as?).toList.flatMap g).Sublist
      (T.along (Forest.leaves inner)) := by
  cases hb : (Frame.ofContents r (Forest.tokens inner) vs).first? q as? with
  | none => exact List.nil_sublist _
  | some b =>
    rw [Option.toList_some, List.flatMap_singleton]
    exact h.of_first?_eq_some hin hb

/-- The first line of a kind in a rule that is kept. -/
theorem kept_token? (hr : r.isKept = true) {k : TokenKind} (hk : k ∈ T.kinds)
    (hne : k ≠ .comment) :
    T.Covers r Value.frame? fun f => (f.token? k).toList.map T.mark := by
  rintro inner v f hv hf
  obtain ⟨comments, ws, cs, -, rfl⟩ := hv.of_isKept hr
  cases hf
  dsimp only
  cases hline : (Frame.ofContents r (Forest.tokens inner) ws).token? k with
  | none => exact List.nil_sublist _
  | some line => exact T.singleton_sublist_along r inner ws hk hne hline

/-- The first child from a rule in a rule that is kept. -/
theorem kept_first? (hr : r.isKept = true) (h : T.Covers q as? g) :
    T.Covers r Value.frame? fun f => (f.first? q as?).toList.flatMap g := by
  rintro inner v f hv hf
  obtain ⟨comments, ws, cs, hin, rfl⟩ := hv.of_isKept hr
  cases hf
  exact h.first? hin

/-! ### From the inside of a document to the whole -/

/-- The table of a step is the first child from its rule. -/
theorem step_table {g : DataTable → List κ} (h : T.Covers .dataTable Value.dataTable? g) :
    T.Covers .step Value.step? fun s => s.table?.toList.flatMap g := by
  rintro inner v s ⟨comments, ws, cs, hin, hv⟩ hs
  obtain ⟨s', hs', rfl⟩ := Frame.exists_of_conclude hv
  cases hs
  obtain ⟨line, -, rfl⟩ := (Forest.sound_contents hin _).eq_of_step hs'
  simp only [Step.table?_ofLine]
  exact h.first? hin

/-- The doc string of a step, if there is one, is the first child from its rule. -/
theorem step_docString {g : DocString → List κ} (h : T.Covers .docString Value.docString? g) :
    T.Covers .step Value.step? fun s => s.docString?.toList.flatMap g := by
  rintro inner v s ⟨comments, ws, cs, hin, hv⟩ hs
  obtain ⟨s', hs', rfl⟩ := Frame.exists_of_conclude hv
  cases hs
  obtain ⟨line, -, rfl⟩ := (Forest.sound_contents hin _).eq_of_step hs'
  simp only [Step.docString?_ofLine]
  cases (Frame.ofContents .step (Forest.tokens inner) ws).first? .dataTable Value.dataTable? with
  | none => exact h.first? hin
  | some t => exact List.nil_sublist _

/-- The child of a scenario definition is its scenario or its outline, with tags. -/
theorem scenarioDefinition {F : Child → List κ}
    (hs : ∀ tags, T.Covers .scenario Value.tagged? fun child => F (child tags))
    (ho : ∀ tags, T.Covers .outline Value.tagged? fun child => F (child tags)) :
    T.Covers .scenarioDefinition Value.child? F := by
  rintro inner v c ⟨comments, ws, cs, hin, hv⟩ hc
  obtain ⟨c', hc', rfl⟩ := Frame.exists_of_conclude hv
  cases hc
  obtain ⟨child, hchild, rfl⟩ := (Forest.sound_contents hin _).eq_of_scenarioDefinition hc'
  rw [Option.orElse_eq_orElse, Option.orElse_eq_or] at hchild
  rcases Option.or_eq_some_iff.mp hchild with h | ⟨-, h⟩
  · exact (hs _).of_first?_eq_some hin h
  · exact (ho _).of_first?_eq_some hin h

/-- A scenario is a block, and an outline is a block with examples. -/
theorem child {F : Child → List κ}
    (hs : ∀ {comments inner ws cs b tags}, Forest.values comments inner = .ok (ws, cs) →
      (Frame.ofContents .scenario (Forest.tokens inner) ws).block .scenarioLine = .ok b →
      (F (.scenario tags b)).Sublist (T.along (Forest.leaves inner)))
    (ho : ∀ {comments inner ws cs b tags}, Forest.values comments inner = .ok (ws, cs) →
      (Frame.ofContents .outline (Forest.tokens inner) ws).block .outlineLine = .ok b →
      (F (.outline tags b ((Frame.ofContents .outline (Forest.tokens inner) ws).all
        .examplesDefinition Value.examples?))).Sublist (T.along (Forest.leaves inner))) :
    T.Covers .scenarioDefinition Value.child? F := by
  refine scenarioDefinition (fun tags => ?_) fun tags => ?_
  · rintro inner v c ⟨comments, ws, cs, hin, hv⟩ hc
    obtain ⟨b, hb, rfl⟩ := Frame.exists_of_conclude hv
    cases hc
    exact hs hin hb
  · rintro inner v c ⟨comments, ws, cs, hin, hv⟩ hc
    obtain ⟨b, es, hes, rfl⟩ := Frame.exists_of_conclude hv
    cases hc
    obtain ⟨hb, rfl⟩ := (Forest.sound_contents hin _).eq_of_outline hes
    exact ho hin hb

/-- The steps of a block are the children from their rule. -/
theorem block_steps {g : Step → List κ} (h : T.Covers .step Value.step? g)
    (hin : Forest.values comments inner = .ok (vs, cs)) {k : TokenKind} {b : Block}
    (hb : (Frame.ofContents r (Forest.tokens inner) vs).block k = .ok b) :
    (b.steps.flatMap g).Sublist (T.along (Forest.leaves inner)) := by
  obtain ⟨line, -, rfl⟩ := (Forest.sound_contents hin r).eq_of_block hb
  exact h.all hin

theorem child_steps {g : Step → List κ} (h : T.Covers .step Value.step? g) :
    T.Covers .scenarioDefinition Value.child? fun c => c.block.steps.flatMap g :=
  child (fun hin hb => h.block_steps hin hb) fun hin hb => h.block_steps hin hb

theorem child_examples {g : Examples → List κ}
    (h : T.Covers .examplesDefinition Value.examples? g) :
    T.Covers .scenarioDefinition Value.child? fun c => c.examples.flatMap g :=
  child (fun _ _ => List.nil_sublist _) fun hin _ => h.all hin

/-- The scenarios of a feature are the children from their rule, and no other. -/
theorem feature {F : Child → List κ} (h : T.Covers .scenarioDefinition Value.child? F) :
    T.Covers .feature Value.feature? fun x =>
      x.toOption.toList.flatMap fun f => f.scenarios.flatMap F := by
  rintro inner v x ⟨comments, ws, cs, hin, hv⟩ hx
  obtain ⟨x', hx', rfl⟩ := Frame.exists_of_conclude hv
  cases hx
  cases x with
  | error absence => exact List.nil_sublist _
  | ok f =>
    obtain ⟨_, _, _, -, -, -, hf⟩ := (Forest.sound_contents hin _).eq_of_feature hx'
    have hscenarios : f.scenarios.Sublist ((Frame.ofContents .feature (Forest.tokens inner)
        ws).all .scenarioDefinition Value.child?) := by
      rw [hf, Feature.scenarios, List.filter_append]
      have hnone : ∀ b? : Option Block, ((b?.map Child.background).toList.filter fun c =>
          c.background?.isNone) = [] := by
        intro b?
        cases b? <;> rfl
      rw [hnone, List.nil_append]
      exact List.filter_sublist
    simpa [Except.toOption] using (hscenarios.flatMap F).trans (h.all hin)

theorem document {G : Feature → List κ}
    (h : T.Covers .feature Value.feature? fun x => x.toOption.toList.flatMap G) :
    T.Covers .document Value.document? fun d => d.feature.toList.flatMap G := by
  rintro inner v d ⟨comments, ws, cs, hin, hv⟩ hd
  obtain ⟨d', hd', rfl⟩ := Frame.exists_of_conclude hv
  cases hd
  obtain rfl := (Forest.sound_contents hin _).eq_of_document hd'
  have hfirst := h.first? hin (r := .document)
  cases hx : (Frame.ofContents .document (Forest.tokens inner) ws).first? .feature
      Value.feature? with
  | none => exact List.nil_sublist _
  | some x =>
    rw [hx] at hfirst
    simpa using hfirst

/-- **Order of the parts.** What is noted of the scenarios of a document goes along the trail of all
lines of the run that it comes of. -/
theorem replay {F : Child → List κ} (h : T.Covers .scenarioDefinition Value.child? F)
    {es : List Event} {s : Assembly} {d : Document} {f : Feature}
    (hd : (Assembly.handler.replay es s).1 = .ok d) (hf : d.feature = some f) :
    (f.scenarios.flatMap F).Sublist (T.along (es.filterMap Event.token?)) := by
  obtain ⟨ts, vs, cs, hts, hfirst, hsub⟩ := Assembly.exists_values_of_replay hd hf
  have hroot := h.feature.document.of_first?_eq_some hts hfirst
  rw [hf, Option.toList_some, List.flatMap_singleton] at hroot
  exact hroot.trans (T.along_sublist hsub)

end Covers

/-! ### The trails of a document -/

/-- The lines of scenarios and outlines. -/
def scenarios : Trail (TokenKind × Location × String × String) :=
  ⟨[.scenarioLine, .outlineLine], fun t => (t.kind, t.heading)⟩

/-- The lines of steps. -/
def steps : Trail (Location × String × String) := ⟨[.stepLine], Token.heading⟩

/-- The rows of tables. -/
def rows : Trail (Location × List String) := ⟨[.tableRow], Token.fragments⟩

/-- The lines of examples. -/
def examples : Trail (Location × String × String) := ⟨[.examplesLine], Token.heading⟩

/-- The fences of doc strings. -/
def fences : Trail (Location × String) := ⟨[.docStringSeparator], fun t => (t.location, t.text)⟩

theorem scenarios_block {k : TokenKind} (hk : k ∈ scenarios.kinds) (hne : k ≠ .comment)
    (hin : Forest.values comments inner = .ok (vs, cs)) {b : Block}
    (hb : (Frame.ofContents r (Forest.tokens inner) vs).block k = .ok b) :
    [(k, b.location, b.keyword, b.name)].Sublist (scenarios.along (Forest.leaves inner)) := by
  have hf := Forest.sound_contents hin r
  obtain ⟨line, hline, rfl⟩ := hf.eq_of_block hb
  obtain ⟨rfl, -⟩ := hf.tokens k line (List.mem_of_head? hline)
  exact scenarios.singleton_sublist_along r inner vs hk hne hline

theorem scenarios_covers :
    scenarios.Covers .scenarioDefinition Value.child? fun c => [c.heading] :=
  .child (fun hin hb => scenarios_block List.mem_cons_self TokenKind.noConfusion hin hb)
    fun hin hb =>
      scenarios_block (List.mem_cons_of_mem _ List.mem_cons_self) TokenKind.noConfusion hin hb

theorem steps_covers : steps.Covers .step Value.step? fun s => [s.heading] := by
  rintro inner v s ⟨comments, ws, cs, hin, hv⟩ hs
  obtain ⟨s', hs', rfl⟩ := Frame.exists_of_conclude hv
  cases hs
  obtain ⟨line, hline, rfl⟩ := (Forest.sound_contents hin _).eq_of_step hs'
  exact steps.singleton_sublist_along _ inner ws List.mem_cons_self TokenKind.noConfusion hline

/-- The rows of a table are noted as its lines are. -/
theorem rows_sublist {rs : List Row}
    (h : (Frame.ofContents r (Forest.tokens inner) vs).rows = .ok rs) :
    (rs.map Row.contents).Sublist (rows.along (Forest.leaves inner)) := by
  have hmark : Row.contents ∘ Row.ofToken = rows.mark := funext Row.contents_ofToken
  rw [Frame.eq_of_rows h, List.map_map, hmark]
  exact rows.sublist_along r inner vs List.mem_cons_self TokenKind.noConfusion

theorem rows_covers_dataTable :
    rows.Covers .dataTable Value.dataTable? fun t => t.rows.map Row.contents := by
  rintro inner v t ⟨comments, ws, cs, -, hv⟩ ht
  obtain ⟨rs, hrs, rfl⟩ := Frame.exists_of_conclude hv
  cases ht
  exact rows_sublist hrs

theorem rows_covers_examplesTable :
    rows.Covers .examplesTable Value.rows? fun rs => rs.map Row.contents := by
  rintro inner v rs ⟨comments, ws, cs, -, hv⟩ hrs
  obtain ⟨rs', hrs', rfl⟩ := Frame.exists_of_conclude hv
  cases hrs
  exact rows_sublist hrs'

theorem fences_covers :
    fences.Covers .docString Value.docString? fun s => [s.opening] := by
  rintro inner v s ⟨comments, ws, cs, -, hv⟩ hs
  obtain ⟨s', hs', rfl⟩ := Frame.exists_of_conclude hv
  cases hs
  obtain ⟨fence, hfence, rfl⟩ := Frame.eq_of_docString hs'
  simp only [DocString.opening_ofTokens]
  exact fences.singleton_sublist_along _ inner ws List.mem_cons_self TokenKind.noConfusion hfence

theorem examples_covers :
    examples.Covers .examplesDefinition Value.examples? fun e => [e.heading] := by
  rintro inner v e ⟨comments, ws, cs, hin, hv⟩ he
  obtain ⟨e', he', rfl⟩ := Frame.exists_of_conclude hv
  cases he
  obtain ⟨g, line, hg, hline, rfl⟩ :=
    (Forest.sound_contents hin _).eq_of_examplesDefinition he'
  have hlines : examples.Covers .examples Value.frame? _ :=
    .kept_token? rfl List.mem_cons_self TokenKind.noConfusion
  have hmark := hlines.of_first?_eq_some hin hg
  rw [hline] at hmark
  exact hmark

/-- The header of a table and its other rows are its rows. -/
theorem rows_covers_examples :
    rows.Covers .examplesDefinition Value.examples? fun e => e.rows.map Row.contents := by
  rintro inner v e ⟨comments, ws, cs, hin, hv⟩ he
  obtain ⟨e', he', rfl⟩ := Frame.exists_of_conclude hv
  cases he
  obtain ⟨g, line, hg, -, rfl⟩ :=
    (Forest.sound_contents hin _).eq_of_examplesDefinition he'
  have hrows := (Covers.kept_first? rfl rows_covers_examplesTable).of_first?_eq_some hin hg
  have hsplit : ∀ rs : List Row, rs.head?.toList ++ rs.tail?.getD [] = rs := by
    intro rs
    cases rs <;> rfl
  simp only [Examples.rows, hsplit]
  cases hrs : g.first? .examplesTable Value.rows? with
  | none => exact List.nil_sublist _
  | some rs => simpa [hrs] using hrows

end Trail

/-! ### Documents of runs -/

/-- The parts of a feature, each sort of them in the order of the document, are made of lines of
some events, in the order of the events and none of them used twice. -/
structure Feature.Follows (f : Feature) (es : List Event) : Prop where
  /-- A scenario is made of the line of a scenario, and an outline of that of an outline. -/
  scenarios : (f.scenarios.map Child.heading).Sublist
    ((Event.lines [.scenarioLine, .outlineLine] es).map fun t => (t.kind, t.heading))
  steps : (f.steps.map Step.heading).Sublist ((Event.lines [.stepLine] es).map Token.heading)
  /-- The rows of the tables given to steps. -/
  stepRows : (((f.steps.filterMap Step.table?).flatMap DataTable.rows).map Row.contents).Sublist
    ((Event.lines [.tableRow] es).map Token.fragments)
  /-- The rows of examples, the header of a block before its other rows. -/
  examplesRows : ((f.examples.flatMap Examples.rows).map Row.contents).Sublist
    ((Event.lines [.tableRow] es).map Token.fragments)
  examples : (f.examples.map Examples.heading).Sublist
    ((Event.lines [.examplesLine] es).map Token.heading)
  docStrings : ((f.steps.filterMap Step.docString?).map DocString.opening).Sublist
    ((Event.lines [.docStringSeparator] es).map fun t => (t.location, t.text))

namespace Assembly

/-- **Nothing is invented, nothing is used twice, and the order is kept.** Where a run gives a
document with a feature, the parts of the feature follow the lines of the run. -/
theorem follows_of_replay {es : List Event} {s : Assembly} {d : Document} {f : Feature}
    (hd : (handler.replay es s).1 = .ok d) (hf : d.feature = some f) : f.Follows es where
  scenarios := by
    rw [List.map_eq_flatMap]
    exact Trail.scenarios_covers.replay hd hf
  steps := by
    rw [List.map_eq_flatMap, Feature.steps, List.flatMap_assoc]
    exact Trail.steps_covers.child_steps.replay hd hf
  stepRows := by
    rw [List.filterMap_eq_flatMap_toList, List.map_flatMap, Feature.steps, List.flatMap_assoc,
      List.flatMap_assoc]
    exact Trail.rows_covers_dataTable.step_table.child_steps.replay hd hf
  examplesRows := by
    rw [List.map_flatMap, Feature.examples, List.flatMap_assoc]
    exact Trail.rows_covers_examples.child_examples.replay hd hf
  examples := by
    rw [List.map_eq_flatMap, Feature.examples, List.flatMap_assoc]
    exact Trail.examples_covers.child_examples.replay hd hf
  docStrings := by
    rw [List.filterMap_eq_flatMap_toList, List.map_eq_flatMap, Feature.steps, List.flatMap_assoc,
      List.flatMap_assoc]
    exact Trail.fences_covers.step_docString.child_steps.replay hd hf

/-- Events with lines that no part is made of: a step with a row outside its table and with a second
table, and a second block in one scenario definition. -/
def eventsWithLeftovers : List Event :=
  let line (kind : TokenKind) (n : UInt32) (keyword : Option String) (text : String) : Event :=
    .token { kind, location := ⟨n, 1⟩, keyword, text, dialect := some "en" }
  let row (n : UInt32) : Event :=
    .token { kind := .tableRow, location := ⟨n, 1⟩, items := [⟨2, "a"⟩] }
  let inside (r : Rule) (es : List Event) : List Event := .enter r :: (es ++ [.leave r])
  inside .document (inside .feature ([line .featureLine 1 "Feature" "Cats"] ++
    inside .scenarioDefinition (inside .outline ([line .outlineLine 2 "Outline" "one"] ++
      inside .step ([line .stepLine 3 "Given " "a cat", row 4] ++
        inside .dataTable [row 5] ++ inside .dataTable [row 6]) ++
      inside .step ([line .stepLine 7 none "another"] ++
        inside .docString [line .docStringSeparator 8 none "json"]) ++
      inside .examplesDefinition (inside .examples ([line .examplesLine 9 "Examples" "few"] ++
        inside .examplesTable [row 10, row 11]))) ++
      inside .outline [line .outlineLine 12 "Outline" "two"])))

/-- The feature that these events make. -/
def featureWithoutLeftovers : Feature :=
  let row (n : UInt32) : Row := ⟨⟨n, 1⟩, [⟨⟨n, 2⟩, "a"⟩]⟩
  let examples : Examples := ⟨[], ⟨9, 1⟩, "Examples", "few", "", some (row 10), some [row 11]⟩
  ⟨[], ⟨1, 1⟩, "en", "Feature", "Cats", "", [.outline [] ⟨⟨2, 1⟩, "Outline", "one", "",
    [⟨⟨3, 1⟩, "Given ", "a cat", some (.dataTable ⟨[row 5]⟩)⟩,
      ⟨⟨7, 1⟩, "", "another", some (.docString ⟨⟨8, 1⟩, some "json", ""⟩)⟩]⟩ [examples]]⟩

theorem follows_eventsWithLeftovers :
    (handler.replay eventsWithLeftovers .empty).1 = .ok ⟨some featureWithoutLeftovers, []⟩ ∧
      featureWithoutLeftovers.Follows eventsWithLeftovers := by
  have hd : (handler.replay eventsWithLeftovers .empty).1 =
      .ok ⟨some featureWithoutLeftovers, []⟩ := by decide
  exact ⟨hd, follows_of_replay hd rfl⟩

end Assembly

end Gherkin
