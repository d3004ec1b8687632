import Gherkin.Document.Tree
import Gherkin.Proofs.Nested
import Gherkin.Proofs.Readings

/-!
# Documents from their own trees

Every part of a document is found again in the values of its tree, if it is well formed. What is
written where in the tree decides in which frame and under which rule it comes to stand, so the
proof goes through the parts of a document from the smallest to the largest.

## Main definitions

* `Gherkin.Forest.Yields` : the tokens and the values of a forest without comments.

## Main results

* `Gherkin.Step.yields`, `Gherkin.Child.yields`, `Gherkin.Feature.yields` and their like : the value
  of the tree of a part is the part.
* `Gherkin.Assembly.replay_events_of_wellFormed` : a run on the events of a document gives the
  document.
-/

namespace Gherkin

/-! ### Forests without comments -/

/-- The tokens that stand directly in a forest are `us` and its values are `vs`, and the comments
that wait are the same before and after it. -/
structure Forest.Yields (ts : Forest) (us : List Token) (vs : List (Rule × Value)) : Prop where
  tokens : Forest.tokens ts = us
  values : ∀ cs, Forest.values cs ts = .ok (vs, cs)

namespace Forest.Yields

variable {ts ts' : Forest} {us us' : List Token} {vs vs' : List (Rule × Value)}

theorem nil : Yields [] [] [] := ⟨rfl, fun _ => values_nil⟩

theorem append (h : Yields ts us vs) (h' : Yields ts' us' vs') :
    Yields (ts ++ ts') (us ++ us') (vs ++ vs') :=
  ⟨by rw [tokens_append, h.tokens, h'.tokens], fun cs => values_append (h.values cs) (h'.values cs)⟩

/-- A token that is no comment stands before a forest. -/
theorem token_cons {t : Token} (ht : t.kind.isComment = false) (h : Yields ts us vs) :
    Yields (.token t :: ts) (t :: us) vs := by
  refine ⟨congrArg (t :: ·) h.tokens, fun cs => ?_⟩
  rw [values_token_cons, Token.addComment, ht]
  exact h.values cs

/-- Tokens of one kind. -/
theorem of_tokens {k : TokenKind} (hk : k ≠ .comment) (ts : List Token)
    (h : ∀ t ∈ ts, t.kind = k) : Yields (ts.map .token) ts [] := by
  induction ts with
  | nil => exact nil
  | cons t ts ih =>
    have ht : t.kind.isComment = false := by
      rw [h t List.mem_cons_self, Bool.eq_false_iff, Ne, TokenKind.isComment_iff]
      exact hk
    exact token_cons ht (ih fun u hu => h u (List.mem_cons_of_mem _ hu))

/-- A rule yields what its frame is concluded to. A document takes the comments, so it is left
out. -/
theorem node {r : Rule} (hr : r ≠ .document) {v : Value} (h : Yields ts us vs)
    (hv : ∀ cs, (Frame.ofContents r us vs).conclude cs = .ok v) :
    Yields [.node r ts] [] [(r, v)] := by
  refine ⟨rfl, fun cs => values_node_cons_eq_ok_iff.mpr ⟨vs, cs, v, [], h.values cs, ?_, ?_, rfl⟩⟩
  · rw [h.tokens]
    exact hv cs
  · rw [if_neg hr, values_nil]

/-- Parts that each have a tree. -/
theorem map {α : Type} {tree : α → Tree} {value : α → Rule × Value} {parts : List α}
    (h : ∀ a ∈ parts, Yields [tree a] [] [value a]) :
    Yields (parts.map tree) [] (parts.map value) := by
  induction parts with
  | nil => exact nil
  | cons a parts ih =>
    exact (h a List.mem_cons_self).append (ih fun b hb => h b (List.mem_cons_of_mem _ hb))

/-- The frame of a rule with a forest in it is sound. -/
theorem sound (h : Yields ts us vs) (r : Rule) : (Frame.ofContents r us vs).Sound :=
  Frame.sound_ofContents (sound_of_values (h.values #[]))

end Forest.Yields

open Forest (Yields)

/-! ### Rows -/

/-- A location is reached from another on the same line, if it has a column or the other has
none. -/
theorem Location.atColumn_column {l l' : Location} (hline : l'.line = l.line)
    (hcolumn : l'.column = 0 → l.column = 0) : l.atColumn l'.column = l' := by
  obtain ⟨line, column⟩ := l
  obtain ⟨line', column'⟩ := l'
  dsimp only at hline hcolumn
  subst hline
  by_cases h : column' = 0
  · rw [h, hcolumn h, Location.atColumn_zero]
  · simp [Location.atColumn, h]

namespace Row

/-- The line of a row. -/
def line (r : Row) : Token where
  kind := .tableRow
  location := r.location
  items := r.cells.map fun c => ⟨c.location.column, c.value⟩

/-- A placed row is that of its line. -/
theorem ofToken_line {r : Row} (h : r.Placed) : ofToken r.line = r := by
  obtain ⟨location, cells⟩ := r
  have hcell : ∀ c ∈ cells,
      (⟨location.atColumn c.location.column, c.value⟩ : Cell) = c := fun c hc => by
    rw [Location.atColumn_column (h c hc).1 (h c hc).2]
  have hcells := (List.map_congr_left hcell).trans (List.map_id' cells)
  simpa [ofToken, line, Token.locate, Function.comp_def] using hcells

variable {rs : List Row}

theorem kind_of_mem_lines (rs : List Row) : ∀ t ∈ rs.map line, t.kind = .tableRow := by
  simp [line]

theorem yields (rs : List Row) : Yields (rs.map Row.tree) (rs.map line) [] := by
  have htree : rs.map Row.tree = (rs.map line).map .token := by
    rw [List.map_map]
    rfl
  rw [htree]
  exact .of_tokens TokenKind.noConfusion _ (kind_of_mem_lines rs)

/-- The rows of a well-formed table are those of its lines. -/
theorem rows_ofContents (h : WellFormed rs) (q : Rule) (vs : List (Rule × Value)) :
    (Frame.ofContents q (rs.map line) vs).rows = .ok rs := by
  have hrow : ∀ r ∈ rs, ofToken r.line = r := fun r hr => ofToken_line (h.placed r hr)
  have hrows : (rs.map line).map ofToken = rs :=
    List.map_map.trans ((List.map_congr_left hrow).trans (List.map_id' rs))
  rw [Frame.rows, Frame.tokensOf_eq, Frame.tokens_get_ofContents_self _ _ _ TokenKind.noConfusion
    (kind_of_mem_lines rs)]
  exact ofTokens_eq_ok_iff.mpr ⟨hrows.symm, h.rectangular⟩

end Row

/-! ### Steps -/

/-- The value of an argument. -/
def Argument.value : Argument → Rule × Value
  | dataTable t => (.dataTable, .dataTable t)
  | docString s => (.docString, .docString s)

/-- A doc string whose content type is not empty is that of its fence and its content. -/
theorem DocString.ofTokens_tree {s : DocString} (h : s.contentType ≠ some "") :
    ofTokens { kind := .docStringSeparator, location := s.location, text := s.contentType.getD "" }
      [{ kind := .other, location := default, text := s.content }] = s := by
  obtain ⟨location, contentType, content⟩ := s
  have hcontent : Text.ofLines [content] = content := String.intercalate_singleton
  cases contentType with
  | none => simp [ofTokens, hcontent]
  | some fence =>
    have hfence : fence ≠ "" := fun hf => h (congrArg some hf)
    simp [ofTokens, hcontent, hfence]

/-- The value of the tree of an argument is the argument. -/
theorem Argument.yields {a : Argument} (h : a.WellFormed) : Yields [a.tree] [] [a.value] := by
  cases a with
  | dataTable t =>
    refine (Row.yields t.rows).node Rule.noConfusion fun cs => ?_
    simp only [Frame.conclude, Frame.rule_ofContents, Row.rows_ofContents h]
    rfl
  | docString s =>
    refine .node Rule.noConfusion (.token_cons rfl (.token_cons rfl (.token_cons rfl .nil)))
      fun cs => ?_
    exact congrArg (fun s => Except.ok (Value.docString s)) (DocString.ofTokens_tree h)

/-- The value of the tree of a step is the step. -/
theorem Step.yields {s : Step} (h : s.WellFormed) : Yields [s.tree] [] [(.step, .step s)] := by
  obtain ⟨location, keyword, text, argument⟩ := s
  cases argument with
  | none => exact .node Rule.noConfusion (.token_cons rfl .nil) fun _ => rfl
  | some a =>
    have ha : Yields [a.tree] [] [a.value] := a.yields (h a rfl)
    refine .node Rule.noConfusion (.token_cons rfl ha) fun cs => ?_
    cases a <;> rfl

/-! ### Descriptions and tags -/

/-- The values of a description. -/
def Text.values (description : String) : List (Rule × Value) :=
  if description = "" then [] else [(.description, .description description)]

/-- A description of one line that is not blank is that line. -/
theorem Text.description_singleton {t : Token} (h : isBlank t.text = false) :
    description [t] = t.text := by
  have htrim : trimEnd [t.text] = [t.text] := trimEnd_concat_of_not_isBlank h []
  rw [description, List.map_singleton, htrim]
  exact String.intercalate_singleton

/-- A description has a value of its own, unless it is empty. -/
theorem Text.yields {description : String} (h : Trimmed description) :
    Yields (Text.forest description) [] (Text.values description) := by
  by_cases hempty : description = ""
  · rw [Text.forest, if_pos hempty, Text.values, if_pos hempty]
    exact .nil
  · have hblank : isBlank description = false := Bool.eq_false_iff.mpr fun hb => hempty (h hb)
    rw [Text.forest, if_neg hempty, Text.values, if_neg hempty]
    refine .node Rule.noConfusion (.token_cons rfl .nil) fun cs => ?_
    exact congrArg (fun text => Except.ok (Value.description text))
      (Text.description_singleton hblank)

@[simp]
theorem Value.pick_text_of_ne {β : Type} {q : Rule} (h : q ≠ .description)
    (as? : Value → Option β) (description : String) :
    Value.pick q as? (Text.values description) = [] := by
  unfold Text.values
  split <;> simp [h.symm]

/-- The text of a description is found among values from other rules. -/
theorem Frame.descriptionOf_ofContents {r : Rule} {us : List Token} {description : String}
    {vs : List (Rule × Value)} (h : Value.pick .description Value.description? vs =
      Value.pick .description Value.description? (Text.values description)) :
    (ofContents r us vs).descriptionOf = description := by
  rw [descriptionOf, first?_ofContents, h, Text.values]
  split
  · next hempty => exact hempty.symm
  · rfl

namespace Tag

/-- The line of a tag. -/
def line (t : Tag) : Token where
  kind := .tagLine
  location := t.location
  items := [⟨0, t.name⟩]

/-- The values of a list of tags. -/
def values : List Tag → List (Rule × Value)
  | [] => []
  | tags => [(.tags, .frame (.ofContents .tags (tags.map line) []))]

theorem kind_of_mem_lines (tags : List Tag) : ∀ u ∈ tags.map line, u.kind = .tagLine := by
  simp [line]

/-- The lines of tags are kept in the frame of their rule, unless there are none. -/
theorem yields (tags : List Tag) : Yields (Tag.forest tags) [] (values tags) := by
  cases tags with
  | nil => exact .nil
  | cons t tags =>
    have htree : (t :: tags).map (fun t => Tree.token t.line) =
        ((t :: tags).map line).map .token := by
      rw [List.map_map]
      rfl
    have hinner := Yields.of_tokens TokenKind.noConfusion _ (kind_of_mem_lines (t :: tags))
    rw [← htree] at hinner
    exact hinner.node Rule.noConfusion fun _ => rfl

end Tag

@[simp]
theorem Value.pick_tags_of_ne {β : Type} {q : Rule} (h : q ≠ .tags) (as? : Value → Option β)
    (tags : List Tag) : Value.pick q as? (Tag.values tags) = [] := by
  cases tags <;> simp [Tag.values, h.symm]

/-- Tags are found among values from other rules. -/
theorem Frame.tagsOf_ofContents {r : Rule} {us : List Token} {tags : List Tag}
    {vs : List (Rule × Value)}
    (h : Value.pick .tags Value.frame? vs = Value.pick .tags Value.frame? (Tag.values tags)) :
    (ofContents r us vs).tagsOf = tags := by
  rw [tagsOf, first?_ofContents, h]
  cases tags with
  | nil => rfl
  | cons t tags =>
    have hget := tokens_get_ofContents_self .tags _ [] TokenKind.noConfusion
      (Tag.kind_of_mem_lines (t :: tags))
    have htag (t : Tag) : Tag.ofToken t.line = [t] := by
      simp [Tag.ofToken, Tag.line, Token.locate]
    simp only [Tag.values, Value.pick_cons, Value.frame?, if_true, Option.toList_some,
      Value.pick_nil, List.append_nil, List.head?_cons, Option.map_some, Option.getD_some, hget,
      List.flatMap_map, htag, List.flatMap_singleton']

/-! ### Blocks -/

/-- The values of the parts of a block. -/
def Block.values (b : Block) : List (Rule × Value) :=
  Text.values b.description ++ b.steps.map fun s => (.step, .step s)

/-- The line of a block. -/
def Block.line (k : TokenKind) (b : Block) : Token := .line k b.location b.keyword b.name

/-- The parts of a block are its description and its steps, after its line. -/
theorem Block.yields {b : Block} (h : b.WellFormed) {k : TokenKind} (hk : k.isComment = false) :
    Yields (b.forest k) [b.line k] b.values :=
  .token_cons hk ((Text.yields h.description).append (.map fun s hs => s.yields (h.steps s hs)))

section

variable {b : Block} {r : Rule} {k : TokenKind} {vs : List (Rule × Value)}

/-- The line of a block is found if it is the only one. -/
theorem Block.token?_line (b : Block) (hk : k ≠ .comment) :
    (Frame.ofContents r [b.line k] vs).token? k = some (b.line k) := by
  have hlines : ∀ t ∈ [b.line k], t.kind = k := by simp [line, Token.line]
  rw [Frame.token?_eq, Frame.tokens_get_ofContents_self _ _ _ hk hlines]
  rfl

/-- A block is read off its line and its values, whatever examples come after them. -/
theorem Block.block_ofContents (es : List Examples) (hk : k ≠ .comment)
    (hvs : vs = b.values ++ es.map fun e => (.examplesDefinition, .examples e))
    (hf : (Frame.ofContents r [b.line k] vs).Sound) :
    (Frame.ofContents r [b.line k] vs).block k = .ok b := by
  have hhelper : (Frame.ofContents r [b.line k] vs).children.get .descriptionHelper = [] := by
    simp [Frame.children_get_eq_pick, hvs, values]
  have hdescription : (Frame.ofContents r [b.line k] vs).descriptionOf = b.description := by
    rw [hvs, values]
    exact Frame.descriptionOf_ofContents (by simp)
  have hsteps : (Frame.ofContents r [b.line k] vs).all .step Value.step? = b.steps := by
    have hpick := Value.pick_map .step (fun s => (rfl : Value.step? (.step s) = some s)) b.steps
    simp [Frame.all_ofContents, hvs, values, hpick]
  rw [hf.block_eq (b.token?_line hk) hhelper, hdescription, hsteps]
  rfl

end

/-! ### Examples -/

namespace Examples

/-- The values of the table of a block of examples. -/
def tableValues (e : Examples) : List (Rule × Value) :=
  match e.header with
  | none => []
  | some h => [(.examplesTable, .rows (h :: e.body.getD []))]

/-- The line of a block of examples. -/
def line (e : Examples) : Token := .line .examplesLine e.location e.keyword e.name

/-- The frame of a block of examples, without its tags. -/
def inner (e : Examples) : Frame Value :=
  .ofContents .examples [e.line] (Text.values e.description ++ e.tableValues)

variable {e : Examples}

/-- A block of examples without its tags is kept as a frame. -/
theorem inner_yields (h : e.WellFormed) :
    Yields [.node .examples (.token e.line :: (Text.forest e.description ++
      match e.header with
      | none => []
      | some h => [.node .examplesTable ((h :: e.body.getD []).map Row.tree)]))] []
      [(.examples, .frame e.inner)] := by
  have htable : Yields (match e.header with
      | none => []
      | some h => [.node .examplesTable ((h :: e.body.getD []).map Row.tree)]) []
      e.tableValues := by
    unfold tableValues
    cases hheader : e.header with
    | none => exact .nil
    | some first =>
      have hrows : Row.WellFormed (first :: e.body.getD []) := by
        simpa [Examples.rows, hheader] using h.rows
      refine (Row.yields (first :: e.body.getD [])).node Rule.noConfusion fun cs => ?_
      simp only [Frame.conclude, Frame.rule_ofContents, Row.rows_ofContents hrows]
      rfl
  exact .node Rule.noConfusion (.token_cons rfl ((Text.yields h.description).append htable))
    fun _ => rfl

/-- The header and the other rows of a table are found in its values. -/
theorem rows_inner (h : e.header = none ↔ e.body = none) :
    ((e.inner.first? .examplesTable Value.rows?).getD []).head? = e.header ∧
      ((e.inner.first? .examplesTable Value.rows?).getD []).tail? = e.body := by
  obtain ⟨tags, location, keyword, name, description, header, body⟩ := e
  rw [inner, Frame.first?_ofContents]
  cases header with
  | none =>
    obtain rfl : body = none := h.mp rfl
    simp [tableValues]
  | some first =>
    cases body with
    | none => exact absurd (h.mpr rfl) (by simp)
    | some rest => simp [tableValues, Value.rows?]

/-- The value of the tree of a block of examples is the block. -/
theorem yields (h : e.WellFormed) : Yields [e.tree] [] [(.examplesDefinition, .examples e)] := by
  have hparts : Yields _ [] (Tag.values e.tags ++ [(.examples, .frame e.inner)]) :=
    (Tag.yields e.tags).append (inner_yields h)
  refine hparts.node Rule.noConfusion fun cs => ?_
  have hf := hparts.sound .examplesDefinition
  generalize hframe : Frame.ofContents .examplesDefinition [] (Tag.values e.tags ++
    [(.examples, .frame e.inner)]) = f at hf
  have hfirst : f.first? .examples Value.frame? = some e.inner := by
    simp [← hframe, Frame.first?_ofContents, Value.frame?]
  have htags : f.tagsOf = e.tags := by
    rw [← hframe]
    exact Frame.tagsOf_ofContents (by simp)
  have hline : e.inner.token? .examplesLine = some e.line := rfl
  have hhelper : e.inner.children.get .descriptionHelper = [] := by
    cases hheader : e.header <;> simp [inner, Frame.children_get_eq_pick, tableValues, hheader]
  have hdescription : e.inner.descriptionOf = e.description := by
    refine Frame.descriptionOf_ofContents ?_
    cases hheader : e.header <;> simp [tableValues, hheader]
  have hread : f.examplesDefinition = .ok e := by
    rw [hf.examplesDefinition_eq hfirst hline hhelper, htags, hdescription,
      (rows_inner h.header_iff_body).1, (rows_inner h.header_iff_body).2]
    rfl
  have hrule : f.rule = .examplesDefinition := by
    rw [← hframe]
    rfl
  simp only [Frame.conclude, hrule, hread]
  rfl

end Examples

/-! ### Children of a feature -/

namespace Child

/-- The value of a child. -/
def value : Child → Rule × Value
  | background b => (.background, .background b)
  | c => (.scenarioDefinition, .child c)

/-- A scenario or an outline is given the tags that stand before it. -/
theorem yields_tagged {tags : List Tag} {ts : Forest} {q : Rule} {v : Value}
    {child : List Tag → Child} (hts : Yields ts [] [(q, v)]) (hq : q = .scenario ∨ q = .outline)
    (hv : v.tagged? = some child) :
    Yields [.node .scenarioDefinition (Tag.forest tags ++ ts)] []
      [(.scenarioDefinition, .child (child tags))] := by
  have hparts : Yields _ [] (Tag.values tags ++ [(q, v)]) := (Tag.yields tags).append hts
  refine hparts.node Rule.noConfusion fun cs => ?_
  have hchild : ((Frame.ofContents .scenarioDefinition [] (Tag.values tags ++ [(q, v)])).first?
      .scenario Value.tagged? <|> (Frame.ofContents .scenarioDefinition []
        (Tag.values tags ++ [(q, v)])).first? .outline Value.tagged?) = some child := by
    rcases hq with rfl | rfl <;> simp [Frame.first?_ofContents, hv]
  have htags : (Frame.ofContents .scenarioDefinition [] (Tag.values tags ++ [(q, v)])).tagsOf =
      tags := by
    refine Frame.tagsOf_ofContents ?_
    rcases hq with rfl | rfl <;> simp
  have hread := (hparts.sound .scenarioDefinition).scenarioDefinition_eq hchild
  rw [htags] at hread
  simp only [Frame.conclude, Frame.rule_ofContents, hread]
  rfl

/-- The value of the tree of a child is the child. -/
theorem yields {c : Child} (h : c.WellFormed) : Yields [c.tree] [] [c.value] := by
  cases c with
  | background b =>
    have hb : Yields _ [b.line .backgroundLine] b.values := Block.yields h.block rfl
    refine hb.node Rule.noConfusion fun cs => ?_
    have hread := Block.block_ofContents [] TokenKind.noConfusion (by simp) (hb.sound .background)
    simp only [Frame.conclude, Frame.rule_ofContents, hread]
    rfl
  | scenario tags b =>
    have hb : Yields _ [b.line .scenarioLine] b.values := Block.yields h.block rfl
    have hread := Block.block_ofContents [] TokenKind.noConfusion (by simp) (hb.sound .scenario)
    have hscenario : Yields [.node .scenario (b.forest .scenarioLine)] []
        [(.scenario, .scenario b)] := by
      refine hb.node Rule.noConfusion fun cs => ?_
      simp only [Frame.conclude, Frame.rule_ofContents, hread]
      rfl
    exact yields_tagged hscenario (.inl rfl) rfl
  | outline tags b es =>
    have hb : Yields _ [b.line .outlineLine] b.values := Block.yields h.block rfl
    have hes : Yields (es.map Examples.tree) []
        (es.map fun e => (.examplesDefinition, .examples e)) :=
      .map fun e he => e.yields (h.examples e he)
    have hparts : Yields _ [b.line .outlineLine] _ := hb.append hes
    have hf := hparts.sound .outline
    have hpick := Value.pick_map .examplesDefinition
      (fun e => (rfl : Value.examples? (.examples e) = some e)) es
    have hexamples : (Frame.ofContents .outline [b.line .outlineLine]
        (b.values ++ es.map fun e => (.examplesDefinition, .examples e))).all .examplesDefinition
          Value.examples? = es := by
      simp [Frame.all_ofContents, Block.values, hpick]
    have hread := hf.outline_eq (Block.block_ofContents es TokenKind.noConfusion rfl hf)
    rw [hexamples] at hread
    have houtline : Yields [.node .outline (b.forest .outlineLine ++ es.map Examples.tree)] []
        [(.outline, .outline b es)] := by
      refine hparts.node Rule.noConfusion fun cs => ?_
      simp only [Frame.conclude, Frame.rule_ofContents, hread]
      rfl
    exact yields_tagged houtline (.inr rfl) rfl

end Child

/-! ### Features and documents -/

/-- The backgrounds among children are found under their rule. -/
theorem Value.pick_background (cs : List Child) :
    Value.pick .background Value.background? (cs.map Child.value) =
      cs.filterMap Child.background? := by
  induction cs with
  | nil => rfl
  | cons c cs ih => cases c <;> simp [Child.value, Value.background?, List.filterMap_cons, ih]

/-- The other children are found under theirs. -/
theorem Value.pick_scenarioDefinition (cs : List Child) :
    Value.pick .scenarioDefinition Value.child? (cs.map Child.value) =
      cs.filter fun c => c.background?.isNone := by
  induction cs with
  | nil => rfl
  | cons c cs ih => cases c <;> simp [Child.value, Value.child?, List.filter_cons, ih]

namespace Feature

/-- The line of a feature. -/
def line (f : Feature) : Token :=
  { Token.line .featureLine f.location f.keyword f.name with dialect := some f.language }

/-- The frame of the header of a feature. -/
def header (f : Feature) : Frame Value :=
  .ofContents .featureHeader [f.line] (Tag.values f.tags ++ Text.values f.description)

variable {f : Feature}

/-- The header of a feature is kept as a frame. -/
theorem header_yields (h : f.WellFormed) :
    Yields [.node .featureHeader (Tag.forest f.tags ++ .token f.line :: Text.forest f.description)]
      [] [(.featureHeader, .frame f.header)] :=
  .node Rule.noConfusion ((Tag.yields f.tags).append (.token_cons rfl (Text.yields h.description)))
    fun _ => rfl

/-- The value of the tree of a feature is the feature. -/
theorem yields (h : f.WellFormed) : Yields [f.tree] [] [(.feature, .feature (.ok f))] := by
  have hchildren : Yields (f.children.map Child.tree) [] (f.children.map Child.value) :=
    .map fun c hc => c.yields (h.children c hc)
  have hparts : Yields _ [] ((.featureHeader, .frame f.header) :: f.children.map Child.value) :=
    (header_yields h).append hchildren
  refine hparts.node Rule.noConfusion fun cs => ?_
  have hf := hparts.sound .feature
  -- From here on only what is read of the frame counts.
  generalize hframe : Frame.ofContents .feature []
    ((.featureHeader, .frame f.header) :: f.children.map Child.value) = k at hf
  have hheader : k.first? .featureHeader Value.frame? = some f.header := by
    simp [← hframe, Frame.first?_ofContents, Value.frame?]
  have hhelper : f.header.children.get .descriptionHelper = [] := by
    simp [header, Frame.children_get_eq_pick]
  have htags : f.header.tagsOf = f.tags := Frame.tagsOf_ofContents (by simp)
  have hdescription : f.header.descriptionOf = f.description :=
    Frame.descriptionOf_ofContents (by simp)
  have hbackground : k.first? .background Value.background? = f.background? := by
    rw [← hframe, Frame.first?_ofContents, Value.pick_cons, Value.pick_background]
    simp [background?, List.head?_filterMap]
  have hscenarios : k.all .scenarioDefinition Value.child? = f.scenarios := by
    rw [← hframe, Frame.all_ofContents, Value.pick_cons, Value.pick_scenarioDefinition]
    rfl
  have hread : k.feature = .ok (.ok f) := by
    rw [hf.feature_eq hheader rfl rfl hhelper, htags, hdescription, hbackground, hscenarios,
      ← f.children_eq_of_background_first h.background_first]
    rfl
  have hrule : k.rule = .feature := by
    rw [← hframe]
    rfl
  simp only [Frame.conclude, hrule, hread]
  rfl

end Feature

namespace Document

/-- Comments wait for the document. -/
theorem values_comments (comments : List Comment) (waiting : Array Comment) :
    Forest.values waiting (comments.map Comment.tree) =
      .ok ([], waiting ++ comments.toArray) := by
  induction comments generalizing waiting with
  | nil => simp [Forest.values_nil]
  | cons c comments ih =>
    rw [List.map_cons, Comment.tree, Forest.values_token_cons, ih]
    simp [Token.addComment, TokenKind.isComment, Comment.ofToken]

/-- The value of the tree of a well-formed document is the document. -/
theorem values_tree {d : Document} (h : d.WellFormed) :
    Forest.values #[] [d.tree] = .ok ([(.document, .document d)], #[]) := by
  obtain ⟨feature, comments⟩ := d
  have hfeature : Yields (feature.map Feature.tree).toList []
      (feature.map fun f => (Rule.feature, Value.feature (.ok f))).toList := by
    cases feature with
    | none => exact .nil
    | some f => exact f.yields (h f rfl)
  have hinner := Forest.values_append (values_comments comments #[]) (hfeature.values _)
  rw [List.nil_append, Array.empty_append] at hinner
  refine Forest.values_node_cons_eq_ok_iff.mpr
    ⟨_, _, .document ⟨feature, comments⟩, [], hinner, ?_, Forest.values_nil, rfl⟩
  cases feature <;> rfl

end Document

/-! ### Runs -/

namespace Assembly

/-- **Round trip.** A run on the events of a well-formed document gives the document. -/
theorem replay_events_of_wellFormed {d : Document} (h : d.WellFormed) (s : Assembly) :
    (handler.replay d.events s).1 = .ok d := by
  have hevents : d.events = Forest.events [d.tree] := by
    rw [Forest.events_cons, Forest.events_nil, List.append_nil, Document.events]
  rw [hevents, replay_events_of_ok (d.values_tree h)]
  rfl

/-- A document with a background, a scenario and an outline, two tables, and a row without a column
of its own. -/
def outlineDocument : Document :=
  let step (a : Option Argument) : Step := ⟨⟨4, 5⟩, "* ", "go", a⟩
  let table : DataTable := ⟨[⟨⟨5, 0⟩, [⟨⟨5, 0⟩, "a"⟩, ⟨⟨5, 9⟩, "b"⟩]⟩]⟩
  let examples : Examples := ⟨[⟨⟨8, 1⟩, "@e"⟩], ⟨9, 5⟩, "Examples", "", "",
    some ⟨⟨10, 5⟩, [⟨⟨10, 7⟩, "n"⟩]⟩, some [⟨⟨11, 5⟩, [⟨⟨11, 7⟩, "1"⟩]⟩]⟩
  ⟨some ⟨[⟨⟨1, 1⟩, "@f"⟩, ⟨⟨1, 4⟩, "@g"⟩], ⟨2, 1⟩, "en", "Feature", "Going", " far\n\n away",
      [.background ⟨⟨3, 3⟩, "Background", "", "", [step none, step (some (.dataTable table))]⟩,
        .scenario [] ⟨⟨6, 3⟩, "Example", "", "",
          [step (some (.docString ⟨⟨7, 5⟩, none, "x\ny"⟩))]⟩,
        .outline [] ⟨⟨6, 3⟩, "Scenario Outline", "", "", []⟩ [examples]]⟩,
    [⟨⟨12, 1⟩, "# end"⟩]⟩

theorem replay_outlineDocument_events : outlineDocument.WellFormed ∧
    (handler.replay outlineDocument.events .empty).1 = .ok outlineDocument := by
  have h : outlineDocument.WellFormed := by decide
  exact ⟨h, replay_events_of_wellFormed h .empty⟩

end Assembly

end Gherkin
