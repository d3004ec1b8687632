import Gherkin.Proofs.Forest

/-!
# Readings of sound frames

Where nothing is wrong with a sound frame, its reading is a plain expression in the first line of a
kind and the children from a rule. In a frame with known contents these are found by filtering the
contents.

## Main definitions

* `Gherkin.Frame.tagsOf`, `Gherkin.Frame.descriptionOf` : the tags and the description in a frame.
* `Gherkin.Value.pick` : the values from a rule among the contents of a frame.

## Main results

* `Gherkin.Frame.Sound.block_eq`, `Gherkin.Frame.Sound.feature_eq` and their like : what a sound
  frame is read as.
* `Gherkin.Frame.first?_ofContents`, `Gherkin.Frame.all_ofContents` : the children of a frame with
  known contents.
-/

namespace Gherkin

namespace Frame

variable {f : Frame Value}

theorem token_eq_ok {k : TokenKind} {t : Token} (h : f.token? k = some t) : f.token k = .ok t := by
  rw [token, h]

theorem forbid_eq_ok {r : Rule} (h : f.children.get r = []) : f.forbid r = .ok () := by
  rw [forbid, h]
  rfl

/-- The tags in a frame, none where it has no child from their rule. -/
def tagsOf (f : Frame Value) : List Tag :=
  ((f.first? .tags Value.frame?).map fun g =>
    (g.tokens.get .tagLine).flatMap Tag.ofToken).getD []

/-- The text of the description in a frame. -/
def descriptionOf (f : Frame Value) : String :=
  (f.first? .description Value.description?).getD ""

namespace Sound

variable (hf : f.Sound)

include hf

theorem tags_eq : f.tags = .ok f.tagsOf := by
  rw [Frame.tags, hf.child?_eq .tags, tagsOf]
  cases f.first? .tags Value.frame? <;> rfl

theorem description_eq (h : f.children.get .descriptionHelper = []) :
    f.description = .ok f.descriptionOf := by
  rw [Frame.description, forbid_eq_ok h, hf.child?_eq .description]
  rfl

theorem block_eq {k : TokenKind} {line : Token} (hline : f.token? k = some line)
    (h : f.children.get .descriptionHelper = []) :
    f.block k = .ok (.ofLine line f.descriptionOf (f.all .step Value.step?)) := by
  rw [Frame.block, token_eq_ok hline, hf.description_eq h, hf.childrenOf_eq .step]
  rfl

theorem outline_eq {block : Block} (h : f.block .outlineLine = .ok block) :
    f.outline = .ok (block, f.all .examplesDefinition Value.examples?) := by
  rw [Frame.outline, h, hf.childrenOf_eq .examplesDefinition]
  rfl

theorem scenarioDefinition_eq {child : List Tag → Child}
    (h : (f.first? .scenario Value.tagged? <|> f.first? .outline Value.tagged?) = some child) :
    f.scenarioDefinition = .ok (child f.tagsOf) := by
  rw [Frame.scenarioDefinition, hf.tags_eq, hf.child?_eq .scenario, hf.child?_eq .outline]
  simp only [Except.ok_bind, h]
  rfl

theorem examplesDefinition_eq {g : Frame Value} (hg : f.first? .examples Value.frame? = some g)
    {line : Token} (hline : g.token? .examplesLine = some line)
    (h : g.children.get .descriptionHelper = []) :
    f.examplesDefinition = .ok {
      tags := f.tagsOf
      location := line.location
      keyword := line.keywordText
      name := line.text
      description := g.descriptionOf
      header := ((g.first? .examplesTable Value.rows?).getD []).head?
      body := ((g.first? .examplesTable Value.rows?).getD []).tail? } := by
  have hgs : g.Sound := hf.of_first?_eq_some .examples hg
  rw [Frame.examplesDefinition, Frame.child, hf.tags_eq, hf.child?_eq .examples, hg]
  simp only [Except.ok_bind, token_eq_ok hline, hgs.description_eq h, hgs.child?_eq .examplesTable]
  rfl

theorem feature_eq {g : Frame Value} (hg : f.first? .featureHeader Value.frame? = some g)
    {line : Token} (hline : g.token? .featureLine = some line)
    {language : String} (hlanguage : line.dialect = some language)
    (h : g.children.get .descriptionHelper = []) :
    f.feature = .ok (.ok {
      tags := g.tagsOf
      location := line.location
      language
      keyword := line.keywordText
      name := line.text
      description := g.descriptionOf
      children := ((f.first? .background Value.background?).map Child.background).toList ++
        f.all .scenarioDefinition Value.child? }) := by
  have hgs : g.Sound := hf.of_first?_eq_some .featureHeader hg
  rw [Frame.feature, hf.child?_eq .background, hf.childrenOf_eq .scenarioDefinition,
    hf.child?_eq .featureHeader, hg]
  simp only [Except.ok_bind, Option.getD_some, hline, hlanguage, hgs.tags_eq, hgs.description_eq h]
  rfl

end Sound

end Frame

/-! ### Known contents -/

/-- The values from the rule `q`, of the sort that `as?` looks for. -/
def Value.pick {β : Type} (q : Rule) (as? : Value → Option β) (vs : List (Rule × Value)) :
    List β :=
  vs.filterMap fun p => if p.1 = q then as? p.2 else none

namespace Value

variable {α β : Type} (q r : Rule) (as? : Value → Option β)

@[simp]
theorem pick_nil : pick q as? [] = [] := rfl

@[simp]
theorem pick_append (vs ws : List (Rule × Value)) :
    pick q as? (vs ++ ws) = pick q as? vs ++ pick q as? ws :=
  List.filterMap_append

@[simp]
theorem pick_cons (p : Rule × Value) (vs : List (Rule × Value)) :
    pick q as? (p :: vs) = (if p.1 = q then as? p.2 else none).toList ++ pick q as? vs := by
  rw [pick, List.filterMap_cons]
  cases if p.1 = q then as? p.2 else none <;> rfl

/-- Parts that come from one rule are found again in order. -/
theorem pick_map {as? : Value → Option α} {value : α → Value} (h : ∀ a, as? (value a) = some a)
    (parts : List α) : pick r as? (parts.map fun a => (r, value a)) = parts := by
  induction parts with
  | nil => rfl
  | cons a parts ih =>
    rw [List.map_cons, pick_cons, ih, if_pos rfl, h]
    rfl

/-- Parts that come from another rule are passed over. -/
@[simp]
theorem pick_map_of_ne (h : r ≠ q) (value : α → Value) (parts : List α) :
    pick q as? (parts.map fun a => (r, value a)) = [] := by
  induction parts with
  | nil => rfl
  | cons a parts ih =>
    rw [List.map_cons, pick_cons, ih, if_neg h]
    rfl

end Value

namespace Frame

variable (r q : Rule) (us : List Token) (vs : List (Rule × Value)) {β : Type}
  (as? : Value → Option β)

theorem all_ofContents : (ofContents r us vs).all q as? = Value.pick q as? vs := by
  rw [all, children_get_ofContents, List.filterMap_filterMap, Value.pick]
  congr 1
  funext p
  split <;> rfl

theorem first?_ofContents : (ofContents r us vs).first? q as? = (Value.pick q as? vs).head? := by
  rw [first?, all_ofContents]

theorem children_get_eq_pick : (ofContents r us vs).children.get q = Value.pick q some vs :=
  children_get_ofContents r us vs q

/-- A frame that holds lines of one kind only gives them all back. -/
theorem tokens_get_ofContents_self {k : TokenKind} (hk : k ≠ .comment)
    (h : ∀ t ∈ us, t.kind = k) : (ofContents r us vs).tokens.get k = us := by
  rw [tokens_get_ofContents_of_ne _ _ _ hk, List.filter_eq_self]
  intro t ht
  exact decide_eq_true (h t ht)

end Frame

end Gherkin
