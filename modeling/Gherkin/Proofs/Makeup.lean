import Gherkin.Proofs.KeptLines
import Gherkin.Proofs.Nesting
import Mathlib.Data.List.Forall2

/-!
# What the parts of a document are made of

Each part of a document is made of what stands in one rule, and it can be said for every part, from
the inside of a document to the outside, what it takes from where: a line or a rule that is the
first of its sort, all rules of one sort in their order, or what stands in another rule. Nothing of
this mentions frames. What is said of a part leaves nothing of it open, so two parts that are made
of the same are equal.

## Main definitions

* `Gherkin.Forest.line?`, `Gherkin.Forest.first?` : the first line of a kind, and what stands in
  the first rule of a sort.
* `Gherkin.Forest.rows`, `Gherkin.Forest.tags`, `Gherkin.Forest.Describes` : the rows of a table,
  the tags and the description of what stands in a rule.
* `Gherkin.DocString.MadeOf`, `Gherkin.Step.MadeOf`, `Gherkin.Block.MadeOf`,
  `Gherkin.Examples.MadeOf`, `Gherkin.Child.MadeOf`, `Gherkin.Feature.MadeOf` : what the parts of a
  document are made of.

## Main results

* `Gherkin.Step.MadeOf.unique`, `Gherkin.Child.MadeOf.unique`, `Gherkin.Feature.MadeOf.unique` and
  their like : parts that are made of the same are equal.
-/

namespace Gherkin

/-! ### Lines and rules -/

/-- Where a fragment of a line is: in the line, at its own column, or at that of the line where it
has none. -/
def Token.place (t : Token) (s : Span) : Location :=
  ⟨t.location.line, if s.column = 0 then t.location.column else s.column⟩

/-- The place, the keyword and the name of a part are those of a line. -/
structure Token.Heads (t : Token) (location : Location) (keyword name : String) : Prop where
  location : location = t.location
  /-- A line without a keyword gives an empty one. -/
  keyword : keyword = t.keyword.getD ""
  name : name = t.text

namespace Forest

/-- The first line of the kind `k` directly in a forest. -/
def line? (k : TokenKind) (ts : Forest) : Option Token := (lines k ts).head?

/-- What stands in the first rule `r` directly in a forest. -/
def first? (r : Rule) (ts : Forest) : Option Forest := (under r ts).head?

/-- The rows of a table, one for each line, with a cell for each of its fragments. -/
def rows (ts : Forest) : List Row :=
  (lines .tableRow ts).map fun t => ⟨t.location, t.items.map fun s => ⟨t.place s, s.text⟩⟩

/-- The tags in the first list of tags of a rule, line by line, one for each fragment. -/
def tags (ts : Forest) : List Tag :=
  match first? .tags ts with
  | none => []
  | some inner => (lines .tagLine inner).flatMap fun t => t.items.map fun s => ⟨t.place s, s.text⟩

/-- The text of what stands in a description: its lines up to the last that is not blank. -/
def Says (ts : Forest) (text : String) : Prop :=
  ∃ kept, Text.Kept ((lines .other ts).map Token.text) kept ∧ text = "\n".intercalate kept

/-- The text of the first description in a rule, which is empty where there is none. -/
def Describes (ts : Forest) (text : String) : Prop :=
  match first? .description ts with
  | none => text = ""
  | some inner => inner.Says text

end Forest

open Forest

/-! ### Steps and blocks -/

/-- A doc string is opened by its first fence, whatever stands before that or after it, and has all
its lines. -/
structure DocString.MadeOf (s : DocString) (ts : Forest) : Prop where
  fence : ∃ fence, line? .docStringSeparator ts = some fence ∧ s.location = fence.location ∧
    s.contentType = if fence.text = "" then none else some fence.text
  content : s.content = "\n".intercalate ((lines .other ts).map Token.text)

/-- A step is given its first table. Only where it has no table it is given its first doc string,
and where it has neither nothing. -/
inductive Argument.MadeOf : Option Argument → Forest → Prop
  | dataTable {ts inner : Forest} {t : DataTable} (hfirst : first? .dataTable ts = some inner)
      (ht : t.rows = inner.rows) : MadeOf (some (.dataTable t)) ts
  | docString {ts inner : Forest} {s : DocString} (hnone : first? .dataTable ts = none)
      (hfirst : first? .docString ts = some inner) (hs : s.MadeOf inner) :
      MadeOf (some (.docString s)) ts
  | none {ts : Forest} (htable : first? .dataTable ts = none)
      (hstring : first? .docString ts = none) : MadeOf none ts

/-- A step is made of its first line, and of what it is given. -/
structure Step.MadeOf (s : Step) (ts : Forest) : Prop where
  line : ∃ line, line? .stepLine ts = some line ∧ line.Heads s.location s.keyword s.text
  argument : Argument.MadeOf s.argument ts

/-- A block is made of its first line of the kind `k`, of its description, and of its steps, one for
each rule of a step. -/
structure Block.MadeOf (b : Block) (k : TokenKind) (ts : Forest) : Prop where
  line : ∃ line, line? k ts = some line ∧ line.Heads b.location b.keyword b.name
  description : ts.Describes b.description
  steps : List.Forall₂ Step.MadeOf b.steps (under .step ts)

/-! ### Examples, scenarios and outlines -/

/-- The rows of the first table in a rule, none where there is no table. -/
def Forest.tableRows (ts : Forest) : List Row := ((first? .examplesTable ts).map rows).getD []

/-- A block of examples has the tags of its definition; all else stands in the first rule of
examples there. Its header and its other rows are the rows of the table, and it has both or, where
there is no row, neither. -/
structure Examples.MadeOf (e : Examples) (ts : Forest) : Prop where
  tags : e.tags = ts.tags
  inner : ∃ inner, first? .examples ts = some inner ∧
    (∃ line, line? .examplesLine inner = some line ∧ line.Heads e.location e.keyword e.name) ∧
    inner.Describes e.description ∧
    e.header.toList ++ e.body.getD [] = inner.tableRows ∧
    (e.header = none ↔ inner.tableRows = []) ∧ (e.body = none ↔ inner.tableRows = [])

/-- A scenario definition becomes its first scenario. Only where it has no scenario it becomes its
first outline, with the examples in it. The tags are its own in either case. -/
inductive Child.MadeOf : Child → Forest → Prop
  | scenario {ts inner : Forest} {b : Block} (hfirst : first? .scenario ts = some inner)
      (hb : b.MadeOf .scenarioLine inner) : MadeOf (.scenario ts.tags b) ts
  | outline {ts inner : Forest} {b : Block} {es : List Examples}
      (hnone : first? .scenario ts = none) (hfirst : first? .outline ts = some inner)
      (hb : b.MadeOf .outlineLine inner)
      (hes : List.Forall₂ Examples.MadeOf es (under .examplesDefinition inner)) :
      MadeOf (.outline ts.tags b es) ts

/-! ### Features -/

/-- The children of a feature are its first background, if it has one, and then its scenarios and
outlines, one for each definition. -/
def Feature.ChildrenMadeOf (children : List Child) (ts : Forest) : Prop :=
  ∃ background scenarios, children = (background.map Child.background).toList ++ scenarios ∧
    Option.Rel (fun b inner => b.MadeOf .backgroundLine inner) background (first? .background ts) ∧
    List.Forall₂ Child.MadeOf scenarios (under .scenarioDefinition ts)

/-- The line, the tags and the description of a feature are those of its header, or stand in the
feature itself where it has no header. -/
structure Feature.MadeOf (f : Feature) (ts : Forest) : Prop where
  line : ∃ line, line? .featureLine (header ts).2 = some line ∧ line.dialect = some f.language ∧
    line.Heads f.location f.keyword f.name
  tags : f.tags = (header ts).2.tags
  description : (header ts).2.Describes f.description
  children : ChildrenMadeOf f.children ts

/-! ### Parts that are made of the same -/

/-- A line heads one part. -/
theorem Token.Heads.unique {t : Token} {location location' : Location}
    {keyword keyword' name name' : String} (h : t.Heads location keyword name)
    (h' : t.Heads location' keyword' name') :
    location = location' ∧ keyword = keyword' ∧ name = name' :=
  ⟨h.location.trans h'.location.symm, h.keyword.trans h'.keyword.symm, h.name.trans h'.name.symm⟩

theorem Forest.Says.unique {ts : Forest} {text text' : String} (h : ts.Says text)
    (h' : ts.Says text') : text = text' := by
  obtain ⟨kept, hkept, rfl⟩ := h
  obtain ⟨kept', hkept', rfl⟩ := h'
  rw [hkept.unique hkept']

theorem Forest.Describes.unique {ts : Forest} {text text' : String} (h : ts.Describes text)
    (h' : ts.Describes text') : text = text' := by
  unfold Describes at h h'
  cases hfirst : first? .description ts with
  | none =>
    rw [hfirst] at h h'
    exact h.trans h'.symm
  | some inner =>
    rw [hfirst] at h h'
    exact h.unique h'

theorem DocString.MadeOf.unique {s t : DocString} {ts : Forest} (hs : s.MadeOf ts)
    (ht : t.MadeOf ts) : s = t := by
  obtain ⟨fence, hfence, hlocation, htype⟩ := hs.fence
  obtain ⟨fence', hfence', hlocation', htype'⟩ := ht.fence
  obtain rfl : fence = fence' := Option.some.inj (hfence.symm.trans hfence')
  have hcontent := hs.content.trans ht.content.symm
  cases s
  cases t
  simp_all

theorem Argument.MadeOf.unique {a b : Option Argument} {ts : Forest} (ha : MadeOf a ts)
    (hb : MadeOf b ts) : a = b := by
  cases ha with
  | @dataTable ts inner t hfirst ht =>
    cases hb with
    | @dataTable ts inner' u hfirst' hu =>
      obtain rfl : inner = inner' := Option.some.inj (hfirst.symm.trans hfirst')
      cases t
      cases u
      simp_all
    | docString hnone _ _ => simp [hnone] at hfirst
    | none htable _ => simp [htable] at hfirst
  | @docString ts inner s hnone hfirst hs =>
    cases hb with
    | dataTable hfirst' _ => simp [hnone] at hfirst'
    | @docString ts inner' u _ hfirst' hu =>
      obtain rfl : inner = inner' := Option.some.inj (hfirst.symm.trans hfirst')
      rw [hs.unique hu]
    | none _ hstring => simp [hstring] at hfirst
  | none htable hstring =>
    cases hb with
    | dataTable hfirst _ => simp [htable] at hfirst
    | docString _ hfirst _ => simp [hstring] at hfirst
    | none _ _ => rfl

theorem Step.MadeOf.unique {s t : Step} {ts : Forest} (hs : s.MadeOf ts) (ht : t.MadeOf ts) :
    s = t := by
  obtain ⟨line, hline, hheads⟩ := hs.line
  obtain ⟨line', hline', hheads'⟩ := ht.line
  obtain rfl : line = line' := Option.some.inj (hline.symm.trans hline')
  have hargument := hs.argument.unique ht.argument
  have hheads := hheads.unique hheads'
  cases s
  cases t
  simp_all

theorem Block.MadeOf.unique {b c : Block} {k : TokenKind} {ts : Forest} (hb : b.MadeOf k ts)
    (hc : c.MadeOf k ts) : b = c := by
  obtain ⟨line, hline, hheads⟩ := hb.line
  obtain ⟨line', hline', hheads'⟩ := hc.line
  obtain rfl : line = line' := Option.some.inj (hline.symm.trans hline')
  have hsteps := List.left_unique_forall₂' (R := Step.MadeOf) (fun _ _ _ => Step.MadeOf.unique)
    hb.steps hc.steps
  have hdescription := hb.description.unique hc.description
  have hheads := hheads.unique hheads'
  cases b
  cases c
  simp_all

/-- A header and other rows are settled by the rows that they are together, and by which of them
there are. -/
theorem Examples.eq_of_rows_eq {header header' : Option Row} {body body' : Option (List Row)}
    (hrows : header.toList ++ body.getD [] = header'.toList ++ body'.getD [])
    (hheader : header = none ↔ header' = none) (hbody : body = none ↔ body' = none) :
    header = header' ∧ body = body' := by
  cases header <;> cases header' <;> cases body <;> cases body' <;> simp_all

theorem Examples.MadeOf.unique {e f : Examples} {ts : Forest} (he : e.MadeOf ts)
    (hf : f.MadeOf ts) : e = f := by
  have htags := he.tags.trans hf.tags.symm
  obtain ⟨inner, hfirst, ⟨line, hline, hheads⟩, htext, hrows, hheader, hbody⟩ := he.inner
  obtain ⟨inner', hfirst', ⟨line', hline', hheads'⟩, htext', hrows', hheader', hbody'⟩ := hf.inner
  obtain rfl : inner = inner' := Option.some.inj (hfirst.symm.trans hfirst')
  obtain rfl : line = line' := Option.some.inj (hline.symm.trans hline')
  have hdescription := htext.unique htext'
  have hheads := hheads.unique hheads'
  have htable := Examples.eq_of_rows_eq (hrows.trans hrows'.symm) (hheader.trans hheader'.symm)
    (hbody.trans hbody'.symm)
  cases e
  cases f
  simp_all

theorem Child.MadeOf.unique {c d : Child} {ts : Forest} (hc : c.MadeOf ts) (hd : d.MadeOf ts) :
    c = d := by
  cases hc with
  | @scenario ts inner b hfirst hb =>
    cases hd with
    | @scenario ts inner' b' hfirst' hb' =>
      obtain rfl : inner = inner' := Option.some.inj (hfirst.symm.trans hfirst')
      rw [hb.unique hb']
    | outline hnone _ _ _ => simp [hnone] at hfirst
  | @outline ts inner b es hnone hfirst hb hes =>
    cases hd with
    | scenario hfirst' _ => simp [hnone] at hfirst'
    | @outline ts inner' b' es' _ hfirst' hb' hes' =>
      obtain rfl : inner = inner' := Option.some.inj (hfirst.symm.trans hfirst')
      have hexamples := List.left_unique_forall₂' (R := Examples.MadeOf)
        (fun _ _ _ => Examples.MadeOf.unique) hes hes'
      rw [hb.unique hb', hexamples]

theorem Feature.ChildrenMadeOf.unique {cs ds : List Child} {ts : Forest}
    (hc : ChildrenMadeOf cs ts) (hd : ChildrenMadeOf ds ts) : cs = ds := by
  obtain ⟨b, scenarios, rfl, hb, hs⟩ := hc
  obtain ⟨b', scenarios', rfl, hb', hs'⟩ := hd
  have hscenarios :=
    List.left_unique_forall₂' (R := Child.MadeOf) (fun _ _ _ => Child.MadeOf.unique) hs hs'
  have hbackground : b = b' := by
    generalize first? .background ts = inner at hb hb'
    cases hb with
    | none =>
      cases hb'
      rfl
    | some h =>
      cases hb' with
      | some h' => rw [h.unique h']
  rw [hbackground, hscenarios]

theorem Feature.MadeOf.unique {f g : Feature} {ts : Forest} (hf : f.MadeOf ts)
    (hg : g.MadeOf ts) : f = g := by
  obtain ⟨line, hline, hlanguage, hheads⟩ := hf.line
  obtain ⟨line', hline', hlanguage', hheads'⟩ := hg.line
  obtain rfl : line = line' := Option.some.inj (hline.symm.trans hline')
  have htags := hf.tags.trans hg.tags.symm
  have hdescription := hf.description.unique hg.description
  have hchildren := hf.children.unique hg.children
  have hheads := hheads.unique hheads'
  cases f
  cases g
  simp_all

end Gherkin
