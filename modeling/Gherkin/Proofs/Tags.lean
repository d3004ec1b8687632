import Gherkin.Proofs.ScenarioBlocks
import Gherkin.Proofs.TableRows
import Mathlib.Algebra.GroupWithZero.Nat

/-!
# Tags

Scenarios, outlines, examples and features have their tags in the same way. The tags stand in a rule
of their own, the first of its sort in the rule that is tagged, or in the heading of a feature; they
are those of all lines directly in it, one for each fragment. Lines of tags beside that rule count
for nothing, and neither do those of tags further inside or of tags that come later.

## Main definitions

* `Gherkin.Rule.IsTagged`, `Gherkin.Value.tags?` : what has tags, and the tags that it has.
* `Gherkin.Forest.heading` : where the tags of a rule are looked for.
* `Gherkin.Forest.TagLines` : the lines whose tags are taken.

## Main results

* `Gherkin.Forest.exists_tagLines` : the tags of a rule are those of such lines.
* `Gherkin.Assembly.tags_of_lines` : the tags of all that has tags.
-/

namespace Gherkin

open Forest

/-! ### What has tags -/

/-- A rule that becomes something with tags. -/
def Rule.IsTagged (r : Rule) : Prop :=
  r = .scenarioDefinition ∨ r = .examplesDefinition ∨ r = .feature

/-- The tags of a value. A feature that came to nothing has none, not even an empty list. -/
def Value.tags? : Value → Option (List Tag)
  | child c => some c.tags
  | examples e => some e.tags
  | feature (.ok f) => some f.tags
  | _ => none

/-- Where the tags of the rule `r` are looked for: in the header of a feature that has one, and
otherwise in the rule itself. -/
def Forest.heading (r : Rule) (ts : Forest) : Forest := if r = .feature then (header ts).2 else ts

/-! ### The lines that count -/

/-- The lines whose tags are taken are those directly in the first rule of tags. -/
inductive Forest.TagLines : Forest → List Token → Prop
  | none {ts : Forest} (h : under .tags ts = []) : TagLines ts []
  | first {before inner after : Forest} (h : under .tags before = []) :
      TagLines (before ++ .node .tags inner :: after) (lines .tagLine inner)

theorem Tree.eq_node_of_under? {r : Rule} {t : Tree} {inner : Forest}
    (h : t.under? r = some inner) : t = .node r inner := by
  cases t with
  | token _ => cases h
  | node q ts =>
    obtain ⟨rfl, rfl⟩ : q = r ∧ ts = inner := by simpa [under?] using h
    rfl

namespace Forest

variable {r : Rule} {ts inner : Forest}

/-- What stands before the first rule of a sort, and what comes after it. -/
theorem exists_eq_of_first? (h : first? r ts = some inner) :
    ∃ before after, ts = before ++ .node r inner :: after ∧ under r before = [] := by
  obtain ⟨rest, hunder⟩ := List.head?_eq_some_iff.mp h
  obtain ⟨before, t, after, rfl, hbefore, ht, -⟩ := List.filterMap_eq_cons_iff.mp hunder
  obtain rfl := Tree.eq_node_of_under? ht
  exact ⟨before, after, rfl, List.filterMap_eq_nil_iff.mpr hbefore⟩

/-- The tags in a rule are those of the lines that count, one for each fragment. -/
theorem exists_tagLines (ts : Forest) :
    ∃ ls, ts.TagLines ls ∧
      ts.tags = ls.flatMap fun t => t.items.map fun s => ⟨t.place s, s.text⟩ := by
  rw [tags]
  cases hfirst : first? .tags ts with
  | none => exact ⟨[], .none (List.head?_eq_none_iff.mp hfirst), rfl⟩
  | some inner =>
    obtain ⟨before, after, rfl, hbefore⟩ := exists_eq_of_first? hfirst
    exact ⟨_, .first hbefore, rfl⟩

end Forest

/-! ### Parts with tags -/

theorem Child.MadeOf.tags {c : Child} {ts : Forest} (hc : c.MadeOf ts) : c.tags = ts.tags := by
  cases hc <;> rfl

namespace Assembly

variable {cs : List Call} {v : Value}

/-- What becomes of a tagged rule has the tags in its heading, unless it is a feature that comes to
nothing. -/
theorem tags?_of_leave {r : Rule} (hr : r.IsTagged) (hv : ((ofCalls cs).leave r).1 = .ok v) :
    (∃ a, v = .feature (.error a)) ∧ v.tags? = none ∨
      v.tags? = some ((Nesting.ofCalls cs).here.heading r).tags := by
  obtain rfl | rfl | rfl := hr
  · obtain ⟨c, rfl, hc⟩ := gives_child.of_leave .scenarioDefinition hv
    exact .inr (congrArg some hc.tags)
  · obtain ⟨e, rfl, he⟩ := gives_examples.of_leave .examplesDefinition hv
    exact .inr (congrArg some he.tags)
  · obtain ⟨x, rfl, -, hx⟩ := gives_feature.of_leave .feature hv
    cases x with
    | error a => exact .inl ⟨⟨a, rfl⟩, rfl⟩
    | ok f => exact .inr (congrArg some (hx f rfl).tags)

/-- **Tags.** What becomes of a tagged rule that is left after any calls has tags, unless it is a
feature that comes to nothing. They are those of the lines in the first rule of tags in its heading,
line by line and one for each fragment, so there are as many as the lines have fragments. -/
theorem tags_of_lines :
    ∀ r cs v, r.IsTagged → ((ofCalls cs).leave r).1 = .ok v →
      (v.tags? = none ↔ ∃ a, v = .feature (.error a)) ∧
      ∀ tags, v.tags? = some tags →
        ∃ ls, ((Nesting.ofCalls cs).here.heading r).TagLines ls ∧
          (tags = ls.flatMap fun t => t.items.map fun s =>
            ⟨⟨t.location.line, if s.column = 0 then t.location.column else s.column⟩, s.text⟩) ∧
          tags.length = (ls.map fun t => t.items.length).sum := by
  intro r cs v hr hv
  refine ⟨?_, fun tags htags => ?_⟩
  · constructor
    · intro hnone
      rcases tags?_of_leave hr hv with ⟨habsent, -⟩ | hsome
      · exact habsent
      · rw [hnone] at hsome
        cases hsome
    · rintro ⟨a, rfl⟩
      rfl
  · obtain ⟨ls, hls, heq⟩ := ((Nesting.ofCalls cs).here.heading r).exists_tagLines
    have hflat : tags = ls.flatMap fun t => t.items.map fun s => ⟨t.place s, s.text⟩ := by
      rcases tags?_of_leave hr hv with ⟨-, hnone⟩ | hsome
      · rw [htags] at hnone
        cases hnone
      · rw [← heq, ← Option.some.injEq, ← htags, hsome]
    refine ⟨ls, hls, hflat, ?_⟩
    rw [hflat, List.length_flatMap]
    simp only [List.length_map]

/-- Calls up to the end of a tagged rule: a line of tags, a rule with tags further inside, tags of
two lines with other tags between them, more tags, and what the rule needs. -/
def callsOfTagged (r : Rule) (needs : List Event) : List Call :=
  let line (items : List Span) : Event := .token { kind := .tagLine, location := ⟨1, 3⟩, items }
  let inside (r : Rule) (es : List Event) : List Event := .enter r :: (es ++ [.leave r])
  (.enter r :: line [⟨3, "@a"⟩] :: (inside .stepArgument (inside .tags [line [⟨3, "@b"⟩]]) ++
    inside .tags (line [⟨3, "@c"⟩, ⟨0, "@d"⟩] :: inside .tags [line [⟨3, "@e"⟩]] ++
      [line [], line [⟨9, "@c"⟩]]) ++
    inside .tags [line [⟨3, "@f"⟩]] ++ needs)).map .event

/-- The tags that count in these calls. -/
def tagsOfTagged : List Tag := [⟨⟨1, 3⟩, "@c"⟩, ⟨⟨1, 3⟩, "@d"⟩, ⟨⟨1, 9⟩, "@c"⟩]

theorem tags_of_callsOfTagged :
    let token (kind : TokenKind) : Event :=
      .token { kind, location := ⟨2, 1⟩, dialect := some "en" }
    let outline :=
      callsOfTagged .scenarioDefinition [.enter .outline, token .outlineLine, .leave .outline]
    let examples :=
      callsOfTagged .examplesDefinition [.enter .examples, token .examplesLine, .leave .examples]
    let feature := callsOfTagged .feature [token .featureLine]
    ∃ c e f,
      ((ofCalls outline).leave .scenarioDefinition).1 = .ok (.child c) ∧ c.tags = tagsOfTagged ∧
      ((ofCalls examples).leave .examplesDefinition).1 = .ok (.examples e) ∧
      e.tags = tagsOfTagged ∧
      ((ofCalls feature).leave .feature).1 = .ok (.feature (.ok f)) ∧ f.tags = tagsOfTagged ∧
      ∃ ls, ((Nesting.ofCalls feature).here.heading .feature).TagLines ls ∧
        tagsOfTagged.length = (ls.map fun t => t.items.length).sum := by
  intro token outline examples feature
  let c : Child := .outline tagsOfTagged ⟨⟨2, 1⟩, "", "", "", []⟩ []
  let e : Examples := ⟨tagsOfTagged, ⟨2, 1⟩, "", "", "", none, none⟩
  let f : Feature := ⟨tagsOfTagged, ⟨2, 1⟩, "en", "", "", "", []⟩
  have hc : ((ofCalls outline).leave .scenarioDefinition).1 = .ok (.child c) := by rfl
  have he : ((ofCalls examples).leave .examplesDefinition).1 = .ok (.examples e) := by rfl
  have hf : ((ofCalls feature).leave .feature).1 = .ok (.feature (.ok f)) := by rfl
  obtain ⟨ls, hls, -, hlength⟩ :=
    (tags_of_lines .feature feature _ (.inr (.inr rfl)) hf).2 tagsOfTagged rfl
  exact ⟨c, e, f, hc, rfl, he, rfl, hf, rfl, ls, hls, hlength⟩

end Assembly

end Gherkin
