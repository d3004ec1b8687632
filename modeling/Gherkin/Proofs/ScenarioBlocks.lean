import Gherkin.Proofs.Composition

/-!
# Scenarios and outlines

A scenario definition becomes a scenario or an outline, and which of the two it becomes is settled
by whether there is a scenario in it, whatever came first. The same holds for what a step is given,
a table or a doc string. Both read little of what stands in a rule: rules with the same first lines
and the same first rules of the sorts that are asked for become the same, so their order does not
matter.

## Main results

* `Gherkin.Child.MadeOf.exists_scenario_iff` : where there is a scenario.
* `Gherkin.Child.MadeOf.congr`, `Gherkin.Step.MadeOf.congr` : what scenarios, outlines and steps
  are read from.
* `Gherkin.Assembly.child_of_scenarioDefinition` : what a scenario definition becomes.
-/

namespace Gherkin

open Forest

variable {ts us : Forest}

/-! ### What is read -/

/-- A definition becomes a scenario exactly where a scenario stands in it. -/
theorem Child.MadeOf.exists_scenario_iff {c : Child} (hc : c.MadeOf ts) :
    (∃ tags b, c = .scenario tags b) ↔ under .scenario ts ≠ [] := by
  cases hc with
  | @scenario ts inner b hfirst _ =>
    exact ⟨fun _ => List.ne_nil_of_mem (List.mem_of_mem_head? hfirst), fun _ => ⟨_, b, rfl⟩⟩
  | outline hnone _ _ _ =>
    have hnil := List.head?_eq_none_iff.mp hnone
    exact ⟨fun ⟨_, _, h⟩ => Child.noConfusion h, fun h => absurd hnil h⟩

/-- Of a definition the first tags, the first scenario and the first outline are read. -/
theorem Child.MadeOf.congr {c : Child} (hc : c.MadeOf ts)
    (htags : first? .tags ts = first? .tags us)
    (hscenario : first? .scenario ts = first? .scenario us)
    (houtline : first? .outline ts = first? .outline us) : c.MadeOf us := by
  have htags : ts.tags = us.tags := by
    rw [Forest.tags, Forest.tags, htags]
  cases hc with
  | scenario hfirst hb => exact htags ▸ .scenario (hscenario ▸ hfirst) hb
  | outline hnone hfirst hb hes =>
    exact htags ▸ .outline (hscenario ▸ hnone) (houtline ▸ hfirst) hb hes

/-- Of a step the first line, the first table and the first doc string are read. -/
theorem Step.MadeOf.congr {s : Step} (hs : s.MadeOf ts)
    (hline : line? .stepLine ts = line? .stepLine us)
    (htable : first? .dataTable ts = first? .dataTable us)
    (hstring : first? .docString ts = first? .docString us) : s.MadeOf us := by
  obtain ⟨hheads, hargument⟩ := hs
  refine ⟨hline ▸ hheads, ?_⟩
  generalize s.argument = a at hargument ⊢
  cases hargument with
  | dataTable hfirst ht => exact .dataTable (htable ▸ hfirst) ht
  | docString hnone hfirst hs => exact .docString (htable ▸ hnone) (hstring ▸ hfirst) hs
  | none hnone hnone' => exact .none (htable ▸ hnone) (hstring ▸ hnone')

/-! ### Ends -/

namespace Assembly

/-- **Scenarios and outlines.** A scenario definition that is left after any calls becomes a child
of a feature that is made of what stands in it, a scenario exactly where a scenario stands in it.
What becomes of a definition depends on the first tags, scenario and outline in it, and what becomes
of a step on its first line, table and doc string, in whatever order they come. -/
theorem child_of_scenarioDefinition :
    (∀ cs v, ((ofCalls cs).leave .scenarioDefinition).1 = .ok v →
      ∃ c, v = .child c ∧ c.MadeOf (Nesting.ofCalls cs).here ∧
        ((∃ tags b, c = .scenario tags b) ↔ under .scenario (Nesting.ofCalls cs).here ≠ [])) ∧
    (∀ cs cs' v v', ((ofCalls cs).leave .scenarioDefinition).1 = .ok v →
      ((ofCalls cs').leave .scenarioDefinition).1 = .ok v' →
      first? .tags (Nesting.ofCalls cs).here = first? .tags (Nesting.ofCalls cs').here →
      first? .scenario (Nesting.ofCalls cs).here = first? .scenario (Nesting.ofCalls cs').here →
      first? .outline (Nesting.ofCalls cs).here = first? .outline (Nesting.ofCalls cs').here →
      v = v') ∧
    ∀ cs cs' v v', ((ofCalls cs).leave .step).1 = .ok v → ((ofCalls cs').leave .step).1 = .ok v' →
      line? .stepLine (Nesting.ofCalls cs).here = line? .stepLine (Nesting.ofCalls cs').here →
      first? .dataTable (Nesting.ofCalls cs).here = first? .dataTable (Nesting.ofCalls cs').here →
      first? .docString (Nesting.ofCalls cs).here = first? .docString (Nesting.ofCalls cs').here →
      v = v' := by
  refine ⟨?_, ?_, ?_⟩
  · intro cs v hv
    obtain ⟨c, rfl, hc⟩ := gives_child.of_leave .scenarioDefinition hv
    exact ⟨c, rfl, hc, hc.exists_scenario_iff⟩
  · intro cs cs' v v' hv hv' htags hscenario houtline
    obtain ⟨c, rfl, hc⟩ := gives_child.of_leave .scenarioDefinition hv
    obtain ⟨c', rfl, hc'⟩ := gives_child.of_leave .scenarioDefinition hv'
    rw [(hc.congr htags hscenario houtline).unique hc']
  · intro cs cs' v v' hv hv' hline htable hstring
    obtain ⟨s, rfl, hs⟩ := gives_step.of_leave .step hv
    obtain ⟨s', rfl, hs'⟩ := gives_step.of_leave .step hv'
    rw [(hs.congr hline htable hstring).unique hs']

/-- Calls up to the end of a rule with some parts in it. -/
def callsInside (r : Rule) (parts : List (List Event)) : List Call :=
  (.enter r :: parts.flatten).map .event

/-- The parts of a step: its line, a doc string and a table. -/
def stepParts : List (List Event) :=
  let line (kind : TokenKind) (n : UInt32) : Event := .token { kind, location := ⟨n, 1⟩ }
  [[line .stepLine 6], [.enter .docString, line .docStringSeparator 7, .leave .docString],
    [.enter .dataTable, line .tableRow 8, .leave .dataTable]]

/-- The parts of a scenario definition: tags, an outline, and a scenario with tags of its own. -/
def definitionParts : List (List Event) :=
  let line (kind : TokenKind) (n : UInt32) (tag : String) : Event :=
    .token { kind, location := ⟨n, 1⟩, items := [⟨1, tag⟩] }
  [[.enter .tags, line .tagLine 1 "@a", .leave .tags],
    [.enter .outline, line .outlineLine 2 "", .leave .outline],
    [.enter .scenario, line .scenarioLine 3 "", .enter .tags, line .tagLine 4 "@b", .leave .tags,
      .enter .step] ++ stepParts.flatten ++ [.leave .step, .leave .scenario]]

/-- The step that comes of these parts, in either order. -/
def stepOfParts : Step := ⟨⟨6, 1⟩, "", "", some (.dataTable ⟨[⟨⟨8, 1⟩, []⟩]⟩)⟩

/-- The scenario that comes of these parts, in either order. -/
def scenarioOfParts : Child := .scenario [⟨⟨1, 1⟩, "@a"⟩] ⟨⟨3, 1⟩, "", "", "", [stepOfParts]⟩

theorem child_of_definitionParts :
    let definition := callsInside .scenarioDefinition definitionParts
    let definition' := callsInside .scenarioDefinition definitionParts.reverse
    let step := callsInside .step stepParts
    let step' := callsInside .step stepParts.reverse
    ((ofCalls definition).leave .scenarioDefinition).1 = .ok (.child scenarioOfParts) ∧
      (∃ c, .child scenarioOfParts = Value.child c ∧ c.MadeOf (Nesting.ofCalls definition).here ∧
        ((∃ tags b, c = .scenario tags b) ↔
          under .scenario (Nesting.ofCalls definition).here ≠ [])) ∧
      ((ofCalls definition).leave .scenarioDefinition).1 =
        ((ofCalls definition').leave .scenarioDefinition).1 ∧
      ((ofCalls step).leave .step).1 = ((ofCalls step').leave .step).1 := by
  intro definition definition' step step'
  have hd : ((ofCalls definition).leave .scenarioDefinition).1 = .ok (.child scenarioOfParts) := by
    rfl
  have hd' : ((ofCalls definition').leave .scenarioDefinition).1 =
      .ok (.child scenarioOfParts) := by rfl
  have hs : ((ofCalls step).leave .step).1 = .ok (.step stepOfParts) := by rfl
  have hs' : ((ofCalls step').leave .step).1 = .ok (.step stepOfParts) := by rfl
  have hdefinition := child_of_scenarioDefinition.2.1 _ _ _ _ hd hd' rfl rfl rfl
  have hstep := child_of_scenarioDefinition.2.2 _ _ _ _ hs hs' rfl rfl rfl
  exact ⟨hd, child_of_scenarioDefinition.1 _ _ hd,
    hd.trans ((congrArg Except.ok hdefinition).trans hd'.symm),
    hs.trans ((congrArg Except.ok hstep).trans hs'.symm)⟩

end Assembly

end Gherkin
