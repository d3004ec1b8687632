import Gherkin.Proofs.Descriptions

/-!
# Doc strings

A doc string loses nothing: its content is made of all lines in its rule, the blank ones at either
end included, and where no line has a line feed they are read off the content again. No lines and
one empty line make the same content, so that needs a line to be there. Of the fences only the first
is read, also where lines stand before it.

## Main results

* `Gherkin.DocString.MadeOf.split_content`, `Gherkin.DocString.MadeOf.content_eq_iff` : lines
  recovered from the content, and contents compared.
* `Gherkin.DocString.MadeOf.congr` : what a doc string is read from.
* `Gherkin.Assembly.docString_of_lines` : what becomes of a doc string.
-/

namespace Gherkin

open Forest

/-! ### Lines and fences -/

namespace DocString.MadeOf

variable {s t : DocString} {ts us : Forest}

theorem content_eq (hs : s.MadeOf ts) : s.content = Text.ofLines ts.texts := hs.content

/-- The lines of a doc string that has any are recovered from its content. -/
theorem split_content (hs : s.MadeOf ts) (hne : ts.texts ≠ [])
    (hfeeds : ∀ line ∈ ts.texts, '\n' ∉ line.toList) : Text.split s.content = ts.texts := by
  rw [hs.content_eq, Text.split_ofLines hne hfeeds]

/-- Doc strings with lines have the same content exactly where their lines are the same. -/
theorem content_eq_iff (hs : s.MadeOf ts) (ht : t.MadeOf us) (hne : ts.texts ≠ [])
    (hne' : us.texts ≠ []) (hfeeds : ∀ line ∈ ts.texts, '\n' ∉ line.toList)
    (hfeeds' : ∀ line ∈ us.texts, '\n' ∉ line.toList) :
    s.content = t.content ↔ ts.texts = us.texts := by
  rw [hs.content_eq, ht.content_eq]
  exact Text.intercalate_inj '\n' hne hne' hfeeds hfeeds'

/-- Of a doc string the first fence and all lines are read. -/
theorem congr (hs : s.MadeOf ts)
    (hfence : line? .docStringSeparator ts = line? .docStringSeparator us)
    (htexts : ts.texts = us.texts) : s.MadeOf us where
  fence := hfence ▸ hs.fence
  content := hs.content_eq.trans (congrArg Text.ofLines htexts)

end DocString.MadeOf

/-! ### Ends -/

namespace Assembly

/-- **Doc strings.** A doc string that is left after any calls is made of what stands in its rule:
its place and its content type are those of the first fence, and its content is all lines, which
are what the content is split into where there are any and none has a line feed. Only that fence and
the lines matter; and where both have lines, all of them without line feeds, doc strings have the
same content exactly where they have the same lines. -/
theorem docString_of_lines :
    (∀ cs v, ((ofCalls cs).leave .docString).1 = .ok v →
      ∃ s, v = .docString s ∧ s.MadeOf (Nesting.ofCalls cs).here ∧
        ((Nesting.ofCalls cs).here.texts ≠ [] →
          (∀ line ∈ (Nesting.ofCalls cs).here.texts, '\n' ∉ line.toList) →
          Text.split s.content = (Nesting.ofCalls cs).here.texts)) ∧
    (∀ cs cs' v v', ((ofCalls cs).leave .docString).1 = .ok v →
      ((ofCalls cs').leave .docString).1 = .ok v' →
      line? .docStringSeparator (Nesting.ofCalls cs).here =
        line? .docStringSeparator (Nesting.ofCalls cs').here →
      (Nesting.ofCalls cs).here.texts = (Nesting.ofCalls cs').here.texts → v = v') ∧
    ∀ cs cs' s s', ((ofCalls cs).leave .docString).1 = .ok (.docString s) →
      ((ofCalls cs').leave .docString).1 = .ok (.docString s') →
      (Nesting.ofCalls cs).here.texts ≠ [] → (Nesting.ofCalls cs').here.texts ≠ [] →
      (∀ line ∈ (Nesting.ofCalls cs).here.texts, '\n' ∉ line.toList) →
      (∀ line ∈ (Nesting.ofCalls cs').here.texts, '\n' ∉ line.toList) →
      (s.content = s'.content ↔
        (Nesting.ofCalls cs).here.texts = (Nesting.ofCalls cs').here.texts) := by
  refine ⟨?_, ?_, ?_⟩
  · intro cs v hv
    obtain ⟨s, rfl, hs⟩ := gives_docString.of_leave .docString hv
    exact ⟨s, rfl, hs, hs.split_content⟩
  · intro cs cs' v v' hv hv' hfence htexts
    obtain ⟨s, rfl, hs⟩ := gives_docString.of_leave .docString hv
    obtain ⟨s', rfl, hs'⟩ := gives_docString.of_leave .docString hv'
    rw [(hs.congr hfence htexts).unique hs']
  · intro cs cs' s s' hs hs' hne hne' hfeeds hfeeds'
    obtain ⟨_, ⟨⟩, hmade⟩ := gives_docString.of_leave .docString hs
    obtain ⟨_, ⟨⟩, hmade'⟩ := gives_docString.of_leave .docString hs'
    exact hmade.content_eq_iff hmade' hne hne' hfeeds hfeeds'

/-- Calls up to the end of a doc string, after an end that is refused: its first line, its fence,
a comment, a rule with a line in it, its other lines, and the fences that follow. -/
def callsOfDocString (first : String) (texts : List String) (fences : List Token) : List Call :=
  let line (text : String) : Call := .event (.token { kind := .other, location := ⟨1, 1⟩, text })
  let fence : Token := { kind := .docStringSeparator, location := ⟨2, 3⟩, text := "json" }
  let comment : Call := .event (.token { kind := .comment, location := ⟨3, 1⟩, text := "c" })
  [.event (.leave .step), .event (.enter .docString), line first, .event (.token fence), comment,
    .event (.enter .tags), line "a", .event (.leave .tags)] ++ texts.map line ++
    fences.map fun t => .event (.token t)

/-- A closing fence with a text of its own. -/
def closingFence : Token := { kind := .docStringSeparator, location := ⟨9, 5⟩, text := "xml" }

theorem docString_of_callsOfDocString :
    let cs := callsOfDocString "" [" a", "", "b ", " "] [closingFence]
    let cs' := callsOfDocString "" [" a", "", "b ", " "] []
    let trimmed := callsOfDocString "" [" a", "", "b "] []
    let s : DocString := ⟨⟨2, 3⟩, some "json", "\n a\n\nb \n "⟩
    let t : DocString := ⟨⟨2, 3⟩, some "json", "\n a\n\nb "⟩
    ((ofCalls cs).leave .docString).1 = .ok (.docString s) ∧
      (∃ s', .docString s = Value.docString s' ∧ s'.MadeOf (Nesting.ofCalls cs).here ∧
        Text.split s'.content = ["", " a", "", "b ", " "]) ∧
      ((ofCalls cs).leave .docString).1 = ((ofCalls cs').leave .docString).1 ∧
      (s.content = t.content ↔
        (Nesting.ofCalls cs).here.texts = (Nesting.ofCalls trimmed).here.texts) := by
  intro cs cs' trimmed s t
  have hs : ((ofCalls cs).leave .docString).1 = .ok (.docString s) := by rfl
  have hs' : ((ofCalls cs').leave .docString).1 = .ok (.docString s) := by rfl
  have ht : ((ofCalls trimmed).leave .docString).1 = .ok (.docString t) := by rfl
  have hne : (Nesting.ofCalls cs).here.texts ≠ [] := List.cons_ne_nil _ _
  have hfeeds : ∀ line ∈ (Nesting.ofCalls cs).here.texts, '\n' ∉ line.toList := by decide
  obtain ⟨s', heq, hmade, hsplit⟩ := docString_of_lines.1 cs _ hs
  refine ⟨hs, ⟨s', heq, hmade, hsplit hne hfeeds⟩, ?_, ?_⟩
  · have hsame := docString_of_lines.2.1 cs cs' _ _ hs hs' rfl rfl
    rw [hs, hs', hsame]
  · exact docString_of_lines.2.2 cs trimmed s t hs ht hne (List.cons_ne_nil _ _) hfeeds (by decide)

end Assembly

end Gherkin
