import Gherkin.Proofs.WithoutComments

/-!
# What is used of a line

Of a line only some parts are used, and its kind says which. So two lists of events come to the same
if each event of the one differs from that of the other at most in parts of a line that are not used
for its kind: both runs break off for the same fault or give the same document, as many rules are
open in the end, and the journals are the same.

Never used are the width of the blank space before a text, a dialect outside of feature lines, the
text of lines of tags and of rows, and the place of a line of a description or of a doc string.

For this two sessions are kept side by side that are told lines with the same content. Then the same
comments wait in both, and the frames of both are read alike.

## Main definitions

* `Gherkin.Event.Agree` : events with the same content.
* `Gherkin.Token.withUnused` : a line with other parts where they are not used.

## Main results

* `Gherkin.Session.Agree.feed_of_agree` : one event in two sessions.
* `Gherkin.Session.run_eq_of_agree` : runs on events with the same content.
-/

namespace Gherkin

/-! ### Content -/

/-- The line `t` with the indent of `u`, and with the dialect, the text and the location of `u` if
`t` is a line of which these are not used. -/
def Token.withUnused (t u : Token) : Token :=
  { t with
    indent := u.indent
    dialect := if t.kind = .featureLine then t.dialect else u.dialect
    text := if t.kind = .tagLine ∨ t.kind = .tableRow then u.text else t.text
    location := if t.kind = .other then u.location else t.location }

theorem Token.agree_withUnused (t u : Token) : t.Agree t.kind (t.withUnused u) := by
  cases hk : t.kind <;> simp [Agree, withUnused, keywordText, hk]

namespace Event

/-- Two events are the same, up to parts of a line that are not used for its kind. -/
inductive Agree : Event → Event → Prop
  | token {t u : Token} (hk : t.kind = u.kind) (h : t.Agree t.kind u) : Agree (.token t) (.token u)
  | enter (r : Rule) : Agree (.enter r) (.enter r)
  | leave (r : Rule) : Agree (.leave r) (.leave r)

/-- The event with parts of `u`, where it is a line of which these are not used. -/
def withUnused (u : Token) : Event → Event
  | .token t => .token (t.withUnused u)
  | e => e

/-- Parts that are not used are no part of the content. -/
theorem agree_withUnused (e : Event) (u : Token) : e.Agree (e.withUnused u) := by
  cases e with
  | token t => exact .token rfl (t.agree_withUnused u)
  | enter r => exact .enter r
  | leave r => exact .leave r

end Event

/-! ### Two runs side by side -/

/-- Two lines with the same content are filed, or the same comment waits in both. -/
theorem Assembly.Agree.attach_of_agree {s t : Assembly} (h : s.Agree Eq t) {u v : Token}
    (hk : u.kind = v.kind) (huv : u.Agree u.kind v) : (s.attach u).Agree Eq (t.attach v) := by
  cases hu : u.kind.isComment with
  | false => exact h.attach hk hu huv
  | true => exact h.attach_comment hk hu huv

namespace Session

/-- **One event.** Events with the same content get the same reply, and the same is noted of
them. -/
theorem Agree.feed_of_agree {s t : Session} (h : s.Agree Eq t) {e f : Event} (hef : e.Agree f) :
    (handler.feed e s).1 = (handler.feed f t).1 ∧
      (handler.feed e s).2.Agree Eq (handler.feed f t).2 := by
  cases hef with
  | @token u v hk huv =>
    have hassembly : (s.assembly.attach u).Agree Eq (t.assembly.attach v) :=
      h.assembly.attach_of_agree hk huv
    exact ⟨rfl, hassembly, h.left.attach u, h.right.attach v, h.notes⟩
  | enter r => exact h.feed rfl rfl
  | leave r => exact h.feed rfl rfl

/-- As many open rules and the same notes are reported alike. -/
theorem fst_report_eq {ρ : Type} {s t : Session} (hdepth : s.assembly.depth = t.assembly.depth)
    (hnotes : s.notes = t.notes) (x : ρ) : (s.report x).1 = (t.report x).1 := by
  simp only [report, hdepth, hnotes]

/-- A result leaves as many rules open in both sessions. -/
theorem Agree.depth_result_eq {s t : Session} (h : s.Agree Eq t) :
    (handler.result s).2.assembly.depth = (handler.result t).2.assembly.depth := by
  change s.assembly.result.2.depth = t.assembly.result.2.depth
  rw [Assembly.depth_result, Assembly.depth_result, h.assembly.depth_eq]

/-- **The content decides.** Runs on lists of events come to the same if their events differ at
most in parts of a line that are not used for its kind. What `Event.withUnused` changes is among
these. -/
theorem run_eq_of_agree :
    (∀ es fs, List.Forall₂ Event.Agree es fs → ∀ (s t : Assembly) (notes : Array Note),
      (run es ⟨s, notes⟩).1 = (run fs ⟨t, notes⟩).1) ∧
      ∀ e u, Event.Agree e (e.withUnused u) := by
  refine ⟨fun es fs hes s t notes => ?_, Event.agree_withUnused⟩
  have hstart : Agree Eq (handler.reset ⟨s, notes⟩) (handler.reset ⟨t, notes⟩) :=
    ⟨Assembly.agree_empty rfl, Assembly.sound_empty, Assembly.sound_empty, rfl⟩
  obtain ⟨hreply, hagree⟩ :=
    Handler.feedAll_rel (fun _ _ _ _ hef hst => hst.feed_of_agree hef) hes hstart
  simp only [run, Handler.replay]
  rcases hs : handler.feedAll es (handler.reset ⟨s, notes⟩) with ⟨x, s'⟩
  rcases ht : handler.feedAll fs (handler.reset ⟨t, notes⟩) with ⟨y, t'⟩
  rw [hs, ht] at hreply hagree
  obtain rfl : x = y := hreply
  cases x with
  | error x => exact fst_report_eq hagree.assembly.depth_eq hagree.notes _
  | ok _ =>
    have hdocument : (handler.result s').1 = (handler.result t').1 :=
      hagree.assembly.result_eq hagree.left hagree.right
    simp only [hdocument]
    exact fst_report_eq hagree.depth_result_eq hagree.notes _

/-- A feature with a comment, a tag and a description. -/
def taggedFeature : List Event :=
  [.enter .document, .token { kind := .comment, location := ⟨1, 1⟩, text := "# login" },
    .enter .feature, .enter .featureHeader,
    .enter .tags, .token { kind := .tagLine, location := ⟨2, 1⟩, items := [⟨1, "@slow"⟩] },
    .leave .tags,
    .token { kind := .featureLine, location := ⟨3, 1⟩, text := "Login", dialect := some "en" },
    .enter .description, .token { kind := .other, location := ⟨4, 1⟩, text := "As a user" },
    .leave .description, .leave .featureHeader, .leave .feature, .leave .document]

/-- A line that has nothing in common with those of `taggedFeature`. -/
def strayLine : Token where
  kind := .eof
  location := ⟨9, 9⟩
  text := "@slow"
  dialect := some "fr"
  indent := 4

/-- A feature with other parts where they are not used is the same feature. -/
theorem run_taggedFeature :
    let fs := taggedFeature.map (Event.withUnused strayLine)
    List.Forall₂ Event.Agree taggedFeature fs ∧ taggedFeature ≠ fs ∧
      (run taggedFeature empty).1 = (run fs empty).1 ∧
      (Document.ofEvents taggedFeature).toOption.bind Document.feature ≠ none := by
  intro fs
  have hes : List.Forall₂ Event.Agree taggedFeature fs :=
    List.forall₂_map_right_iff.mpr (List.forall₂_same.mpr fun e _ => run_eq_of_agree.2 e strayLine)
  exact ⟨hes, by decide, run_eq_of_agree.1 _ _ hes .empty .empty #[], by decide⟩

end Session

end Gherkin
