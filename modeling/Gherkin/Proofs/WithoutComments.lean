import Gherkin.Assembly.Journal
import Gherkin.Proofs.SideBySide

/-!
# Events without their comments

A comment is taken in whatever is open, and it is filed nowhere but with the comments that wait. So
a run comes to the same end if all comments are taken out of its events: it fails for the same
fault, or gives the same feature; as many rules are open in the end, and the journal is the same,
note by note. Only the comments of the document are gone.

For this a session is kept beside one that is told no comments. Their assemblies agree, up to
comments, of which the second has none.

## Main definitions

* `Gherkin.Event.withoutComments` : events less the comments among them.
* `Gherkin.Session.Agree` : sessions that keep the same journal of assemblies that agree.

## Main results

* `Gherkin.Session.Agree.feed` : one event that is no comment.
* `Gherkin.Session.run_withoutComments` : a run on events without their comments.
-/

namespace Gherkin

/-- The events of a list that bring no comment. -/
def Event.withoutComments (es : List Event) : List Event := es.filter fun e => e.comment?.isNone

/-- The same is noted of ends that agree. -/
theorem Note.ofOutcome_eq {K : List Comment → List Comment → Prop} (r : Rule)
    {x y : Except Rejection Value} (h : Except.Agree (Value.Agree K) x y) :
    ofOutcome r x = ofOutcome r y := by
  cases h with
  | error _ => rfl
  | ok hvw => cases hvw <;> rfl

namespace Session

/-- Two sessions have assemblies that agree, and their journals are the same so far. -/
structure Agree (K : List Comment → List Comment → Prop) (s t : Session) : Prop where
  assembly : s.assembly.Agree K t.assembly
  left : s.assembly.Sound
  right : t.assembly.Sound
  notes : s.notes = t.notes

namespace Agree

variable {K : List Comment → List Comment → Prop} {s t : Session}

/-- **One event.** An event that is no comment gets the same reply in both sessions, and both note
the same of it. -/
theorem feed (hK : K [] []) (h : s.Agree K t) {e : Event} (he : e.comment? = none) :
    (handler.feed e s).1 = (handler.feed e t).1 ∧
      (handler.feed e s).2.Agree K (handler.feed e t).2 := by
  obtain ⟨hreply, hassembly⟩ := h.assembly.feed hK h.left h.right he
  have hleft := Assembly.keeps_sound.feed h.left e
  have hright := Assembly.keeps_sound.feed h.right e
  rw [← fst_feed, ← fst_feed] at hreply
  rw [← assembly_feed, ← assembly_feed] at hassembly
  rw [← assembly_feed] at hleft hright
  refine ⟨hreply, hassembly, hleft, hright, ?_⟩
  cases e with
  | token u => exact h.notes
  | enter r =>
    change s.notes.push (.entering r s.assembly.depth) =
      t.notes.push (.entering r t.assembly.depth)
    rw [h.notes, h.assembly.depth_eq]
  | leave r =>
    change s.notes.push (.leaving r s.assembly.depth) ++ Note.ofOutcome r (s.assembly.leave r).1 =
      t.notes.push (.leaving r t.assembly.depth) ++ Note.ofOutcome r (t.assembly.leave r).1
    rw [h.notes, h.assembly.depth_eq,
      Note.ofOutcome_eq r (h.assembly.leave hK h.left h.right r).1]

end Agree

/-- No comments wait in the second of two assemblies; in the first any may. -/
def NoneLeft (_ cs : List Comment) : Prop := cs = []

/-- A comment that is told to the first session alone is noted nowhere. -/
theorem Agree.feed_comment {s t : Session} (h : s.Agree NoneLeft t) {u : Token}
    (hu : u.kind.isComment = true) : (handler.feed (.token u) s).2.Agree NoneLeft t := by
  have hs : s.assembly.attach u =
      { s.assembly with comments := s.assembly.comments.push (.ofToken u) } := if_pos hu
  refine ⟨?_, h.left.attach u, h.right, h.notes⟩
  change (s.assembly.attach u).Agree NoneLeft t.assembly
  rw [hs]
  exact ⟨h.assembly.outermost, h.assembly.root, h.assembly.frames, h.assembly.comments⟩

/-- **Many events.** The second session is told no comments, and replies as the first does. -/
theorem Agree.feedAll_withoutComments {s t : Session} (h : s.Agree NoneLeft t) (es : List Event) :
    (handler.feedAll es s).1 = (handler.feedAll (Event.withoutComments es) t).1 ∧
      (handler.feedAll es s).2.Agree NoneLeft
        (handler.feedAll (Event.withoutComments es) t).2 := by
  induction es generalizing s t with
  | nil => exact ⟨rfl, h⟩
  | cons e es ih =>
    cases he : e.comment? with
    | some c =>
      obtain ⟨u, rfl, hu⟩ := Event.exists_of_comment?_eq_some he
      have hfilter : Event.withoutComments (.token u :: es) = Event.withoutComments es := by
        simp [Event.withoutComments, he]
      have hfeed : handler.feed (.token u) s = (.ok (), (handler.feed (.token u) s).2) := rfl
      rw [hfilter, Handler.feedAll_cons_of_ok _ hfeed]
      exact ih (h.feed_comment hu)
    | none =>
      have hfilter : Event.withoutComments (e :: es) = e :: Event.withoutComments es := by
        simp [Event.withoutComments, he]
      obtain ⟨hreply, hagree⟩ := h.feed (show NoneLeft [] [] from rfl) he
      rw [hfilter]
      rcases hs : handler.feed e s with ⟨x, s'⟩
      rcases ht : handler.feed e t with ⟨y, t'⟩
      rw [hs, ht] at hreply hagree
      obtain rfl : x = y := hreply
      cases x with
      | ok _ =>
        rw [Handler.feedAll_cons_of_ok _ hs, Handler.feedAll_cons_of_ok _ ht]
        exact ih hagree
      | error x =>
        rw [Handler.feedAll_cons_of_error _ hs, Handler.feedAll_cons_of_error _ ht]
        exact ⟨rfl, hagree⟩

/-- **Comments have no influence.** A run on events without their comments fails for the same fault
as the run on all of them, or gives the same document without comments. In the end as many rules
are open, and the same was noted in the same order. -/
theorem run_withoutComments (es : List Event) (s t : Assembly) (notes : Array Note) :
    let report := (run es ⟨s, notes⟩).1
    let report' := (run (Event.withoutComments es) ⟨t, notes⟩).1
    report'.outcome = report.outcome.map (fun d => { d with comments := [] }) ∧
      report'.depth = report.depth ∧ report'.notes = report.notes := by
  have hstart : Agree NoneLeft (handler.reset ⟨s, notes⟩) (handler.reset ⟨t, notes⟩) :=
    ⟨Assembly.agree_empty rfl, Assembly.sound_empty, Assembly.sound_empty, rfl⟩
  obtain ⟨hreply, hagree⟩ := hstart.feedAll_withoutComments es
  simp only [run, report, Handler.replay]
  rcases hs : handler.feedAll es (handler.reset ⟨s, notes⟩) with ⟨x, s'⟩
  rcases ht : handler.feedAll (Event.withoutComments es) (handler.reset ⟨t, notes⟩) with ⟨y, t'⟩
  rw [hs, ht] at hreply hagree
  dsimp only at hreply hagree
  obtain rfl : x = y := hreply
  cases x with
  | error x => exact ⟨rfl, hagree.assembly.depth_eq.symm, congrArg Array.toList hagree.notes.symm⟩
  | ok _ =>
    obtain ⟨hfeature, hcomments⟩ := hagree.assembly.result hagree.left hagree.right
    replace hcomments : t'.assembly.result.1.comments = [] := hcomments
    refine ⟨?_, ?_, congrArg Array.toList hagree.notes.symm⟩
    · change Except.ok t'.assembly.result.1 = .ok ⟨s'.assembly.result.1.feature, []⟩
      rw [hfeature, ← hcomments]
    · change t'.assembly.result.2.depth = s'.assembly.result.2.depth
      rw [Assembly.depth_result, Assembly.depth_result, hagree.assembly.depth_eq]

end Session

end Gherkin
