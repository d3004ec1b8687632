import Gherkin.Proofs.Sessions

/-!
# Runs do not know of one another

A run starts a session over, so it does not see what the session met before: rules that are still
open, documents that nobody asked for, comments that wait, or a refusal at which an earlier run
broke off. It comes to the same as in a new session, and so does all that follows it. Only the
journal is kept, but no run reads it: what was noted before stands before what the run notes.

## Main results

* `Gherkin.Session.replay_eq`, `Gherkin.Session.run_eq` : a run in a session that was used before.
* `Gherkin.Session.runs_isolated` : calls, then runs, then calls.
-/

namespace Gherkin

namespace Session

/-- A run in any session gives what it gives in a new one and leads to the same assembly. What was
noted before stays in the journal. -/
theorem replay_eq (es : List Event) (s : Session) : handler.replay es s =
    ((handler.replay es empty).1, (handler.replay es empty).2.precededBy s.notes) := by
  -- A start keeps the notes, and forgets all else.
  have hreset : handler.reset s = handler.reset (empty.precededBy s.notes) := by
    simp [handler, precededBy, empty]
  rw [← replay_precededBy]
  simp only [Handler.replay, hreset]

section Used

variable {s : Session} (hs : s.notes = #[])

include hs

/-- Where the notes were handed over, also the report is the same. -/
theorem run_eq (es : List Event) : run es s = run es empty := by
  have hreplay : handler.replay es s = handler.replay es empty := by
    rw [replay_eq, hs]
    simp [precededBy]
  simp only [run, hreplay]

theorem notes_afterRuns (ess : List (List Event)) : (s.afterRuns ess).notes = #[] := by
  induction ess generalizing s with
  | nil => exact hs
  | cons es ess ih => exact ih rfl

/-- Runs one after the other are reported as if each were the first. -/
theorem runs_eq (ess : List (List Event)) : runs ess s = ess.map fun es => (run es empty).1 := by
  induction ess generalizing s with
  | nil => rfl
  | cons es ess ih =>
    change (run es s).1 :: runs ess (run es s).2 = _
    rw [List.map_cons, run_eq hs, ih rfl]

end Used

/-- **Runs are isolated.** After any calls and any runs, a run comes back with the report that it
gets in a new session, and the calls that follow it get the reports that they get there. -/
theorem runs_isolated (cs : List Call) (ess : List (List Event)) :
    runs ess (empty.afterCalls cs) = ess.map (fun es => (run es empty).1) ∧
      ∀ (es : List Event) (more : List Call),
        calls more (run es ((empty.afterCalls cs).afterRuns ess)).2 =
          calls more (run es empty).2 := by
  have hnotes : (empty.afterCalls cs).notes = #[] := notes_afterCalls rfl cs
  refine ⟨runs_eq hnotes ess, fun es more => ?_⟩
  rw [run_eq (notes_afterRuns hnotes ess)]

end Session

end Gherkin
