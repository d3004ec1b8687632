import Gherkin.Assembly.Journal
import Gherkin.Proofs.Calls

/-!
# Sessions call by call

The journal of a session is only ever added to, and what is added does not depend on what it says
already. So it makes no difference whether the notes are handed over after each call or all at once:
what a call adds is the same, and the journal of many calls is that of the first, then that of the
second, and so on.

## Main definitions

* `Gherkin.Session.precededBy` : a session with notes made before it.
* `Gherkin.Session.afterCalls`, `Gherkin.Session.afterRuns` : the session after calls, and after
  runs.

## Main results

* `Gherkin.Session.performAll_precededBy`, `Gherkin.Session.replay_precededBy` : calls and runs that
  find notes.
* `Gherkin.Session.getElem?_calls` : the report on a call.
* `Gherkin.Session.notes_performAll` : the journal of many calls.
-/

namespace Gherkin

namespace Session

/-- The session `s`, with notes that were made before its own. -/
def precededBy (notes : Array Note) (s : Session) : Session := { s with notes := notes ++ s.notes }

/-- The session after calls. -/
def afterCalls (s : Session) (cs : List Call) : Session := cs.foldl (fun s c => (s.call c).2) s

/-- The session after runs. -/
def afterRuns (s : Session) (ess : List (List Event)) : Session :=
  ess.foldl (fun s es => (s.run es).2) s

/-! ### Notes made before -/

section PrecededBy

variable (notes : Array Note) (s : Session)

@[simp]
theorem notes_precededBy : (s.precededBy notes).notes = notes ++ s.notes := rfl

theorem feed_precededBy (e : Event) : handler.feed e (s.precededBy notes) =
    ((handler.feed e s).1, (handler.feed e s).2.precededBy notes) := by
  cases e with
  | token t => rfl
  | enter r => simp [Handler.feed, handler, enter, precededBy]
  | leave r =>
    -- The notes on an end are a list that is appended to an array.
    have happend (as bs : Array Note) (l : List Note) : as ++ bs ++ l = as ++ (bs ++ l) := by
      apply Array.toList_inj.mp
      simp
    simp [Handler.feed, handler, leave, precededBy, happend]

theorem perform_precededBy (c : Call) : handler.perform c (s.precededBy notes) =
    ((handler.perform c s).1, (handler.perform c s).2.precededBy notes) := by
  cases c with
  | reset => rfl
  | event e =>
    simp only [Handler.perform, feed_precededBy]
    rcases handler.feed e s with ⟨_ | _, t⟩ <;> rfl
  | result => rfl

/-- Calls get the same replies whatever was noted before, and add the same notes. -/
theorem performAll_precededBy (cs : List Call) : handler.performAll cs (s.precededBy notes) =
    ((handler.performAll cs s).1, (handler.performAll cs s).2.precededBy notes) := by
  induction cs generalizing s with
  | nil => rfl
  | cons c cs ih => rw [Handler.performAll_cons, Handler.performAll_cons, perform_precededBy, ih]

theorem feedAll_precededBy (es : List Event) : handler.feedAll es (s.precededBy notes) =
    ((handler.feedAll es s).1, (handler.feedAll es s).2.precededBy notes) := by
  induction es generalizing s with
  | nil => rfl
  | cons e es ih =>
    have hfeed := feed_precededBy notes s e
    rcases he : handler.feed e s with ⟨_ | _, t⟩ <;> rw [he] at hfeed
    · rw [handler.feedAll_cons_of_error he, handler.feedAll_cons_of_error hfeed]
    · rw [handler.feedAll_cons_of_ok he, handler.feedAll_cons_of_ok hfeed, ih]

/-- A run comes to the same whatever was noted before, and adds the same notes. -/
theorem replay_precededBy (es : List Event) : handler.replay es (s.precededBy notes) =
    ((handler.replay es s).1, (handler.replay es s).2.precededBy notes) := by
  have hreset : handler.reset (s.precededBy notes) = (handler.reset s).precededBy notes := rfl
  simp only [Handler.replay, hreset, feedAll_precededBy]
  rcases handler.feedAll es (handler.reset s) with ⟨_ | _, t⟩ <;> rfl

/-- A session is one that has noted nothing, preceded by its notes. -/
theorem eq_precededBy : s = ({ s with notes := #[] } : Session).precededBy s.notes := by
  simp [precededBy]

end PrecededBy

/-! ### Reports on calls -/

variable (s : Session)

theorem afterCalls_cons (c : Call) (cs : List Call) :
    s.afterCalls (c :: cs) = (s.call c).2.afterCalls cs := rfl

/-- The report on a call is made in the session that the calls before it lead to. -/
theorem getElem?_calls (cs : List Call) (i : Nat) :
    (calls cs s)[i]? = cs[i]?.map fun c => ((s.afterCalls (cs.take i)).call c).1 := by
  induction cs generalizing s i with
  | nil => rfl
  | cons c cs ih =>
    cases i with
    | zero => rfl
    | succ i => exact ih (s.call c).2 i

/-- The reply to a call does not depend on the notes. -/
theorem fst_perform (c : Call) :
    (handler.perform c s).1 = (Assembly.handler.perform c s.assembly).1 := by
  cases c with
  | reset => rfl
  | event e =>
    have hreply := fst_feed e s
    simp only [Handler.perform]
    rcases hs : handler.feed e s with ⟨x, t⟩
    rcases ht : Assembly.handler.feed e s.assembly with ⟨y, t'⟩
    rw [hs, ht] at hreply
    obtain rfl : x = y := hreply
    cases x <;> rfl
  | result => rfl

theorem assembly_perform (c : Call) :
    (handler.perform c s).2.assembly = (Assembly.handler.perform c s.assembly).2 := by
  cases c with
  | reset => rfl
  | event e =>
    rw [Handler.snd_perform_event, Handler.snd_perform_event]
    exact assembly_feed e s
  | result => rfl

/-- A session does to its assembly what calls do to an assembly. -/
theorem assembly_afterCalls (cs : List Call) :
    (s.afterCalls cs).assembly = (Assembly.handler.performAll cs s.assembly).2 := by
  induction cs generalizing s with
  | nil => rfl
  | cons c cs ih =>
    rw [afterCalls_cons, ih, Handler.performAll_cons]
    exact congrArg (fun t => (Assembly.handler.performAll cs t).2) (assembly_perform s c)

/-- The notes that a call hands over are not kept. -/
theorem notes_afterCalls {s : Session} (hs : s.notes = #[]) (cs : List Call) :
    (s.afterCalls cs).notes = #[] := by
  induction cs generalizing s with
  | nil => exact hs
  | cons c cs ih => exact ih rfl

theorem length_calls (cs : List Call) : (calls cs s).length = cs.length := by
  induction cs generalizing s with
  | nil => rfl
  | cons c cs ih => exact congrArg (· + 1) (ih (s.call c).2)

/-- After one call the session stands where that call leads, but its notes were handed over. -/
theorem snd_perform_eq (c : Call) :
    (handler.perform c s).2 = (s.call c).2.precededBy (handler.perform c s).2.notes :=
  eq_precededBy _

/-- The replies to calls do not depend on when the notes are handed over. -/
theorem fst_performAll (cs : List Call) :
    (handler.performAll cs s).1 = (calls cs s).map Report.outcome := by
  induction cs generalizing s with
  | nil => rfl
  | cons c cs ih =>
    rw [Handler.performAll_cons, snd_perform_eq, performAll_precededBy, ih]
    rfl

/-- **The journal of many calls** is that of each of them, in order. -/
theorem notes_performAll {s : Session} (hs : s.notes = #[]) (cs : List Call) :
    (handler.performAll cs s).2.notes.toList = (calls cs s).flatMap Report.notes := by
  induction cs generalizing s with
  | nil => simp [calls, hs]
  | cons c cs ih =>
    rw [Handler.performAll_cons, snd_perform_eq, performAll_precededBy, notes_precededBy,
      Array.toList_append, ih rfl]
    rfl

end Session

end Gherkin
