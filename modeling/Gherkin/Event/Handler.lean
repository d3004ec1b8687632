import Gherkin.Event.Basic

/-!
# Handlers of events

A handler receives the events of a grammar, one after the other, and gives a result. It may refuse
to leave a rule; all else it takes in. A run on a list of events starts the handler over, feeds it
the events up to the first refusal, and asks for the result only if there was none.

## Main definitions

* `Gherkin.Handler` : what is done with every event, on states of a given type.
* `Gherkin.Handler.feed`, `Gherkin.Handler.feedAll` : an event taken in, and a list of them.
* `Gherkin.Handler.replay` : a run.
* `Gherkin.Handler.perform`, `Gherkin.Handler.performAll` : a call made, and a list of them,
  whatever is refused on the way.

## Main results

* `Gherkin.Handler.feedAll_append` : a list fed in two parts.
-/

namespace Gherkin

/-- What is done with every event. The state is of type `σ`; `ε` holds the reasons to refuse, and
`δ` the results. -/
structure Handler (σ ε δ : Type) where
  /-- Forgets everything. -/
  reset : σ → σ
  /-- Takes in a token, which belongs to the innermost rule. -/
  attach : Token → σ → σ
  /-- Enters a rule. -/
  enter : Rule → σ → σ
  /-- Leaves the innermost rule, or refuses to; a refusal may leave its traces. -/
  leave : Rule → σ → Except ε Unit × σ
  /-- Gives the result. -/
  result : σ → δ × σ

/-- What a call comes back with. -/
inductive Reply (ε δ : Type) where
  /-- The call was carried out. -/
  | done
  /-- The innermost rule could not be left. -/
  | refused (e : ε)
  /-- The result that was asked for. -/
  | result (d : δ)
  deriving DecidableEq

namespace Handler

variable {σ ε δ : Type} (h : Handler σ ε δ)

/-- Takes in one event. -/
def feed : Event → σ → Except ε Unit × σ
  | .token t, s => (.ok (), h.attach t s)
  | .enter r, s => (.ok (), h.enter r s)
  | .leave r, s => h.leave r s

/-- Takes in events up to the first that is refused. -/
def feedAll : List Event → σ → Except ε Unit × σ
  | [], s => (.ok (), s)
  | e :: es, s =>
    match h.feed e s with
    | (.ok (), s') => feedAll es s'
    | (.error x, s') => (.error x, s')

/-- A run: starts over, takes in the events up to the first that is refused, and gives the result
if none was. -/
def replay (es : List Event) (s : σ) : Except ε δ × σ :=
  match h.feedAll es (h.reset s) with
  | (.ok (), s') =>
    let out := h.result s'
    (.ok out.1, out.2)
  | (.error x, s') => (.error x, s')

/-- Makes one call. -/
def perform : Call → σ → Reply ε δ × σ
  | .reset, s => (.done, h.reset s)
  | .event e, s =>
    match h.feed e s with
    | (.ok (), s') => (.done, s')
    | (.error x, s') => (.refused x, s')
  | .result, s =>
    let out := h.result s
    (.result out.1, out.2)

/-- Makes calls one after the other, and goes on after a refusal. -/
def performAll : List Call → σ → List (Reply ε δ) × σ
  | [], s => ([], s)
  | c :: cs, s =>
    let (reply, s') := h.perform c s
    let (replies, s'') := performAll cs s'
    (reply :: replies, s'')

/-! ### Parts of a list of events -/

@[simp]
theorem feedAll_nil (s : σ) : h.feedAll [] s = (.ok (), s) := rfl

theorem feedAll_cons_of_ok {e : Event} {s s' : σ} (he : h.feed e s = (.ok (), s'))
    (es : List Event) : h.feedAll (e :: es) s = h.feedAll es s' := by
  simp [feedAll, he]

theorem feedAll_cons_of_error {e : Event} {s s' : σ} {x : ε} (he : h.feed e s = (.error x, s'))
    (es : List Event) : h.feedAll (e :: es) s = (.error x, s') := by
  simp [feedAll, he]

/-- A list of events is fed part by part; the second part is fed only after the first went
through. -/
theorem feedAll_append (es fs : List Event) (s : σ) :
    h.feedAll (es ++ fs) s =
      match h.feedAll es s with
      | (.ok (), s') => h.feedAll fs s'
      | (.error x, s') => (.error x, s') := by
  induction es generalizing s with
  | nil => rfl
  | cons e es ih =>
    rcases he : h.feed e s with ⟨_ | _, s'⟩
    · simp [feedAll, he]
    · simp [feedAll, he, ih]

end Handler

end Gherkin
