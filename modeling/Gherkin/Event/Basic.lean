import Gherkin.Grammar.Rule
import Gherkin.Token

/-!
# Events of a grammar

A grammar that reads a feature file reports what it finds as a flat sequence of events: a line was
matched, a rule was entered, the innermost rule was left. Whoever receives them can besides be
told to start over, and be asked for what it has made of them.

## Main definitions

* `Gherkin.Event` : what a grammar reports.
* `Gherkin.Call` : what a receiver of events can be told or asked.
-/

namespace Gherkin

/-- What a grammar reports. -/
inductive Event where
  /-- A line was matched; it belongs to the innermost rule. -/
  | token (t : Token)
  /-- A rule was entered. -/
  | enter (r : Rule)
  /-- The innermost rule, which should be `r`, was left. -/
  | leave (r : Rule)
  deriving DecidableEq, Repr

/-- What a receiver of events can be told or asked. -/
inductive Call where
  /-- To forget everything. -/
  | reset
  /-- To take in an event. -/
  | event (e : Event)
  /-- To give its result. -/
  | result
  deriving DecidableEq, Repr

end Gherkin
