import Gherkin.Event.Basic

/-!
# Trees of events

Where every rule that is entered is left again, and each before the one around it, the events are
the branches of a tree written down one after the other: a leaf is a token, and an inner node is a
rule with what was met while it was open. The events of a whole run are those of a forest.

## Main definitions

* `Gherkin.Tree`, `Gherkin.Forest` : nested events.
* `Gherkin.Tree.events`, `Gherkin.Forest.events` : the events of a tree and of a forest.
* `Gherkin.Forest.tokens` : the tokens that stand directly in a forest.

## Main results

* `Gherkin.Forest.events_append` : one forest after another.
-/

namespace Gherkin

/-- Nested events. -/
inductive Tree where
  /-- A line that was matched. -/
  | token (t : Token)
  /-- A rule with what was met while it was open. -/
  | node (r : Rule) (inner : List Tree)

/-- What is met one after the other. -/
abbrev Forest := List Tree

mutual

/-- The events of a tree. -/
def Tree.events : Tree → List Event
  | .token t => [.token t]
  | .node r inner => .enter r :: (Forest.events inner ++ [.leave r])

/-- The events of a forest. -/
def Forest.events : List Tree → List Event
  | [] => []
  | t :: ts => t.events ++ Forest.events ts

end

/-- The token that a tree is, if it is one. -/
def Tree.token? : Tree → Option Token
  | .token t => some t
  | .node .. => none

namespace Forest

/-- The tokens that stand directly in a forest, and in none of its rules. -/
def tokens (ts : Forest) : List Token := ts.filterMap Tree.token?

@[simp]
theorem events_nil : Forest.events [] = [] := by
  simp [Forest.events]

@[simp]
theorem events_cons (t : Tree) (ts : Forest) :
    Forest.events (t :: ts) = t.events ++ Forest.events ts := by
  simp [Forest.events]

@[simp]
theorem events_append (ts us : Forest) :
    Forest.events (ts ++ us) = Forest.events ts ++ Forest.events us := by
  induction ts with
  | nil => simp
  | cons t ts ih => simp [ih]

end Forest

@[simp]
theorem Tree.events_token (t : Token) : (Tree.token t).events = [.token t] := by
  simp [Tree.events]

@[simp]
theorem Tree.events_node (r : Rule) (inner : Forest) :
    (Tree.node r inner).events = .enter r :: (Forest.events inner ++ [.leave r]) := by
  simp [Tree.events]

end Gherkin
