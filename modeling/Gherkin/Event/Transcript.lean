import Gherkin.Event.Handler

/-!
# Transcripts

A transcript is a handler that makes nothing of the events and writes down every call that it
receives. It can be told to refuse one of the ends, which shows how a run breaks off.

## Main definitions

* `Gherkin.Transcript` : the calls received.
* `Gherkin.Transcript.handler` : writes down calls.
-/

namespace Gherkin

/-- The calls that a handler received, the earliest first. -/
structure Transcript where
  calls : Array Call := #[]
  /-- The number of rules left so far, in vain or not. -/
  ends : Nat := 0

/-- The refusal to leave a rule. -/
structure Refusal where
  rule : Rule
  deriving DecidableEq, Repr

/-- A refusal in words. -/
def Refusal.message (x : Refusal) : String := "refused " ++ x.rule.name

namespace Transcript

/-- The transcript with one more call. -/
def write (c : Call) (t : Transcript) : Transcript := { t with calls := t.calls.push c }

/-- Writes down every call. The result is the number of calls written down, its own included; the
end with the number `refused`, counted from `0`, is written down and refused. -/
def handler (refused : Option Nat) : Handler Transcript Refusal Nat where
  reset := write .reset
  attach t := write (.event (.token t))
  enter r := write (.event (.enter r))
  leave r t :=
    (if refused = some t.ends then .error ⟨r⟩ else .ok (),
      write (.event (.leave r)) { t with ends := t.ends + 1 })
  result t := (t.calls.size + 1, write .result t)

end Transcript

end Gherkin
