import Gherkin.Grammar.Rule
import Gherkin.Grammar.TokenKind
import Gherkin.Location

/-!
# Faults

A run that makes a document breaks off for one of two reasons. The feature file is not valid, which
is said to its author with the place in the file; or the events break the contract of the grammar,
which points at a mistake of whatever reported them.

## Main definitions

* `Gherkin.Violation` : the ways to break the contract of the grammar.
* `Gherkin.Fault` : why a run breaks off.
* `Gherkin.Violation.message`, `Gherkin.Fault.message` : the words for it.
-/

namespace Gherkin

/-- A way to break the contract of the grammar. -/
inductive Violation where
  /-- A rule was left while none was open. -/
  | noOpenRule (ended : Rule)
  /-- A rule was left while another was the innermost. -/
  | unbalanced (innermost ended : Rule)
  /-- A rule was left without a token that it always has. -/
  | missingToken (rule : Rule) (token : TokenKind)
  /-- A rule was left without a child that it always has. -/
  | missingChild (rule child : Rule)
  /-- A rule was left with a child that it never has, or with one that is not what it should be. -/
  | unexpectedChild (rule child : Rule)
  deriving DecidableEq, Repr

/-- A violation in words. -/
def Violation.message : Violation → String
  | noOpenRule ended => "cannot end " ++ ended.name ++ ": no rule is open"
  | unbalanced innermost ended =>
    "cannot end " ++ ended.name ++ ": innermost open rule is " ++ innermost.name
  | missingToken rule token => rule.name ++ " has no " ++ token.name ++ " token"
  | missingChild rule child => rule.name ++ " has no " ++ child.name ++ " child"
  | unexpectedChild rule child => rule.name ++ " has a malformed " ++ child.name ++ " child"

/-- Why a run breaks off. -/
inductive Fault where
  /-- The feature file is not valid at a location. -/
  | invalid (location : Location) (reason : String)
  /-- The events break the contract of the grammar. -/
  | violation (v : Violation)
  deriving DecidableEq, Repr

namespace Fault

/-- What is wrong, without a word on whose mistake it is. -/
def detail : Fault → String
  | invalid location reason => location.text ++ ": " ++ reason
  | violation v => v.message

/-- A fault in words; those of a violation say that the feature file is not to blame. -/
def message : Fault → String
  | violation v => "internal grammar error: " ++ v.message
  | f => f.detail

theorem message_invalid (location : Location) (reason : String) :
    (invalid location reason).message = location.text ++ ": " ++ reason := rfl

theorem message_violation (v : Violation) :
    (violation v).message = "internal grammar error: " ++ v.message := rfl

/-- Whether the events are at fault and not the feature file. -/
def isViolation : Fault → Bool
  | violation _ => true
  | invalid .. => false

/-- Where the feature file is not valid. -/
def location? : Fault → Option Location
  | violation _ => none
  | invalid location _ => some location

/-- A fault is a violation, or it has a location in the feature file. -/
theorem isViolation_eq (f : Fault) : f.isViolation = f.location?.isNone := by
  cases f <;> rfl

end Fault

end Gherkin
