import Gherkin.Assembly.Basic

/-!
# The journal of an assembly

While a document is assembled a journal is kept: every rule that is entered or left is noted, every
rejection, and every feature that comes to nothing. A session is an assembly with its journal; it
answers calls one at a time, or whole runs, and hands over the notes made in the meantime.

## Main definitions

* `Gherkin.Level`, `Gherkin.Note` : a note and its weight.
* `Gherkin.Note.ofOutcome` : the notes on what became of a rule.
* `Gherkin.Session` : an assembly with the notes made on it.
* `Gherkin.Session.handler` : assembles a document and keeps the journal.
* `Gherkin.Session.call`, `Gherkin.Session.calls` : calls answered one at a time.
* `Gherkin.Session.run`, `Gherkin.Session.runs` : runs on one session, one after the other.
-/

namespace Gherkin

/-- The weight of a note. -/
inductive Level where
  | trace
  | debug
  | warn
  deriving DecidableEq, Repr

/-- The name of a level. -/
def Level.name : Level → String
  | trace => "TRACE"
  | debug => "DEBUG"
  | warn => "WARN"

/-- An entry of the journal. -/
structure Note where
  level : Level
  text : String
  deriving DecidableEq, Repr

namespace Note

/-- The note on a rule that is entered while `depth` rules are open. -/
def entering (r : Rule) (depth : Nat) : Note :=
  ⟨.trace, "start " ++ r.name ++ " at depth " ++ depth.repr⟩

/-- The note on a rule that is about to be left while `depth` rules are open. -/
def leaving (r : Rule) (depth : Nat) : Note :=
  ⟨.trace, "end " ++ r.name ++ " at depth " ++ depth.repr⟩

/-- The note on a row that makes its table ragged. -/
def row (x : Ragged) : Note :=
  ⟨.debug, "table row at " ++ x.location.text ++ " has " ++ x.cells.repr ++ " cells, expected " ++
    x.expected.repr⟩

/-- The note on the rejection of the rule `r`. -/
def rejection (r : Rule) : Rejection → Note
  | .violation v => ⟨.warn, "grammar contract violated: " ++ v.message⟩
  | .ragged x => ⟨.debug, "rejected " ++ r.name ++ ": " ++ (Rejection.ragged x).fault.detail⟩

/-- The notes on what became of the rule `r`. -/
def ofOutcome (r : Rule) : Except Rejection Value → List Note
  | .error (.ragged x) => [row x, rejection r (.ragged x)]
  | .error (.violation v) => [rejection r (.violation v)]
  | .ok (.feature (.error absence)) => [⟨.debug, absence.message⟩]
  | .ok _ => []

end Note

/-! ### Sessions -/

/-- An assembly with the notes made on it and not yet handed over, the earliest first. -/
structure Session where
  assembly : Assembly := .empty
  notes : Array Note := #[]

/-- What a run or a call comes back with: its outcome, the number of rules then open, and the notes
made on the way. -/
structure Report (ρ : Type) where
  outcome : ρ
  depth : Nat
  notes : List Note

namespace Session

/-- Nothing has been met and nothing noted. -/
def empty : Session := {}

instance : Inhabited Session := ⟨empty⟩

/-- Enters a rule. -/
def enter (r : Rule) (s : Session) : Session where
  assembly := s.assembly.enter r
  notes := s.notes.push (.entering r s.assembly.depth)

/-- Leaves the innermost rule. -/
def leave (r : Rule) (s : Session) : Except Fault Unit × Session :=
  let (outcome, assembly) := s.assembly.leave r
  (Assembly.reported outcome,
    { assembly
      notes := s.notes.push (.leaving r s.assembly.depth) ++ Note.ofOutcome r outcome })

/-- Assembles a document and keeps the journal. -/
def handler : Handler Session Fault Document where
  reset s := { s with assembly := .empty }
  attach t s := { s with assembly := s.assembly.attach t }
  enter := enter
  leave := leave
  result s :=
    let (document, assembly) := s.assembly.result
    (document, { s with assembly })

/-- The reply to an event does not depend on the notes. -/
theorem fst_feed (e : Event) (s : Session) :
    (handler.feed e s).1 = (Assembly.handler.feed e s.assembly).1 := by
  cases e <;> rfl

theorem assembly_feed (e : Event) (s : Session) :
    (handler.feed e s).2.assembly = (Assembly.handler.feed e s.assembly).2 := by
  cases e <;> rfl

/-- Reports an outcome and hands over the notes made until then. -/
def report {ρ : Type} (outcome : ρ) (s : Session) : Report ρ × Session :=
  (⟨outcome, s.assembly.depth, s.notes.toList⟩, { s with notes := #[] })

/-- Answers a call. -/
def call (c : Call) (s : Session) : Report (Reply Fault Document) × Session :=
  let (reply, s) := handler.perform c s
  s.report reply

/-- Makes a run. -/
def run (es : List Event) (s : Session) : Report (Except Fault Document) × Session :=
  let (outcome, s) := handler.replay es s
  s.report outcome

/-- Answers calls one after the other. -/
def calls : List Call → Session → List (Report (Reply Fault Document))
  | [], _ => []
  | c :: cs, s =>
    let (report, s) := s.call c
    report :: calls cs s

/-- Makes runs one after the other. -/
def runs : List (List Event) → Session → List (Report (Except Fault Document))
  | [], _ => []
  | es :: rest, s =>
    let (report, s) := s.run es
    report :: runs rest s

end Session

end Gherkin
