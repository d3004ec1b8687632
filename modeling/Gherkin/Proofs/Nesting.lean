import Gherkin.Document.Table
import Gherkin.Event.Tree
import Gherkin.Fault
import Gherkin.Proofs.Forest

/-!
# Nesting and faulty ends

Which rules are open after some events, and what was met in each of them, can be read off the
events, whether they are well nested or not: a rule that is left goes, with what stands in it, to
the rule around it. From what stands in a rule it can be told whether it may be left, without
regard to what it would become.

## Main definitions

* `Gherkin.Nesting` : the open rules, with what was met in each of them.
* `Gherkin.Nesting.step`, `Gherkin.Nesting.after` : the nesting after an event and after several.
* `Gherkin.Forest.lines`, `Gherkin.Forest.under` : the lines of a kind that stand directly in a
  rule, and what stands in the rules directly in it.
* `Gherkin.Forest.fault?` : what is wrong with a rule that is left.
* `Gherkin.Nesting.fault?`, `Gherkin.Nesting.FaultyEnd`, `Gherkin.Nesting.FirstFault` : what is
  wrong with an end, and with the earliest end that is faulty.

## Main results

* `Gherkin.Nesting.after_events` : the events of a forest are met as that forest.
-/

namespace Gherkin

/-- The open rules, with what was met in each of them. -/
structure Nesting where
  /-- What stands in the innermost open rule, or outside every rule where none is open. -/
  here : Forest := []
  /-- The open rules, the innermost first, each with what stands before it in the rule around. -/
  around : List (Forest × Rule) := []

namespace Nesting

/-- No event was met yet. -/
def empty : Nesting := {}

/-- The nesting after one more event. An end is that of the innermost rule, whatever it is called;
where no rule is open it changes nothing. -/
def step (n : Nesting) : Event → Nesting
  | .token t => { n with here := n.here ++ [.token t] }
  | .enter r => ⟨[], (n.here, r) :: n.around⟩
  | .leave _ =>
    match n.around with
    | [] => n
    | (before, r) :: around => ⟨before ++ [.node r n.here], around⟩

/-- The nesting after more events. -/
def after (n : Nesting) (es : List Event) : Nesting := es.foldl step n

@[simp]
theorem after_nil (n : Nesting) : n.after [] = n := rfl

@[simp]
theorem after_cons (n : Nesting) (e : Event) (es : List Event) :
    n.after (e :: es) = (n.step e).after es := rfl

theorem after_append (n : Nesting) (es fs : List Event) :
    n.after (es ++ fs) = (n.after es).after fs :=
  List.foldl_append

/-- The events of a forest are met as that forest, and change nothing around it. -/
theorem after_events (n : Nesting) (ts : Forest) :
    n.after (Forest.events ts) = { n with here := n.here ++ ts } := by
  induction ts using Forest.induction generalizing n with
  | nil => simp
  | token t ts ih =>
    rw [Forest.events_cons, Tree.events_token, List.singleton_append, after_cons, ih]
    simp [step]
  | node r inner ts ihin ihts =>
    rw [Forest.events_cons, Tree.events_node, List.cons_append, after_cons, after_append,
      after_append, ihin, after_cons, after_nil, ihts]
    simp [step]

end Nesting

/-! ### What is wrong with a rule -/

/-- What stands in a tree that is the rule `r`. -/
def Tree.under? (r : Rule) : Tree → Option Forest
  | .token _ => none
  | .node q inner => if q = r then some inner else none

namespace Forest

/-- The lines of the kind `k` that stand directly in a forest. -/
def lines (k : TokenKind) (ts : Forest) : List Token := (tokens ts).filter fun t => t.kind = k

/-- What stands in each of the rules `r` that are directly in a forest. -/
def under (r : Rule) (ts : Forest) : List Forest := ts.filterMap (Tree.under? r)

/-- The rule `r` needs a line of the kind `k`. -/
def missingLine? (r : Rule) (k : TokenKind) (ts : Forest) : Option Violation :=
  if lines k ts = [] then some (.missingToken r k) else none

/-- The rule `r` needs to be without the rule `q` in it. -/
def unwantedRule? (r q : Rule) (ts : Forest) : Option Violation :=
  if under q ts = [] then none else some (.unexpectedChild r q)

/-- The rule `r` with a description needs a line of the kind `k`, and then no helper around the
description. -/
def described? (r : Rule) (k : TokenKind) (ts : Forest) : Option Violation :=
  (missingLine? r k ts).or (unwantedRule? r .descriptionHelper ts)

/-- The rule that the line of a feature is looked for in, with what stands in it: the first header
in the feature, or the feature itself where it has no header. -/
def header (ts : Forest) : Rule × Forest :=
  match under .featureHeader ts with
  | [] => (.feature, ts)
  | first :: _ => (.featureHeader, first)

/-- The language of the first line of a feature. -/
def language? (ts : Forest) : Option String := (lines .featureLine ts).head?.bind Token.dialect

/-- How the rule `r` with a forest in it breaks the contract of the grammar, if it does. The order
of the checks is the order of their precedence. -/
def violation? (r : Rule) (ts : Forest) : Option Violation :=
  match r with
  | .step => (unwantedRule? .step .stepArgument ts).or (missingLine? .step .stepLine ts)
  | .docString => missingLine? .docString .docStringSeparator ts
  | .background => described? .background .backgroundLine ts
  | .scenario => described? .scenario .scenarioLine ts
  | .outline => described? .outline .outlineLine ts
  | .scenarioDefinition =>
    if under .scenario ts = [] ∧ under .outline ts = [] then
      some (.missingChild .scenarioDefinition .scenario)
    else none
  | .examplesDefinition =>
    match under .examples ts with
    | [] => some (.missingChild .examplesDefinition .examples)
    | first :: _ => described? .examples .examplesLine first
  | .feature =>
    -- A feature without a usable line comes to nothing, and nothing else in it is looked at.
    if (language? (header ts).2).isSome then
      unwantedRule? (header ts).1 .descriptionHelper (header ts).2
    else none
  | _ => none

/-- The first row that has not as many cells as the first of all. -/
def raggedRow? (ts : Forest) : Option Token :=
  (lines .tableRow ts).find? fun t =>
    some t.items.length ≠ (lines .tableRow ts).head?.map fun first => first.items.length

/-- What is wrong with the rule `r` when it is left with a forest in it. -/
def fault? (r : Rule) (ts : Forest) : Option Fault :=
  match r with
  | .dataTable | .examplesTable => (raggedRow? ts).map fun t => .invalid t.location Ragged.reason
  | _ => (violation? r ts).map .violation

end Forest

/-! ### What is wrong with an end -/

namespace Nesting

/-- What is wrong with an end of the rule `r`. -/
def fault? (n : Nesting) (r : Rule) : Option Fault :=
  match n.around with
  | [] => some (.violation (.noOpenRule r))
  | (_, o) :: _ => if o = r then Forest.fault? r n.here else some (.violation (.unbalanced o r))

/-- The event at the position `i` is an end, and `x` is what is wrong with it. -/
def FaultyEnd (n : Nesting) (es : List Event) (i : Nat) (x : Fault) : Prop :=
  ∃ r, es[i]? = some (.leave r) ∧ (n.after (es.take i)).fault? r = some x

/-- `x` is what is wrong with the earliest faulty end. -/
def FirstFault (n : Nesting) (es : List Event) (x : Fault) : Prop :=
  ∃ i, n.FaultyEnd es i x ∧ ∀ j < i, ∀ y, ¬n.FaultyEnd es j y

section

variable {n : Nesting} {e : Event} {es : List Event} {i : Nat} {x y : Fault}

theorem not_faultyEnd_nil : ¬n.FaultyEnd [] i x := by
  simp [FaultyEnd]

theorem faultyEnd_cons_zero :
    n.FaultyEnd (e :: es) 0 x ↔ ∃ r, e = .leave r ∧ n.fault? r = some x := by
  simp [FaultyEnd]

theorem faultyEnd_cons_succ :
    n.FaultyEnd (e :: es) (i + 1) x ↔ (n.step e).FaultyEnd es i x := by
  simp [FaultyEnd]

/-- Where the first event is no faulty end, the earliest one comes later. -/
theorem firstFault_cons (he : ∀ r, e = .leave r → n.fault? r = none) :
    n.FirstFault (e :: es) x ↔ (n.step e).FirstFault es x := by
  have hzero : ∀ y, ¬n.FaultyEnd (e :: es) 0 y := by
    intro y hy
    obtain ⟨r, hr, hfault⟩ := faultyEnd_cons_zero.mp hy
    rw [he r hr] at hfault
    cases hfault
  constructor
  · rintro ⟨_ | i, hi, hfirst⟩
    · exact absurd hi (hzero x)
    · refine ⟨i, faultyEnd_cons_succ.mp hi, fun j hj y hy => ?_⟩
      exact hfirst (j + 1) (by omega) y (faultyEnd_cons_succ.mpr hy)
  · rintro ⟨i, hi, hfirst⟩
    refine ⟨i + 1, faultyEnd_cons_succ.mpr hi, fun j hj y hy => ?_⟩
    rcases j with _ | j
    · exact hzero y hy
    · exact hfirst j (by omega) y (faultyEnd_cons_succ.mp hy)

/-- There is one thing wrong with the earliest faulty end. -/
theorem FirstFault.unique (hx : n.FirstFault es x) (hy : n.FirstFault es y) : x = y := by
  obtain ⟨i, hi, hfirst⟩ := hx
  obtain ⟨j, hj, hfirst'⟩ := hy
  obtain rfl : i = j := by
    rcases Nat.lt_trichotomy i j with hij | hij | hij
    · exact absurd hi (hfirst' i hij x)
    · exact hij
    · exact absurd hj (hfirst j hij y)
  obtain ⟨r, hr, hx⟩ := hi
  obtain ⟨r', hr', hy⟩ := hj
  obtain rfl : r = r' := by simpa [hr] using hr'
  exact Option.some.inj (hx.symm.trans hy)

end

end Nesting

end Gherkin
