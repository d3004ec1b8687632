import Gherkin.Proofs.Acceptance
import Gherkin.Proofs.Calls
import Mathlib.Data.List.Flatten

/-!
# The lines of nested events

The lines of a forest are its leaves, from left to right, whatever rules they stand in. As events
are met, no line is lost and none changes its place: those of the open rules, from the outermost to
the innermost, are the lines of all events so far. So a document that comes of a run is made of a
forest whose leaves are among the lines of the run, in their order.

## Main definitions

* `Gherkin.Forest.leaves`, `Gherkin.Nesting.leaves` : the lines of a forest and of a nesting.

## Main results

* `Gherkin.Forest.tokens_sublist_leaves`, `Gherkin.Forest.flatMap_under_sublist` : what stands in a
  rule directly, and what stands in the rules in it.
* `Gherkin.Nesting.leaves_after` : the lines of events are kept.
* `Gherkin.Assembly.exists_values_of_replay` : the forest that a document is made of.
-/

namespace Gherkin

/-- The line that an event is, if it is one. -/
def Event.token? : Event → Option Token
  | .token t => some t
  | _ => none

/-! ### Forests -/

namespace Forest

/-- The lines of a forest, whatever rules they stand in. -/
def leaves (ts : Forest) : List Token := (Forest.events ts).filterMap Event.token?

@[simp]
theorem leaves_nil : leaves [] = [] := by
  simp [leaves]

@[simp]
theorem leaves_append (ts us : Forest) : leaves (ts ++ us) = leaves ts ++ leaves us := by
  simp [leaves]

@[simp]
theorem leaves_token_cons (t : Token) (ts : Forest) : leaves (.token t :: ts) = t :: leaves ts := by
  simp [leaves, Event.token?]

@[simp]
theorem leaves_node_cons (r : Rule) (inner ts : Forest) :
    leaves (.node r inner :: ts) = leaves inner ++ leaves ts := by
  simp [leaves, List.filterMap_cons, Event.token?]

/-- The lines that stand directly in a forest are some of its lines. -/
theorem tokens_sublist_leaves (ts : Forest) : (tokens ts).Sublist (leaves ts) := by
  induction ts using Forest.induction with
  | nil => simp [tokens]
  | token t ts ih =>
    rw [leaves_token_cons]
    exact ih.cons_cons t
  | node r inner ts _ ih =>
    rw [leaves_node_cons]
    exact ih.trans (List.sublist_append_right _ _)

/-- The lines in some of the rules of a forest are some of its lines. -/
theorem flatMap_under_sublist (r : Rule) (ts : Forest) :
    ((under r ts).flatMap leaves).Sublist (leaves ts) := by
  induction ts using Forest.induction with
  | nil => simp [under]
  | token t ts ih =>
    rw [leaves_token_cons]
    exact ih.cons t
  | node q inner ts _ ih =>
    rw [leaves_node_cons]
    by_cases hq : q = r
    · have hunder : under r (.node q inner :: ts) = inner :: under r ts := by
        simp [under, Tree.under?, hq]
      rw [hunder, List.flatMap_cons]
      exact ih.append_left (leaves inner)
    · have hunder : under r (.node q inner :: ts) = under r ts := by
        simp [under, Tree.under?, hq]
      rw [hunder]
      exact ih.trans (List.sublist_append_right _ _)

end Forest

/-! ### Nestings -/

namespace Nesting

/-- The lines of the open rules, from the outermost to the innermost. -/
def leaves (n : Nesting) : List Token :=
  (n.around.reverse.flatMap fun p => Forest.leaves p.1) ++ Forest.leaves n.here

/-- An event adds the line that it is, and moves no other. -/
theorem leaves_step (n : Nesting) (e : Event) :
    (n.step e).leaves = n.leaves ++ e.token?.toList := by
  cases e with
  | token t => simp [leaves, step, Event.token?]
  | enter r => simp [leaves, step, Event.token?]
  | leave r =>
    obtain ⟨here, _ | ⟨p, around⟩⟩ := n
    · simp [leaves, step, Event.token?]
    · simp [leaves, step, Event.token?]

theorem leaves_after (n : Nesting) (es : List Event) :
    (n.after es).leaves = n.leaves ++ es.filterMap Event.token? := by
  induction es generalizing n with
  | nil => simp
  | cons e es ih =>
    rw [after_cons, ih, leaves_step, List.append_assoc, List.filterMap_cons]
    cases e.token? <;> rfl

/-- The outermost frame holds a forest that is part of the nesting. -/
theorem Reaches.exists_root {n : Nesting} {s : Assembly} (hs : n.Reaches s) :
    ∃ ts vs cs, Forest.values #[] ts = .ok (vs, cs) ∧
      s.root = .ofContents .outermost (Forest.tokens ts) vs ∧
      (Forest.leaves ts).Sublist n.leaves := by
  induction hs with
  | @outermost ts vs cs h =>
    refine ⟨ts, vs, cs, h, Frame.new_absorb _ _ _, ?_⟩
    exact List.sublist_append_right _ _
  | @inside n s r us ws cs' hs h ih =>
    obtain ⟨ts, vs, cs, hts, hroot, hsub⟩ := ih
    refine ⟨ts, vs, cs, hts, ?_, hsub.trans ?_⟩
    · rw [Assembly.enter_absorb]
      exact hroot
    · simp [leaves]

end Nesting

/-! ### Runs -/

namespace Assembly

/-- A document with a feature is the first one of the outermost frame. -/
theorem first?_root_of_result {s : Assembly} {f : Feature} (hf : s.result.1.feature = some f) :
    s.root.first? .document Value.document? = some s.result.1 := by
  rw [fst_result_eq] at hf ⊢
  split at hf
  · next d hd =>
    obtain ⟨ds, hds, hhead⟩ := Except.map_eq_ok_iff.mp hd
    rw [Frame.first?, Frame.all_eq_of_childrenOf hds, hhead]
  · cases hf

/-- **Nothing is invented.** A document with a feature is made of a forest whose lines are among
those of the run, in their order. -/
theorem exists_values_of_replay {es : List Event} {s : Assembly} {d : Document} {f : Feature}
    (hd : (handler.replay es s).1 = .ok d) (hf : d.feature = some f) :
    ∃ ts vs cs, Forest.values #[] ts = .ok (vs, cs) ∧
      (Frame.ofContents .outermost (Forest.tokens ts) vs).first? .document Value.document? =
        some d ∧
      (Forest.leaves ts).Sublist (es.filterMap Event.token?) := by
  obtain ⟨s', hes, rfl⟩ := handler.exists_feedAll_of_replay hd
  have hreset : handler.reset s = empty := rfl
  rw [hreset] at hes
  rcases Nesting.reaches_empty.feedAll es with ⟨s'', hes', hs, -⟩ | ⟨x, hes', -⟩
  · obtain rfl : s'' = s' := congrArg Prod.snd (hes'.symm.trans hes)
    obtain ⟨ts, vs, cs, hts, hroot, hsub⟩ := hs.exists_root
    refine ⟨ts, vs, cs, hts, ?_, ?_⟩
    · rw [← hroot]
      exact first?_root_of_result hf
    · rw [Nesting.leaves_after] at hsub
      exact hsub
  · rw [hes] at hes'
    cases hes'

end Assembly

end Gherkin
