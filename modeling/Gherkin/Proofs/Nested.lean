import Gherkin.Assembly.Basic
import Gherkin.Proofs.Forest
import Gherkin.Proofs.Runs

/-!
# Nested events and their documents

An assembly that is fed the events of a forest ends with the values of the forest filed in the
frame that was innermost before, and with the frames around it unchanged; or it stops at the first
rule that has no value. So the document assembled from nested events is the one that is computed
from the forest by recursion, without any open frames.

## Main definitions

* `Gherkin.Frame.absorb`, `Gherkin.Assembly.absorb` : tokens and values filed at once.

## Main results

* `Gherkin.Assembly.leave_enter_absorb` : a rule that is left after tokens and values were filed
  in it.
* `Gherkin.Assembly.feedAll_events_of_ok`, `Gherkin.Assembly.feedAll_events_of_error` : what an
  assembly makes of the events of a forest, in any state.
* `Gherkin.Assembly.replay_events` : a run on the events of a forest.
-/

namespace Gherkin

/-! ### Filing at once -/

namespace Frame

/-- Files tokens, less the comments, and children from rules. -/
def absorb (f : Frame Value) (tokens : List Token) (children : List (Rule × Value)) :
    Frame Value where
  rule := f.rule
  tokens := f.tokens.append ((tokens.filter fun t => !t.kind.isComment).map fun t => (t.kind, t))
  children := f.children.append children

variable (f : Frame Value)

@[simp]
theorem absorb_nil : f.absorb [] [] = f := by
  simp [absorb]

@[simp]
theorem absorb_absorb (ts ts' : List Token) (vs vs' : List (Rule × Value)) :
    (f.absorb ts vs).absorb ts' vs' = f.absorb (ts ++ ts') (vs ++ vs') := by
  simp [absorb]

theorem fileToken_eq_absorb {t : Token} (ht : t.kind.isComment = false) :
    f.fileToken t = f.absorb [t] [] := by
  simp [absorb, fileToken, ht, Multimap.add_eq_append]

theorem fileChild_eq_absorb (r : Rule) (v : Value) : f.fileChild r v = f.absorb [] [(r, v)] := by
  simp [absorb, fileChild, Multimap.add_eq_append]

/-- A comment is filed in no frame. -/
theorem absorb_comment {t : Token} (ht : t.kind.isComment = true) : f.absorb [t] [] = f := by
  simp [absorb, ht]

theorem new_absorb (r : Rule) (ts : List Token) (vs : List (Rule × Value)) :
    (new r : Frame Value).absorb ts vs = ofContents r ts vs := rfl

end Frame

namespace Assembly

/-- Files tokens and the values of rules in the innermost frame, and lets `comments` wait. -/
def absorb (tokens : List Token) (values : List (Rule × Value)) (comments : Array Comment)
    (s : Assembly) : Assembly :=
  { s.modifyInnermost (·.absorb tokens values) with comments }

variable (s : Assembly) (ts ts' : List Token) (vs vs' : List (Rule × Value))
  (cs cs' : Array Comment)

@[simp]
theorem absorb_absorb :
    (s.absorb ts vs cs).absorb ts' vs' cs' = s.absorb (ts ++ ts') (vs ++ vs') cs' := by
  rcases s with ⟨root, _ | ⟨f, fs⟩, comments⟩ <;> simp [absorb, modifyInnermost]

theorem absorb_nil : s.absorb [] [] s.comments = s := by
  rcases s with ⟨root, _ | ⟨f, fs⟩, comments⟩ <;> simp [absorb, modifyInnermost]

/-- The comments that waited before make no difference. -/
@[simp]
theorem with_comments_absorb :
    absorb ts vs cs' { s with comments := cs } = s.absorb ts vs cs' := by
  rcases s with ⟨root, _ | ⟨f, fs⟩, comments⟩ <;> rfl

theorem attach_eq_absorb (t : Token) :
    s.attach t = s.absorb [t] [] (t.addComment s.comments) := by
  cases ht : t.kind.isComment <;> rcases s with ⟨root, _ | ⟨f, fs⟩, comments⟩ <;>
    simp [attach, absorb, modifyInnermost, Token.addComment, Frame.fileToken_eq_absorb,
      Frame.absorb_comment, ht]

theorem file_eq_absorb (r : Rule) (v : Value) :
    s.file r v = s.absorb [] [(r, v)] (if r = .document then #[] else s.comments) := by
  rcases s with ⟨root, _ | ⟨f, fs⟩, comments⟩ <;> by_cases hr : r = .document <;>
    simp [file, absorb, modifyInnermost, Frame.fileChild_eq_absorb, hr]

/-- What is filed after a rule was entered makes the contents of that rule. -/
theorem enter_absorb (r : Rule) : (s.enter r).absorb ts vs cs =
    { s with frames := .ofContents r ts vs :: s.frames, comments := cs } := by
  simp [enter, absorb, modifyInnermost, Frame.new_absorb]

/-- The innermost rule, left by its own name, becomes what its contents are concluded to. -/
theorem leave_enter_absorb (r : Rule) :
    ((s.enter r).absorb ts vs cs).leave r =
      match (Frame.ofContents r ts vs).conclude cs with
      | .ok v => (.ok v, s.absorb [] [(r, v)] (if r = .document then #[] else cs))
      | .error x => (.error x, { s with comments := cs }) := by
  rw [enter_absorb]
  simp only [leave, file_eq_absorb]
  rw [if_pos (Frame.rule_ofContents r ts vs)]
  cases (Frame.ofContents r ts vs).conclude cs with
  | error x => rfl
  | ok v => simp

/-- The innermost rule, left by another name, is dropped. -/
theorem leave_enter_absorb_of_ne {o r : Rule} (h : o ≠ r) :
    ((s.enter o).absorb ts vs cs).leave r =
      (.error (.violation (.unbalanced o r)), { s with comments := cs }) := by
  rw [enter_absorb]
  exact if_neg h

/-! ### Events of a forest -/

theorem feed_token (t : Token) :
    handler.feed (.token t) s = (.ok (), s.absorb [t] [] (t.addComment s.comments)) := by
  rw [← attach_eq_absorb]
  rfl

theorem feed_leave_of_ok {r : Rule} {v : Value}
    (hv : (Frame.ofContents r ts vs).conclude cs = .ok v) :
    handler.feed (.leave r) ((s.enter r).absorb ts vs cs) =
      (.ok (), s.absorb [] [(r, v)] (if r = .document then #[] else cs)) := by
  simp only [Handler.feed, handler, leave_enter_absorb, hv, reported]

theorem feed_leave_of_error {r : Rule} {x : Rejection}
    (hx : (Frame.ofContents r ts vs).conclude cs = .error x) :
    handler.feed (.leave r) ((s.enter r).absorb ts vs cs) =
      (.error x.fault, { s with comments := cs }) := by
  simp only [Handler.feed, handler, leave_enter_absorb, hx, reported]

variable {s vs cs}

/-- The values of a forest are filed in the innermost frame, whatever it holds already. -/
theorem feedAll_events_of_ok {ts : Forest} (h : Forest.values s.comments ts = .ok (vs, cs)) :
    handler.feedAll (Forest.events ts) s = (.ok (), s.absorb (Forest.tokens ts) vs cs) := by
  induction ts using Forest.induction generalizing s vs cs with
  | nil =>
    obtain ⟨rfl, rfl⟩ : [] = vs ∧ s.comments = cs := by simpa [Forest.values_nil] using h
    simp [Forest.tokens, absorb_nil]
  | token t ts ih =>
    rw [Forest.values_token_cons] at h
    rw [Forest.events_cons, Tree.events_token, List.singleton_append,
      Handler.feedAll_cons_of_ok _ (feed_token s t), ih h, absorb_absorb]
    rfl
  | node r inner ts ihin ihts =>
    obtain ⟨ws, cs', v, us, hin, hv, hts, rfl⟩ := Forest.values_node_cons_eq_ok_iff.mp h
    have henter : handler.feed (.enter r) s = (.ok (), s.enter r) := rfl
    -- What stands in the rule is fed to the state in which the rule is open and empty.
    have hinner := ihin (s := s.enter r) hin
    rw [Forest.events_cons, Tree.events_node, List.cons_append, List.append_assoc,
      Handler.feedAll_cons_of_ok _ henter, Handler.feedAll_append_of_ok _ hinner,
      List.singleton_append, Handler.feedAll_cons_of_ok _ (feed_leave_of_ok s _ _ _ hv), ihts hts,
      absorb_absorb]
    rfl

/-- The first rule of a forest that has no value is where an assembly stops. -/
theorem feedAll_events_of_error {ts : Forest} {x : Rejection}
    (h : Forest.values s.comments ts = .error x) :
    (handler.feedAll (Forest.events ts) s).1 = .error x.fault := by
  induction ts using Forest.induction generalizing s with
  | nil => simp [Forest.values_nil] at h
  | token t ts ih =>
    rw [Forest.values_token_cons] at h
    rw [Forest.events_cons, Tree.events_token, List.singleton_append,
      Handler.feedAll_cons_of_ok _ (feed_token s t), ih h]
  | node r inner ts ihin ihts =>
    have henter : handler.feed (.enter r) s = (.ok (), s.enter r) := rfl
    rw [Forest.events_cons, Tree.events_node, List.cons_append, List.append_assoc,
      Handler.feedAll_cons_of_ok _ henter]
    rcases Forest.values_node_cons_eq_error_iff.mp h with hin | ⟨ws, cs, hin, hlast⟩
    · exact Handler.feedAll_append_of_error _ (ihin (s := s.enter r) hin) _
    · have hinner := feedAll_events_of_ok (s := s.enter r) hin
      rw [Handler.feedAll_append_of_ok _ hinner, List.singleton_append]
      rcases hlast with hx | ⟨v, hv, hts⟩
      · rw [Handler.feedAll_cons_of_error _ (feed_leave_of_error s _ _ _ hx)]
      · rw [Handler.feedAll_cons_of_ok _ (feed_leave_of_ok s _ _ _ hv), ihts hts]

/-! ### The document of a forest -/

/-- Among sound values, the documents are those of the rule that documents come from. -/
theorem first?_document_eq_findSome? (ts : List Token) {vs : List (Rule × Value)}
    (hvs : ∀ p ∈ vs, p.2.Sound p.1) :
    (Frame.ofContents .outermost ts vs).first? .document Value.document? =
      vs.findSome? fun p => p.2.document? := by
  rw [Frame.first?, Frame.all, Frame.children_get_ofContents]
  induction vs with
  | nil => rfl
  | cons p vs ih =>
    obtain ⟨r, v⟩ := p
    have hv : v.Sound r := hvs _ List.mem_cons_self
    by_cases hr : r = .document
    · subst hr
      obtain ⟨d, hd, -⟩ := Value.Reading.document.sound hv
      simp [hd]
    · have hd : v.document? = none := by
        cases hv <;> first | rfl | contradiction
      simpa [hr, hd] using ih fun p hp => hvs p (List.mem_cons_of_mem _ hp)

/-- The document handed out is the first of the values filed at the outermost level. -/
theorem result_empty_absorb (ts : List Token) {vs : List (Rule × Value)}
    (hvs : ∀ p ∈ vs, p.2.Sound p.1) :
    (empty.absorb ts vs cs).result.1 =
      (vs.findSome? fun p => p.2.document?).getD ⟨none, cs.toList⟩ := by
  have hroot : (empty.absorb ts vs cs).root = .ofContents .outermost ts vs :=
    Frame.new_absorb _ _ _
  rw [fst_result_eq, hroot, (Frame.sound_ofContents hvs).child?_eq .document,
    first?_document_eq_findSome? ts hvs]
  cases vs.findSome? fun p => p.2.document? <;> rfl

/-- Where all rules of a forest have a value, a run on its events gives the first document. -/
theorem replay_events_of_ok {ts : Forest} (h : Forest.values #[] ts = .ok (vs, cs))
    (s : Assembly) : (handler.replay (Forest.events ts) s).1 =
      .ok ((vs.findSome? fun p => p.2.document?).getD ⟨none, cs.toList⟩) := by
  rw [handler.replay_of_ok (feedAll_events_of_ok (s := empty) h)]
  exact congrArg Except.ok (result_empty_absorb _ (Forest.sound_of_values h))

/-- **Nested events.** A run on the events of a forest gives the document of the forest, or fails
as its computation does. -/
theorem replay_events (ts : Forest) (s : Assembly) :
    (handler.replay (Forest.events ts) s).1 = Forest.document ts := by
  unfold Forest.document
  cases hts : Forest.values #[] ts with
  | error x => exact handler.replay_of_error (feedAll_events_of_error (s := empty) hts)
  | ok out => exact replay_events_of_ok hts s

end Assembly

end Gherkin
