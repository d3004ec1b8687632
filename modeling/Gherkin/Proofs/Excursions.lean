import Gherkin.Proofs.Documents

/-!
# A rule and what is around it

From the event that enters a rule to the one that leaves it again, an assembly works on the frames
of that rule and of the rules inside it. What was open before is not looked at and not changed,
whatever is refused on the way: at the end either one value is filed around the rule, or nothing is,
and the comments wait. So what becomes of the rule is the same in every state, and a rule that came
to nothing leaves no trace but its comments.

## Main definitions

* `Gherkin.Assembly.through` : the state after events, whatever is refused.
* `Gherkin.Assembly.Excursion` : events from the one that enters a rule to the one that leaves it.
* `Gherkin.Assembly.around` : the open rules of one state inside those of another.
* `Gherkin.Assembly.settle` : a state after a rule that was entered and left in it.
* `Gherkin.Assembly.Settled` : what such a state has to do with the one before, queue by queue.

## Main results

* `Gherkin.Assembly.depth_through` : events alone say how many rules are open.
* `Gherkin.Assembly.performAll_around` : events inside an open rule do not depend on what is around.
* `Gherkin.Assembly.settles_of_excursion` : what a rule does to the state around it.
-/

namespace Gherkin

/-- The number of open rules after an event, from that before it. -/
def Event.climb : Event → Nat → Nat
  | .token _, n => n
  | .enter _, n => n + 1
  | .leave _, n => n - 1

/-- The value of a document is the only one that depends on the comments that wait. -/
theorem Frame.conclude_eq_of_ne {f : Frame Value} (h : f.rule ≠ .document)
    (cs cs' : Array Comment) : f.conclude cs = f.conclude cs' := by
  unfold conclude
  cases hr : f.rule with
  | document => exact absurd hr h
  | _ => rfl

namespace Assembly

/-- The state after events, whatever is refused on the way. -/
def through (s : Assembly) (es : List Event) : Assembly := (handler.performAll (es.map .event) s).2

/-- The events `w` enter the rule `r` in the state `s`, leave no rule that was open before, and end
with the event by which `r` is no longer open. No document ends in them. -/
structure Excursion (s : Assembly) (r : Rule) (w : List Event) : Prop where
  starts : w.head? = some (.enter r)
  above : ∀ i < w.length, 0 < i → s.depth < (s.through (w.take i)).depth
  returns : (s.through w).depth = s.depth
  no_document : .leave .document ∉ w

/-! ### Events one by one -/

section Through

variable {s : Assembly} {e : Event} {es : List Event}

@[simp]
theorem through_nil : s.through [] = s := rfl

@[simp]
theorem through_cons : s.through (e :: es) = (handler.feed e s).2.through es := by
  rw [through, List.map_cons, Handler.performAll_cons, Handler.snd_perform_event]
  rfl

theorem through_append (fs : List Event) : s.through (es ++ fs) = (s.through es).through fs := by
  rw [through, List.map_append, Handler.performAll_append]
  rfl

theorem depth_feed (e : Event) (s : Assembly) : (handler.feed e s).2.depth = e.climb s.depth := by
  cases e with
  | token t => exact depth_attach s t
  | enter r => rfl
  | leave r => exact depth_leave s r

/-- How many rules are open is said by the events alone. -/
theorem depth_through (es : List Event) (s : Assembly) :
    (s.through es).depth = es.foldl (fun n e => e.climb n) s.depth := by
  induction es generalizing s with
  | nil => rfl
  | cons e es ih => rw [through_cons, ih, depth_feed, List.foldl_cons]

theorem toList_comments_feed (he : e ≠ .leave .document) :
    (handler.feed e s).2.comments.toList = s.comments.toList ++ e.comment?.toList := by
  cases e with
  | token t => exact toList_comments_attach t s
  | enter r => exact (List.append_nil _).symm
  | leave r =>
    have hr : r ≠ .document := fun hr => he (hr ▸ rfl)
    change (s.leave r).2.comments.toList = s.comments.toList ++ []
    rcases s.leave_cases r with ⟨x, hx⟩ | ⟨f, fs, v, -, -, -, hleave⟩
    · simp [hx]
    · simp [hleave, comments_file, hr]

/-- Where no document ends, all comments wait. -/
theorem toList_comments_through (hes : .leave .document ∉ es) :
    (s.through es).comments.toList = s.comments.toList ++ es.filterMap Event.comment? := by
  induction es generalizing s with
  | nil => simp
  | cons e es ih =>
    rw [List.mem_cons, not_or] at hes
    rw [through_cons, ih hes.2, toList_comments_feed (Ne.symm hes.1), List.append_assoc,
      List.filterMap_cons]
    cases e.comment? <;> rfl

/-- Comments do nothing but wait. -/
theorem through_comments (hes : ∀ e ∈ es, e.comment?.isSome = true) :
    s.through es = { s with comments := s.comments ++ (es.filterMap Event.comment?).toArray } := by
  induction es generalizing s with
  | nil => simp
  | cons e es ih =>
    obtain ⟨he, hrest⟩ := List.forall_mem_cons.mp hes
    cases e with
    | token t =>
      have ht : t.kind.isComment = true := by
        cases ht : t.kind.isComment
        · simp [Event.comment?, Token.comment?_eq, ht] at he
        · rfl
      have hattach : s.attach t = { s with comments := s.comments.push (.ofToken t) } := if_pos ht
      rw [through_cons]
      change (s.attach t).through es = _
      rw [hattach, ih hrest]
      simp [Event.comment?, Token.comment?_eq, ht]
    | enter r => cases he
    | leave r => cases he

end Through

/-- Some rule is open before, during and after the events. -/
def StaysOpen (t : Assembly) (es : List Event) : Prop :=
  ∀ i ≤ es.length, 0 < (t.through (es.take i)).depth

theorem StaysOpen.depth_pos {t : Assembly} {es : List Event} (h : t.StaysOpen es) : 0 < t.depth :=
  h 0 (Nat.zero_le _)

theorem StaysOpen.tail {t : Assembly} {e : Event} {es : List Event} (h : t.StaysOpen (e :: es)) :
    (handler.feed e t).2.StaysOpen es := fun i hi => by
  simpa using h (i + 1) (by simpa using hi)

/-! ### Inside other rules -/

/-- The state `t` with its open rules inside those of `s` and its comments after them. -/
def around (s t : Assembly) : Assembly := ⟨s.root, t.frames ++ s.frames, s.comments ++ t.comments⟩

@[simp]
theorem depth_around (s t : Assembly) : (s.around t).depth = t.depth + s.depth :=
  List.length_append

theorem enter_eq_around (s : Assembly) (r : Rule) : s.enter r = s.around (empty.enter r) := by
  simp [around, enter, empty]

theorem frames_ne_nil_iff {s : Assembly} : s.frames ≠ [] ↔ 0 < s.depth :=
  List.length_pos_iff.symm

section Around

variable (s : Assembly) {t : Assembly} {r : Rule}

theorem attach_around (u : Token) (ht : t.frames ≠ []) :
    (s.around t).attach u = s.around (t.attach u) := by
  obtain ⟨root, _ | ⟨f, fs⟩, comments⟩ := t
  · exact absurd rfl ht
  · cases hu : u.kind.isComment <;> simp [attach, around, modifyInnermost, hu]

/-- A rule that is left inside another open rule. -/
theorem leave_around {f g : Frame Value} {fs : List (Frame Value)} (ht : t.frames = f :: g :: fs)
    (hr : r ≠ .document) :
    (s.around t).leave r = ((t.leave r).1, s.around (t.leave r).2) := by
  obtain ⟨root, frames, comments⟩ := t
  obtain rfl : frames = f :: g :: fs := ht
  by_cases hf : f.rule = r
  · have hconclude := f.conclude_eq_of_ne (hf ▸ hr) (s.comments ++ comments) comments
    simp only [leave, around, List.cons_append, if_pos hf, hconclude]
    cases f.conclude comments with
    | ok v => simp [file, modifyInnermost, hr]
    | error x => rfl
  · simp [leave, around, hf]

end Around

/-- What is said of a rule that was left. -/
def replyTo : Except Rejection Value → Reply Fault Document
  | .ok _ => .done
  | .error x => .refused x.fault

/-- The state `s` after the rule `r` was entered and left in it: the value of the rule is filed in
the innermost frame if there is one, and the comments of the rule wait. -/
def settle (s : Assembly) (r : Rule) (outcome : Except Rejection Value) (comments : List Comment) :
    Assembly :=
  match outcome with
  | .ok v =>
    { s.modifyInnermost (·.fileChild r v) with comments := s.comments ++ comments.toArray }
  | .error _ => { s with comments := s.comments ++ comments.toArray }

/-- What the state `t` after the rule `r` was entered and left has to do with the state `s` before:
in the innermost frame the values stand in the queue of `r`, after those that were there, and the
comments wait after those that waited. Every other queue and every other frame is as it was. -/
structure Settled (s t : Assembly) (r : Rule) (values : List Value) (comments : List Comment) :
    Prop where
  root : s.frames ≠ [] → t.root = s.root
  depth : t.depth = s.depth
  outer : t.frames.tail = s.frames.tail
  rule : t.innermost.rule = s.innermost.rule
  tokens : t.innermost.tokens = s.innermost.tokens
  queue : t.innermost.children.get r = s.innermost.children.get r ++ values
  others : ∀ q, q ≠ r → t.innermost.children.get q = s.innermost.children.get q
  comments : t.comments.toList = s.comments.toList ++ comments

/-- A rule that was left has settled, with its value if it has one and with nothing if not. -/
theorem settled_settle (s : Assembly) (r : Rule) (outcome : Except Rejection Value)
    (comments : List Comment) :
    s.Settled (s.settle r outcome comments) r outcome.toOption.toList comments := by
  obtain ⟨root, frames, pending⟩ := s
  have hcomments : (pending ++ comments.toArray).toList = pending.toList ++ comments := by simp
  cases outcome with
  | error x =>
    exact ⟨fun _ => rfl, rfl, rfl, rfl, rfl, (List.append_nil _).symm, fun _ _ => rfl, hcomments⟩
  | ok v =>
    have hqueue (f : Frame Value) : (f.fileChild r v).children.get r = f.children.get r ++ [v] :=
      f.children.get_add_self r v
    have hothers (f : Frame Value) (q : Rule) (hq : q ≠ r) :
        (f.fileChild r v).children.get q = f.children.get q :=
      f.children.get_add_of_ne (Ne.symm hq) v
    cases frames with
    | nil => exact ⟨absurd rfl, rfl, rfl, rfl, rfl, hqueue root, hothers root, hcomments⟩
    | cons f fs => exact ⟨fun _ => rfl, rfl, rfl, rfl, rfl, hqueue f, hothers f, hcomments⟩

/-- The last rule of `t` that is open is left, and `s` is around it. -/
theorem leave_around_singleton (s : Assembly) {t : Assembly} {f : Frame Value} {r : Rule}
    (ht : t.frames = [f]) (hr : r ≠ .document) : (s.around t).leave r =
      ((t.leave r).1, s.settle f.rule (t.leave r).1 t.comments.toList) := by
  obtain ⟨root, frames, comments⟩ := t
  obtain rfl : frames = [f] := ht
  by_cases hf : f.rule = r
  · have hconclude := f.conclude_eq_of_ne (hf ▸ hr) (s.comments ++ comments) comments
    simp only [leave, around, List.cons_append, List.nil_append, if_pos hf, hconclude]
    cases f.conclude comments with
    | ok v =>
      obtain ⟨sroot, _ | ⟨g, gs⟩, scomments⟩ := s <;>
        simp [file, modifyInnermost, settle, hr, hf]
    | error x => simp [settle]
  · simp [leave, around, hf, settle]

theorem perform_leave (s : Assembly) (r : Rule) :
    handler.perform (.event (.leave r)) s = (replyTo (s.leave r).1, (s.leave r).2) := by
  simp only [Handler.perform, Handler.feed, handler]
  cases (s.leave r).1 <;> rfl

/-- An event after which a rule of `t` is still open does not depend on what is around `t`. -/
theorem perform_around (s : Assembly) {t : Assembly} {e : Event} (ht : 0 < t.depth)
    (ht' : 0 < (handler.feed e t).2.depth) (he : e ≠ .leave .document) :
    handler.perform (.event e) (s.around t) =
      ((handler.perform (.event e) t).1, s.around (handler.feed e t).2) := by
  cases e with
  | token u => exact congrArg (Prod.mk _) (s.attach_around u (frames_ne_nil_iff.mpr ht))
  | enter r => rfl
  | leave r =>
    have hr : r ≠ .document := fun hr => he (hr ▸ rfl)
    rw [depth_feed] at ht'
    match hfs : t.frames with
    | [] => simp [depth, hfs] at ht
    | [f] => simp [depth, hfs, Event.climb] at ht'
    | f :: g :: fs =>
      rw [perform_leave, perform_leave, leave_around s hfs hr]
      rfl

/-- **Events inside a rule.** As long as a rule of `t` is open, the replies to events do not depend
on what is around `t`, and what is around `t` does not change. -/
theorem performAll_around (s : Assembly) {t : Assembly} {es : List Event}
    (ht : t.StaysOpen es) (hes : .leave .document ∉ es) :
    handler.performAll (es.map .event) (s.around t) =
      ((handler.performAll (es.map .event) t).1, s.around (t.through es)) := by
  induction es generalizing t with
  | nil => rfl
  | cons e es ih =>
    rw [List.mem_cons, not_or] at hes
    have hstep := s.perform_around ht.depth_pos ht.tail.depth_pos (Ne.symm hes.1)
    rw [List.map_cons, Handler.performAll_cons, Handler.performAll_cons, hstep,
      Handler.snd_perform_event, ih ht.tail hes.2, through_cons]

/-- The outermost of the rules open in `t` stays the same. -/
theorem bottom_feed {t : Assembly} {e : Event} (ht : 0 < t.depth)
    (ht' : 0 < (handler.feed e t).2.depth) :
    (handler.feed e t).2.frames.getLast?.map Frame.rule = t.frames.getLast?.map Frame.rule := by
  obtain ⟨root, fs, comments⟩ := t
  cases e with
  | token u =>
    change (attach u _).frames.getLast?.map Frame.rule = _
    rcases fs with _ | ⟨f, _ | ⟨g, fs⟩⟩ <;> cases hu : u.kind.isComment <;>
      simp [attach, modifyInnermost, hu]
  | enter r =>
    change (enter r _).frames.getLast?.map Frame.rule = _
    rcases fs with _ | ⟨f, fs⟩
    · simp [depth] at ht
    · simp [enter]
  | leave r =>
    rw [depth_feed] at ht'
    rcases fs with _ | ⟨f, _ | ⟨g, fs⟩⟩
    · simp [depth] at ht
    · simp [depth, Event.climb] at ht'
    · change (leave r _).2.frames.getLast?.map Frame.rule = _
      rcases leave_cases r ⟨root, f :: g :: fs, comments⟩ with ⟨x, hx⟩ | ⟨f', fs', v, hfs, -, -, hv⟩
      · simp [hx]
      · obtain ⟨rfl, rfl⟩ := List.cons.inj hfs
        rw [hv]
        rcases fs with _ | ⟨k, fs⟩ <;> by_cases hr : r = .document <;>
          simp [file, modifyInnermost, hr]

theorem bottom_through {t : Assembly} {es : List Event} (ht : t.StaysOpen es) :
    (t.through es).frames.getLast?.map Frame.rule = t.frames.getLast?.map Frame.rule := by
  induction es generalizing t with
  | nil => rfl
  | cons e es ih =>
    rw [through_cons, ih ht.tail]
    exact bottom_feed ht.depth_pos ht.tail.depth_pos

/-- Where more rules stay open than before, the difference does not depend on those before. -/
theorem staysOpen_of_above {d : Nat} {t : Assembly} {es : List Event}
    (h : ∀ i ≤ es.length, d < (es.take i).foldl (fun n e => e.climb n) (t.depth + d)) :
    t.StaysOpen es := by
  induction es generalizing t with
  | nil =>
    intro i hi
    obtain rfl : i = 0 := Nat.le_zero.mp hi
    simpa using h 0 (Nat.zero_le _)
  | cons e es ih =>
    have hzero : 0 < t.depth := by simpa using h 0 (Nat.zero_le _)
    have hone : d < e.climb (t.depth + d) := by simpa using h 1 (by simp)
    have hclimb : e.climb (t.depth + d) = (handler.feed e t).2.depth + d := by
      rw [depth_feed]
      cases e <;> simp only [Event.climb] at hone ⊢ <;> omega
    have hrest := ih (t := (handler.feed e t).2) fun i hi => by
      rw [← hclimb]
      simpa using h (i + 1) (by simpa using hi)
    intro i hi
    cases i with
    | zero => exact hzero
    | succ i => simpa using hrest i (by simpa using hi)

/-! ### A rule from beginning to end -/

/-- The events of an excursion are the one that enters the rule, events through which the rule stays
open, and one that leaves the rule. -/
theorem Excursion.exists_eq {s : Assembly} {r : Rule} {w : List Event} (hw : s.Excursion r w) :
    ∃ inner q, w = .enter r :: (inner ++ [.leave q]) ∧ (empty.enter r).StaysOpen inner ∧
      ((empty.enter r).through inner).depth = 1 := by
  obtain ⟨rest, rfl⟩ : ∃ rest, w = .enter r :: rest := by
    cases w with
    | nil => exact nomatch hw.starts
    | cons e rest => exact ⟨rest, congrArg (· :: rest) (Option.some.inj hw.starts)⟩
  have hreturns := hw.returns
  have hdocument := hw.no_document
  rcases List.eq_nil_or_concat rest with rfl | ⟨inner, last, rfl⟩
  · rw [depth_through] at hreturns
    simp [Event.climb] at hreturns
  · rw [List.concat_eq_append] at hw hreturns hdocument ⊢
    have habove : ∀ i ≤ inner.length, s.depth <
        (inner.take i).foldl (fun n e => e.climb n) ((empty.enter r).depth + s.depth) := by
      intro i hi
      have h := hw.above (i + 1) (by simp; omega) (by omega)
      rw [List.take_succ_cons, List.take_append_of_le_length hi, depth_through,
        List.foldl_cons] at h
      simpa [Event.climb, Nat.add_comm] using h
    have hopen := staysOpen_of_above habove
    have hinner : .leave .document ∉ inner := fun h => hdocument (by simp [h])
    have hpos : 0 < ((empty.enter r).through inner).depth := by
      simpa using hopen inner.length (Nat.le_refl _)
    -- Only an end can close what is open, and it closes one rule.
    have hlast : (s.enter r).through inner = s.around ((empty.enter r).through inner) := by
      rw [enter_eq_around]
      exact congrArg Prod.snd (s.performAll_around hopen hinner)
    have hclimb : last.climb (((empty.enter r).through inner).depth + s.depth) = s.depth := by
      rw [← depth_around, ← hlast, ← depth_feed, ← hreturns, through_cons, through_append,
        through_cons, through_nil]
      rfl
    cases last with
    | token t => simp only [Event.climb] at hclimb; omega
    | enter q => simp only [Event.climb] at hclimb; omega
    | leave q =>
      refine ⟨inner, q, rfl, hopen, ?_⟩
      simp only [Event.climb] at hclimb
      omega

/-- The replies to the events of a rule and its outcome are those of a state in which nothing else
is open. -/
theorem performAll_rule (s : Assembly) {r q : Rule} {inner : List Event} {t : Assembly}
    (hopen : (empty.enter r).StaysOpen inner) (ht : (empty.enter r).through inner = t)
    (hdepth : t.depth = 1) (hinner : .leave .document ∉ inner) (hq : q ≠ .document) :
    handler.performAll ((.enter r :: (inner ++ [.leave q])).map .event) s =
      (.done :: ((handler.performAll (inner.map .event) (empty.enter r)).1 ++
        [replyTo (t.leave q).1]), s.settle r (t.leave q).1 (inner.filterMap Event.comment?)) := by
  have henter : handler.perform (.event (.enter r)) s = (.done, s.around (empty.enter r)) := by
    rw [← enter_eq_around]
    rfl
  obtain ⟨f, hf⟩ : ∃ f, t.frames = [f] := List.length_eq_one_iff.mp hdepth
  have hrule : f.rule = r := by
    have hbottom := bottom_through hopen
    rw [ht, hf] at hbottom
    simpa [enter, empty] using hbottom
  have hcomments : t.comments.toList = inner.filterMap Event.comment? := by
    rw [← ht, toList_comments_through hinner]
    simp [enter, empty]
  rw [List.map_cons, List.map_append, Handler.performAll_cons, henter, Handler.performAll_append,
    s.performAll_around hopen hinner, ht, List.map_singleton, Handler.performAll_cons,
    perform_leave, leave_around_singleton s hf hq, hrule, hcomments]
  rfl

theorem perform_leave_of_depth_eq_zero {s : Assembly} (hs : s.depth = 0) (q : Rule) :
    handler.perform (.event (.leave q)) s = (.refused (.violation (.noOpenRule q)), s) := by
  obtain ⟨root, frames, comments⟩ := s
  obtain rfl : frames = [] := List.length_eq_zero_iff.mp hs
  rfl

/-- **A rule and what is around it.** What becomes of a rule, from the event that enters it to the
one that leaves it, is the same in every state: which events are refused and why, and the value in
the end, if there is one. That value is all that the state around the rule gets, besides comments:
it goes to the end of the queue of the rule in the innermost frame, and no other queue and no other
frame changes. Where there is no value, it is as if only the comments had been met. An end where no
rule is open changes nothing at all. -/
theorem settles_of_excursion {s₀ : Assembly} {r : Rule} {w : List Event} (hw : s₀.Excursion r w) :
    (∃ replies outcome, replies.getLast? = some (replyTo outcome) ∧ ∀ s : Assembly,
      handler.performAll (w.map .event) s =
        (replies, s.settle r outcome (w.filterMap Event.comment?)) ∧
      s.Settled (s.through w) r outcome.toOption.toList (w.filterMap Event.comment?) ∧
      ∀ x, outcome = .error x → s.through w = s.through (w.filter fun e => e.comment?.isSome)) ∧
    ∀ s q, s.depth = 0 →
      handler.perform (.event (.leave q)) s = (.refused (.violation (.noOpenRule q)), s) := by
  refine ⟨?_, fun s q hs => perform_leave_of_depth_eq_zero hs q⟩
  have hdocument := hw.no_document
  obtain ⟨inner, q, rfl, hopen, hdepth⟩ := hw.exists_eq
  have hq : q ≠ .document := by
    rintro rfl
    simp at hdocument
  have hinner : .leave .document ∉ inner := fun h => hdocument (by simp [h])
  have hcomments : (.enter r :: (inner ++ [.leave q])).filterMap Event.comment? =
      inner.filterMap Event.comment? := by
    rw [List.filterMap_cons_none rfl, List.filterMap_append, List.filterMap_cons_none rfl,
      List.filterMap_nil, List.append_nil]
  have hrule (s : Assembly) := s.performAll_rule hopen rfl hdepth hinner hq
  rw [← hcomments] at hrule
  refine ⟨_, _, ?_, fun s => ⟨hrule s, ?_, fun x hx => ?_⟩⟩
  · rw [← List.cons_append, List.getLast?_concat]
  · rw [through, hrule]
    exact s.settled_settle _ _ _
  · have hfiltered : ∀ e ∈ (Event.enter r :: (inner ++ [.leave q])).filter
        (fun e => e.comment?.isSome), e.comment?.isSome = true := fun e he =>
      (List.mem_filter.mp he).2
    have hsame : (fun e => if e.comment?.isSome = true then e.comment? else none) =
        Event.comment? := by
      funext e
      cases e.comment? <;> rfl
    rw [through, hrule, hx, through_comments hfiltered, List.filterMap_filter, hsame]
    rfl

/-- A step that is left by a wrong name inside, and then refused for want of its line, and a step
that is left with its line. -/
def stepEvents (kind : TokenKind) : List Event :=
  [.enter .step,
    .token { kind, location := ⟨1, 1⟩, keyword := some "Given ", text := "a cat" },
    .enter .dataTable, .token { kind := .comment, location := ⟨2, 1⟩, text := "# grey" },
    .leave .docString, .leave .step]

theorem settles_of_stepEvents :
    (empty.Excursion .step (stepEvents .stepLine) ∧ empty.Excursion .step (stepEvents .other)) ∧
      (∃ replies outcome, replies.getLast? = some (replyTo outcome) ∧ ∀ s : Assembly,
        handler.performAll ((stepEvents .stepLine).map .event) s =
          (replies, s.settle .step outcome ((stepEvents .stepLine).filterMap Event.comment?)) ∧
        s.Settled (s.through (stepEvents .stepLine)) .step outcome.toOption.toList
          ((stepEvents .stepLine).filterMap Event.comment?) ∧
        ∀ x, outcome = .error x → s.through (stepEvents .stepLine) =
          s.through ((stepEvents .stepLine).filter fun e => e.comment?.isSome)) ∧
      (handler.performAll ((stepEvents .stepLine).map .event) .empty).1.drop 4 =
        [.refused (.violation (.unbalanced .dataTable .docString)), .done] ∧
      (handler.performAll ((stepEvents .other).map .event) .empty).1.drop 4 =
        [.refused (.violation (.unbalanced .dataTable .docString)),
          .refused (.violation (.missingToken .step .stepLine))] ∧
      (let s := (empty.enter .scenario).through (stepEvents .stepLine)
        let step : Value := .step ⟨⟨1, 1⟩, "Given ", "a cat", none⟩
        let comment : Comment := ⟨⟨2, 1⟩, "# grey"⟩
        s.innermost.children.get .step = [step] ∧
        (s.through (stepEvents .stepLine)).innermost.children.get .step = [step, step] ∧
        (s.through (stepEvents .other)).innermost.children.get .step = [step] ∧
        (s.through (stepEvents .stepLine)).comments = #[comment, comment] ∧
        (s.through (stepEvents .other)).comments = #[comment, comment]) := by
  have hdone : empty.Excursion .step (stepEvents .stepLine) :=
    ⟨rfl, by decide, rfl, by decide⟩
  have hrefused : empty.Excursion .step (stepEvents .other) := ⟨rfl, by decide, rfl, by decide⟩
  exact ⟨⟨hdone, hrefused⟩, (settles_of_excursion hdone).1, by decide, by decide, rfl, rfl, rfl,
    rfl, rfl⟩

end Assembly

end Gherkin
