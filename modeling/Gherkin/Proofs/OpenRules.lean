import Gherkin.Proofs.Acceptance
import Gherkin.Proofs.SideBySide

/-!
# The open rules after any calls

Which rules are open, and what stands in each of them, can be read off the calls alone, also where
calls go on after a refusal: a rule whose end is faulty is gone with all that stands in it, a new
start forgets all rules, and a result changes none. Each open frame of an assembly is read like what
stands in its rule, up to the comments of documents, since a comment waits outside the frames even
where the rule that it was met in is gone.

So also after refusals an end is refused exactly for what is wrong with it.

## Main definitions

* `Gherkin.Nesting.leave`, `Gherkin.Nesting.perform`, `Gherkin.Nesting.ofCalls` : the open rules
  after an end, after a call and after calls.
* `Gherkin.Frame.Shows` : a frame that is read like a rule with a forest in it.
* `Gherkin.Nesting.Shown` : frames that show the open rules one by one.

## Main results

* `Gherkin.Nesting.Shown.leave` : an end is refused for what is wrong with it.
* `Gherkin.Nesting.shown_ofCalls` : the frames after calls show the open rules after the calls.
-/

namespace Gherkin

/-! ### Open rules -/

namespace Nesting

/-- The nesting without the innermost open rule, if there is one. -/
def drop (n : Nesting) : Nesting :=
  match n.around with
  | [] => n
  | (before, _) :: around => ⟨before, around⟩

/-- The nesting after an end. Where the end is faulty the innermost open rule is gone. -/
def leave (n : Nesting) (r : Rule) : Nesting :=
  if (n.fault? r).isSome then n.drop else n.step (.leave r)

/-- The nesting after a call. -/
def perform (n : Nesting) : Call → Nesting
  | .reset => empty
  | .event (.token t) => n.step (.token t)
  | .event (.enter r) => n.step (.enter r)
  | .event (.leave r) => n.leave r
  | .result => n

/-- The nesting after calls, from the one in which nothing was met. -/
def ofCalls (cs : List Call) : Nesting := cs.foldl perform empty

end Nesting

/-! ### Frames that show what stands in a rule -/

/-- Any comments go with any others. -/
def AnyComments (_ _ : List Comment) : Prop := True

/-- Whatever comments waited when the rule of the frame `f` was entered, the forest `ts` has values,
and `f` is read like the rule with the forest in it. -/
def Frame.Shows (f : Frame Value) (ts : Forest) : Prop :=
  ∀ comments, ∃ vs cs, Forest.values comments ts = .ok (vs, cs) ∧
    (Frame.ofContents f.rule (Forest.tokens ts) vs).Agree AnyComments f

namespace Frame

/-- Contents to which a line is added. -/
theorem fileToken_ofContents (r : Rule) (ts : List Token) (vs : List (Rule × Value)) {t : Token}
    (ht : t.kind.isComment = false) :
    (ofContents r ts vs).fileToken t = ofContents r (ts ++ [t]) vs := by
  rw [fileToken_eq_absorb _ ht, ← new_absorb, absorb_absorb, new_absorb, List.append_nil]

/-- Contents to which a child is added. -/
theorem fileChild_ofContents (r : Rule) (ts : List Token) (vs : List (Rule × Value)) (q : Rule)
    (v : Value) : (ofContents r ts vs).fileChild q v = ofContents r ts (vs ++ [(q, v)]) := by
  rw [fileChild_eq_absorb, ← new_absorb, absorb_absorb, new_absorb, List.append_nil]

/-- A comment is no part of the contents. -/
theorem ofContents_comment (r : Rule) (ts : List Token) (vs : List (Rule × Value)) {t : Token}
    (ht : t.kind.isComment = true) : ofContents r (ts ++ [t]) vs = ofContents r ts vs := by
  simp [ofContents, ht]

theorem shows_new (r : Rule) : (new r : Frame Value).Shows [] := by
  intro comments
  refine ⟨[], comments, Forest.values_nil, ?_⟩
  have hnew : ofContents r (Forest.tokens []) [] = new r := by
    rw [← new_absorb]
    exact absorb_nil _
  rw [rule_new, hnew]
  exact agree_new r

namespace Shows

variable {f g : Frame Value} {ts us : Forest}

/-- A line that is filed stands after all else in the rule. -/
theorem fileToken (hf : f.Shows ts) {t : Token} (ht : t.kind.isComment = false) :
    (f.fileToken t).Shows (ts ++ [.token t]) := by
  intro comments
  obtain ⟨vs, cs, hvs, hagree⟩ := hf comments
  refine ⟨vs ++ [], t.addComment cs, Forest.values_append hvs ?_, ?_⟩
  · rw [Forest.values_token_cons, Forest.values_nil]
  · rw [List.append_nil, Forest.tokens_append, rule_fileToken]
    have hfiled := hagree.fileToken rfl (t.agree_refl t.kind)
    rwa [fileToken_ofContents _ _ _ ht] at hfiled

/-- A comment is not filed. -/
theorem comment (hf : f.Shows ts) {t : Token} (ht : t.kind.isComment = true) :
    f.Shows (ts ++ [.token t]) := by
  intro comments
  obtain ⟨vs, cs, hvs, hagree⟩ := hf comments
  refine ⟨vs ++ [], t.addComment cs, Forest.values_append hvs ?_, ?_⟩
  · rw [Forest.values_token_cons, Forest.values_nil]
  · rw [List.append_nil, Forest.tokens_append]
    exact (ofContents_comment f.rule _ vs ht).symm ▸ hagree

/-- What comes of the frame and what comes of the rule that it shows: the same, up to the comments
of documents. -/
theorem conclude (hf : f.Shows ts) (hfs : f.Sound) (before waiting : Array Comment) :
    ∃ vs cs, Forest.values before ts = .ok (vs, cs) ∧
      Except.Agree (Value.Agree AnyComments)
        ((ofContents f.rule (Forest.tokens ts) vs).conclude cs) (f.conclude waiting) := by
  obtain ⟨vs, cs, hvs, hagree⟩ := hf before
  exact ⟨vs, cs, hvs, hagree.conclude (Forest.sound_contents hvs f.rule) hfs trivial⟩

/-- A frame is refused for what is wrong with the rule that it shows. -/
theorem reason?_conclude (hf : f.Shows ts) (hfs : f.Sound) (waiting : Array Comment) :
    (f.conclude waiting).reason?.map Rejection.fault = Forest.fault? f.rule ts := by
  obtain ⟨vs, cs, hvs, hagree⟩ := hf.conclude hfs #[] waiting
  rw [← Forest.fault?_eq hvs f.rule cs]
  generalize (ofContents f.rule (Forest.tokens ts) vs).conclude cs = x, f.conclude waiting = y
    at hagree
  cases hagree <;> rfl

/-- The value of a frame that is filed stands, as the rule that it came of, after all else. -/
theorem fileChild (hf : f.Shows ts) (hg : g.Shows us) (hgs : g.Sound) {waiting : Array Comment}
    {v : Value} (hv : g.conclude waiting = .ok v) :
    (f.fileChild g.rule v).Shows (ts ++ [.node g.rule us]) := by
  intro comments
  obtain ⟨vs, cs, hvs, hagree⟩ := hf comments
  obtain ⟨ws, cs', hws, hout⟩ := hg.conclude hgs cs waiting
  rw [hv] at hout
  generalize hx : (ofContents g.rule (Forest.tokens us) ws).conclude cs' = x at hout
  cases hout with
  | @ok w _ hwv =>
    have hnode : Forest.values cs [.node g.rule us] =
        .ok ([(g.rule, w)], if g.rule = .document then #[] else cs') :=
      Forest.values_node_cons_eq_ok_iff.mpr ⟨ws, cs', w, [], hws, hx, Forest.values_nil, rfl⟩
    refine ⟨vs ++ [(g.rule, w)], _, Forest.values_append hvs hnode, ?_⟩
    · have htokens : Forest.tokens (ts ++ [.node g.rule us]) = Forest.tokens ts := by
        simp [Forest.tokens, Tree.token?]
      rw [htokens, ← fileChild_ofContents]
      exact hagree.fileChild g.rule hwv

end Shows

end Frame

/-! ### Frames one by one -/

namespace Nesting

open Assembly (handler)

/-- Each frame shows what stands in its rule, the innermost first. -/
inductive Shown : Nesting → List (Frame Value) → Prop
  | outermost (ts : Forest) : Shown ⟨ts, []⟩ []
  | inside {n : Nesting} {fs : List (Frame Value)} {f : Frame Value} {ts : Forest}
      (hn : Shown n fs) (hf : f.Shows ts) : Shown ⟨ts, (n.here, f.rule) :: n.around⟩ (f :: fs)

namespace Shown

variable {n : Nesting} {s : Assembly} (hn : n.Shown s.frames)

include hn

theorem attach (t : Token) : (n.step (.token t)).Shown (s.attach t).frames := by
  obtain ⟨root, frames, comments⟩ := s
  cases hn with
  | outermost ts => cases ht : t.kind.isComment <;> simpa [Assembly.attach, ht] using .outermost _
  | @inside n fs f ts hn hf =>
    cases ht : t.kind.isComment with
    | true => simpa [Assembly.attach, ht, step] using hn.inside (hf.comment ht)
    | false =>
      have hfiled := hn.inside (hf.fileToken ht)
      simpa [Assembly.attach, Assembly.modifyInnermost, ht, step] using hfiled

theorem enter (r : Rule) : (n.step (.enter r)).Shown (s.enter r).frames :=
  hn.inside (Frame.shows_new r)

/-- The value of a rule is filed where the rule around it is shown. -/
theorem file {g : Frame Value} {us : Forest} (hg : g.Shows us) (hgs : g.Sound)
    {waiting : Array Comment} {v : Value} (hv : g.conclude waiting = .ok v) :
    Shown { n with here := n.here ++ [.node g.rule us] } (s.file g.rule v).frames := by
  have hframes : (s.file g.rule v).frames =
      (s.modifyInnermost (·.fileChild g.rule v)).frames := by
    unfold Assembly.file
    split <;> rfl
  rw [hframes]
  obtain ⟨root, frames, comments⟩ := s
  cases hn with
  | outermost ts => exact .outermost _
  | inside hn hf => exact hn.inside (hf.fileChild hg hgs hv)

/-- **Ends.** An end is refused for what is wrong with it, also where ends were refused before. -/
theorem leave (hs : s.Sound) (r : Rule) :
    (s.leave r).1.reason?.map Rejection.fault = n.fault? r ∧
      (n.leave r).Shown (s.leave r).2.frames := by
  obtain ⟨root, frames, comments⟩ := s
  cases hn with
  | outermost ts => exact ⟨rfl, .outermost ts⟩
  | @inside n fs f ts hn hf =>
    have hfs : f.Sound := hs.frames f List.mem_cons_self
    by_cases hr : f.rule = r
    · have hreason := hf.reason?_conclude hfs comments
      have hfault : Nesting.fault? ⟨ts, (n.here, f.rule) :: n.around⟩ r =
          Forest.fault? f.rule ts := by
        rw [← hr]
        exact if_pos rfl
      simp only [Assembly.leave, if_pos hr, Nesting.leave, hfault, ← hreason]
      cases hv : f.conclude comments with
      | error x => exact ⟨rfl, hn⟩
      | ok v =>
        refine ⟨rfl, ?_⟩
        rw [← hr]
        exact file (s := ⟨root, fs, comments⟩) hn hf hfs hv
    · have hfault : Nesting.fault? ⟨ts, (n.here, f.rule) :: n.around⟩ r =
          some (.violation (.unbalanced f.rule r)) := if_neg hr
      simp only [Assembly.leave, if_neg hr, Nesting.leave, hfault]
      exact ⟨rfl, hn⟩

theorem perform (hs : s.Sound) (c : Call) :
    (n.perform c).Shown (handler.perform c s).2.frames := by
  match c with
  | .reset => exact .outermost []
  | .event (.token t) => exact hn.attach t
  | .event (.enter r) => exact hn.enter r
  | .event (.leave r) =>
    rw [Handler.snd_perform_event]
    exact (hn.leave hs r).2
  | .result =>
    have hframes : s.result.2.frames = s.frames := by
      unfold Assembly.result
      dsimp only
      split <;> rfl
    exact hframes.symm ▸ hn

theorem performAll (hs : s.Sound) (cs : List Call) :
    (cs.foldl Nesting.perform n).Shown (handler.performAll cs s).2.frames := by
  induction cs generalizing n s with
  | nil => exact hn
  | cons c cs ih => exact ih (hn.perform hs c) (Assembly.keeps_sound.perform hs c)

end Shown

/-- **The open rules.** After any calls, whatever was refused, the frames show the open rules. -/
theorem shown_ofCalls (cs : List Call) : (ofCalls cs).Shown (Assembly.ofCalls cs).frames :=
  Shown.performAll (s := .empty) (.outermost []) Assembly.sound_empty cs

end Nesting

end Gherkin
