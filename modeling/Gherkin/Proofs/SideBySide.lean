import Gherkin.Proofs.AgreedReadings
import Gherkin.Proofs.Documents
import Gherkin.Proofs.Shapes

/-!
# Two assemblies side by side

Two assemblies agree when they have the same rules open and their frames agree one by one, from the
outermost to the innermost. Whatever both are told next, they cannot be told apart: they refuse the
same ends for the same reasons, and go on to agree. So what was not read of a frame by the time it
is left has no effect on anything that comes after.

## Main definitions

* `Gherkin.Assembly.Agree` : assemblies whose frames agree.

## Main results

* `Gherkin.Assembly.Agree.attach`, `Gherkin.Assembly.Agree.enter`, `Gherkin.Assembly.Agree.leave` :
  single operations.
* `Gherkin.Assembly.Agree.feed`, `Gherkin.Assembly.Agree.feedAll` : events.
* `Gherkin.Assembly.Agree.result` : the documents that are handed out.
-/

namespace Gherkin

theorem Event.comment?_token_eq_none_iff {u : Token} :
    (Event.token u).comment? = none ↔ u.kind.isComment = false := by
  cases hu : u.kind.isComment <;> simp [comment?, Token.comment?_eq, hu]

/-- An event that brings a comment is a line. -/
theorem Event.exists_of_comment?_eq_some {e : Event} {c : Comment} (h : e.comment? = some c) :
    ∃ u, e = .token u ∧ u.kind.isComment = true := by
  cases e with
  | token u =>
    refine ⟨u, rfl, ?_⟩
    by_contra hu
    rw [comment?_token_eq_none_iff.mpr (Bool.eq_false_iff.mpr hu)] at h
    cases h
  | enter r => cases h
  | leave r => cases h

namespace Assembly

/-- The frames of two assemblies agree, and the comments that wait are related by `K`. -/
structure Agree (K : List Comment → List Comment → Prop) (s t : Assembly) : Prop where
  outermost : s.root.rule = .outermost
  root : s.root.Agree K t.root
  frames : List.Forall₂ (Frame.Agree K) s.frames t.frames
  comments : K s.comments.toList t.comments.toList

variable {K : List Comment → List Comment → Prop} {s t : Assembly}

theorem agree_empty (hK : K [] []) : empty.Agree K empty :=
  ⟨rfl, Frame.agree_new _, .nil, hK⟩

namespace Agree

theorem depth_eq (h : s.Agree K t) : s.depth = t.depth := h.frames.length_eq

/-! ### Single operations -/

/-- What is done to the innermost frames keeps them in agreement. -/
theorem modifyInnermost (h : s.Agree K t) {a b : Frame Value → Frame Value}
    (ha : ∀ f, (a f).rule = f.rule) (hab : ∀ f g, f.Agree K g → (a f).Agree K (b g)) :
    (s.modifyInnermost a).Agree K (t.modifyInnermost b) := by
  obtain ⟨root, frames, comments⟩ := s
  obtain ⟨root', frames', comments'⟩ := t
  obtain ⟨houtermost, hroot, hframes, hcomments⟩ := h
  cases hframes with
  | nil => exact ⟨(ha root).trans houtermost, hab _ _ hroot, .nil, hcomments⟩
  | cons hfg hframes => exact ⟨houtermost, hroot, .cons (hab _ _ hfg) hframes, hcomments⟩

/-- A line that is no comment is filed in both. -/
theorem attach (h : s.Agree K t) {u v : Token} (hk : u.kind = v.kind)
    (hu : u.kind.isComment = false) (huv : u.Agree u.kind v) :
    (s.attach u).Agree K (t.attach v) := by
  have hs : s.attach u = s.modifyInnermost (·.fileToken u) := if_neg (by simp [hu])
  have ht : t.attach v = t.modifyInnermost (·.fileToken v) := if_neg (by simp [← hk, hu])
  rw [hs, ht]
  exact h.modifyInnermost (fun _ => rfl) fun _ _ hfg => hfg.fileToken hk huv

theorem enter (h : s.Agree K t) (r : Rule) : (s.enter r).Agree K (t.enter r) :=
  ⟨h.outermost, h.root, .cons (Frame.agree_new r) h.frames, h.comments⟩

theorem file (hK : K [] []) (h : s.Agree K t) (r : Rule) {v w : Value} (hvw : v.Agree K w) :
    (s.file r v).Agree K (t.file r w) := by
  have hfiled := h.modifyInnermost (fun f => f.rule_fileChild r v) fun _ _ hfg =>
    hfg.fileChild r hvw
  unfold Assembly.file
  by_cases hr : r = .document
  · simp only [if_pos hr]
    exact ⟨hfiled.outermost, hfiled.root, hfiled.frames, hK⟩
  · simp only [if_neg hr]
    exact hfiled

/-- The same end is refused for the same reason, or the rule becomes values that agree. -/
theorem leave (hK : K [] []) (h : s.Agree K t) (hs : s.Sound) (ht : t.Sound) (r : Rule) :
    Except.Agree (Value.Agree K) (s.leave r).1 (t.leave r).1 ∧
      (s.leave r).2.Agree K (t.leave r).2 := by
  obtain ⟨root, frames, comments⟩ := s
  obtain ⟨root', frames', comments'⟩ := t
  obtain ⟨houtermost, hroot, hframes, hcomments⟩ := h
  cases hframes with
  | nil => exact ⟨.error _, houtermost, hroot, .nil, hcomments⟩
  | @cons f g fs gs hfg hframes =>
    have hrest : Agree K ⟨root, fs, comments⟩ ⟨root', gs, comments'⟩ :=
      ⟨houtermost, hroot, hframes, hcomments⟩
    have hconclude := hfg.conclude (hs.frames f List.mem_cons_self) (ht.frames g List.mem_cons_self)
      hcomments
    simp only [Assembly.leave, ← hfg.rule]
    by_cases hr : f.rule = r
    · simp only [if_pos hr]
      generalize f.conclude comments = x, g.conclude comments' = y at hconclude
      cases hconclude with
      | ok hvw => exact ⟨.ok hvw, hrest.file hK r hvw⟩
      | error e => exact ⟨.error e, hrest⟩
    · simp only [if_neg hr]
      exact ⟨.error _, hrest⟩

/-- The documents handed out have the same feature. -/
theorem result (h : s.Agree K t) (hs : s.Sound) (ht : t.Sound) :
    s.result.1.feature = t.result.1.feature ∧ K s.result.1.comments t.result.1.comments := by
  obtain ⟨d?, hd, hsd⟩ := hs.result_eq
  obtain ⟨e?, he, hte⟩ := ht.result_eq
  rw [hs.root.child?_eq .document] at hd
  rw [ht.root.child?_eq .document] at he
  have hrel := h.root.first?_rel h.outermost .document hs.root ht.root
    (fun _ _ hvw => hvw.document?) rfl
  rw [Except.ok.inj hd, Except.ok.inj he] at hrel
  rw [hsd, hte]
  cases hrel with
  | some hde => exact hde
  | none => exact ⟨rfl, h.comments⟩

/-- Where also the comments agree, the same document is handed out. -/
theorem result_eq (h : s.Agree Eq t) (hs : s.Sound) (ht : t.Sound) : s.result.1 = t.result.1 := by
  obtain ⟨hfeature, hcomments⟩ := h.result hs ht
  exact congrArg₂ Document.mk hfeature hcomments

/-! ### Events -/

/-- What is reported of ends that agree is the same. -/
theorem reported_eq {x y : Except Rejection Value} (h : Except.Agree (Value.Agree K) x y) :
    reported x = reported y := by
  cases h <;> rfl

/-- **One event.** An event that is no comment is refused for the same reason in both, or taken in
by both. -/
theorem feed (hK : K [] []) (h : s.Agree K t) (hs : s.Sound) (ht : t.Sound) {e : Event}
    (he : e.comment? = none) :
    (handler.feed e s).1 = (handler.feed e t).1 ∧
      (handler.feed e s).2.Agree K (handler.feed e t).2 := by
  cases e with
  | token u =>
    exact ⟨rfl, h.attach rfl (Event.comment?_token_eq_none_iff.mp he) (u.agree_refl _)⟩
  | enter r => exact ⟨rfl, h.enter r⟩
  | leave r =>
    obtain ⟨houtcome, hagree⟩ := h.leave hK hs ht r
    exact ⟨reported_eq houtcome, hagree⟩

/-- The same comment waits in both. -/
theorem attach_comment (h : s.Agree Eq t) {u v : Token} (hk : u.kind = v.kind)
    (hu : u.kind.isComment = true) (huv : u.Agree u.kind v) :
    (s.attach u).Agree Eq (t.attach v) := by
  have hs : s.attach u = { s with comments := s.comments.push (.ofToken u) } := if_pos hu
  have ht : t.attach v = { t with comments := t.comments.push (.ofToken v) } := if_pos (hk ▸ hu)
  rw [TokenKind.isComment_iff.mp hu] at huv
  have hcomment : Comment.ofToken u = .ofToken v := congrArg₂ Comment.mk huv.1 huv.2
  rw [hs, ht]
  refine ⟨h.outermost, h.root, h.frames, ?_⟩
  rw [Array.toList_push, Array.toList_push, h.comments, hcomment]

/-- **Many events.** Where also the comments agree, the same event is the first to be refused. -/
theorem feedAll (h : s.Agree Eq t) (hs : s.Sound) (ht : t.Sound) (es : List Event) :
    (handler.feedAll es s).1 = (handler.feedAll es t).1 ∧
      (handler.feedAll es s).2.Agree Eq (handler.feedAll es t).2 := by
  have hfeed (e f : Event) (s t : Assembly) (hef : e = f)
      (hst : s.Agree Eq t ∧ s.Sound ∧ t.Sound) :
      (handler.feed e s).1 = (handler.feed f t).1 ∧
        (handler.feed e s).2.Agree Eq (handler.feed f t).2 ∧
          (handler.feed e s).2.Sound ∧ (handler.feed f t).2.Sound := by
    obtain ⟨h, hs, ht⟩ := hst
    subst hef
    have hsound := And.intro (keeps_sound.feed hs e) (keeps_sound.feed ht e)
    cases he : e.comment? with
    | none =>
      obtain ⟨hreply, hagree⟩ := h.feed rfl hs ht he
      exact ⟨hreply, hagree, hsound⟩
    | some c =>
      obtain ⟨u, rfl, hu⟩ := Event.exists_of_comment?_eq_some he
      exact ⟨rfl, h.attach_comment rfl hu (u.agree_refl _), hsound⟩
  obtain ⟨hreply, hagree, -⟩ :=
    Handler.feedAll_rel hfeed (List.forall₂_same.mpr fun e _ => rfl) ⟨h, hs, ht⟩
  exact ⟨hreply, hagree⟩

end Agree

end Assembly

end Gherkin
