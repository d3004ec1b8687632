import Gherkin.Proofs.Calls
import Gherkin.Proofs.Refusals

/-!
# Shapes in the frames

What a frame holds is not typed, and frames hold frames. In every state that calls lead to, all
frames have a shape all the same, however deep they are: a token is filed under its own kind, a
value is of the sort that its rule becomes, and a frame that is kept is filed under its own rule.
No reader ever meets a value of another sort. Where an end is refused over a child of some rule,
that is a child which the reader forbids, and not one which it could not read.

## Main definitions

* `Gherkin.Frame.Within`, `Gherkin.Assembly.Holds` : the frames that are kept at any depth.
* `Gherkin.Value.HasShape`, `Gherkin.Frame.Shaped` : the shape of a value and of a frame.

## Main results

* `Gherkin.Frame.Sound.forbidden_of_conclude` : the children over which a frame is refused.
* `Gherkin.Assembly.shaped_ofCalls` : calls keep all frames in shape.
-/

namespace Gherkin

/-! ### Shapes -/

/-- A value is of the sort that the rule `r` becomes. A frame is one of a rule that is kept, and
that rule is `r`. -/
def Value.HasShape (r : Rule) : Value → Prop
  | document _ => r = .document
  | feature _ => r = .feature
  | background _ => r = .background
  | child c => r = .scenarioDefinition ∧ c.background? = none
  | scenario _ => r = .scenario
  | outline _ _ => r = .outline
  | examples _ => r = .examplesDefinition
  | rows _ => r = .examplesTable
  | step _ => r = .step
  | dataTable _ => r = .dataTable
  | docString _ => r = .docString
  | description _ => r = .description
  | frame f => f.rule = r ∧ r.isKept = true

/-- Nothing is filed under a key without values. Tokens are filed under their own kinds, none of
which is that of comments, and values under the rules that they come from. -/
structure Frame.Shaped (f : Frame Value) : Prop where
  tokens : ∀ k ∈ f.tokens.keys, f.tokens.get k ≠ [] ∧ k ≠ .comment ∧
    ∀ t ∈ f.tokens.get k, t.kind = k
  children : ∀ r ∈ f.children.keys, f.children.get r ≠ [] ∧
    ∀ v ∈ f.children.get r, v.HasShape r

/-- A sound value is of the sort of its rule. -/
theorem Value.Sound.hasShape {r : Rule} {v : Value} (hv : v.Sound r) : v.HasShape r := by
  cases hv with
  | scenarioDefinition _ hb => exact ⟨rfl, hb⟩
  | kept hr hk => exact ⟨hr, hk⟩
  | _ => rfl

/-! ### Frames in frames -/

/-- The first frame is the second, or it is a child at some depth in it. -/
inductive Frame.Within : Frame Value → Frame Value → Prop
  | refl (f : Frame Value) : Within f f
  | child {f g k : Frame Value} {r : Rule} (hg : .frame g ∈ k.children.get r) (h : Within f g) :
      Within f k

/-- A frame is the outermost one, an open one, or a child at some depth in one of these. -/
def Assembly.Holds (s : Assembly) (f : Frame Value) : Prop :=
  ∃ g, (g = s.root ∨ g ∈ s.frames) ∧ f.Within g

namespace Frame

variable {f g : Frame Value}

/-- The frames in a sound frame are sound. -/
theorem Within.sound (h : f.Within g) (hg : g.Sound) : f.Sound := by
  induction h with
  | refl => exact hg
  | child hmem _ ih =>
    cases hg.children _ _ hmem with
    | kept _ _ ht hc hft hfc => exact ih ⟨ht, hc, hft, hfc⟩

/-- The first frame that is read among the children. -/
theorem within_of_first? {r : Rule} (h : f.first? r Value.frame? = some g) : g.Within f := by
  obtain ⟨v, hv, hg⟩ := mem_all.mp (List.mem_of_head? h)
  cases v <;> cases hg
  exact .child hv (.refl g)

/-- A sound frame has a shape. -/
theorem Sound.shaped (hf : f.Sound) : f.Shaped where
  tokens k hk := by
    have hget : f.tokens.get k ≠ [] := hf.filled_tokens k hk
    obtain ⟨t, ht⟩ := List.exists_mem_of_ne_nil _ hget
    have hcomment : k.isComment = false := (hf.tokens k t ht).1 ▸ (hf.tokens k t ht).2
    refine ⟨hget, ?_, fun u hu => (hf.tokens k u hu).1⟩
    rintro rfl
    cases hcomment
  children r hr := ⟨hf.filled_children r hr, fun v hv => (hf.children r v hv).hasShape⟩

/-- Each reading of the children of a sound frame gives all of them. -/
theorem Sound.exists_childrenOf_eq (hf : f.Sound) {r : Rule} {β : Type} {as? : Value → Option β}
    {P : β → Prop} (h : Value.Reading r as? P) :
    ∃ bs, f.childrenOf r as? = .ok bs ∧ (f.children.get r).map as? = bs.map some := by
  refine ⟨f.all r as?, hf.childrenOf_eq h, map_eq_all fun v hv => ?_⟩
  obtain ⟨b, hb, -⟩ := h.sound (hf.children r v hv)
  exact Option.isSome_of_eq_some hb

/-! ### Children over which a frame is refused -/

/-- The violation `v` is that a rule has a child which is forbidden there, and it does have it. -/
def Forbidden (f : Frame Value) (q : Rule) (v : Violation) : Prop :=
  v = .unexpectedChild f.rule q ∧ f.children.get q ≠ []

theorem forbidden_of_forbid {q : Rule} {v : Violation} (h : (f.forbid q).reason? = some v) :
    f.Forbidden q v := by
  unfold forbid at h
  split at h
  · cases h
  · next hne => exact ⟨(Option.some.inj h).symm, by simpa using hne⟩

/-- A missing line is no matter of children. -/
theorem reason?_token_ne {k : TokenKind} (o q : Rule) :
    (f.token k).reason? ≠ some (.unexpectedChild o q) := by
  unfold token
  cases f.token? k <;> simp

section

variable {k : TokenKind} {q o p : Rule}

theorem forbidden_of_token_or (h : (f.token k).reason?.or (f.forbid q).reason? =
    some (.unexpectedChild o p)) : f.Forbidden q (.unexpectedChild o p) := by
  rcases Option.or_eq_some_iff.mp h with h | ⟨-, h⟩
  · exact absurd h (reason?_token_ne o p)
  · exact forbidden_of_forbid h

theorem forbidden_of_or_token (h : (f.forbid q).reason?.or (f.token k).reason? =
    some (.unexpectedChild o p)) : f.Forbidden q (.unexpectedChild o p) := by
  rcases Option.or_eq_some_iff.mp h with h | ⟨-, h⟩
  · exact forbidden_of_forbid h
  · exact absurd h (reason?_token_ne o p)

end

/-- The frame `f` holds a frame with an argument in a rule of its own, or with a helper around its
description, and `v` says so. -/
def HasForbidden (f : Frame Value) (v : Violation) : Prop :=
  ∃ g : Frame Value, g.Within f ∧
    (g.Forbidden .stepArgument v ∨ g.Forbidden .descriptionHelper v)

namespace Sound

variable (hf : f.Sound) {o q : Rule}

include hf

theorem forbidden_of_feature (h : f.feature.reason? = some (.unexpectedChild o q)) :
    f.HasForbidden (.unexpectedChild o q) := by
  rw [hf.reason?_feature] at h
  dsimp only at h
  have hheader : ((f.first? .featureHeader Value.frame?).getD f).Within f := by
    cases hg : f.first? .featureHeader Value.frame? with
    | none => exact .refl f
    | some g => exact within_of_first? hg
  split at h
  · cases h
  · exact ⟨_, hheader, .inr (forbidden_of_forbid h)⟩

theorem forbidden_of_examplesDefinition
    (h : f.examplesDefinition.reason? = some (.unexpectedChild o q)) :
    f.HasForbidden (.unexpectedChild o q) := by
  rw [hf.reason?_examplesDefinition] at h
  split at h
  · cases h
  · next g hg => exact ⟨g, within_of_first? hg, .inr (forbidden_of_token_or h)⟩

theorem forbidden_of_block {k : TokenKind} (h : (f.block k).reason? = some (.unexpectedChild o q)) :
    f.HasForbidden (.unexpectedChild o q) := by
  rw [hf.reason?_block] at h
  exact ⟨f, .refl f, .inr (forbidden_of_token_or h)⟩

/-- **Refusals over children.** A sound frame is refused over a child only where the child is
forbidden, and never because a child could not be read. -/
theorem forbidden_of_conclude {cs : Array Comment}
    (h : f.conclude cs = .error (.violation (.unexpectedChild o q))) :
    f.HasForbidden (.unexpectedChild o q) := by
  have hreason : (f.conclude cs).reason? = some (.violation (.unexpectedChild o q)) := by
    rw [h]
    rfl
  unfold Frame.conclude at hreason
  cases hr : f.rule <;> simp only [hr, Except.reason?_mapError, Except.reason?_map,
    Except.reason?_ok, Option.map_eq_some_iff, Rejection.violation.injEq, exists_eq_right,
    reduceCtorEq, and_false, exists_false] at hreason
  case document =>
    rw [hf.reason?_document] at hreason
    cases hreason
  case feature => exact hf.forbidden_of_feature hreason
  case background => exact hf.forbidden_of_block hreason
  case scenarioDefinition =>
    rw [hf.reason?_scenarioDefinition] at hreason
    split at hreason <;> cases hreason
  case scenario => exact hf.forbidden_of_block hreason
  case outline =>
    rw [hf.reason?_outline, ← hf.reason?_block] at hreason
    exact hf.forbidden_of_block hreason
  case examplesDefinition => exact hf.forbidden_of_examplesDefinition hreason
  case step =>
    rw [hf.reason?_step] at hreason
    exact ⟨f, .refl f, .inl (forbidden_of_or_token hreason)⟩
  case docString =>
    rw [reason?_docString] at hreason
    exact absurd hreason (reason?_token_ne o q)

end Sound

end Frame

namespace Assembly

variable {s : Assembly}

theorem Sound.of_holds (hs : s.Sound) {f : Frame Value} (hf : s.Holds f) : f.Sound := by
  obtain ⟨g, rfl | hg, hf⟩ := hf
  · exact hf.sound hs.root
  · exact hf.sound (hs.frames g hg)

/-- An end is refused over a child only where an open rule has a child that is forbidden. -/
theorem Sound.forbidden_of_leave (hs : s.Sound) {r o q : Rule}
    (h : (s.leave r).1 = .error (.violation (.unexpectedChild o q))) :
    ∃ f, s.Holds f ∧
      (f.Forbidden .stepArgument (.unexpectedChild o q) ∨
        f.Forbidden .descriptionHelper (.unexpectedChild o q)) := by
  unfold Assembly.leave at h
  cases hfs : s.frames with
  | nil => simp [hfs] at h
  | cons f fs =>
    have hmem : f ∈ s.frames := by simp [hfs]
    simp only [hfs] at h
    split at h
    · cases hv : f.conclude s.comments with
      | ok v => simp [hv] at h
      | error x =>
        simp only [hv, Except.error.injEq] at h
        obtain ⟨g, hg, hforbidden⟩ := (hs.frames f hmem).forbidden_of_conclude (h ▸ hv)
        exact ⟨g, ⟨f, .inr hmem, hg⟩, hforbidden⟩
    · simp at h

/-- A result is read off the documents at the outermost level, and that reading does not fail. -/
theorem Sound.result_eq (hs : s.Sound) :
    ∃ d?, s.root.child? .document Value.document? = .ok d? ∧
      s.result.1 = d?.getD ⟨none, s.comments.toList⟩ := by
  have hread := hs.root.child?_eq .document
  refine ⟨_, hread, ?_⟩
  rw [fst_result_eq, hread]
  cases s.root.first? .document Value.document? <;> rfl

/-- **Shapes.** Whatever the calls, all frames have a shape, however deep they are, and none of
their readings fails. So an end is refused over a child only where the child is forbidden, and a
result is made up only where no document is there to be read. -/
theorem shaped_ofCalls (cs : List Call) :
    (∀ f, (ofCalls cs).Holds f → f.Shaped ∧
      ∀ {r : Rule} {β : Type} {as? : Value → Option β} {P : β → Prop}, Value.Reading r as? P →
        ∃ bs, f.childrenOf r as? = .ok bs ∧ (f.children.get r).map as? = bs.map some) ∧
    (∀ r o q, ((ofCalls cs).leave r).1 = .error (.violation (.unexpectedChild o q)) →
      ∃ f, (ofCalls cs).Holds f ∧
        (f.Forbidden .stepArgument (.unexpectedChild o q) ∨
          f.Forbidden .descriptionHelper (.unexpectedChild o q))) ∧
    ∃ d?, (ofCalls cs).root.child? .document Value.document? = .ok d? ∧
      (ofCalls cs).result.1 = d?.getD ⟨none, (ofCalls cs).comments.toList⟩ := by
  have hs := sound_ofCalls cs
  refine ⟨fun f hf => ?_, fun r o q h => hs.forbidden_of_leave h, hs.result_eq⟩
  have hfs := hs.of_holds hf
  exact ⟨hfs.shaped, fun h => hfs.exists_childrenOf_eq h⟩

end Assembly

end Gherkin
