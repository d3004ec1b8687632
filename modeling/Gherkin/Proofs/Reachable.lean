import Gherkin.Assembly.Basic
import Gherkin.Proofs.Runs
import Gherkin.Proofs.Soundness

/-!
# States that calls reach

An assembly can be told anything at any time: rules may be entered and left in any order, an end
may be refused and the calls go on, results may be asked for in between. Whatever the calls, each
frame stays sound, and therefore every document that is handed out is well formed.

## Main definitions

* `Gherkin.Assembly.Sound` : all frames of an assembly are sound.

## Main results

* `Gherkin.Assembly.keeps_sound` : calls keep an assembly sound.
* `Gherkin.Assembly.wellFormed_of_result` : the documents handed out are well formed.
-/

namespace Gherkin

/-! ### Filing in sound frames -/

namespace Frame

theorem sound_new (r : Rule) : (new r : Frame Value).Sound where
  tokens _ _ ht := absurd ht List.not_mem_nil
  children _ _ hv := absurd hv List.not_mem_nil
  filled_tokens := Multimap.filled_empty
  filled_children := Multimap.filled_empty

theorem Sound.fileToken {f : Frame Value} (hf : f.Sound) {t : Token}
    (ht : t.kind.isComment = false) : (f.fileToken t).Sound := by
  refine ⟨fun k u hu => ?_, hf.children, hf.filled_tokens.add _ _, hf.filled_children⟩
  rw [tokens_fileToken, Multimap.get_add] at hu
  split at hu
  · next hk =>
    rcases List.mem_append.mp hu with hu | hu
    · exact hf.tokens k u hu
    · obtain rfl := List.mem_singleton.mp hu
      exact ⟨hk, ht⟩
  · exact hf.tokens k u hu

theorem Sound.fileChild {f : Frame Value} (hf : f.Sound) {r : Rule} {v : Value}
    (hv : v.Sound r) : (f.fileChild r v).Sound := by
  refine ⟨hf.tokens, fun q w hw => ?_, hf.filled_tokens, hf.filled_children.add _ _⟩
  rw [children_fileChild, Multimap.get_add] at hw
  split at hw
  · next hq =>
    rcases List.mem_append.mp hw with hw | hw
    · exact hf.children q w hw
    · obtain rfl := List.mem_singleton.mp hw
      exact hq ▸ hv
  · exact hf.children q w hw

/-- What is left after children were taken is sound. -/
theorem Sound.takeChild? {f : Frame Value} (hf : f.Sound) {β : Type} (r : Rule)
    (as? : Value → Option β) : (f.takeChild? r as?).2.Sound := by
  refine ⟨hf.tokens, fun q v hv => ?_, hf.filled_tokens, hf.filled_children.take r⟩
  change v ∈ (f.children.take r).2.get q at hv
  rw [Multimap.get_take] at hv
  split at hv
  · exact absurd hv List.not_mem_nil
  · exact hf.children q v hv

end Frame

namespace Assembly

/-- All frames of an assembly are sound. -/
structure Sound (s : Assembly) : Prop where
  root : s.root.Sound
  frames : ∀ f ∈ s.frames, f.Sound

theorem sound_empty : empty.Sound := ⟨Frame.sound_new _, fun _ hf => absurd hf List.not_mem_nil⟩

namespace Sound

variable {s : Assembly}

/-! ### One call -/

theorem modifyInnermost (hs : s.Sound) {g : Frame Value → Frame Value}
    (hg : ∀ f, f.Sound → (g f).Sound) : (s.modifyInnermost g).Sound := by
  rcases s with ⟨root, _ | ⟨f, fs⟩, comments⟩
  · exact ⟨hg _ hs.root, hs.frames⟩
  · refine ⟨hs.root, fun k hk => ?_⟩
    rcases List.mem_cons.mp hk with rfl | hk
    · exact hg f (hs.frames f List.mem_cons_self)
    · exact hs.frames k (List.mem_cons_of_mem _ hk)

theorem attach (hs : s.Sound) (t : Token) : (s.attach t).Sound := by
  unfold Assembly.attach
  split
  · exact ⟨hs.root, hs.frames⟩
  · next ht => exact hs.modifyInnermost fun f hf => hf.fileToken (Bool.eq_false_iff.mpr ht)

theorem enter (hs : s.Sound) (r : Rule) : (s.enter r).Sound := by
  refine ⟨hs.root, fun f hf => ?_⟩
  rcases List.mem_cons.mp hf with rfl | hf
  · exact Frame.sound_new r
  · exact hs.frames f hf

theorem file (hs : s.Sound) {r : Rule} {v : Value} (hv : v.Sound r) : (s.file r v).Sound := by
  have hfiled := hs.modifyInnermost fun f hf => hf.fileChild hv
  unfold Assembly.file
  split
  · exact ⟨hfiled.root, hfiled.frames⟩
  · exact hfiled

/-- The frame that is left becomes a sound value or is dropped. -/
theorem leave (hs : s.Sound) (r : Rule) : (s.leave r).2.Sound := by
  unfold Assembly.leave
  cases hfs : s.frames with
  | nil => exact hs
  | cons f fs =>
    have hf : f.Sound := hs.frames f (by simp [hfs])
    have hrest : ({ s with frames := fs } : Assembly).Sound :=
      ⟨hs.root, fun k hk => hs.frames k (by simp [hfs, hk])⟩
    dsimp only
    split
    · next hr =>
      split
      · next v hv => exact hrest.file (hr ▸ hf.conclude hv)
      · exact hrest
    · exact hrest

theorem result (hs : s.Sound) : s.result.2.Sound := by
  have hroot := hs.root.takeChild? .document Value.document?
  unfold Assembly.result
  dsimp only
  split
  · exact ⟨hroot, hs.frames⟩
  · exact ⟨hroot, hs.frames⟩

/-- The document handed out is a value filed at the outermost level, or has no feature. -/
theorem wellFormed_result (hs : s.Sound) : s.result.1.WellFormed := by
  rw [fst_result_eq, hs.root.child?_eq .document]
  cases hd : s.root.first? .document Value.document? with
  | none => exact fun f hf => absurd hf (Option.not_mem_none f)
  | some d => exact hs.root.of_first?_eq_some .document hd

end Sound

/-! ### Many calls -/

/-- No operation makes a frame unsound, also one that is refused. -/
theorem keeps_sound : handler.Keeps Sound where
  reset _ := sound_empty
  attach t _ hs := hs.attach t
  enter r _ hs := hs.enter r
  leave r _ hs := hs.leave r
  result _ hs := hs.result

/-- **Every document that comes out is well formed.** Whatever the calls, in whatever order and
with whatever refusals on the way, and likewise for runs on any events. In particular the children
of a feature are its background and then its scenarios. -/
theorem wellFormed_of_result (cs : List Call) (es : List Event) (s : Assembly) (d : Document)
    (h : .result d ∈ (handler.performAll cs .empty).1 ∨ (handler.replay es s).1 = .ok d) :
    d.WellFormed ∧ ∀ f ∈ d.feature,
      f.children = (f.background?.map Child.background).toList ++ f.scenarios := by
  have hd : d.WellFormed := by
    obtain ⟨s', hs', rfl⟩ : ∃ s', s'.Sound ∧ (handler.result s').1 = d := by
      rcases h with h | h
      · exact keeps_sound.of_mem_performAll sound_empty h
      · exact keeps_sound.of_replay h
    exact hs'.wellFormed_result
  exact ⟨hd, fun f hf => f.children_eq_of_background_first (hd f hf).background_first⟩

/-- Calls that begin a feature, have an end refused, and begin the feature again. -/
def callsWithRefusal : List Call :=
  let line (kind : TokenKind) (items : List Span) : Call :=
    .event (.token { kind, location := ⟨3, 0⟩, items, dialect := some "en" })
  [.event (.enter .document), .event (.enter .feature), .event (.leave .step),
    .event (.enter .feature), line .featureLine [], .event (.enter .background),
    line .backgroundLine [], .event (.enter .step), line .stepLine [], .event (.enter .dataTable),
    line .tableRow [⟨0, "a"⟩, ⟨7, "b"⟩], .event (.leave .dataTable), .event (.leave .step),
    .event (.leave .background), .event (.leave .feature), .event (.leave .document), .result]

/-- The document that comes out after the refusal. -/
def documentAfterRefusal : Document :=
  let row : Row := ⟨⟨3, 0⟩, [⟨⟨3, 0⟩, "a"⟩, ⟨⟨3, 7⟩, "b"⟩]⟩
  let step : Step := ⟨⟨3, 0⟩, "", "", some (.dataTable ⟨[row]⟩)⟩
  ⟨some ⟨[], ⟨3, 0⟩, "en", "", "", "", [.background ⟨⟨3, 0⟩, "", "", "", [step]⟩]⟩, []⟩

theorem documentAfterRefusal_wellFormed :
    .result documentAfterRefusal ∈ (handler.performAll callsWithRefusal .empty).1 ∧
      .refused (.violation (.unbalanced .feature .step)) ∈
        (handler.performAll callsWithRefusal .empty).1 ∧
      documentAfterRefusal.WellFormed := by
  have hresult : .result documentAfterRefusal ∈
      (handler.performAll callsWithRefusal .empty).1 := by decide
  exact ⟨hresult, by decide,
    (wellFormed_of_result callsWithRefusal [] .empty documentAfterRefusal (.inl hresult)).1⟩

end Assembly

end Gherkin
