import Gherkin.Proofs.Acceptance
import Gherkin.Proofs.Excursions
import Gherkin.Proofs.SideBySide

/-!
# What stands beside what

A line, or a rule with all that is in it, that is met between other events does one thing only: it
is filed in one slot of the innermost open rule. It can be seen from the slot whether a run notices.
In a slot that is not read it does not; nor in a slot of which only the first is read, once that is
there. And as slots do not know of one another, it does not matter in which order two lines or rules
with different slots are met.

Comments and documents are left out here. A comment is not filed in a rule, and a document takes
the comments that wait, so it matters what is met before it.

## Main definitions

* `Gherkin.Accepted` : events of which none is refused.
* `Gherkin.Tree.Movable` : a line, or a rule that can be left, without comments and documents.
* `Gherkin.Tree.slot` : what a tree is filed under.
* `Gherkin.Nesting.innermost`, `Gherkin.Nesting.Has` : the rule that is open, and what it has.
* `Gherkin.Assembly.RunAlike` : events that come to the same.

## Main results

* `Gherkin.Tree.Movable.exists_item` : a movable tree files one and the same thing in any state.
* `Gherkin.Assembly.runAlike_of_unread` : what is not read can be left out.
* `Gherkin.Assembly.runAlike_of_repeated` : what comes after the first can be left out, where only
  the first is read.
* `Gherkin.Assembly.runAlike_swap` : neighbours in different slots can change places.
-/

namespace Gherkin

open Assembly (handler)

/-- None of the events is refused. -/
def Accepted (es : List Event) : Prop := ∃ d, Document.ofEvents es = .ok d

/-- What a tree is filed under. -/
def Tree.slot : Tree → Slot
  | .token t => .line t.kind
  | .node r _ => .child r

/-- No comment is among the events, and no document begins in them. -/
def Event.Plain (es : List Event) : Prop := ∀ e ∈ es, e.comment? = none ∧ e ≠ .enter .document

instance (es : List Event) : Decidable (Event.Plain es) :=
  inferInstanceAs (Decidable (∀ e ∈ es, e.comment? = none ∧ e ≠ .enter .document))

/-- A line that is no comment, or a rule that can be left, without comments and documents in it. -/
structure Tree.Movable (x : Tree) : Prop where
  plain : Event.Plain x.events
  accepted : Accepted x.events

/-! ### Items -/

/-- What is filed in a rule: a line, or the value of a rule in it. -/
inductive Item where
  | line (t : Token)
  | child (r : Rule) (v : Value)

namespace Item

variable {τ γ : Type} [OrderedMap τ TokenKind (Array Token)] [OrderedMap γ Rule (Array Value)]

/-- What an item is filed under. -/
def slot : Item → Slot
  | line t => .line t.kind
  | child r _ => .child r

/-- Files an item. -/
def file : Item → Frame Value τ γ → Frame Value τ γ
  | line t, f => f.fileToken t
  | child r v, f => f.fileChild r v

/-- An item is no comment, and its value is one that its rule can have. -/
def Sound : Item → Prop
  | line t => t.kind.isComment = false
  | child r v => v.Sound r

@[simp]
theorem rule_file (i : Item) (f : Frame Value τ γ) : (i.file f).rule = f.rule := by
  cases i <;> rfl

/-- No item is filed where comments would be. -/
theorem Sound.slot_ne {i : Item} (hi : i.Sound) : i.slot ≠ .line .comment := by
  cases i with
  | line t =>
    intro hslot
    have hkind : t.kind = .comment := Slot.line.inj hslot
    have ht : t.kind.isComment = false := hi
    rw [hkind] at ht
    cases ht
  | child r v => exact Slot.noConfusion

theorem Sound.file {i : Item} (hi : i.Sound) {f : Frame Value} (hf : f.Sound) :
    (i.file f).Sound := by
  cases i with
  | line t => exact hf.fileToken hi
  | child r v => exact hf.fileChild hi

end Item

namespace Frame

/-- There is something in a slot. -/
def Holds (f : Frame Value) : Slot → Prop
  | .line k => f.tokens.get k ≠ []
  | .child r => f.children.get r ≠ []

variable {K : List Comment → List Comment → Prop} {f g : Frame Value}

/-- An item is filed where it is not read: in a slot that is not looked at, or after the first. -/
theorem Agree.file_right (h : f.Agree K g) (i : Item)
    (hi : f.rule.share i.slot = .nothing ∨ f.rule.share i.slot = .first ∧ g.Holds i.slot) :
    f.Agree K (i.file g) := by
  cases i with
  | line t =>
    refine ⟨h.rule, fun k => ?_, h.children⟩
    change (f.rule.lineShare k).Agree (Token.Agree k) (f.tokens.get k)
      ((g.tokens.add t.kind t).get k)
    by_cases hk : t.kind = k
    · subst hk
      rw [Multimap.get_add_self]
      exact (h.tokens t.kind).concat_right hi t
    · rw [Multimap.get_add_of_ne _ hk]
      exact h.tokens k
  | child r v =>
    refine ⟨h.rule, h.tokens, fun q => ?_⟩
    change (f.rule.childShare q).Agree (Value.Agree K) (f.children.get q)
      ((g.children.add r v).get q)
    by_cases hq : r = q
    · subst hq
      rw [Multimap.get_add_self]
      exact (h.children r).concat_right hi v
    · rw [Multimap.get_add_of_ne _ hq]
      exact h.children q

/-- Items under different slots are filed in one order or the other. -/
theorem Sound.agree_file_comm (hK : ∀ cs, K cs cs) (hf : f.Sound) {i j : Item} (hi : i.Sound)
    (hj : j.Sound) (hij : i.slot ≠ j.slot) : (j.file (i.file f)).Agree K (i.file (j.file f)) := by
  have hsound : (i.file (j.file f)).Sound := hi.file (hj.file hf)
  refine agree_of_get_eq (by simp) (fun k => ?_) (fun r => ?_)
    fun r v hv => (hsound.children r v hv).agree_refl hK
  · cases i with
    | line t =>
      cases j with
      | line u => exact Multimap.get_add_comm _ (fun h => hij (congrArg Slot.line h)) _ _ k
      | child r v => rfl
    | child q w => cases j <;> rfl
  · cases i with
    | line t => cases j <;> rfl
    | child q w =>
      cases j with
      | line u => rfl
      | child p v => exact Multimap.get_add_comm _ (fun h => hij (congrArg Slot.child h)) _ _ r

end Frame

/-! ### Movable trees -/

namespace Forest

/-- The values of plain events do not depend on the comments that wait, and leave them waiting. -/
theorem values_of_plain {ts : Forest} (hts : Event.Plain (Forest.events ts)) {c cs : Array Comment}
    {vs : List (Rule × Value)} (h : Forest.values c ts = .ok (vs, cs)) (d : Array Comment) :
    Forest.values d ts = .ok (vs, d) := by
  induction ts using Forest.induction generalizing c cs vs d with
  | nil =>
    obtain ⟨rfl, -⟩ : [] = vs ∧ c = cs := by simpa [values_nil] using h
    exact values_nil
  | token t ts ih =>
    obtain ⟨ht, hts⟩ := List.forall_mem_append.mp (events_cons _ _ ▸ hts)
    have hcomment (c : Array Comment) : t.addComment c = c := by
      have ht := Event.comment?_token_eq_none_iff.mp (ht (.token t) (by simp)).1
      simp [Token.addComment, ht]
    rw [values_token_cons, hcomment] at h ⊢
    exact ih hts h d
  | node r inner ts ihin ihts =>
    obtain ⟨hnode, hts⟩ := List.forall_mem_append.mp (events_cons _ _ ▸ hts)
    rw [Tree.events_node] at hnode
    have hr : r ≠ .document := by
      rintro rfl
      exact (hnode _ List.mem_cons_self).2 rfl
    have hin : Event.Plain (Forest.events inner) := fun e he => hnode e (by simp [he])
    obtain ⟨ws, cs', v, us, hinner, hv, hrest, rfl⟩ := values_node_cons_eq_ok_iff.mp h
    refine values_node_cons_eq_ok_iff.mpr ⟨ws, d, v, us, ihin hin hinner d, ?_, ?_, rfl⟩
    · rwa [Frame.conclude_eq_of_ne hr d cs']
    · rw [if_neg hr]
      exact ihts hts hrest d

end Forest

/-- **A movable tree files one item**, whatever state it is met in. -/
theorem Tree.Movable.exists_item {x : Tree} (hx : x.Movable) : ∃ i : Item, i.slot = x.slot ∧
    i.Sound ∧ ∀ s, handler.feedAll x.events s = (.ok (), s.modifyInnermost i.file) := by
  cases x with
  | token t =>
    have ht : t.kind.isComment = false :=
      Event.comment?_token_eq_none_iff.mp (hx.plain (.token t) (by simp)).1
    refine ⟨.line t, rfl, ht, fun s => ?_⟩
    rw [Tree.events_token, handler.feedAll_cons_of_ok rfl, handler.feedAll_nil]
    change (Except.ok (), s.attach t) = _
    rw [Assembly.attach, ht]
    rfl
  | node r inner =>
    have hevents : (Tree.node r inner).events = Forest.events [.node r inner] := by simp
    have hplain := hx.plain
    have haccepted := hx.accepted
    rw [hevents] at hplain haccepted ⊢
    have hr : r ≠ .document := by
      rintro rfl
      exact (hplain (.enter .document) (by simp)).2 rfl
    obtain ⟨d, hd⟩ := haccepted
    -- Told to an empty assembly, the tree has a value; it has the same in any other state.
    cases hvalues : Forest.values #[] [.node r inner] with
    | error x =>
      have hrun : Document.ofEvents (Forest.events [.node r inner]) = .error x.fault :=
        handler.replay_of_error (Assembly.feedAll_events_of_error (s := .empty) hvalues)
      rw [hrun] at hd
      cases hd
    | ok out =>
      obtain ⟨vs, cs⟩ := out
      obtain ⟨ws, cs', v, us, -, -, hnil, rfl⟩ := Forest.values_node_cons_eq_ok_iff.mp hvalues
      obtain ⟨rfl, -⟩ : [] = us ∧ _ = cs := by simpa [Forest.values_nil] using hnil
      have hv : v.Sound r := Forest.sound_of_values hvalues (r, v) List.mem_cons_self
      refine ⟨.child r v, rfl, hv, fun s => ?_⟩
      rw [Assembly.feedAll_events_of_ok (Forest.values_of_plain hplain hvalues s.comments)]
      have hfile := s.file_eq_absorb r v
      rw [Assembly.file, if_neg hr, if_neg hr] at hfile
      exact congrArg (Prod.mk _) hfile.symm

/-! ### The innermost rule -/

namespace Assembly

variable {s t : Assembly} {a b : Frame Value → Frame Value}

theorem Sound.innermost (hs : s.Sound) : s.innermost.Sound := by
  obtain ⟨root, _ | ⟨f, fs⟩, comments⟩ := s
  · exact hs.root
  · exact hs.frames f List.mem_cons_self

theorem Agree.innermost (h : s.Agree Eq t) : s.innermost.Agree Eq t.innermost := by
  obtain ⟨root, fs, comments⟩ := s
  obtain ⟨root', gs, comments'⟩ := t
  obtain ⟨-, hroot, hframes, -⟩ := h
  cases hframes with
  | nil => exact hroot
  | cons hfg _ => exact hfg

/-- Changes of the innermost frame are not noticed where they lead to frames that agree. -/
theorem Agree.modifyInnermost_of_innermost (h : s.Agree Eq s)
    (ha : (a s.innermost).rule = s.innermost.rule)
    (hab : (a s.innermost).Agree Eq (b s.innermost)) :
    (s.modifyInnermost a).Agree Eq (s.modifyInnermost b) := by
  obtain ⟨root, _ | ⟨f, fs⟩, comments⟩ := s
  · exact ⟨ha.trans h.outermost, hab, .nil, rfl⟩
  · obtain ⟨-, hfs⟩ := List.forall₂_cons.mp h.frames
    exact ⟨h.outermost, h.root, .cons hab hfs, rfl⟩

theorem modifyInnermost_id (s : Assembly) : s.modifyInnermost id = s := by
  obtain ⟨root, _ | ⟨f, fs⟩, comments⟩ := s <;> rfl

theorem modifyInnermost_modifyInnermost (a b : Frame Value → Frame Value) (s : Assembly) :
    (s.modifyInnermost a).modifyInnermost b = s.modifyInnermost (b ∘ a) := by
  obtain ⟨root, _ | ⟨f, fs⟩, comments⟩ := s <;> rfl

end Assembly

namespace Nesting

/-- The innermost open rule. -/
def innermost (n : Nesting) : Rule := (n.around.head?.map Prod.snd).getD .outermost

/-- Something was filed under a slot in the innermost open rule. -/
def Has (n : Nesting) (σ : Slot) : Prop := ∃ y ∈ n.here, y.slot = σ

instance (n : Nesting) (σ : Slot) : Decidable (n.Has σ) :=
  inferInstanceAs (Decidable (∃ y ∈ n.here, y.slot = σ))

/-- The innermost frame is that of the innermost rule, and holds what stands in it. -/
theorem Reaches.innermost_eq {n : Nesting} {s : Assembly} (h : n.Reaches s) :
    ∃ c vs cs, Forest.values c n.here = .ok (vs, cs) ∧
      s.innermost = .ofContents n.innermost (Forest.tokens n.here) vs := by
  cases h with
  | @outermost ts vs cs h => exact ⟨_, vs, cs, h, Frame.new_absorb _ _ _⟩
  | @inside n s r ts vs cs hs h =>
    refine ⟨_, vs, cs, h, ?_⟩
    rw [Assembly.enter_absorb]
    rfl

theorem Reaches.rule_innermost {n : Nesting} {s : Assembly} (h : n.Reaches s) :
    s.innermost.rule = n.innermost := by
  obtain ⟨c, vs, cs, -, hframe⟩ := h.innermost_eq
  rw [hframe, Frame.rule_ofContents]

theorem Reaches.holds {n : Nesting} {s : Assembly} (h : n.Reaches s) {σ : Slot} (hσ : n.Has σ)
    (hcomment : σ ≠ .line .comment) : s.innermost.Holds σ := by
  obtain ⟨c, vs, cs, hvalues, hframe⟩ := h.innermost_eq
  obtain ⟨y, hy, rfl⟩ := hσ
  rw [hframe]
  cases y with
  | token t =>
    have hk : t.kind ≠ .comment := fun hk => hcomment (congrArg Slot.line hk)
    have ht : t ∈ Forest.tokens n.here := List.mem_filterMap.mpr ⟨.token t, hy, rfl⟩
    change (Frame.ofContents n.innermost (Forest.tokens n.here) vs).tokens.get t.kind ≠ []
    rw [Frame.tokens_get_ofContents_of_ne _ _ _ hk]
    exact List.ne_nil_of_mem (List.mem_filter.mpr ⟨ht, by simp⟩)
  | node r inner =>
    have hinner : inner ∈ Forest.under r n.here :=
      List.mem_filterMap.mpr ⟨.node r inner, hy, by simp [Tree.under?]⟩
    exact mt (Forest.under_eq_nil_iff hvalues n.innermost (Forest.tokens n.here) r).mpr
      (List.ne_nil_of_mem hinner)

end Nesting

/-! ### Runs -/

namespace Assembly

/-- Two lists of events come to the same: in any states, runs on them give the same document or
fail for the same fault, and end with as many rules open. -/
def RunAlike (es fs : List Event) : Prop := ∀ s t : Assembly,
  (handler.replay es s).1 = (handler.replay fs t).1 ∧
    (handler.replay es s).2.depth = (handler.replay fs t).2.depth

theorem RunAlike.symm {es fs : List Event} (h : RunAlike es fs) : RunAlike fs es := by
  intro s t
  obtain ⟨houtcome, hdepth⟩ := h t s
  exact ⟨houtcome.symm, hdepth.symm⟩

/-- Runs that have come to states that agree go on alike. -/
theorem Agree.runAlike {s t : Assembly} (h : s.Agree Eq t) {es fs : List Event}
    (hes : handler.feedAll es .empty = (.ok (), s)) (hfs : handler.feedAll fs .empty = (.ok (), t))
    (q : List Event) : RunAlike (es ++ q) (fs ++ q) := by
  intro u v
  have hs : s.Sound := by simpa [hes] using keeps_sound.feedAll sound_empty es
  have ht : t.Sound := by simpa [hfs] using keeps_sound.feedAll sound_empty fs
  obtain ⟨hreply, hagree⟩ := h.feedAll hs ht q
  have hs' := keeps_sound.feedAll hs q
  have ht' := keeps_sound.feedAll ht q
  have hleft : handler.feedAll (es ++ q) (handler.reset u) = handler.feedAll q s :=
    handler.feedAll_append_of_ok hes q
  have hright : handler.feedAll (fs ++ q) (handler.reset v) = handler.feedAll q t :=
    handler.feedAll_append_of_ok hfs q
  simp only [Handler.replay, hleft, hright]
  rcases hsq : handler.feedAll q s with ⟨x, s'⟩
  rcases htq : handler.feedAll q t with ⟨y, t'⟩
  rw [hsq, htq] at hreply hagree
  rw [hsq] at hs'
  rw [htq] at ht'
  obtain rfl : x = y := hreply
  cases x with
  | error x => exact ⟨rfl, hagree.depth_eq⟩
  | ok _ =>
    exact ⟨congrArg Except.ok (hagree.result_eq hs' ht'),
      (depth_result s').trans (hagree.depth_eq.trans (depth_result t').symm)⟩

/-- The events that begin a document with a feature. -/
def openFeature : List Event :=
  [.enter .document, .enter .feature,
    .token { kind := .featureLine, location := ⟨1, 1⟩, dialect := some "en" }]

/-- The events that end it. -/
def closeFeature : List Event := [.leave .feature, .leave .document]

/-- A background with a name. -/
def backgroundTree (name : String) : Tree :=
  .node .background [.token { kind := .backgroundLine, location := ⟨2, 1⟩, text := name }]

/-- A scenario without steps. -/
def scenarioTree : Tree :=
  .node .scenarioDefinition
    [.node .scenario [.token { kind := .scenarioLine, location := ⟨3, 1⟩ }]]

/-- A list of tags with a tag. -/
def tagsTree : Tree :=
  .node .tags [.token { kind := .tagLine, location := ⟨4, 1⟩, items := [⟨1, "@slow"⟩] }]

section Siblings

variable {p : List Event} {x y : Tree}

/-- Events of which none is refused lead to a state that agrees with itself and holds their
nesting. -/
theorem exists_reaches (hp : Accepted p) : ∃ s, handler.feedAll p .empty = (.ok (), s) ∧
    s.Sound ∧ s.Agree Eq s ∧ (Nesting.empty.after p).Reaches s := by
  obtain ⟨d, hd⟩ := hp
  rcases Nesting.reaches_empty.feedAll p with ⟨s, hs, hreaches, -⟩ | ⟨x, hx, -⟩
  · have hsound := keeps_sound.feedAll sound_empty p
    have hself := ((agree_empty rfl).feedAll sound_empty sound_empty p).2
    rw [hs] at hsound hself
    exact ⟨s, hs, hsound, hself, hreaches⟩
  · have hrun : Document.ofEvents p = .error x := handler.replay_of_error hx
    rw [hrun] at hd
    cases hd

/-- What is filed where it is not read can be left out. -/
theorem runAlike_of_spare (hp : Accepted p) (hx : x.Movable)
    (hspare : (Nesting.empty.after p).innermost.share x.slot = .nothing ∨
      (Nesting.empty.after p).innermost.share x.slot = .first ∧
        (Nesting.empty.after p).Has x.slot) (q : List Event) :
    RunAlike (p ++ x.events ++ q) (p ++ q) := by
  obtain ⟨s, hps, -, hself, hreaches⟩ := exists_reaches hp
  obtain ⟨i, hslot, hi, hfeed⟩ := hx.exists_item
  have hpx : handler.feedAll (p ++ x.events) .empty = (.ok (), s.modifyInnermost i.file) := by
    rw [handler.feedAll_append_of_ok hps, hfeed]
  have hfiled : s.innermost.Agree Eq (i.file s.innermost) := by
    refine hself.innermost.file_right i ?_
    rw [hreaches.rule_innermost, hslot]
    exact hspare.imp_right fun h => ⟨h.1, hreaches.holds h.2 (hslot ▸ hi.slot_ne)⟩
  have hagree : (s.modifyInnermost id).Agree Eq (s.modifyInnermost i.file) :=
    hself.modifyInnermost_of_innermost rfl hfiled
  rw [modifyInnermost_id] at hagree
  exact (hagree.runAlike hps hpx q).symm

/-- **What is not read has no influence.** A line, or a rule that can be left, that is met where the
innermost open rule does not read it can be left out, whatever comes after. -/
theorem runAlike_of_unread (hp : Accepted p) (hx : x.Movable)
    (hunread : (Nesting.empty.after p).innermost.share x.slot = .nothing) (q : List Event) :
    RunAlike (p ++ x.events ++ q) (p ++ q) :=
  runAlike_of_spare hp hx (.inl hunread) q

/-- Tags inside a scenario are nobody's. -/
theorem runAlike_tagsInScenario :
    let p := openFeature ++ scenarioTree.events.take 3
    let q := scenarioTree.events.drop 3 ++ closeFeature
    Accepted p ∧ tagsTree.Movable ∧
      (Nesting.empty.after p).innermost.share tagsTree.slot = .nothing ∧
      RunAlike (p ++ tagsTree.events ++ q) (p ++ q) ∧
      (Document.ofEvents (p ++ q)).toOption.bind Document.feature ≠ none := by
  have hp : Accepted (openFeature ++ scenarioTree.events.take 3) := ⟨_, rfl⟩
  have hx : tagsTree.Movable := ⟨by decide, _, rfl⟩
  exact ⟨hp, hx, rfl, runAlike_of_unread hp hx rfl _, by decide⟩

/-- **The first counts.** Where the innermost open rule reads only the first line of a kind, or the
first child from a rule, and has one, another can be left out, whatever comes after. -/
theorem runAlike_of_repeated (hp : Accepted p) (hx : x.Movable)
    (hfirst : (Nesting.empty.after p).innermost.share x.slot = .first)
    (hhas : (Nesting.empty.after p).Has x.slot) (q : List Event) :
    RunAlike (p ++ x.events ++ q) (p ++ q) :=
  runAlike_of_spare hp hx (.inr ⟨hfirst, hhas⟩) q

/-- A feature keeps its first background. -/
theorem runAlike_secondBackground :
    let p := openFeature ++ (backgroundTree "first").events
    let x := backgroundTree "second"
    Accepted p ∧ x.Movable ∧ (Nesting.empty.after p).innermost.share x.slot = .first ∧
      (Nesting.empty.after p).Has x.slot ∧
      RunAlike (p ++ x.events ++ closeFeature) (p ++ closeFeature) ∧
      ((Document.ofEvents (p ++ closeFeature)).toOption.bind Document.feature).map
        Feature.background? = some (some ⟨⟨2, 1⟩, "", "first", "", []⟩) := by
  have hp : Accepted (openFeature ++ (backgroundTree "first").events) := ⟨_, rfl⟩
  have hx : (backgroundTree "second").Movable := ⟨by decide, _, rfl⟩
  have hhas : (Nesting.empty.after (openFeature ++ (backgroundTree "first").events)).Has
      (.child .background) := by decide
  exact ⟨hp, hx, rfl, hhas, runAlike_of_repeated hp hx rfl hhas _, by decide⟩

/-- **Neighbours in different slots change places.** Of two lines of different kinds, of two
different rules that can be left, or of a line and a rule, it does not matter which is met first. -/
theorem runAlike_swap (hp : Accepted p) (hx : x.Movable) (hy : y.Movable)
    (hxy : x.slot ≠ y.slot) (q : List Event) :
    RunAlike (p ++ x.events ++ y.events ++ q) (p ++ y.events ++ x.events ++ q) := by
  obtain ⟨s, hps, hs, hself, -⟩ := exists_reaches hp
  obtain ⟨i, hislot, hi, hfeedx⟩ := hx.exists_item
  obtain ⟨j, hjslot, hj, hfeedy⟩ := hy.exists_item
  have hboth {u v : Tree} {k l : Item}
      (hu : ∀ s, handler.feedAll u.events s = (.ok (), s.modifyInnermost k.file))
      (hv : ∀ s, handler.feedAll v.events s = (.ok (), s.modifyInnermost l.file)) :
      handler.feedAll (p ++ u.events ++ v.events) .empty =
        (.ok (), s.modifyInnermost (l.file ∘ k.file)) := by
    rw [List.append_assoc, handler.feedAll_append_of_ok hps, handler.feedAll_append_of_ok (hu s),
      hv, modifyInnermost_modifyInnermost]
  have hij : i.slot ≠ j.slot := by rwa [hislot, hjslot]
  have hagree : (s.modifyInnermost (j.file ∘ i.file)).Agree Eq
      (s.modifyInnermost (i.file ∘ j.file)) :=
    hself.modifyInnermost_of_innermost (by simp)
      (hs.innermost.agree_file_comm (fun _ => rfl) hi hj hij)
  exact hagree.runAlike (hboth hfeedx hfeedy) (hboth hfeedy hfeedx) q

/-- A background may follow a scenario. -/
theorem runAlike_backgroundAfterScenario :
    let x := scenarioTree
    let y := backgroundTree "late"
    Accepted openFeature ∧ x.Movable ∧ y.Movable ∧ x.slot ≠ y.slot ∧
      RunAlike (openFeature ++ x.events ++ y.events ++ closeFeature)
        (openFeature ++ y.events ++ x.events ++ closeFeature) ∧
      ((Document.ofEvents (openFeature ++ x.events ++ y.events ++ closeFeature)).toOption.bind
        Document.feature).map (fun f => f.children.map fun c => c.background?.isSome) =
        some [true, false] := by
  have hp : Accepted openFeature := ⟨_, rfl⟩
  have hx : scenarioTree.Movable := ⟨by decide, _, rfl⟩
  have hy : (backgroundTree "late").Movable := ⟨by decide, _, rfl⟩
  have hxy : scenarioTree.slot ≠ (backgroundTree "late").slot := by decide
  exact ⟨hp, hx, hy, hxy, runAlike_swap hp hx hy hxy _, by decide⟩

end Siblings

end Assembly

end Gherkin
