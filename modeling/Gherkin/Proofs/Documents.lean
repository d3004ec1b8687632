import Gherkin.Proofs.Calls

/-!
# Documents handed out and their comments

Comments are filed in no frame, documents travel through frames, and calls come in any order. Which
comments a document has, and which document a result is, can be said of the calls alone: a document
has the comments built since the last *cut*, which is a call that took the comments that waited or
forgot them, and a result is the earliest document completed outside every rule since the last call
that took or forgot those.

## Main definitions

* `Gherkin.Since` : what the positions since the last stop are given.
* `Gherkin.Assembly.completed?`, `Gherkin.Assembly.filed?` : the document that the call at a
  position makes, and the one that it makes outside every rule.
* `Gherkin.Assembly.Clears`, `Gherkin.Assembly.Cut` : the stops for documents and for comments.

## Main results

* `Gherkin.Assembly.leave_cases` : what an end does.
* `Gherkin.Assembly.accounted` : what waits in the state before a call, said of the calls before it.
* `Gherkin.Assembly.documents_of_calls` : the documents that calls make, and the results they get.
-/

namespace Gherkin

/-! ### Since the last stop -/

/-- The list `l` holds what the positions before `i` are given by `given`, in order, from the one
after the last stop before `i` on, or from `0` on where there is no stop. -/
def Since {α : Type} (stop : Nat → Prop) (given : Nat → Option α) (i : Nat) (l : List α) : Prop :=
  ∃ p ≤ i, (p = 0 ∨ stop (p - 1)) ∧ (∀ k, p ≤ k → k < i → ¬stop k) ∧
    l = (List.range' p (i - p)).filterMap given

section Since

variable {α : Type} {stop : Nat → Prop} {given : Nat → Option α} {i : Nat} {l l' : List α}

theorem since_zero : Since stop given 0 [] :=
  ⟨0, Nat.le_refl 0, .inl rfl, fun k _ hk => absurd hk (Nat.not_lt_zero k), rfl⟩

theorem since_succ_of_stop (h : stop i) : Since stop given (i + 1) [] :=
  ⟨i + 1, Nat.le_refl _, .inr h, fun k hk hk' => absurd hk' (by omega), by simp⟩

theorem Since.succ (hl : Since stop given i l) (h : ¬stop i) :
    Since stop given (i + 1) (l ++ (given i).toList) := by
  obtain ⟨p, hp, hstop, hno, rfl⟩ := hl
  refine ⟨p, by omega, hstop, fun k hk hk' => ?_, ?_⟩
  · rcases Nat.lt_succ_iff_lt_or_eq.mp hk' with hk' | rfl
    · exact hno k hk hk'
    · exact h
  · have hrange : List.range' p (i + 1 - p) = List.range' p (i - p) ++ [i] := by
      rw [Nat.succ_sub hp, List.range'_concat]
      simp [Nat.add_sub_cancel' hp]
    rw [hrange, List.filterMap_append]
    cases hi : given i <;> simp [hi]

/-- Where no position from `i` on is a stop, what was there at `i` stays at the front. -/
theorem Since.append {j : Nat} (hl : Since stop given i l) (hij : i ≤ j)
    (h : ∀ k, i ≤ k → k < j → ¬stop k) : ∃ m, Since stop given j (l ++ m) := by
  induction hij with
  | refl => exact ⟨[], by simpa using hl⟩
  | @step j hij ih =>
    obtain ⟨m, hm⟩ := ih fun k hk hk' => h k hk (Nat.lt_succ_of_lt hk')
    refine ⟨m ++ (given j).toList, ?_⟩
    rw [← List.append_assoc]
    exact hm.succ (h j hij (Nat.lt_succ_self j))

/-- The last stop is one position. -/
theorem Since.unique (hl : Since stop given i l) (hl' : Since stop given i l') : l = l' := by
  obtain ⟨p, hp, hstop, hno, rfl⟩ := hl
  obtain ⟨q, hq, hstop', hno', rfl⟩ := hl'
  have hle {p q : Nat} (hq : q ≤ i) (hstop' : q = 0 ∨ stop (q - 1))
      (hno : ∀ k, p ≤ k → k < i → ¬stop k) : q ≤ p := by
    refine Nat.le_of_not_lt fun hpq => ?_
    rcases hstop' with rfl | hstop'
    · omega
    · exact hno (q - 1) (by omega) (by omega) hstop'
  obtain rfl : p = q := Nat.le_antisymm (hle hp hstop hno') (hle hq hstop' hno)
  rfl

/-- Where no position before `i` is a stop, all of them count. -/
theorem since_of_forall (given : Nat → Option α) (h : ∀ k < i, ¬stop k) :
    Since stop given i ((List.range i).filterMap given) :=
  ⟨0, Nat.zero_le i, .inl rfl, fun k _ hk => h k hk, by rw [List.range_eq_range', Nat.sub_zero]⟩

end Since

/-! ### Comments in calls -/

/-- The comment that a token is, if it is one: where it stands, and what it says. -/
def Token.comment? (t : Token) : Option Comment :=
  if t.kind = .comment then some ⟨t.location, t.text⟩ else none

/-- The comment that a token is taken in as. -/
theorem Token.comment?_eq (t : Token) :
    t.comment? = if t.kind.isComment then some (.ofToken t) else none := by
  simp only [comment?, Comment.ofToken, TokenKind.isComment_iff]

/-- The comment that an event brings. -/
def Event.comment? : Event → Option Comment
  | .token t => t.comment?
  | _ => none

/-- The comment that a call brings. -/
def Call.comment? : Call → Option Comment
  | .event e => e.comment?
  | _ => none

namespace Assembly

/-! ### What one operation does -/

/-- The values filed outside every rule for the rule of documents. -/
def complete (s : Assembly) : List Value := s.root.children.get .document

theorem toList_comments_attach (t : Token) (s : Assembly) :
    (s.attach t).comments.toList = s.comments.toList ++ t.comment?.toList := by
  cases ht : t.kind.isComment <;> rcases s with ⟨root, _ | ⟨f, fs⟩, comments⟩ <;>
    simp [attach, modifyInnermost, Token.comment?_eq, ht]

theorem complete_attach (t : Token) (s : Assembly) : (s.attach t).complete = s.complete := by
  unfold attach
  split
  · rfl
  · rcases s with ⟨root, _ | ⟨f, fs⟩, comments⟩ <;> rfl

theorem comments_file (r : Rule) (v : Value) (s : Assembly) :
    (s.file r v).comments = if r = .document then #[] else s.comments := by
  rcases s with ⟨root, _ | ⟨f, fs⟩, comments⟩ <;> unfold file <;> split <;> rfl

/-- A document counts as complete when it is filed outside every rule. -/
theorem complete_file (r : Rule) (v : Value) (s : Assembly) :
    (s.file r v).complete = s.complete ++ if r = .document ∧ s.depth = 0 then [v] else [] := by
  rcases s with ⟨root, _ | ⟨f, fs⟩, comments⟩ <;> by_cases hr : r = .document <;>
    simp [file, complete, modifyInnermost, depth, hr]

/-- **Ends.** An end is refused, and the innermost frame is dropped if there is one; or the frame is
that of the rule and becomes a value, which is filed around it. -/
theorem leave_cases (r : Rule) (s : Assembly) :
    (∃ x, s.leave r = (.error x, { s with frames := s.frames.tail })) ∨
      ∃ f fs v, s.frames = f :: fs ∧ f.rule = r ∧ f.conclude s.comments = .ok v ∧
        s.leave r = (.ok v, file r v { s with frames := fs }) := by
  unfold leave
  rcases s with ⟨root, _ | ⟨f, fs⟩, comments⟩
  · exact .inl ⟨_, rfl⟩
  · dsimp only
    by_cases hr : f.rule = r
    · cases hv : f.conclude comments with
      | ok v => exact .inr ⟨f, fs, v, rfl, hr, hv, by rw [if_pos hr]⟩
      | error x => exact .inl ⟨x, by rw [if_pos hr]; rfl⟩
    · exact .inl ⟨_, if_neg hr⟩

/-- The comments of a document are those that waited when its rule was left. -/
theorem document_of_conclude {f : Frame Value} (hr : f.rule = .document) {cs : Array Comment}
    {v : Value} (h : f.conclude cs = .ok v) : ∃ d, v = .document d ∧ d.comments = cs.toList := by
  unfold Frame.conclude at h
  simp only [hr, Except.mapError_eq_ok_iff, Except.map_eq_ok_iff] at h
  obtain ⟨d, hd, rfl⟩ := h
  obtain ⟨feature, -, hd⟩ := Except.bind_eq_ok_iff.mp hd
  cases hd
  exact ⟨_, rfl, rfl⟩

section Result

variable {s : Assembly} {ds : List Document} (h : s.complete = ds.map .document)

include h

theorem child?_complete : s.root.child? .document Value.document? = .ok ds.head? := by
  have hdocuments : s.root.childrenOf .document Value.document? = .ok ds := by
    rw [Frame.childrenOf_eq_ok_iff]
    change s.complete.map Value.document? = ds.map some
    rw [h, List.map_map]
    rfl
  rw [Frame.child?_eq_map, hdocuments]
  rfl

/-- The result is the earliest complete document, or one with the comments that wait. -/
theorem fst_result : s.result.1 = ds.head?.getD ⟨none, s.comments.toList⟩ := by
  rw [fst_result_eq, child?_complete h]
  cases ds <;> rfl

/-- The comments that wait are taken where there is no complete document. -/
theorem comments_result : s.result.2.comments = if ds = [] then #[] else s.comments := by
  have hread := child?_complete h
  unfold Frame.child? at hread
  unfold result
  dsimp only
  rw [hread]
  cases ds <;> rfl

end Result

/-- After a result no document is complete. -/
theorem complete_result (s : Assembly) : s.result.2.complete = [] := by
  have htake : (s.root.children.take .document).2.get .document = [] := by
    rw [Multimap.get_take, if_pos rfl]
  unfold result
  dsimp only
  split <;> exact htake

/-! ### Documents and cuts among calls -/

section Positions

variable (cs : List Call)

/-- The state in which the call at the position `i` is made. -/
def before (i : Nat) : Assembly := ofCalls (cs.take i)

/-- The comment that the call at the position `i` brings. -/
def comment? (i : Nat) : Option Comment := cs[i]?.bind Call.comment?

/-- The document that the call at the position `i` makes, where that call is the end of a document
and is carried out. -/
def completed? (i : Nat) : Option Document :=
  if cs[i]? = some (.event (.leave .document)) then
    match ((before cs i).leave .document).1 with
    | .ok v => v.document?
    | .error _ => none
  else none

/-- The document that the call at the position `i` makes and files outside every rule. -/
def filed? (i : Nat) : Option Document :=
  if (before cs (i + 1)).depth = 0 then completed? cs i else none

/-- The call at the position `i` forgets everything, or asks for a result. -/
def Clears (i : Nat) : Prop := cs[i]? = some .reset ∨ cs[i]? = some .result

/-- The call at the position `i` forgets everything, is the end of a document and is carried out,
or asks for a result while no document was filed outside every rule. -/
def Cut (i : Nat) : Prop :=
  cs[i]? = some .reset ∨ (completed? cs i).isSome = true ∨
    (cs[i]? = some .result ∧ Since (Clears cs) (filed? cs) i [])

/-- What waits in the state before the call at the position `i`: the comments since the last cut,
and the documents filed outside every rule since the last call that takes them. -/
structure Accounted (i : Nat) : Prop where
  comments : Since (Cut cs) (comment? cs) i (before cs i).comments.toList
  documents : ∃ ds, Since (Clears cs) (filed? cs) i ds ∧
    (before cs i).complete = ds.map .document

end Positions

variable {cs : List Call} {i : Nat}

theorem before_succ {c : Call} (hc : cs[i]? = some c) :
    before cs (i + 1) = (handler.perform c (before cs i)).2 :=
  handler.performAll_take_succ hc .empty

/-- A call that is no end of a document makes none. -/
theorem completed?_eq_none {c : Call} (hc : cs[i]? = some c)
    (hne : c ≠ .event (.leave .document)) : completed? cs i = none := by
  rw [completed?, if_neg]
  rw [hc]
  exact fun h => hne (Option.some.inj h)

theorem filed?_eq_none (h : completed? cs i = none) : filed? cs i = none := by
  rw [filed?, h, ite_self]

namespace Accounted

/-- A call that neither takes nor forgets anything: comments are added and documents kept. -/
theorem succ (hi : Accounted cs i) (hcut : ¬Cut cs i) (hclears : ¬Clears cs i)
    (hcomments : (before cs (i + 1)).comments.toList =
      (before cs i).comments.toList ++ (comment? cs i).toList)
    (hcomplete : (before cs (i + 1)).complete = (before cs i).complete)
    (hfiled : filed? cs i = none) : Accounted cs (i + 1) := by
  obtain ⟨ds, hds, hget⟩ := hi.documents
  refine ⟨hcomments ▸ hi.comments.succ hcut, ds, ?_, hcomplete.trans hget⟩
  simpa [hfiled] using hds.succ hclears

variable (hi : Accounted cs i)

include hi

theorem result (hc : cs[i]? = some .result) : Accounted cs (i + 1) := by
  obtain ⟨ds, hds, hget⟩ := hi.documents
  have hbefore : before cs (i + 1) = (before cs i).result.2 := before_succ hc
  have hcomments := comments_result hget
  rw [← hbefore] at hcomments
  refine ⟨?_, [], since_succ_of_stop (.inr hc), by rw [hbefore, complete_result]; rfl⟩
  rw [hcomments]
  by_cases hnil : ds = []
  · rw [if_pos hnil]
    exact since_succ_of_stop (.inr (.inr ⟨hc, hnil ▸ hds⟩))
  · rw [if_neg hnil]
    -- The documents that the result is taken from are there, so it is no cut.
    have hcut : ¬Cut cs i := by
      rintro (h | h | ⟨-, h⟩)
      · simp [hc] at h
      · simp [completed?_eq_none hc (by simp)] at h
      · exact hnil (hds.unique h)
    simpa [comment?, hc, Call.comment?] using hi.comments.succ hcut

theorem leave {r : Rule} (hc : cs[i]? = some (.event (.leave r))) : Accounted cs (i + 1) := by
  have hbefore : before cs (i + 1) = ((before cs i).leave r).2 := by
    rw [before_succ hc, Handler.snd_perform_event]
    rfl
  have hcomment : comment? cs i = none := by simp [comment?, hc, Call.comment?, Event.comment?]
  have hclears : ¬Clears cs i := by simp [Clears, hc]
  have hcut (h : completed? cs i = none) : ¬Cut cs i := by simp [Cut, hc, h]
  rcases (before cs i).leave_cases r with ⟨x, hx⟩ | ⟨f, fs, v, hfs, hr, hv, hleave⟩
  · have hnone : completed? cs i = none := by
      by_cases hr : r = .document
      · subst hr
        simp [completed?, hc, hx]
      · exact completed?_eq_none hc (by simpa using hr)
    rw [hx] at hbefore
    exact hi.succ (hcut hnone) hclears (by simp [hbefore, hcomment]) (by rw [hbefore]; rfl)
      (filed?_eq_none hnone)
  · rw [hleave] at hbefore
    by_cases hdocument : r = .document
    · subst hdocument
      obtain ⟨d, rfl, -⟩ := document_of_conclude hr hv
      have hcompleted : completed? cs i = some d := by
        simp [completed?, hc, hleave, Value.document?]
      obtain ⟨ds, hds, hget⟩ := hi.documents
      have hcomments : (before cs (i + 1)).comments = #[] := by rw [hbefore, comments_file]; rfl
      refine ⟨?_, ds ++ (filed? cs i).toList, hds.succ hclears, ?_⟩
      · rw [hcomments]
        exact since_succ_of_stop (.inr (.inl (by rw [hcompleted]; rfl)))
      · have hcomplete : ({ before cs i with frames := fs } : Assembly).complete =
          ds.map .document := hget
        rw [filed?, hbefore, complete_file, hcomplete, depth_file, hcompleted]
        split <;> simp_all
    · have hnone := completed?_eq_none hc (by simpa using hdocument)
      have hcomplete : (before cs (i + 1)).complete = (before cs i).complete := by
        rw [hbefore, complete_file]
        simp [hdocument, complete]
      exact hi.succ (hcut hnone) hclears (by simp [hbefore, comments_file, hdocument, hcomment])
        hcomplete (filed?_eq_none hnone)

end Accounted

/-- **Accounts.** What waits in the state before a call is what the calls before it say. -/
theorem accounted (hi : i ≤ cs.length) : Accounted cs i := by
  induction i with
  | zero => exact ⟨since_zero, [], since_zero, rfl⟩
  | succ i ih =>
    have hacc : Accounted cs i := ih (by omega)
    have hc : cs[i]? = some cs[i] := List.getElem?_eq_getElem (by omega)
    generalize cs[i] = c at hc
    match c with
    | .reset =>
      have hbefore : before cs (i + 1) = empty := before_succ hc
      exact ⟨hbefore ▸ since_succ_of_stop (.inl hc), [], since_succ_of_stop (.inl hc),
        hbefore ▸ rfl⟩
    | .result => exact hacc.result hc
    | .event (.leave r) => exact hacc.leave hc
    | .event (.token t) =>
      have hbefore : before cs (i + 1) = (before cs i).attach t := before_succ hc
      have hnone := completed?_eq_none hc (by simp)
      refine hacc.succ (by simp [Cut, hc, hnone]) (by simp [Clears, hc]) ?_ ?_
        (filed?_eq_none hnone)
      · rw [hbefore, toList_comments_attach]
        simp [comment?, hc, Call.comment?, Event.comment?]
      · rw [hbefore, complete_attach]
    | .event (.enter r) =>
      have hbefore : before cs (i + 1) = (before cs i).enter r := before_succ hc
      have hnone := completed?_eq_none hc (by simp)
      refine hacc.succ (by simp [Cut, hc, hnone]) (by simp [Clears, hc]) ?_ ?_
        (filed?_eq_none hnone)
      · simp [hbefore, enter, comment?, hc, Call.comment?, Event.comment?]
      · rw [hbefore]
        rfl

/-! ### Documents made and results given -/

/-- The end of a document that is carried out makes one, with the comments that waited. -/
theorem exists_completed? (hc : cs[i]? = some (.event (.leave .document)))
    (hdone : (handler.performAll cs .empty).1[i]? = some .done) :
    ∃ d, completed? cs i = some d ∧ d.comments = (before cs i).comments.toList := by
  have hreply : (handler.performAll cs .empty).1[i]? =
      some (handler.perform (.event (.leave .document)) (before cs i)).1 := by
    rw [Handler.getElem?_performAll, hc]
    rfl
  rcases (before cs i).leave_cases .document with ⟨x, hx⟩ | ⟨f, fs, v, -, hr, hv, hleave⟩
  · have hrefused : (handler.perform (.event (.leave .document)) (before cs i)).1 =
        .refused x.fault := by
      simp [Handler.perform, Handler.feed, handler, hx, reported]
    rw [hreply, hrefused] at hdone
    cases hdone
  · obtain ⟨d, rfl, hd⟩ := document_of_conclude hr hv
    exact ⟨d, by simp [completed?, hc, hleave, Value.document?], hd⟩

/-- All comments of calls without a cut. -/
theorem filterMap_range_comment? (cs : List Call) (i : Nat) :
    (List.range i).filterMap (comment? cs) = (cs.take i).filterMap Call.comment? := by
  induction i with
  | zero => rfl
  | succ i ih =>
    rw [List.range_succ, List.take_add_one, List.filterMap_append, List.filterMap_append, ih]
    cases hc : cs[i]? with
    | none => simp [comment?, hc]
    | some c => cases hcomment : c.comment? <;> simp [comment?, hc, hcomment]

section Runs

variable {es : List Event}

theorem not_clears_events (es : List Event) (i : Nat) : ¬Clears (es.map .event) i := by
  simp [Clears]

/-- Events that end no document make no cut. -/
theorem since_events (h : ∀ k < i, es[k]? ≠ some (.leave .document)) :
    Since (Cut (es.map .event)) (comment? (es.map .event)) i
      ((es.take i).filterMap Event.comment?) ∧
      Since (Clears (es.map .event)) (filed? (es.map .event)) i [] := by
  have hnone : ∀ k < i, completed? (es.map .event) k = none := fun k hk => by
    rw [completed?, if_neg]
    simpa using h k hk
  constructor
  · have hcut : ∀ k < i, ¬Cut (es.map .event) k := fun k hk => by simp [Cut, hnone k hk]
    have hall := since_of_forall (comment? (es.map .event)) hcut
    rw [filterMap_range_comment?, ← List.map_take, List.filterMap_map] at hall
    exact hall
  · have hall := since_of_forall (filed? (es.map .event)) fun k (_ : k < i) =>
      not_clears_events es k
    rwa [List.filterMap_eq_nil_iff.mpr] at hall
    intro k hk
    exact filed?_eq_none (hnone k (List.mem_range.mp hk))

/-- The result of a run is read off the account of its events. -/
theorem exists_since_of_replay {s : Assembly} {d : Document}
    (h : (handler.replay es s).1 = .ok d) :
    (∀ i < es.length, (handler.performAll (es.map .event) .empty).1[i]? = some .done) ∧
      ∃ ds cs, Since (Clears (es.map .event)) (filed? (es.map .event)) es.length ds ∧
        Since (Cut (es.map .event)) (comment? (es.map .event)) es.length cs ∧
        d = ds.head?.getD ⟨none, cs⟩ := by
  obtain ⟨s', hes, hd⟩ := handler.exists_feedAll_of_replay h
  have hcalls := handler.performAll_of_feedAll hes
  have hreset : handler.reset s = .empty := rfl
  rw [hreset] at hcalls
  have hbefore : before (es.map .event) es.length = s' := by
    rw [before, ofCalls, List.take_of_length_le (by simp), hcalls]
  have hacc : Accounted (es.map .event) es.length := accounted (by simp)
  obtain ⟨ds, hds, hget⟩ := hacc.documents
  rw [hbefore] at hget
  refine ⟨fun i hi => ?_, ds, s'.comments.toList, hds, hbefore ▸ hacc.comments, ?_⟩
  · rw [hcalls]
    simp [hi]
  · rw [← hd]
    exact fst_result hget

/-- A run in which the first document to end has no rule around it, with all comments before that
end, gives a document with all comments. -/
theorem comments_of_replay {first rest : List Event} {s : Assembly} {d : Document}
    (hfirst : .leave .document ∉ first) (hdepth : (ofCalls (first.map .event)).depth = 1)
    (hrest : ∀ e ∈ rest, e.comment? = none)
    (h : (handler.replay (first ++ .leave .document :: rest) s).1 = .ok d) :
    d.comments = (first ++ .leave .document :: rest).filterMap Event.comment? := by
  obtain ⟨hdone, ds, -, hds, -, rfl⟩ := exists_since_of_replay h
  generalize hes : first ++ .leave .document :: rest = es at *
  have htake : es.take first.length = first := by simp [← hes]
  have hlength : first.length < es.length := by simp [← hes]
  have hget : (es.map Call.event)[first.length]? = some (.event (.leave .document)) := by
    simp [← hes]
  obtain ⟨d, hd, hcomments⟩ := exists_completed? hget (hdone _ hlength)
  have hnone : ∀ k < first.length, es[k]? ≠ some (.leave .document) := fun k hk => by
    rw [← hes, List.getElem?_append_left hk]
    exact fun hk => hfirst (List.mem_of_getElem? hk)
  obtain ⟨hsince, hempty⟩ := since_events hnone
  -- The document is filed outside every rule, and nothing was filed there before it.
  have hfiled : filed? (es.map .event) first.length = some d := by
    have hbefore : before (es.map .event) first.length = ofCalls (first.map .event) := by
      rw [before, ← List.map_take, htake]
    rw [filed?, before_succ hget, Handler.snd_perform_event, hd, if_pos]
    exact (depth_leave _ _).trans (by rw [hbefore, hdepth])
  have hone := hempty.succ (not_clears_events es _)
  rw [hfiled] at hone
  obtain ⟨m, hm⟩ := hone.append hlength fun k _ _ => not_clears_events es k
  have hacc : Accounted (es.map .event) first.length := accounted (by simp; omega)
  rw [hds.unique hm]
  calc d.comments = (es.take first.length).filterMap Event.comment? := by
        rw [hcomments, hacc.comments.unique hsince]
    _ = es.filterMap Event.comment? := by
        rw [htake, ← hes, List.filterMap_append, List.filterMap_cons_none rfl,
          List.filterMap_eq_nil_iff.mpr hrest, List.append_nil]

/-- A run in which no document ends gives one without a feature, with all comments. -/
theorem eq_of_replay_of_not_mem {s : Assembly} {d : Document} (hes : .leave .document ∉ es)
    (h : (handler.replay es s).1 = .ok d) : d = ⟨none, es.filterMap Event.comment?⟩ := by
  obtain ⟨-, ds, cs, hds, hcs, rfl⟩ := exists_since_of_replay h
  obtain ⟨hsince, hempty⟩ := since_events (i := es.length) fun k _ hk =>
    hes (List.mem_of_getElem? hk)
  rw [hds.unique hempty, hcs.unique hsince, List.take_length]
  rfl

end Runs

/-- **Documents and their comments.** Whatever the calls: the end of a document that is carried out
makes one with the comments built since the last cut; and a result is the earliest document filed
outside every rule since the last result or the last start, or where there is none a document
without a feature, again with the comments built since the last cut. So no comment gets lost in a
run whose document ends outside every rule and after all comments, nor in one without a document. -/
theorem documents_of_calls :
    (∀ cs i, cs[i]? = some (.event (.leave .document)) →
      (handler.performAll cs .empty).1[i]? = some .done →
      ∃ d, completed? cs i = some d ∧ Since (Cut cs) (comment? cs) i d.comments) ∧
    (∀ cs i, cs[i]? = some .result →
      ∃ ds d, Since (Clears cs) (filed? cs) i ds ∧
        (handler.performAll cs .empty).1[i]? = some (.result d) ∧
        (ds.head? = some d ∨
          ds = [] ∧ d.feature = none ∧ Since (Cut cs) (comment? cs) i d.comments)) ∧
    (∀ first rest s d, .leave .document ∉ first → (ofCalls (first.map .event)).depth = 1 →
      (∀ e ∈ rest, e.comment? = none) →
      (handler.replay (first ++ .leave .document :: rest) s).1 = .ok d →
      d.comments = (first ++ .leave .document :: rest).filterMap Event.comment?) ∧
    ∀ es s d, .leave .document ∉ es → (handler.replay es s).1 = .ok d →
      d = ⟨none, es.filterMap Event.comment?⟩ := by
  refine ⟨fun cs i hc hdone => ?_, fun cs i hc => ?_, fun _ _ _ _ => comments_of_replay,
    fun _ _ _ => eq_of_replay_of_not_mem⟩
  · have hacc : Accounted cs i := accounted (Nat.le_of_lt (List.getElem?_eq_some_iff.mp hc).1)
    obtain ⟨d, hd, hcomments⟩ := exists_completed? hc hdone
    exact ⟨d, hd, hcomments ▸ hacc.comments⟩
  · have hacc : Accounted cs i := accounted (Nat.le_of_lt (List.getElem?_eq_some_iff.mp hc).1)
    obtain ⟨ds, hds, hget⟩ := hacc.documents
    refine ⟨ds, (before cs i).result.1, hds, ?_, ?_⟩
    · rw [Handler.getElem?_performAll, hc]
      rfl
    · rw [fst_result hget]
      cases ds with
      | nil => exact .inr ⟨rfl, rfl, hacc.comments⟩
      | cons d ds => exact .inl rfl

/-- A comment before a document, one inside it and one after it. -/
def eventsWithComments : List Event :=
  let comment (line column : UInt32) (text : String) : Event :=
    .token { kind := .comment, location := ⟨line, column⟩, text }
  [comment 1 1 "# language: en", .enter .document, comment 2 3 "# inside", .leave .document,
    comment 3 5 "# after"]

theorem documents_of_eventsWithComments :
    let cs := eventsWithComments.map Call.event ++ [.result, .result]
    (∃ d, completed? cs 3 = some d ∧ Since (Cut cs) (comment? cs) 3 d.comments) ∧
      (∃ ds d, Since (Clears cs) (filed? cs) 6 ds ∧
        (handler.performAll cs .empty).1[6]? = some (.result d) ∧
        (ds.head? = some d ∨
          ds = [] ∧ d.feature = none ∧ Since (Cut cs) (comment? cs) 6 d.comments)) ∧
      completed? cs 3 = some ⟨none, [⟨⟨1, 1⟩, "# language: en"⟩, ⟨⟨2, 3⟩, "# inside"⟩]⟩ ∧
      (handler.performAll cs .empty).1.drop 5 =
        [.result ⟨none, [⟨⟨1, 1⟩, "# language: en"⟩, ⟨⟨2, 3⟩, "# inside"⟩]⟩,
          .result ⟨none, [⟨⟨3, 5⟩, "# after"⟩]⟩] :=
  ⟨documents_of_calls.1 _ 3 rfl (by decide), documents_of_calls.2.1 _ 6 rfl, by decide, by decide⟩

end Assembly

end Gherkin
