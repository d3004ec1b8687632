import Gherkin.Proofs.Nested
import Gherkin.Proofs.Nesting
import Gherkin.Proofs.Refusals
import Mathlib.Data.List.Forall2

/-!
# Which events are accepted

A run fails at the first faulty end and for what is wrong with that end, and a run without a faulty
end goes through. For this the frames of an assembly are compared with the nesting of the events it
was fed: each frame holds the tokens that stand in its rule and the values of the rules in it, all
of which have one, since none of their ends was faulty.

## Main definitions

* `Gherkin.Forest.Becomes` : a value comes of a rule with a forest in it.
* `Gherkin.Nesting.Reaches` : an assembly was fed events with a nesting, and refused none.

## Main results

* `Gherkin.Forest.fault?_eq` : a rule is refused for what is wrong with it.
* `Gherkin.Nesting.Reaches.leave` : an end is refused for what is wrong with it.
* `Gherkin.Nesting.Reaches.feedAll`, `Gherkin.Assembly.replay_accepts_iff` : a run fails at the
  earliest faulty end, and goes through where there is none.
-/

namespace Gherkin

/-! ### Contents of a rule as a forest -/

namespace Forest

/-- The value `v` comes of the rule `q` with the forest `inner` in it. -/
def Becomes (q : Rule) (inner : Forest) (v : Value) : Prop :=
  ∃ comments ws cs, Forest.values comments inner = .ok (ws, cs) ∧
    (Frame.ofContents q (tokens inner) ws).conclude cs = .ok v

/-- A rule that is kept holds what stands in it. -/
theorem Becomes.of_isKept {q : Rule} (hq : q.isKept = true) {inner : Forest} {v : Value}
    (h : Becomes q inner v) : ∃ comments ws cs, Forest.values comments inner = .ok (ws, cs) ∧
      v = .frame (.ofContents q (tokens inner) ws) := by
  obtain ⟨comments, ws, cs, hin, hv⟩ := h
  refine ⟨comments, ws, cs, hin, ?_⟩
  cases q <;> first | contradiction | exact (Except.ok.inj hv).symm

section Contents

variable {c cs : Array Comment} {ts : Forest} {vs : List (Rule × Value)}
  (h : Forest.values c ts = .ok (vs, cs)) (r : Rule) (us : List Token)

include h

/-- The children from a rule are the values of what stands under it. -/
theorem forall₂_under (q : Rule) :
    List.Forall₂ (Becomes q) (under q ts) ((Frame.ofContents r us vs).children.get q) := by
  rw [Frame.children_get_ofContents]
  induction ts using Forest.induction generalizing c vs with
  | nil =>
    obtain ⟨rfl, -⟩ : [] = vs ∧ c = cs := by simpa [values_nil] using h
    exact .nil
  | token t ts ih =>
    rw [values_token_cons] at h
    exact ih h
  | node p inner ts _ ih =>
    obtain ⟨ws, cs', v, vs', hin, hv, hts, rfl⟩ := values_node_cons_eq_ok_iff.mp h
    by_cases hp : p = q
    · subst hp
      simpa [under, Tree.under?] using ⟨⟨c, ws, cs', hin, hv⟩, ih hts⟩
    · simpa [under, Tree.under?, hp] using ih hts

theorem under_eq_nil_iff (q : Rule) :
    under q ts = [] ↔ (Frame.ofContents r us vs).children.get q = [] := by
  have hall := forall₂_under h r us q
  constructor
  · intro hnil
    rw [hnil] at hall
    exact List.forall₂_nil_left_iff.mp hall
  · intro hnil
    rw [hnil] at hall
    exact List.forall₂_nil_right_iff.mp hall

/-- The first child from a rule that is kept holds what stands under that rule first. -/
theorem first?_frame_eq {q : Rule} (hq : q.isKept = true) {inner : Forest} {rest : List Forest}
    (hunder : under q ts = inner :: rest) :
    ∃ comments ws cs, Forest.values comments inner = .ok (ws, cs) ∧
      (Frame.ofContents r us vs).first? q Value.frame? =
        some (.ofContents q (tokens inner) ws) := by
  have hall := forall₂_under h r us q
  rw [hunder] at hall
  obtain ⟨v, vs', hv, -, hget⟩ := List.forall₂_cons_left_iff.mp hall
  obtain ⟨comments, ws, cs, hin, rfl⟩ := hv.of_isKept hq
  refine ⟨comments, ws, cs, hin, ?_⟩
  rw [Frame.first?, Frame.all, hget]
  rfl

end Contents

/-! ### What is wrong with a rule, and why it is refused -/

theorem token?_ofContents (r : Rule) (ts : Forest) (vs : List (Rule × Value)) {k : TokenKind}
    (hk : k ≠ .comment) :
    (Frame.ofContents r (tokens ts) vs).token? k = (lines k ts).head? := by
  rw [Frame.token?_eq, Frame.tokens_get_ofContents_of_ne _ _ _ hk, lines]

theorem reason?_token (r : Rule) (ts : Forest) (vs : List (Rule × Value)) {k : TokenKind}
    (hk : k ≠ .comment) :
    ((Frame.ofContents r (tokens ts) vs).token k).reason? = missingLine? r k ts := by
  rw [Frame.token, token?_ofContents r ts vs hk, missingLine?]
  cases lines k ts <;> rfl

/-- The number of cells of the first line of a table. -/
def width (ts : Forest) : Nat := ((lines .tableRow ts).head?.map fun t => t.items.length).getD 0

/-- The ragged row of a table is its first line that differs from the first of all. -/
theorem reason?_rows (r : Rule) (ts : Forest) (vs : List (Rule × Value)) :
    (Frame.ofContents r (tokens ts) vs).rows.reason? =
      (raggedRow? ts).map fun t => ⟨t.location, t.items.length, width ts⟩ := by
  have hget : (Frame.ofContents r (tokens ts) vs).tokens.get .tableRow = lines .tableRow ts :=
    Frame.tokens_get_ofContents_of_ne _ _ _ TokenKind.noConfusion
  rw [Frame.reason?_rows, hget, raggedRow?, width]
  cases lines .tableRow ts with
  | nil => rfl
  | cons first rest =>
    have hrest : (first :: rest).find? (fun t => decide (some t.items.length ≠
        (first :: rest).head?.map fun first => first.items.length)) =
        rest.find? fun t => decide (t.items.length ≠ first.items.length) := by
      simp
    rw [hrest, List.map_cons, Row.ragged?, List.find?_map, Option.map_map]
    simp only [Function.comp_def, Row.size_ofToken]
    rfl

section Faults

variable {c cs : Array Comment} {ts : Forest} {vs : List (Rule × Value)}
  (h : Forest.values c ts = .ok (vs, cs))

include h

theorem sound_contents (r : Rule) : (Frame.ofContents r (tokens ts) vs).Sound :=
  Frame.sound_ofContents (sound_of_values h)

theorem reason?_forbid (r q : Rule) (us : List Token) :
    ((Frame.ofContents r us vs).forbid q).reason? = unwantedRule? r q ts := by
  have hunder := under_eq_nil_iff h r us q
  rw [Frame.forbid, unwantedRule?]
  by_cases hnil : under q ts = []
  · simp [hunder.mp hnil, hnil]
  · simp [mt hunder.mpr hnil, hnil]

/-- The line of a feature is looked for in the frame of its header. -/
theorem header_frame :
    ∃ comments ws cs, Forest.values comments (header ts).2 = .ok (ws, cs) ∧
      ((Frame.ofContents .feature (tokens ts) vs).first? .featureHeader Value.frame?).getD
        (.ofContents .feature (tokens ts) vs) =
        .ofContents (header ts).1 (tokens (header ts).2) ws := by
  rw [header]
  cases hunder : under .featureHeader ts with
  | nil =>
    refine ⟨c, vs, cs, h, ?_⟩
    have hnil := (under_eq_nil_iff h .feature (tokens ts) .featureHeader).mp hunder
    rw [Frame.first?, Frame.all, hnil]
    rfl
  | cons inner rest =>
    obtain ⟨comments, ws, cs', hin, hfirst⟩ := first?_frame_eq h .feature (tokens ts) rfl hunder
    refine ⟨comments, ws, cs', hin, ?_⟩
    rw [hfirst]
    rfl

theorem reason?_described (r : Rule) {k : TokenKind} (hk : k ≠ .comment) :
    ((Frame.ofContents r (tokens ts) vs).token k).reason?.or
      ((Frame.ofContents r (tokens ts) vs).forbid .descriptionHelper).reason? =
      described? r k ts := by
  rw [reason?_token r ts vs hk, reason?_forbid h, described?]

theorem reason?_block (r : Rule) {k : TokenKind} (hk : k ≠ .comment) :
    ((Frame.ofContents r (tokens ts) vs).block k).reason? = described? r k ts := by
  have hf := sound_contents h r
  rw [hf.reason?_block, reason?_described h r hk]

theorem reason?_scenarioDefinition :
    (Frame.ofContents .scenarioDefinition (tokens ts) vs).scenarioDefinition.reason? =
      violation? .scenarioDefinition ts := by
  have hf := sound_contents h .scenarioDefinition
  rw [hf.reason?_scenarioDefinition]
  simp only [← under_eq_nil_iff h, Frame.rule_ofContents, violation?]

theorem reason?_examplesDefinition :
    (Frame.ofContents .examplesDefinition (tokens ts) vs).examplesDefinition.reason? =
      violation? .examplesDefinition ts := by
  have hf := sound_contents h .examplesDefinition
  rw [hf.reason?_examplesDefinition, violation?]
  cases hunder : under .examples ts with
  | nil =>
    have hnil := (under_eq_nil_iff h .examplesDefinition (tokens ts) .examples).mp hunder
    rw [(hf.first?_eq_none_iff .examples).mpr hnil]
    rfl
  | cons inner rest =>
    obtain ⟨comments, ws, cs', hin, hfirst⟩ :=
      first?_frame_eq h .examplesDefinition (tokens ts) rfl hunder
    rw [hfirst]
    exact reason?_described hin .examples TokenKind.noConfusion

theorem reason?_feature :
    (Frame.ofContents .feature (tokens ts) vs).feature.reason? = violation? .feature ts := by
  have hf := sound_contents h .feature
  obtain ⟨comments, ws, cs', hin, hheader⟩ := header_frame h
  have hlanguage : ((Frame.ofContents (header ts).1 (tokens (header ts).2) ws).token?
      .featureLine).bind Token.dialect = language? (header ts).2 := by
    rw [token?_ofContents _ _ _ TokenKind.noConfusion, language?]
  rw [hf.reason?_feature, hheader, violation?]
  dsimp only
  rw [hlanguage, reason?_forbid hin]
  cases language? (header ts).2 <;> rfl

theorem reason?_step :
    (Frame.ofContents .step (tokens ts) vs).step.reason? = violation? .step ts := by
  have hf := sound_contents h .step
  rw [hf.reason?_step, reason?_token _ _ _ TokenKind.noConfusion, reason?_forbid h, violation?]

/-- **Refusals.** A rule is refused for what is wrong with the forest in it, and for nothing
else. -/
theorem fault?_eq (r : Rule) (comments : Array Comment) :
    ((Frame.ofContents r (tokens ts) vs).conclude comments).reason?.map Rejection.fault =
      fault? r ts := by
  have hf := sound_contents h r
  have hviolation {x y : Option Violation} (hxy : x = y) :
      x.map (Rejection.fault ∘ Rejection.violation) = y.map Fault.violation := hxy ▸ rfl
  have htable : (Frame.ofContents r (tokens ts) vs).rows.reason?.map
      (Rejection.fault ∘ Rejection.ragged) =
      (raggedRow? ts).map fun t => .invalid t.location Ragged.reason := by
    rw [reason?_rows, Option.map_map]
    rfl
  unfold Frame.conclude fault?
  cases r <;> simp only [Frame.rule_ofContents, Except.reason?_mapError, Except.reason?_map,
    Except.reason?_ok, Option.map_map, Option.map_none]
  case document => exact hviolation (hf.reason?_document comments)
  case feature => exact hviolation (reason?_feature h)
  case background => exact hviolation (reason?_block h .background TokenKind.noConfusion)
  case scenarioDefinition => exact hviolation (reason?_scenarioDefinition h)
  case scenario => exact hviolation (reason?_block h .scenario TokenKind.noConfusion)
  case outline =>
    rw [hf.reason?_outline]
    exact hviolation (reason?_described h .outline TokenKind.noConfusion)
  case examplesDefinition => exact hviolation (reason?_examplesDefinition h)
  case examplesTable => exact htable
  case step => exact hviolation (reason?_step h)
  case dataTable => exact htable
  case docString =>
    rw [Frame.reason?_docString]
    exact hviolation (reason?_token .docString ts vs TokenKind.noConfusion)
  all_goals rfl

end Faults

end Forest

/-! ### One event -/

namespace Nesting

open Assembly (handler)

/-- An assembly was fed events with the nesting `n` and has refused none of them: each frame holds
what stands in its rule so far. -/
inductive Reaches : Nesting → Assembly → Prop
  | outermost {ts : Forest} {vs : List (Rule × Value)} {cs : Array Comment}
      (h : Forest.values #[] ts = .ok (vs, cs)) :
      Reaches ⟨ts, []⟩ (Assembly.empty.absorb (Forest.tokens ts) vs cs)
  | inside {n : Nesting} {s : Assembly} {r : Rule} {ts : Forest} {vs : List (Rule × Value)}
      {cs : Array Comment} (hs : Reaches n s) (h : Forest.values s.comments ts = .ok (vs, cs)) :
      Reaches ⟨ts, (n.here, r) :: n.around⟩ ((s.enter r).absorb (Forest.tokens ts) vs cs)

theorem reaches_empty : Reaches empty Assembly.empty := by
  rw [← Assembly.empty.absorb_nil]
  exact .outermost Forest.values_nil

namespace Reaches

variable {n : Nesting} {s : Assembly} (hs : n.Reaches s)

include hs

/-- What is met next in the innermost rule goes to its frame. -/
theorem absorb {ts : Forest} {vs : List (Rule × Value)} {cs : Array Comment}
    (h : Forest.values s.comments ts = .ok (vs, cs)) :
    Reaches { n with here := n.here ++ ts } (s.absorb (Forest.tokens ts) vs cs) := by
  cases hs with
  | outermost h₀ =>
    rw [Assembly.absorb_absorb, ← Forest.tokens_append]
    exact .outermost (Forest.values_append h₀ h)
  | inside hs h₀ =>
    rw [Assembly.absorb_absorb, ← Forest.tokens_append]
    exact .inside hs (Forest.values_append h₀ h)

theorem token (t : Token) : Reaches (n.step (.token t)) (s.attach t) := by
  rw [Assembly.attach_eq_absorb]
  have h : Forest.values s.comments [.token t] = .ok ([], t.addComment s.comments) := by
    rw [Forest.values_token_cons, Forest.values_nil]
  exact hs.absorb h

theorem enter (r : Rule) : Reaches (n.step (.enter r)) (s.enter r) := by
  have hnil : (s.enter r).absorb (Forest.tokens []) [] s.comments = s.enter r :=
    (s.enter r).absorb_nil
  rw [← hnil]
  exact .inside hs Forest.values_nil

/-- **Ends.** An end is refused for what is wrong with it, and otherwise the rule is left with all
that stands in it. -/
theorem leave (r : Rule) : (s.leave r).1.reason?.map Rejection.fault = n.fault? r ∧
    (n.fault? r = none → Reaches (n.step (.leave r)) (s.leave r).2) := by
  cases hs with
  | outermost h => exact ⟨rfl, fun hnone => nomatch hnone⟩
  | @inside n s o ts vs cs hs h =>
    by_cases ho : o = r
    · subst ho
      have hfault : Nesting.fault? ⟨ts, (n.here, o) :: n.around⟩ o = Forest.fault? o ts :=
        if_pos rfl
      rw [hfault, ← Forest.fault?_eq h o cs, Assembly.leave_enter_absorb]
      cases hv : (Frame.ofContents o (Forest.tokens ts) vs).conclude cs with
      | error x => exact ⟨rfl, fun hnone => nomatch hnone⟩
      | ok v =>
        -- The rule that was open becomes the last tree of the rule around it.
        have hnode : Forest.values s.comments [.node o ts] =
            .ok ([(o, v)], if o = .document then #[] else cs) :=
          Forest.values_node_cons_eq_ok_iff.mpr ⟨vs, cs, v, [], h, hv, Forest.values_nil, rfl⟩
        exact ⟨rfl, fun _ => hs.absorb hnode⟩
    · have hfault : Nesting.fault? ⟨ts, (n.here, o) :: n.around⟩ r =
          some (.violation (.unbalanced o r)) := if_neg ho
      rw [hfault, Assembly.leave_enter_absorb_of_ne _ _ _ _ ho]
      exact ⟨rfl, fun hnone => nomatch hnone⟩

/-- An event is taken in, or it is an end and refused for what is wrong with it. -/
theorem feed (e : Event) :
    (∃ s', handler.feed e s = (.ok (), s') ∧ Reaches (n.step e) s' ∧
      ∀ r, e = .leave r → n.fault? r = none) ∨
    ∃ x s', handler.feed e s = (.error x, s') ∧ ∃ r, e = .leave r ∧ n.fault? r = some x := by
  cases e with
  | token t => exact .inl ⟨_, rfl, hs.token t, fun r hr => nomatch hr⟩
  | enter r => exact .inl ⟨_, rfl, hs.enter r, fun r hr => nomatch hr⟩
  | leave r =>
    obtain ⟨hfault, hreaches⟩ := hs.leave r
    have hfeed : handler.feed (.leave r) s = (Assembly.reported (s.leave r).1, (s.leave r).2) := rfl
    cases hv : (s.leave r).1 with
    | error x =>
      rw [hv] at hfault hfeed
      exact .inr ⟨x.fault, _, hfeed, r, rfl, hfault.symm⟩
    | ok v =>
      rw [hv] at hfault hfeed
      refine .inl ⟨_, hfeed, hreaches hfault.symm, fun q hq => ?_⟩
      cases hq
      exact hfault.symm

/-- Events are taken in up to the earliest faulty end. -/
theorem feedAll (es : List Event) :
    (∃ s', handler.feedAll es s = (.ok (), s') ∧ Reaches (n.after es) s' ∧
      ∀ i x, ¬n.FaultyEnd es i x) ∨
    ∃ x, (handler.feedAll es s).1 = .error x ∧ n.FirstFault es x := by
  induction es generalizing n s with
  | nil => exact .inl ⟨s, rfl, hs, fun i x => not_faultyEnd_nil⟩
  | cons e es ih =>
    -- The events up to `e` hold no faulty end, so the earliest one is `e` or comes later.
    rcases hs.feed e with ⟨s', he, hs', hnone⟩ | ⟨x, s', he, r, rfl, hx⟩
    · rw [handler.feedAll_cons_of_ok he]
      rcases ih hs' with ⟨s'', hes, hs'', hfaults⟩ | ⟨x, hes, hx⟩
      · refine .inl ⟨s'', hes, hs'', fun i x hi => ?_⟩
        rcases i with _ | i
        · obtain ⟨r, hr, hx⟩ := faultyEnd_cons_zero.mp hi
          rw [hnone r hr] at hx
          cases hx
        · exact hfaults i x (faultyEnd_cons_succ.mp hi)
      · exact .inr ⟨x, hes, (firstFault_cons hnone).mpr hx⟩
    · refine .inr ⟨x, ?_, 0, faultyEnd_cons_zero.mpr ⟨r, rfl, hx⟩, fun j hj => ?_⟩
      · rw [handler.feedAll_cons_of_error he]
      · exact absurd hj (Nat.not_lt_zero j)

end Reaches

end Nesting

/-! ### Runs -/

namespace Assembly

/-- **Exact acceptance and exact refusal.** A run goes through exactly when no end is faulty, and
it fails exactly for what is wrong with the earliest faulty end. -/
theorem replay_accepts_iff (es : List Event) (s : Assembly) :
    ((∃ d, (handler.replay es s).1 = .ok d) ↔ ∀ i x, ¬Nesting.empty.FaultyEnd es i x) ∧
      ∀ x, (handler.replay es s).1 = .error x ↔ Nesting.empty.FirstFault es x := by
  rcases Nesting.reaches_empty.feedAll es with ⟨s', hes, -, hnone⟩ | ⟨x, hes, hx⟩
  · have hrun : (handler.replay es s).1 = .ok s'.result.1 := handler.replay_of_ok hes
    rw [hrun]
    refine ⟨⟨fun _ => hnone, fun _ => ⟨_, rfl⟩⟩, fun x => ⟨fun hx => (nomatch hx), ?_⟩⟩
    rintro ⟨i, hi, -⟩
    exact absurd hi (hnone i x)
  · have hrun : (handler.replay es s).1 = .error x := handler.replay_of_error hes
    rw [hrun]
    constructor
    · constructor
      · rintro ⟨d, hd⟩
        exact nomatch hd
      · intro hnone
        obtain ⟨i, hi, -⟩ := hx
        exact absurd hi (hnone i x)
    · intro y
      constructor
      · intro hy
        exact Except.error.inj hy ▸ hx
      · intro hy
        rw [hx.unique hy]

end Assembly

end Gherkin
