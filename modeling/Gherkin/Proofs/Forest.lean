import Gherkin.Assembly.OfForest
import Gherkin.Proofs.Soundness

/-!
# Values of forests

The values of a forest are computed from left to right, and inside a rule before the rule itself.
What is shown here are the equations of that recursion, the principle by which statements on
forests are proved, and that all values are sound.

## Main results

* `Gherkin.Frame.tokens_get_ofContents`, `Gherkin.Frame.children_get_ofContents` : what a rule with
  known contents gives back.
* `Gherkin.Forest.induction` : induction on the first tree of a forest and on what stands in it.
* `Gherkin.Forest.values_token_cons`, `Gherkin.Forest.values_node_cons` : the values of a forest by
  its first tree.
* `Gherkin.Forest.values_append` : the values of one forest after another.
* `Gherkin.Forest.sound_of_values` : the values of a forest are sound.
-/

namespace Gherkin

/-! ### Contents of a rule -/

namespace Frame

variable (r : Rule) (ts : List Token) (vs : List (Rule × Value))

@[simp]
theorem rule_ofContents : (ofContents r ts vs).rule = r := rfl

/-- The tokens of a kind, in their order; no comment is among them. -/
theorem tokens_get_ofContents (k : TokenKind) : (ofContents r ts vs).tokens.get k =
    ts.filter fun t => !t.kind.isComment && t.kind = k := by
  have hget : (ofContents r ts vs).tokens.get k =
      ((ts.filter fun t => !t.kind.isComment).map fun t => (t.kind, t)).filterMap
        fun e => if e.1 = k then some e.2 else none := Multimap.get_ofList _ k
  rw [hget, List.filterMap_map, ← List.filterMap_eq_filter, List.filterMap_filterMap,
    ← List.filterMap_eq_filter]
  congr 1
  funext t
  cases ht : t.kind.isComment <;> simp [Option.guard, ht]

/-- All tokens of a kind are given back, unless it is the kind of comments. -/
theorem tokens_get_ofContents_of_ne {k : TokenKind} (hk : k ≠ .comment) :
    (ofContents r ts vs).tokens.get k = ts.filter fun t => t.kind = k := by
  rw [tokens_get_ofContents]
  refine List.filter_congr fun t _ => ?_
  by_cases ht : t.kind = k
  · have hcomment : t.kind.isComment = false := by
      simpa [ht, Bool.eq_false_iff] using hk
    simp [hcomment]
  · simp [ht]

/-- The children from a rule, in their order. -/
theorem children_get_ofContents (q : Rule) : (ofContents r ts vs).children.get q =
    vs.filterMap fun p => if p.1 = q then some p.2 else none :=
  Multimap.get_ofList vs q

end Frame

/-- The comments that wait after a token. -/
def Token.addComment (t : Token) (comments : Array Comment) : Array Comment :=
  if t.kind.isComment then comments.push (.ofToken t) else comments

/-! ### Equations -/

namespace Forest

/-- Induction on the first tree of a forest: a token, or a rule with a forest in it. -/
@[elab_as_elim]
theorem induction {motive : Forest → Prop} (nil : motive [])
    (token : ∀ t ts, motive ts → motive (.token t :: ts))
    (node : ∀ r inner ts, motive inner → motive ts → motive (.node r inner :: ts)) :
    (ts : Forest) → motive ts
  | [] => nil
  | .token t :: ts => token t ts (induction nil token node ts)
  | .node r inner :: ts =>
    node r inner ts (induction nil token node inner) (induction nil token node ts)

@[simp]
theorem tokens_append (ts us : Forest) : tokens (ts ++ us) = tokens ts ++ tokens us :=
  List.filterMap_append

variable {comments comments' : Array Comment}

theorem values_nil : Forest.values comments [] = .ok ([], comments) := by
  rw [Forest.values]

/-- A token has no value, and adds to the comments if it is one. -/
theorem values_token_cons (t : Token) (ts : Forest) :
    Forest.values comments (.token t :: ts) = Forest.values (t.addComment comments) ts := by
  rw [Forest.values, Tree.values, Except.ok_bind]
  change (Forest.values (t.addComment comments) ts >>= fun out => pure ([] ++ out.1, out.2)) = _
  cases Forest.values (t.addComment comments) ts <;> rfl

/-- A rule has a value after the forest in it, and before what comes after it. -/
theorem values_node_cons (r : Rule) (inner ts : Forest) :
    Forest.values comments (.node r inner :: ts) =
      (Forest.values comments inner >>= fun out =>
        (Frame.ofContents r (tokens inner) out.1).conclude out.2 >>= fun v =>
          (Forest.values (if r = .document then #[] else out.2) ts).map fun rest =>
            ((r, v) :: rest.1, rest.2)) := by
  rw [Forest.values, Tree.values]
  cases Forest.values comments inner with
  | error x => rfl
  | ok out =>
    rw [Except.ok_bind, Except.ok_bind]
    dsimp only
    cases (Frame.ofContents r (tokens inner) out.1).conclude out.2 with
    | error x => rfl
    | ok v =>
      rw [Except.ok_bind, Except.ok_bind, Except.pure_eq_ok, Except.ok_bind]
      dsimp only
      cases Forest.values (if r = .document then #[] else out.2) ts <;> rfl

/-- The rule and all around it have values when each step of their computation does. -/
theorem values_node_cons_eq_ok_iff {r : Rule} {inner ts : Forest} {vs : List (Rule × Value)} :
    Forest.values comments (.node r inner :: ts) = .ok (vs, comments') ↔
      ∃ ws cs v us, Forest.values comments inner = .ok (ws, cs) ∧
        (Frame.ofContents r (tokens inner) ws).conclude cs = .ok v ∧
        Forest.values (if r = .document then #[] else cs) ts = .ok (us, comments') ∧
        (r, v) :: us = vs := by
  simp only [values_node_cons, Except.bind_eq_ok_iff, Except.map_eq_ok_iff, Prod.exists,
    Prod.mk.injEq]
  constructor
  · rintro ⟨ws, cs, hin, v, hv, us, cs', hts, hvs, rfl⟩
    exact ⟨ws, cs, v, us, hin, hv, hts, hvs⟩
  · rintro ⟨ws, cs, v, us, hin, hv, hts, hvs⟩
    exact ⟨ws, cs, hin, v, hv, us, comments', hts, hvs, rfl⟩

/-- The rejection of a forest is the first one met: inside its first rule, at the end of it, or
after it. -/
theorem values_node_cons_eq_error_iff {r : Rule} {inner ts : Forest} {x : Rejection} :
    Forest.values comments (.node r inner :: ts) = .error x ↔
      Forest.values comments inner = .error x ∨
        ∃ ws cs, Forest.values comments inner = .ok (ws, cs) ∧
          ((Frame.ofContents r (tokens inner) ws).conclude cs = .error x ∨
            ∃ v, (Frame.ofContents r (tokens inner) ws).conclude cs = .ok v ∧
              Forest.values (if r = .document then #[] else cs) ts = .error x) := by
  simp only [values_node_cons, Except.bind_eq_error_iff, Except.map_eq_error_iff, Prod.exists]

/-- The forests after one another are valued one after the other. -/
theorem values_append {ts us : Forest} {vs ws : List (Rule × Value)} {cs cs' : Array Comment}
    (hts : Forest.values comments ts = .ok (vs, cs)) (hus : Forest.values cs us = .ok (ws, cs')) :
    Forest.values comments (ts ++ us) = .ok (vs ++ ws, cs') := by
  induction ts using Forest.induction generalizing comments vs with
  | nil =>
    obtain ⟨rfl, rfl⟩ : [] = vs ∧ comments = cs := by simpa [values_nil] using hts
    exact hus
  | token t ts ih =>
    rw [values_token_cons] at hts
    rw [List.cons_append, values_token_cons, ih hts]
  | node r inner ts _ ih =>
    obtain ⟨ks, cs'', v, vs', hin, hv, hrest, rfl⟩ := values_node_cons_eq_ok_iff.mp hts
    exact values_node_cons_eq_ok_iff.mpr ⟨ks, cs'', v, vs' ++ ws, hin, hv, ih hrest, rfl⟩

end Forest

/-! ### Soundness -/

/-- A rule with sound values in it is sound. -/
theorem Frame.sound_ofContents {r : Rule} {ts : List Token} {vs : List (Rule × Value)}
    (h : ∀ p ∈ vs, p.2.Sound p.1) : (ofContents r ts vs).Sound := by
  refine ⟨fun k t ht => ?_, fun q v hv => ?_, Multimap.filled_empty.append _,
    Multimap.filled_empty.append _⟩
  · rw [tokens_get_ofContents] at ht
    simpa [and_comm] using (List.mem_filter.mp ht).2
  · rw [children_get_ofContents] at hv
    obtain ⟨p, hp, hv⟩ := List.mem_filterMap.mp hv
    split at hv
    · next hq =>
      cases hv
      exact hq ▸ h p hp
    · cases hv

/-- **The values of a forest are sound.** -/
theorem Forest.sound_of_values {ts : Forest} {comments cs : Array Comment}
    {vs : List (Rule × Value)} (h : Forest.values comments ts = .ok (vs, cs)) :
    ∀ p ∈ vs, p.2.Sound p.1 := by
  induction ts using Forest.induction generalizing comments cs vs with
  | nil =>
    obtain ⟨rfl, -⟩ : [] = vs ∧ comments = cs := by simpa [values_nil] using h
    exact fun p hp => absurd hp List.not_mem_nil
  | token t ts ih =>
    rw [values_token_cons] at h
    exact ih h
  | node r inner ts ihin ihts =>
    obtain ⟨ws, cs', v, us, hin, hv, hts, rfl⟩ := values_node_cons_eq_ok_iff.mp h
    intro p hp
    rcases List.mem_cons.mp hp with rfl | hp
    · exact (Frame.sound_ofContents (ihin hin)).conclude hv
    · exact ihts hts p hp

end Gherkin
