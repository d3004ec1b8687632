import Gherkin.Grammar.Slot
import Gherkin.Proofs.Reachable
import Mathlib.Data.List.Forall2

/-!
# Frames that are read alike

Two frames of one rule agree when they hold the same in all that is read of their slots. What they
hold besides may differ: lines and children that nobody looks at, and whatever follows the first of
a slot of which only the first is read. The order in which slots came into use is not looked at
either. Values agree when they are equal, or are frames that agree, or documents with the same
feature. How the comments of two documents compare is left open, and so is what differs between two
lines in the parts of a line that are not used for its kind.

## Main definitions

* `Except.Agree` : outcomes that fail for the same reason, or have values that are related.
* `Gherkin.Share.Agree` : queues that are related in the share of them that is read.
* `Gherkin.Token.Agree` : lines with the same content for their kind.
* `Gherkin.Value.Agree`, `Gherkin.Frame.Agree` : values and frames that are read alike.

## Main results

* `Gherkin.Value.Sound.agree_refl` : a sound value agrees with itself.
* `Gherkin.Frame.Agree.fileToken`, `Gherkin.Frame.Agree.fileChild` : filing keeps agreement.
-/

/-! ### Outcomes -/

namespace Except

variable {ε ε' α β γ δ : Type} {R : α → β → Prop} {S : γ → δ → Prop}

/-- Two outcomes fail for the same reason, or have values that are related by `R`. -/
inductive Agree (R : α → β → Prop) : Except ε α → Except ε β → Prop
  | ok {a : α} {b : β} (h : R a b) : Agree R (.ok a) (.ok b)
  | error (e : ε) : Agree R (.error e) (.error e)

theorem Agree.bind {x : Except ε α} {y : Except ε β} (h : Agree R x y)
    {f : α → Except ε γ} {g : β → Except ε δ} (hfg : ∀ a b, R a b → Agree S (f a) (g b)) :
    Agree S (x >>= f) (y >>= g) := by
  cases h with
  | ok hab => exact hfg _ _ hab
  | error e => exact .error e

/-- Outcomes under other names. -/
theorem Agree.rename {x : Except ε α} {y : Except ε β} (h : Agree R x y) {f : α → γ} {g : β → δ}
    (hfg : ∀ a b, R a b → S (f a) (g b)) (n : ε → ε') :
    Agree S ((x.map f).mapError n) ((y.map g).mapError n) := by
  cases h with
  | ok hab => exact .ok (hfg _ _ hab)
  | error e => exact .error (n e)

theorem agree_eq_iff {x y : Except ε α} : Agree Eq x y ↔ x = y := by
  constructor
  · rintro (rfl | _) <;> rfl
  · rintro rfl
    cases x with
    | ok a => exact .ok rfl
    | error e => exact .error e

end Except

namespace Gherkin

/-! ### Queues -/

namespace Share

variable {α β : Type} {R : α → β → Prop} {l : List α} {m : List β} {σ : Share}

/-- Two queues are related in the share of them that is read. -/
inductive Agree (R : α → β → Prop) : Share → List α → List β → Prop
  | nothing {l : List α} {m : List β} : Agree R .nothing l m
  | presence {l : List α} {m : List β} (h : l = [] ↔ m = []) : Agree R .presence l m
  | first {l : List α} {m : List β} (h : Option.Rel R l.head? m.head?) : Agree R .first l m
  | all {l : List α} {m : List β} (h : List.Forall₂ R l m) : Agree R .all l m

theorem Agree.isEmpty_eq (h : Agree R .presence l m) : l.isEmpty = m.isEmpty := by
  cases h with
  | presence h => cases l <;> cases m <;> simp_all

theorem Agree.head? (h : Agree R .first l m) : Option.Rel R l.head? m.head? := by
  cases h with
  | first h => exact h

theorem Agree.forall₂ (h : Agree R .all l m) : List.Forall₂ R l m := by
  cases h with
  | all h => exact h

/-- Queues that are related throughout are related in any share. -/
theorem Agree.of_forall₂ (σ : Share) (h : List.Forall₂ R l m) : Agree R σ l m := by
  cases σ with
  | nothing => exact .nothing
  | presence => cases h <;> exact .presence (by simp)
  | first =>
    cases h with
    | nil => exact .first .none
    | cons hab _ => exact .first (.some hab)
  | all => exact .all h

/-- One more on both sides. -/
theorem Agree.concat (h : Agree R σ l m) {a : α} {b : β} (hab : R a b) :
    Agree R σ (l ++ [a]) (m ++ [b]) := by
  cases h with
  | nothing => exact .nothing
  | presence _ => exact .presence (by simp)
  | first h =>
    refine .first ?_
    rw [List.head?_append, List.head?_append]
    generalize l.head? = x, m.head? = y at h
    cases h with
    | some h => exact .some h
    | none => exact .some hab
  | all h => exact .all (List.rel_append h (.cons hab .nil))

/-- One more where it is not read: in a queue that is not looked at, or after the first. -/
theorem Agree.concat_right (h : Agree R σ l m) (hσ : σ = .nothing ∨ σ = .first ∧ m ≠ []) (b : β) :
    Agree R σ l (m ++ [b]) := by
  rcases hσ with rfl | ⟨rfl, hm⟩
  · exact .nothing
  · refine .first ?_
    rw [List.head?_append_of_ne_nil _ hm]
    exact h.head?

end Share

/-! ### Lines -/

/-- Two lines have the same content, as far as it is used in lines of the kind `k`. -/
def Token.Agree (k : TokenKind) (t u : Token) : Prop :=
  match k with
  | .unmatched | .eof | .empty | .language => True
  | .comment | .docStringSeparator => t.location = u.location ∧ t.text = u.text
  | .tagLine | .tableRow => t.location = u.location ∧ t.items = u.items
  | .other => t.text = u.text
  | .backgroundLine | .scenarioLine | .outlineLine | .examplesLine | .stepLine =>
    t.location = u.location ∧ t.keywordText = u.keywordText ∧ t.text = u.text
  | .featureLine =>
    t.location = u.location ∧ t.keywordText = u.keywordText ∧ t.text = u.text ∧
      t.dialect = u.dialect

theorem Token.agree_refl (k : TokenKind) (t : Token) : t.Agree k t := by
  cases k <;> simp [Token.Agree]

/-- Lines that are read as a whole give the same parts where each line does. -/
theorem Token.map_eq_of_forall₂ {γ : Type} {k : TokenKind} {F : Token → γ}
    (hF : ∀ t u, Token.Agree k t u → F t = F u) {ts us : List Token}
    (h : List.Forall₂ (Token.Agree k) ts us) : ts.map F = us.map F := by
  induction h with
  | nil => rfl
  | cons htu _ ih => rw [List.map_cons, List.map_cons, hF _ _ htu, ih]

/-! ### Values and frames -/

/-- Two values are read alike. The comments of documents are related by `K`. -/
inductive Value.Agree (K : List Comment → List Comment → Prop) : Value → Value → Prop
  | same {v : Value} (hd : v.document? = none) (hf : v.frame? = none) : Agree K v v
  | document {d e : Document} (hf : d.feature = e.feature) (hc : K d.comments e.comments) :
      Agree K (.document d) (.document e)
  | frame {f g : Frame Value} (hr : f.rule = g.rule)
      (ht : ∀ k, (f.rule.lineShare k).Agree (Token.Agree k) (f.tokens.get k) (g.tokens.get k))
      (hc : ∀ r, (f.rule.childShare r).Agree (Agree K) (f.children.get r) (g.children.get r)) :
      Agree K (.frame f) (.frame g)

/-- Two frames of one rule are read alike. -/
structure Frame.Agree (K : List Comment → List Comment → Prop) (f g : Frame Value) : Prop where
  rule : f.rule = g.rule
  tokens : ∀ k, (f.rule.lineShare k).Agree (Token.Agree k) (f.tokens.get k) (g.tokens.get k)
  children : ∀ r, (f.rule.childShare r).Agree (Value.Agree K) (f.children.get r) (g.children.get r)

variable {K : List Comment → List Comment → Prop}

theorem Frame.Agree.value {f g : Frame Value} (h : f.Agree K g) :
    Value.Agree K (.frame f) (.frame g) :=
  .frame h.rule h.tokens h.children

/-- Where the queues of two frames of a rule are the same, the frames agree. -/
theorem Frame.agree_of_get_eq {f g : Frame Value} (hr : f.rule = g.rule)
    (ht : ∀ k, f.tokens.get k = g.tokens.get k) (hc : ∀ r, f.children.get r = g.children.get r)
    (hg : ∀ r, ∀ v ∈ g.children.get r, v.Agree K v) : f.Agree K g where
  rule := hr
  tokens k := by
    rw [ht k]
    exact .of_forall₂ _ (List.forall₂_same.mpr fun t _ => t.agree_refl k)
  children r := by
    rw [hc r]
    exact .of_forall₂ _ (List.forall₂_same.mpr (hg r))

/-- Sound values agree with themselves. The frames that are kept among them need not be empty, so
this is shown from the inside of a value to the outside. -/
theorem Value.Sound.agree_refl (hK : ∀ cs, K cs cs) {r : Rule} {v : Value} (hv : v.Sound r) :
    v.Agree K v := by
  induction hv with
  | document _ => exact .document rfl (hK _)
  | kept _ _ _ _ _ _ ih => exact (Frame.agree_of_get_eq rfl (fun _ => rfl) (fun _ => rfl) ih).value
  | _ => exact .same rfl rfl

/-! ### Filing -/

namespace Frame.Agree

variable {f g : Frame Value} (h : f.Agree K g)

include h

/-- Lines of one kind with the same content are filed. -/
theorem fileToken {t u : Token} (hk : t.kind = u.kind) (htu : t.Agree t.kind u) :
    (f.fileToken t).Agree K (g.fileToken u) where
  rule := h.rule
  tokens k := by
    rw [rule_fileToken, tokens_fileToken, tokens_fileToken, Multimap.get_add, Multimap.get_add,
      ← hk]
    split
    · next hkind => exact (h.tokens k).concat (hkind ▸ htu)
    · exact h.tokens k
  children := h.children

/-- Values that agree are filed under one rule. -/
theorem fileChild (r : Rule) {v w : Value} (hvw : v.Agree K w) :
    (f.fileChild r v).Agree K (g.fileChild r w) where
  rule := h.rule
  tokens := h.tokens
  children q := by
    rw [rule_fileChild, children_fileChild, children_fileChild, Multimap.get_add, Multimap.get_add]
    split
    · exact (h.children q).concat hvw
    · exact h.children q

end Frame.Agree

theorem Frame.agree_new (r : Rule) : Frame.Agree K (.new r) (.new r) where
  rule := rfl
  tokens _ := .of_forall₂ _ .nil
  children _ := .of_forall₂ _ .nil

end Gherkin
