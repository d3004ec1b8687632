import Gherkin.Fault
import Gherkin.Multimap
import Gherkin.Token

/-!
# Frames

A frame is a rule that has been entered, with the tokens and the children filed in it so far:
tokens under their kind, and children, which are values of a type `α`, under the rule that they
come from. When the rule is left, what it is made of is taken from the frame. A take asks for one
kind of token or one rule, and for one sort of value, and leaves nothing of it in the frame, also
where it gives no more than the first.

A frame that is left is dropped, so what matters of most takes is only what they give; these are the
readings of a frame. Where a rule always has what is asked for, its absence is a violation of the
contract of the grammar. The outermost frame is not left, so the documents in it are taken.

## Main definitions

* `Gherkin.Frame` : a rule with what was filed in it.
* `Gherkin.Frame.fileToken`, `Gherkin.Frame.fileChild` : filing.
* `Gherkin.Frame.takeTokens`, `Gherkin.Frame.takeToken?`, `Gherkin.Frame.takeChildren`,
  `Gherkin.Frame.takeChild?` : taking what was filed.
* `Gherkin.Frame.tokensOf`, `Gherkin.Frame.token?`, `Gherkin.Frame.token` : the tokens of a kind.
* `Gherkin.Frame.childrenOf`, `Gherkin.Frame.child?`, `Gherkin.Frame.child`,
  `Gherkin.Frame.forbid` : the children from a rule.

## Main results

* `Gherkin.Frame.tokensOf_eq`, `Gherkin.Frame.token?_eq`, `Gherkin.Frame.childrenOf_eq_readEach` :
  readings give what is in the queues.
-/

namespace Gherkin

/-- A rule with the tokens and the children filed in it, in maps of any sort. -/
structure Frame (α : Type) (τ : Type := Dictionary TokenKind (Array Token))
    (γ : Type := Dictionary Rule (Array α)) where
  rule : Rule
  tokens : Multimap TokenKind Token τ
  children : Multimap Rule α γ

namespace Frame

variable {α β τ γ : Type}

/-- The frame of a rule in which nothing was filed yet. -/
def new [OrderedMap τ TokenKind (Array Token)] [OrderedMap γ Rule (Array α)] (r : Rule) :
    Frame α τ γ :=
  ⟨r, ∅, ∅⟩

@[simp]
theorem rule_new [OrderedMap τ TokenKind (Array Token)] [OrderedMap γ Rule (Array α)] (r : Rule) :
    (new r : Frame α τ γ).rule = r := rfl

/-! ### Tokens -/

section Tokens

variable [OrderedMap τ TokenKind (Array Token)]

/-- Files a token under its kind. -/
def fileToken (f : Frame α τ γ) (t : Token) : Frame α τ γ :=
  { f with tokens := f.tokens.add t.kind t }

/-- Takes all tokens of a kind. -/
def takeTokens (f : Frame α τ γ) (k : TokenKind) : List Token × Frame α τ γ :=
  let (ts, tokens) := f.tokens.take k
  (ts, { f with tokens })

/-- Takes all tokens of a kind, and gives the first. -/
def takeToken? (f : Frame α τ γ) (k : TokenKind) : Option Token × Frame α τ γ :=
  let (ts, f) := f.takeTokens k
  (ts.head?, f)

/-- The tokens of a kind. -/
def tokensOf (f : Frame α τ γ) (k : TokenKind) : List Token := (f.takeTokens k).1

/-- The first token of a kind. -/
def token? (f : Frame α τ γ) (k : TokenKind) : Option Token := (f.takeToken? k).1

/-- The first token of a kind that the rule always has. -/
def token (f : Frame α τ γ) (k : TokenKind) : Except Violation Token :=
  match f.token? k with
  | some t => .ok t
  | none => .error (.missingToken f.rule k)

variable (f : Frame α τ γ) (t : Token) (k : TokenKind)

@[simp]
theorem rule_fileToken : (f.fileToken t).rule = f.rule := rfl

@[simp]
theorem tokens_fileToken : (f.fileToken t).tokens = f.tokens.add t.kind t := rfl

@[simp]
theorem children_fileToken : (f.fileToken t).children = f.children := rfl

variable [LawfulOrderedMap τ]

@[simp]
theorem tokensOf_eq : f.tokensOf k = f.tokens.get k := f.tokens.fst_take k

theorem token?_eq : f.token? k = (f.tokens.get k).head? := congrArg List.head? (f.tokensOf_eq k)

end Tokens

/-! ### Children -/

section Children

variable [OrderedMap γ Rule (Array α)]

/-- Files a child under the rule that it comes from. -/
def fileChild (f : Frame α τ γ) (r : Rule) (a : α) : Frame α τ γ :=
  { f with children := f.children.add r a }

/-- Values that are children from the rule `r`, each of the sort that `as?` looks for. -/
def readEach (f : Frame α τ γ) (r : Rule) (as? : α → Option β) (as : List α) :
    Except Violation (List β) :=
  as.mapM fun a =>
    match as? a with
    | some b => .ok b
    | none => .error (.unexpectedChild f.rule r)

/-- Takes all children from the rule `r`, each of the sort that `as?` looks for. They are gone also
where they are of another sort. -/
def takeChildren (f : Frame α τ γ) (r : Rule) (as? : α → Option β) :
    Except Violation (List β) × Frame α τ γ :=
  let (as, children) := f.children.take r
  (f.readEach r as? as, { f with children })

/-- Takes all children from the rule `r`, and gives the first. -/
def takeChild? (f : Frame α τ γ) (r : Rule) (as? : α → Option β) :
    Except Violation (Option β) × Frame α τ γ :=
  let (bs, f) := f.takeChildren r as?
  (bs.map List.head?, f)

/-- The children from the rule `r`, each of the sort that `as?` looks for. -/
def childrenOf (f : Frame α τ γ) (r : Rule) (as? : α → Option β) : Except Violation (List β) :=
  (f.takeChildren r as?).1

/-- The first child from the rule `r`, if there is one. -/
def child? (f : Frame α τ γ) (r : Rule) (as? : α → Option β) : Except Violation (Option β) :=
  (f.takeChild? r as?).1

/-- The first child from a rule of which there always is one. -/
def child (f : Frame α τ γ) (r : Rule) (as? : α → Option β) : Except Violation β :=
  match f.child? r as? with
  | .ok (some b) => .ok b
  | .ok none => .error (.missingChild f.rule r)
  | .error v => .error v

/-- Sees to it that there is no child from the rule `r`. -/
def forbid (f : Frame α τ γ) (r : Rule) : Except Violation Unit :=
  if (f.children.get r).isEmpty then .ok () else .error (.unexpectedChild f.rule r)

variable (f : Frame α τ γ) (r : Rule) (a : α) (as? : α → Option β)

@[simp]
theorem rule_fileChild : (f.fileChild r a).rule = f.rule := rfl

@[simp]
theorem tokens_fileChild : (f.fileChild r a).tokens = f.tokens := rfl

@[simp]
theorem children_fileChild : (f.fileChild r a).children = f.children.add r a := rfl

theorem child?_eq_map : f.child? r as? = (f.childrenOf r as?).map List.head? := rfl

theorem childrenOf_eq_readEach [LawfulOrderedMap γ] :
    f.childrenOf r as? = f.readEach r as? (f.children.get r) :=
  congrArg (f.readEach r as?) (f.children.fst_take r)

end Children

end Frame

end Gherkin
