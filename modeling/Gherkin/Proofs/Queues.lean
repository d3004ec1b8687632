import Gherkin.Proofs.Siblings
import Mathlib.Data.List.DropRight
import Mathlib.Data.List.Induction

/-!
# Frames as queues

A frame is a family of queues, one for each slot, and no queue knows of another. What is filed goes
to the end of the queue of its slot, and a take reads a slot and leaves it empty, also where it
gives no more than the first of what is there. So a take gives what was filed in its slot since the
last take from it, in the order in which it was filed, whatever else was filed and taken in the
meantime.

A frame keeps its queues in two maps, and a queue that is taken is taken out of its map: what is
filed later under the same key starts a new one. The maps are any maps here, and all that is used of
them is that they are lawful.

## Main definitions

* `Gherkin.Frame.items` : the queue of a slot.
* `Gherkin.Frame.slots` : the slots in use.
* `Gherkin.Access`, `Gherkin.Frame.after` : filing and taking, and a frame after some of both.
* `Gherkin.Access.waiting` : what was filed in a slot since the last take from it.

## Main results

* `Gherkin.Frame.items_perform`, `Gherkin.Frame.slots_perform` : what one access does to every queue
  and to the slots in use.
* `Gherkin.Frame.items_after` : what waits in a slot after any accesses.
* `Gherkin.Frame.takes_after` : what takes give, and what they leave as it is.
-/

namespace Gherkin

variable {τ γ : Type} [OrderedMap τ TokenKind (Array Token)] [OrderedMap γ Rule (Array Value)]

/-! ### Queues -/

/-- What is in a slot of a frame, the earliest first. -/
def Frame.items (f : Frame Value τ γ) : Slot → List Item
  | .line k => (f.tokens.get k).map .line
  | .child r => (f.children.get r).map (.child r)

/-- The slots in use, those of lines before those of children, and each of these in the order in
which they came into use. -/
def Frame.slots (f : Frame Value τ γ) : List Slot :=
  f.tokens.keys.map .line ++ f.children.keys.map .child

/-- What is done with a frame: something is filed, or taken. -/
inductive Access where
  | file (i : Item)
  | takeTokens (k : TokenKind)
  | takeToken (k : TokenKind)
  | takeChildren (r : Rule) {β : Type} (as? : Value → Option β)
  | takeChild (r : Rule) {β : Type} (as? : Value → Option β)

namespace Access

/-- The slot that is emptied, if one is. -/
def taken? : Access → Option Slot
  | file _ => none
  | takeTokens k | takeToken k => some (.line k)
  | takeChildren r _ | takeChild r _ => some (.child r)

/-- What is filed in the slot `σ`, if anything is. -/
def filed? (σ : Slot) : Access → Option Item
  | file i => if i.slot = σ then some i else none
  | _ => none

/-- The frame after an access. -/
def perform (f : Frame Value τ γ) : Access → Frame Value τ γ
  | file i => i.file f
  | takeTokens k => (f.takeTokens k).2
  | takeToken k => (f.takeToken? k).2
  | takeChildren r as? => (f.takeChildren r as?).2
  | takeChild r as? => (f.takeChild? r as?).2

/-- What was filed in the slot `σ` since the last take from it. Where there was none, what was there
at the start comes before that. -/
def waiting (σ : Slot) (start : List Item) (as : List Access) : List Item :=
  (if ∀ a ∈ as, a.taken? ≠ some σ then start else []) ++
    (as.rtakeWhile fun a => a.taken? ≠ some σ).filterMap (filed? σ)

section Waiting

variable {σ : Slot} {start : List Item} {as : List Access} {a : Access}

theorem waiting_nil : waiting σ start [] = start := by
  simp [waiting]

/-- After a take from a slot nothing waits there. -/
theorem waiting_concat_of_taken (h : a.taken? = some σ) : waiting σ start (as ++ [a]) = [] := by
  have hany : ¬∀ b ∈ as ++ [a], b.taken? ≠ some σ := fun hall => hall a (by simp) h
  rw [waiting, if_neg hany, List.rtakeWhile_concat_neg _ _ _ (by simp [h])]
  rfl

/-- What is filed goes to the end. -/
theorem waiting_concat (h : a.taken? ≠ some σ) :
    waiting σ start (as ++ [a]) = waiting σ start as ++ (a.filed? σ).toList := by
  have hall : (∀ b ∈ as ++ [a], b.taken? ≠ some σ) ↔ ∀ b ∈ as, b.taken? ≠ some σ := by
    simp [or_imp, forall_and, h]
  rw [waiting, waiting, List.rtakeWhile_concat_pos _ _ _ (by simpa using h), List.filterMap_append,
    if_congr hall rfl rfl, List.append_assoc]
  cases hfiled : a.filed? σ <;> simp [hfiled]

end Waiting

end Access

namespace Frame

/-- The frame after some accesses. -/
def after (f : Frame Value τ γ) (as : List Access) : Frame Value τ γ := as.foldl Access.perform f

variable [LawfulOrderedMap τ] [LawfulOrderedMap γ] (f : Frame Value τ γ)

/-! ### One access -/

theorem items_file (i : Item) (σ : Slot) :
    (i.file f).items σ = if i.slot = σ then f.items σ ++ [i] else f.items σ := by
  cases i with
  | line t =>
    cases σ with
    | line k => by_cases hk : t.kind = k <;> simp [items, Item.file, Item.slot, hk]
    | child r => rfl
  | child q v =>
    cases σ with
    | line k => rfl
    | child r => by_cases hq : q = r <;> simp [items, Item.file, Item.slot, hq]

omit [LawfulOrderedMap γ] in
theorem items_takeTokens (k : TokenKind) (σ : Slot) :
    (f.takeTokens k).2.items σ = if Slot.line k = σ then [] else f.items σ := by
  cases σ with
  | line j =>
    change ((f.tokens.take k).2.get j).map Item.line = _
    rw [Multimap.get_take]
    by_cases hk : k = j <;> simp [items, hk]
  | child r => rfl

omit [LawfulOrderedMap τ] in
theorem items_takeChildren {β : Type} (r : Rule) (as? : Value → Option β) (σ : Slot) :
    (f.takeChildren r as?).2.items σ = if Slot.child r = σ then [] else f.items σ := by
  cases σ with
  | line k => rfl
  | child q =>
    change ((f.children.take r).2.get q).map (Item.child q) = _
    rw [Multimap.get_take]
    by_cases hr : r = q <;> simp [items, hr]

omit [LawfulOrderedMap γ] in
theorem slots_takeTokens (k : TokenKind) :
    (f.takeTokens k).2.slots = f.slots.filter fun σ => σ ≠ .line k := by
  change (f.tokens.take k).2.keys.map Slot.line ++ f.children.keys.map Slot.child = _
  rw [Multimap.keys_take]
  simp [slots, List.filter_map, Function.comp_def]

omit [LawfulOrderedMap τ] in
theorem slots_takeChildren {β : Type} (r : Rule) (as? : Value → Option β) :
    (f.takeChildren r as?).2.slots = f.slots.filter fun σ => σ ≠ .child r := by
  change f.tokens.keys.map Slot.line ++ (f.children.take r).2.keys.map Slot.child = _
  rw [Multimap.keys_take]
  simp [slots, List.filter_map, Function.comp_def]

/-- A take empties its own slot and no other one, and what is filed goes to the end of its slot. -/
theorem items_perform (a : Access) (σ : Slot) :
    (a.perform f).items σ =
      if a.taken? = some σ then [] else f.items σ ++ (a.filed? σ).toList := by
  cases a with
  | file i =>
    change (i.file f).items σ = f.items σ ++ (if i.slot = σ then some i else none).toList
    rw [items_file]
    split <;> simp
  | takeTokens k | takeToken k =>
    change (f.takeTokens k).2.items σ = if some (Slot.line k) = some σ then [] else f.items σ ++ []
    simp only [items_takeTokens, List.append_nil, Option.some.injEq]
  | takeChildren r as? | takeChild r as? =>
    change (f.takeChildren r as?).2.items σ =
      if some (Slot.child r) = some σ then [] else f.items σ ++ []
    simp only [items_takeChildren, List.append_nil, Option.some.injEq]

/-- A slot that is taken from is no longer in use, and the others stay in their order. -/
theorem slots_perform {a : Access} {σ : Slot} (ha : a.taken? = some σ) :
    (a.perform f).slots = f.slots.filter fun ρ => ρ ≠ σ := by
  cases a with
  | file i => cases ha
  | takeTokens k | takeToken k =>
    cases ha
    exact f.slots_takeTokens k
  | takeChildren r as? | takeChild r as? =>
    cases ha
    exact f.slots_takeChildren r as?

/-! ### Any accesses -/

/-- **Queues.** What is in a slot after any accesses is what waits there. -/
theorem items_after (as : List Access) (σ : Slot) :
    (f.after as).items σ = Access.waiting σ (f.items σ) as := by
  induction as using List.reverseRecOn with
  | nil => exact Access.waiting_nil.symm
  | append_singleton as a ih =>
    have hstep : f.after (as ++ [a]) = a.perform (f.after as) := by simp [after]
    rw [hstep, items_perform, ih]
    split
    · next h => rw [Access.waiting_concat_of_taken h]
    · next h => rw [Access.waiting_concat h]

/-- **Takes.** Let a frame keep what is filed in it in any two lawful maps. After any accesses a
take of tokens gives what waits in the slot of their kind, and a take of children, where these are
of the sort that is asked for, what waits in the slot of their rule; a take that gives one of them
gives the first. Each take leaves its own slot empty and out of use, and every other slot as it is
and where it is in the order of the slots. -/
theorem takes_after (f : Frame Value τ γ) (as : List Access) :
    (∀ k, let ts := Access.waiting (.line k) (f.items (.line k)) as
      ((f.after as).takeTokens k).1.map .line = ts ∧
        ((f.after as).takeToken? k).1.map .line = ts.head?) ∧
    (∀ r (β : Type) (as? : Value → Option β),
      (∀ v, .child r v ∈ Access.waiting (.child r) (f.items (.child r)) as →
        (as? v).isSome = true) →
      ∃ (vs : List Value) (bs : List β),
        Access.waiting (.child r) (f.items (.child r)) as = vs.map (.child r) ∧
        vs.map as? = bs.map some ∧
        ((f.after as).takeChildren r as?).1 = .ok bs ∧
        ((f.after as).takeChild? r as?).1 = .ok bs.head?) ∧
    ∀ (a : Access) (σ : Slot), a.taken? = some σ → (a.perform (f.after as)).items σ = [] ∧
      (∀ ρ, ρ ≠ σ → (a.perform (f.after as)).items ρ = (f.after as).items ρ) ∧
      (a.perform (f.after as)).slots = (f.after as).slots.filter fun ρ => ρ ≠ σ := by
  refine ⟨fun k => ?_, fun r β as? hread => ?_, fun a σ ha => ⟨?_, fun ρ hρ => ?_, ?_⟩⟩
  · have hitems := f.items_after as (.line k)
    change ((f.after as).tokensOf k).map Item.line = _ ∧ ((f.after as).token? k).map Item.line = _
    rw [tokensOf_eq, token?_eq]
    exact ⟨hitems, hitems ▸ List.head?_map.symm⟩
  · have hitems := f.items_after as (.child r)
    rw [← hitems] at hread ⊢
    have hsort : ∀ v ∈ (f.after as).children.get r, (as? v).isSome = true := fun v hv =>
      hread v (List.mem_map_of_mem hv)
    have hall := childrenOf_eq_ok hsort
    exact ⟨_, _, rfl, map_eq_all hsort, hall, congrArg (Except.map List.head?) hall⟩
  · rw [items_perform, if_pos ha]
  · have hne : a.taken? ≠ some ρ := fun h => hρ (Option.some.inj (h.symm.trans ha))
    have hnone : a.filed? ρ = none := by
      cases a with
      | file i => cases ha
      | _ => rfl
    rw [items_perform, if_neg hne, hnone, Option.toList_none, List.append_nil]
  · exact slots_perform _ ha

/-- A line to be filed. -/
def plainLine (text : String) : Token := { kind := .other, location := ⟨1, 1⟩, text }

/-- Lines and descriptions that are filed by turns, with a take of each among them. -/
def mixedAccesses : List Access :=
  let line (text : String) : Access := .file (.line (plainLine text))
  let description (text : String) : Access := .file (.child .description (.description text))
  [line "b", description "p", .takeToken .other, description "q", line "c",
    .takeChild .description Value.description?, .takeTokens .tagLine, line "d", description "r",
    description "s"]

theorem takes_after_mixedAccesses :
    let f : Frame Value := fileToken (.new .feature) (plainLine "a")
    let g := f.after mixedAccesses
    (g.takeTokens .other).1.map Item.line = [.line (plainLine "c"), .line (plainLine "d")] ∧
      (g.takeToken? .other).1.map Item.line = some (.line (plainLine "c")) ∧
      (∃ (vs : List Value) (bs : List String),
        [.child .description (.description "r"), .child .description (.description "s")] =
          vs.map (Item.child .description) ∧
        vs.map Value.description? = bs.map some ∧
        (g.takeChildren .description Value.description?).1 = .ok bs ∧
        (g.takeChild? .description Value.description?).1 = .ok bs.head?) ∧
      (Access.perform g (.takeTokens .other)).items (.line .other) = [] ∧
      (Access.perform g (.takeTokens .other)).items (.child .description) =
        g.items (.child .description) ∧
      g.slots = [.line .other, .child .description] ∧
      (Access.perform g (.takeTokens .other)).slots = [.child .description] := by
  intro f g
  have hlines : Access.waiting (.line .other) (f.items (.line .other)) mixedAccesses =
      [.line (plainLine "c"), .line (plainLine "d")] := rfl
  have hchildren : Access.waiting (.child .description) (f.items (.child .description))
      mixedAccesses = [.child .description (.description "r"),
        .child .description (.description "s")] := rfl
  have hslots : g.slots = [.line .other, .child .description] := rfl
  obtain ⟨htokens, hchild, hother⟩ := takes_after f mixedAccesses
  obtain ⟨hall, hfirst⟩ := htokens .other
  obtain ⟨hnone, hrest, hused⟩ := hother (.takeTokens .other) (.line .other) rfl
  have hread := hchild .description String Value.description? fun v hv => by
    rw [hchildren] at hv
    simp only [List.mem_cons, Item.child.injEq, List.not_mem_nil, or_false, true_and] at hv
    rcases hv with rfl | rfl <;> rfl
  exact ⟨hall.trans hlines, hfirst.trans (congrArg List.head? hlines), hchildren ▸ hread, hnone,
    hrest _ Slot.noConfusion, hslots, hused.trans (congrArg _ hslots)⟩

end Frame

end Gherkin
