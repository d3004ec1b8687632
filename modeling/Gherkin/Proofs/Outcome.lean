/-!
# Outcomes of readings

A reading of a frame comes out with a value or with the reason why there is none, and a reading
that consists of several stops at the first reason. The lemmas below take such a sequence apart:
it has a value when each of its steps does, and its reason is that of the first step without one.

## Main definitions

* `Except.reason?` : the reason alone.

## Main results

* `Except.bind_eq_ok_iff`, `Except.bind_eq_error_iff` : the outcome of one step after another.
* `Except.map_eq_ok_iff`, `Except.map_eq_error_iff`, `Except.mapError_eq_ok_iff` : an outcome under
  another name.
* `Except.reason?_bind` : the reason of one step after another.
-/

namespace Except

variable {ε ε' α β : Type}

theorem pure_eq_ok (a : α) : (pure a : Except ε α) = .ok a := rfl

theorem ok_bind (a : α) (f : α → Except ε β) : (Except.ok a >>= f) = f a := rfl

theorem error_bind (e : ε) (f : α → Except ε β) : (Except.error e >>= f) = .error e := rfl

theorem bind_eq_ok_iff {x : Except ε α} {f : α → Except ε β} {b : β} :
    x >>= f = .ok b ↔ ∃ a, x = .ok a ∧ f a = .ok b := by
  cases x <;> simp [ok_bind, error_bind]

theorem bind_eq_error_iff {x : Except ε α} {f : α → Except ε β} {e : ε} :
    x >>= f = .error e ↔ x = .error e ∨ ∃ a, x = .ok a ∧ f a = .error e := by
  cases x <;> simp [ok_bind, error_bind]

theorem map_eq_ok_iff {x : Except ε α} {f : α → β} {b : β} :
    x.map f = .ok b ↔ ∃ a, x = .ok a ∧ f a = b := by
  cases x <;> simp [Except.map]

theorem map_eq_error_iff {x : Except ε α} {f : α → β} {e : ε} :
    x.map f = .error e ↔ x = .error e := by
  cases x <;> simp [Except.map]

theorem mapError_eq_ok_iff {x : Except ε α} {f : ε → ε'} {a : α} :
    x.mapError f = .ok a ↔ x = .ok a := by
  cases x with
  | error e => exact ⟨nofun, nofun⟩
  | ok b =>
    constructor
    · intro h
      exact congrArg ok (Except.ok.inj h)
    · intro h
      exact congrArg ok (Except.ok.inj h)

/-! ### The reason alone -/

/-- The reason why there is no value. -/
def reason? : Except ε α → Option ε
  | .ok _ => none
  | .error e => some e

@[simp]
theorem reason?_ok (a : α) : (.ok a : Except ε α).reason? = none := rfl

@[simp]
theorem reason?_error (e : ε) : (.error e : Except ε α).reason? = some e := rfl

/-- Where the later step fails for the same reason whatever the value of the earlier. -/
theorem reason?_bind {x : Except ε α} {f : α → Except ε β} {y : Option ε}
    (h : ∀ a, (f a).reason? = y) : (x >>= f).reason? = x.reason?.or y := by
  cases x with
  | error e => rfl
  | ok a => exact h a

/-- Where the later step does not fail. -/
theorem reason?_bind_of_none {x : Except ε α} {f : α → Except ε β}
    (h : ∀ a, (f a).reason? = none) : (x >>= f).reason? = x.reason? := by
  rw [reason?_bind h, Option.or_none]

/-- Where the earlier step does not fail. -/
theorem reason?_bind_of_eq_none {x : Except ε α} (hx : x.reason? = none) {f : α → Except ε β}
    {y : Option ε} (h : ∀ a, (f a).reason? = y) : (x >>= f).reason? = y := by
  rw [reason?_bind h, hx, Option.none_or]

@[simp]
theorem reason?_map (x : Except ε α) (f : α → β) : (x.map f).reason? = x.reason? := by
  cases x <;> rfl

@[simp]
theorem reason?_mapError (x : Except ε α) (f : ε → ε') :
    (x.mapError f).reason? = x.reason?.map f := by
  cases x <;> rfl

end Except
