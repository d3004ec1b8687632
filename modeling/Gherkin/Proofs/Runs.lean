import Gherkin.Event.Handler
import Mathlib.Data.List.Forall2

/-!
# Runs of handlers

What every single operation of a handler keeps true of its state is true after any calls, and after
any run, whatever is refused on the way. A list of events that is fed in two parts goes on with the
second part when the first went through, and ends with the refusal of the first otherwise. Two runs
whose states are related by every single event stay related, and meet the same refusal.

## Main definitions

* `Gherkin.Handler.Keeps` : an invariant of the operations of a handler.

## Main results

* `Gherkin.Handler.feedAll_append_of_ok`, `Gherkin.Handler.feedAll_append_of_error` : events in two
  parts.
* `Gherkin.Handler.feedAll_rel` : events fed to two handlers side by side.
* `Gherkin.Handler.replay_eq_of_ok`, `Gherkin.Handler.replay_eq_of_error` : what a run comes to.
* `Gherkin.Handler.Keeps.perform`, `Gherkin.Handler.Keeps.performAll`,
  `Gherkin.Handler.Keeps.feedAll` : an invariant holds after calls and after events.
* `Gherkin.Handler.Keeps.of_mem_performAll`, `Gherkin.Handler.Keeps.of_replay` : a result is given
  in a state with the invariant.
-/

namespace Gherkin

namespace Handler

variable {σ ε δ : Type} {h : Handler σ ε δ}

@[simp]
theorem snd_perform_event (h : Handler σ ε δ) (e : Event) (s : σ) :
    (h.perform (.event e) s).2 = (h.feed e s).2 := by
  simp only [perform]
  rcases h.feed e s with ⟨_ | _, s'⟩ <;> rfl

/-! ### Events in two parts -/

theorem feedAll_append_of_ok (h : Handler σ ε δ) {es : List Event} {s s' : σ}
    (hes : h.feedAll es s = (.ok (), s')) (fs : List Event) :
    h.feedAll (es ++ fs) s = h.feedAll fs s' := by
  rw [feedAll_append, hes]

theorem feedAll_append_of_error (h : Handler σ ε δ) {es : List Event} {s : σ} {x : ε}
    (hes : (h.feedAll es s).1 = .error x) (fs : List Event) :
    (h.feedAll (es ++ fs) s).1 = .error x := by
  rcases hfed : h.feedAll es s with ⟨_ | _, s'⟩
  · rw [hfed] at hes
    rw [feedAll_append, hfed]
    exact hes
  · simp [hfed] at hes

/-- **Two handlers side by side.** Where related events get the same reply in related states, and
lead to states that are related again, related lists of events are taken in up to the same
refusal. -/
theorem feedAll_rel {τ δ' : Type} {h' : Handler τ ε δ'} {E : Event → Event → Prop}
    {R : σ → τ → Prop} (hfeed : ∀ e f s t, E e f → R s t →
      (h.feed e s).1 = (h'.feed f t).1 ∧ R (h.feed e s).2 (h'.feed f t).2)
    {es fs : List Event} (hes : List.Forall₂ E es fs) {s : σ} {t : τ} (hst : R s t) :
    (h.feedAll es s).1 = (h'.feedAll fs t).1 ∧ R (h.feedAll es s).2 (h'.feedAll fs t).2 := by
  induction hes generalizing s t with
  | nil => exact ⟨rfl, hst⟩
  | @cons e f es fs hef _ ih =>
    obtain ⟨hreply, hrel⟩ := hfeed e f s t hef hst
    rcases hs : h.feed e s with ⟨x, s'⟩
    rcases ht : h'.feed f t with ⟨y, t'⟩
    rw [hs, ht] at hreply hrel
    obtain rfl : x = y := hreply
    cases x with
    | ok _ =>
      rw [feedAll_cons_of_ok _ hs, feedAll_cons_of_ok _ ht]
      exact ih hrel
    | error x =>
      rw [feedAll_cons_of_error _ hs, feedAll_cons_of_error _ ht]
      exact ⟨rfl, hrel⟩

/-! ### The outcome of a run -/

/-- A run that takes in all its events gives the result of the state that they lead to. -/
theorem replay_eq_of_ok (h : Handler σ ε δ) {es : List Event} {s s' : σ}
    (hes : h.feedAll es (h.reset s) = (.ok (), s')) :
    h.replay es s = (.ok (h.result s').1, (h.result s').2) := by
  simp only [replay, hes]

/-- A run ends with the refusal that its events meet. -/
theorem replay_eq_of_error (h : Handler σ ε δ) {es : List Event} {s s' : σ} {x : ε}
    (hes : h.feedAll es (h.reset s) = (.error x, s')) : h.replay es s = (.error x, s') := by
  simp only [replay, hes]

theorem replay_of_ok (h : Handler σ ε δ) {es : List Event} {s s' : σ}
    (hes : h.feedAll es (h.reset s) = (.ok (), s')) :
    (h.replay es s).1 = .ok (h.result s').1 := by
  rw [h.replay_eq_of_ok hes]

theorem replay_of_error (h : Handler σ ε δ) {es : List Event} {s : σ} {x : ε}
    (hes : (h.feedAll es (h.reset s)).1 = .error x) : (h.replay es s).1 = .error x := by
  rcases hfed : h.feedAll es (h.reset s) with ⟨y, s'⟩
  rw [hfed] at hes
  obtain rfl : y = .error x := hes
  rw [h.replay_eq_of_error hfed]

/-! ### Invariants -/

/-- Every operation keeps `I` true of the state. -/
structure Keeps (h : Handler σ ε δ) (I : σ → Prop) : Prop where
  reset : ∀ s, I (h.reset s)
  attach : ∀ t s, I s → I (h.attach t s)
  enter : ∀ r s, I s → I (h.enter r s)
  leave : ∀ r s, I s → I (h.leave r s).2
  result : ∀ s, I s → I (h.result s).2

namespace Keeps

variable {I : σ → Prop} (hI : h.Keeps I) {s : σ}

include hI

theorem feed (hs : I s) (e : Event) : I (h.feed e s).2 := by
  cases e with
  | token t => exact hI.attach t s hs
  | enter r => exact hI.enter r s hs
  | leave r => exact hI.leave r s hs

theorem feedAll (hs : I s) (es : List Event) : I (h.feedAll es s).2 := by
  induction es generalizing s with
  | nil => exact hs
  | cons e es ih =>
    have hfed := hI.feed hs e
    rcases he : h.feed e s with ⟨_ | _, s'⟩
    · rw [feedAll_cons_of_error h he]
      rwa [he] at hfed
    · rw [feedAll_cons_of_ok h he]
      rw [he] at hfed
      exact ih hfed

theorem perform (hs : I s) (c : Call) : I (h.perform c s).2 := by
  cases c with
  | reset => exact hI.reset s
  | event e =>
    rw [snd_perform_event]
    exact hI.feed hs e
  | result => exact hI.result s hs

theorem performAll (hs : I s) (cs : List Call) : I (h.performAll cs s).2 := by
  induction cs generalizing s with
  | nil => exact hs
  | cons c cs ih => exact ih (hI.perform hs c)

/-- A result that calls come back with is given in a state with the invariant. -/
theorem of_mem_performAll (hs : I s) {cs : List Call} {d : δ}
    (hd : .result d ∈ (h.performAll cs s).1) : ∃ s', I s' ∧ (h.result s').1 = d := by
  induction cs generalizing s with
  | nil => cases hd
  | cons c cs ih =>
    rcases List.mem_cons.mp hd with hd | hd
    · cases c with
      | reset => cases hd
      | event e =>
        dsimp only at hd
        rcases he : h.feed e s with ⟨_ | _, s'⟩ <;> simp [he] at hd
      | result =>
        cases hd
        exact ⟨s, hs, rfl⟩
    · exact ih (hI.perform hs c) hd

/-- The result of a run is given in a state with the invariant. -/
theorem of_replay {es : List Event} {d : δ} (hd : (h.replay es s).1 = .ok d) :
    ∃ s', I s' ∧ (h.result s').1 = d := by
  have hfed := hI.feedAll (hI.reset s) es
  rcases he : h.feedAll es (h.reset s) with ⟨_ | _, s'⟩
  · rw [h.replay_of_error (by rw [he])] at hd
    cases hd
  · rw [h.replay_of_ok he] at hd
    rw [he] at hfed
    exact ⟨s', hfed, Except.ok.inj hd⟩

end Keeps

end Handler

end Gherkin
