import Gherkin.Proofs.Reachable

/-!
# Calls by their positions

Calls are made one after the other, so the reply to a call is the one that it gets in the state
which the calls before it lead to. Events that a run takes in are calls that are all carried out.

## Main definitions

* `Gherkin.Assembly.ofCalls` : the state that calls lead to.

## Main results

* `Gherkin.Handler.performAll_append` : calls made in two parts.
* `Gherkin.Handler.getElem?_performAll`, `Gherkin.Handler.performAll_take_succ` : the reply at a
  position, and the state after it.
* `Gherkin.Handler.performAll_of_feedAll` : the events of a run as calls.
* `Gherkin.Handler.exists_feedAll_of_replay` : what a run that gives a result went through.
-/

namespace Gherkin

namespace Handler

variable {σ ε δ : Type} (h : Handler σ ε δ)

@[simp]
theorem performAll_nil (s : σ) : h.performAll [] s = ([], s) := rfl

theorem performAll_cons (c : Call) (cs : List Call) (s : σ) :
    h.performAll (c :: cs) s =
      ((h.perform c s).1 :: (h.performAll cs (h.perform c s).2).1,
        (h.performAll cs (h.perform c s).2).2) := rfl

/-- Calls are made part by part. -/
theorem performAll_append (cs ds : List Call) (s : σ) :
    h.performAll (cs ++ ds) s =
      ((h.performAll cs s).1 ++ (h.performAll ds (h.performAll cs s).2).1,
        (h.performAll ds (h.performAll cs s).2).2) := by
  induction cs generalizing s with
  | nil => rfl
  | cons c cs ih => simp only [List.cons_append, performAll_cons, ih]

/-- The reply to a call is given in the state that the calls before it lead to. -/
theorem getElem?_performAll (cs : List Call) (s : σ) (i : Nat) :
    (h.performAll cs s).1[i]? =
      cs[i]?.map fun c => (h.perform c (h.performAll (cs.take i) s).2).1 := by
  induction cs generalizing s i with
  | nil => rfl
  | cons c cs ih =>
    cases i with
    | zero => rfl
    | succ i => exact ih (h.perform c s).2 i

/-- One more call. -/
theorem performAll_take_succ {cs : List Call} {i : Nat} {c : Call} (hc : cs[i]? = some c) (s : σ) :
    (h.performAll (cs.take (i + 1)) s).2 =
      (h.perform c (h.performAll (cs.take i) s).2).2 := by
  rw [List.take_add_one, hc, performAll_append]
  rfl

/-- The events of a run that goes through are calls that are all carried out. -/
theorem performAll_of_feedAll {es : List Event} {s s' : σ} (hes : h.feedAll es s = (.ok (), s')) :
    h.performAll (es.map .event) s = (es.map fun _ => .done, s') := by
  induction es generalizing s with
  | nil =>
    obtain rfl : s = s' := congrArg Prod.snd hes
    rfl
  | cons e es ih =>
    rcases he : h.feed e s with ⟨_ | _, t⟩
    · rw [feedAll_cons_of_error h he] at hes
      cases hes
    · rw [feedAll_cons_of_ok h he] at hes
      have hperform : h.perform (.event e) s = (.done, t) := by simp only [perform, he]
      rw [List.map_cons, performAll_cons, hperform, ih hes]
      rfl

/-- A run that gives a result has taken in all its events. -/
theorem exists_feedAll_of_replay {es : List Event} {s : σ} {d : δ}
    (hd : (h.replay es s).1 = .ok d) :
    ∃ s', h.feedAll es (h.reset s) = (.ok (), s') ∧ (h.result s').1 = d := by
  rcases hes : h.feedAll es (h.reset s) with ⟨_ | _, s'⟩
  · rw [h.replay_of_error (by rw [hes])] at hd
    cases hd
  · rw [h.replay_of_ok hes] at hd
    exact ⟨s', rfl, Except.ok.inj hd⟩

end Handler

namespace Assembly

/-- The state that calls lead to, from the one in which nothing has been met. -/
def ofCalls (cs : List Call) : Assembly := (handler.performAll cs .empty).2

theorem sound_ofCalls (cs : List Call) : (ofCalls cs).Sound := keeps_sound.performAll sound_empty cs

end Assembly

end Gherkin
