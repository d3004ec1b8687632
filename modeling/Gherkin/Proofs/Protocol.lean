import Gherkin.Proofs.Calls

/-!
# The calls of a run

A run makes calls on a handler: it starts the handler over, tells it the events up to the first end
that is refused, and asks for the result only where no end was. This is so whatever the handler
does, for where the run stops is seen from the replies alone. To know the calls, the run is made on
a handler that behaves in the same way and besides writes down what it is told.

## Main definitions

* `Gherkin.Handler.traced` : a handler that behaves like another and writes down its calls.
* `Gherkin.Handler.Completes`, `Gherkin.Handler.BreaksOff` : the calls of a run that goes through,
  and of one that does not.

## Main results

* `Gherkin.Handler.feedAll_cases` : events are all taken in, or one of them is the first refused.
* `Gherkin.Handler.replay_protocol` : the calls of a run.
-/

namespace Gherkin

namespace Handler

variable {σ ε δ : Type} (h : Handler σ ε δ)

/-- Behaves like `h`, and writes down every call that it gets. -/
def traced : Handler (σ × List Call) ε δ where
  reset s := (h.reset s.1, s.2 ++ [.reset])
  attach t s := (h.attach t s.1, s.2 ++ [.event (.token t)])
  enter r s := (h.enter r s.1, s.2 ++ [.event (.enter r)])
  leave r s := ((h.leave r s.1).1, (h.leave r s.1).2, s.2 ++ [.event (.leave r)])
  result s := ((h.result s.1).1, (h.result s.1).2, s.2 ++ [.result])

/-! ### Events up to the first refusal -/

/-- Only an end can be refused. -/
theorem exists_leave_of_feed_eq_error {e : Event} {s s' : σ} {x : ε}
    (he : h.feed e s = (.error x, s')) : ∃ r, e = .leave r := by
  cases e with
  | token t => cases he
  | enter r => cases he
  | leave r => exact ⟨r, rfl⟩

/-- Events are all taken in, or there is an end among them that is refused after all events before
it were taken in. -/
theorem feedAll_cases (es : List Event) (s : σ) :
    (∃ s', h.feedAll es s = (.ok (), s')) ∨
      ∃ first r rest x t s', es = first ++ .leave r :: rest ∧
        h.feedAll first s = (.ok (), t) ∧ h.feed (.leave r) t = (.error x, s') := by
  induction es generalizing s with
  | nil => exact .inl ⟨s, rfl⟩
  | cons e es ih =>
    rcases he : h.feed e s with ⟨x | _, t⟩
    · obtain ⟨r, rfl⟩ := h.exists_leave_of_feed_eq_error he
      exact .inr ⟨[], r, es, x, s, t, rfl, rfl, he⟩
    · rcases ih t with ⟨s', hes⟩ | ⟨first, r, rest, x, t', s', rfl, hfirst, hr⟩
      · exact .inl ⟨s', by rw [h.feedAll_cons_of_ok he, hes]⟩
      · refine .inr ⟨e :: first, r, rest, x, t', s', rfl, ?_, hr⟩
        rw [h.feedAll_cons_of_ok he, hfirst]

/-- After a refusal nothing more is taken in. -/
theorem feedAll_append_cons_of_error {first : List Event} {e : Event} {s t s' : σ} {x : ε}
    (hfirst : h.feedAll first s = (.ok (), t)) (he : h.feed e t = (.error x, s'))
    (rest : List Event) : h.feedAll (first ++ e :: rest) s = (.error x, s') := by
  rw [h.feedAll_append_of_ok hfirst, h.feedAll_cons_of_error he]

/-! ### What is written down -/

section Traced

variable {h}

theorem feed_traced (e : Event) (s : σ) (log : List Call) :
    h.traced.feed e (s, log) = ((h.feed e s).1, (h.feed e s).2, log ++ [.event e]) := by
  cases e <;> rfl

/-- All events that are taken in are written down. -/
theorem feedAll_traced_of_ok {es : List Event} {s s' : σ} (hes : h.feedAll es s = (.ok (), s'))
    (log : List Call) : h.traced.feedAll es (s, log) = (.ok (), s', log ++ es.map .event) := by
  induction es generalizing s log with
  | nil =>
    obtain rfl : s = s' := congrArg Prod.snd hes
    simp
  | cons e es ih =>
    rcases he : h.feed e s with ⟨x | _, t⟩
    · rw [h.feedAll_cons_of_error he] at hes
      cases hes
    · rw [h.feedAll_cons_of_ok he] at hes
      have htraced : h.traced.feed e (s, log) = (.ok (), t, log ++ [.event e]) := by
        rw [feed_traced, he]
      rw [h.traced.feedAll_cons_of_ok htraced, ih hes, List.append_assoc]
      rfl

/-- The event that is refused is the last that is written down. -/
theorem feedAll_traced_of_error {first : List Event} {e : Event} {s t s' : σ} {x : ε}
    (hfirst : h.feedAll first s = (.ok (), t)) (he : h.feed e t = (.error x, s'))
    (rest : List Event) (log : List Call) : h.traced.feedAll (first ++ e :: rest) (s, log) =
      (.error x, s', log ++ (first ++ [e]).map .event) := by
  have htraced : h.traced.feed e (t, log ++ first.map .event) =
      (.error x, s', log ++ first.map .event ++ [.event e]) := by
    rw [feed_traced, he]
  rw [h.traced.feedAll_append_cons_of_error (feedAll_traced_of_ok hfirst log) htraced,
    List.map_append, List.append_assoc]
  rfl

end Traced

/-! ### Runs -/

/-- A run that goes through: the handler is started over, told all events, and asked for the result.
It carries out every call, and the run gives the result. -/
def Completes (es : List Event) (s : σ) (calls : List Call) : Prop :=
  ∃ d, calls = .reset :: es.map .event ++ [.result] ∧
    (h.performAll calls s).1 = .done :: es.map (fun _ => .done) ++ [.result d] ∧
    (h.replay es s).1 = .ok d

/-- A run that breaks off: the handler is started over and told the events up to an end. It carries
out every call but that end, which it refuses, and the run fails for the same reason. Whatever
events come after that end, the run is the same. -/
def BreaksOff (es : List Event) (s : σ) (calls : List Call) : Prop :=
  ∃ first r rest x, es = first ++ .leave r :: rest ∧
    calls = .reset :: (first ++ [Event.leave r]).map .event ∧
    (h.performAll calls s).1 = .done :: first.map (fun _ => .done) ++ [.refused x] ∧
    (h.replay es s).1 = .error x ∧
    ∀ rest', h.replay (first ++ .leave r :: rest') s = h.replay es s

section

variable {h} {s : σ} (log : List Call)

/-- The run of which all events are taken in. -/
theorem completes_of_feedAll {es : List Event} {s' : σ}
    (hes : h.feedAll es (h.reset s) = (.ok (), s')) :
    ∃ calls, h.traced.replay es (s, log) = ((h.replay es s).1, (h.replay es s).2, log ++ calls) ∧
      (h.performAll calls s).2 = (h.replay es s).2 ∧ h.Completes es s calls := by
  have htraced : h.traced.feedAll es (h.traced.reset (s, log)) =
      (.ok (), s', log ++ [.reset] ++ es.map .event) := feedAll_traced_of_ok hes _
  have hcalls : h.performAll (.reset :: es.map .event ++ [.result]) s =
      (.done :: es.map (fun _ => .done) ++ [.result (h.result s').1], (h.result s').2) := by
    rw [performAll_append, performAll_cons, perform, h.performAll_of_feedAll hes]
    rfl
  have hrun := h.replay_eq_of_ok hes
  refine ⟨.reset :: es.map .event ++ [.result], ?_, by rw [hcalls, hrun], _, rfl, by rw [hcalls],
    by rw [hrun]⟩
  rw [hrun, h.traced.replay_eq_of_ok htraced]
  simp [traced]

/-- The run of which an end is refused. -/
theorem breaksOff_of_feed {first : List Event} {r : Rule} {t s' : σ} {x : ε}
    (hfirst : h.feedAll first (h.reset s) = (.ok (), t))
    (hr : h.feed (.leave r) t = (.error x, s')) (rest : List Event) :
    let es := first ++ .leave r :: rest
    ∃ calls, h.traced.replay es (s, log) = ((h.replay es s).1, (h.replay es s).2, log ++ calls) ∧
      (h.performAll calls s).2 = (h.replay es s).2 ∧ h.BreaksOff es s calls := by
  intro es
  have htraced : h.traced.feedAll es (h.traced.reset (s, log)) =
      (.error x, s', log ++ [.reset] ++ (first ++ [Event.leave r]).map .event) :=
    feedAll_traced_of_error hfirst hr rest _
  have hcalls : h.performAll (.reset :: (first ++ [Event.leave r]).map .event) s =
      (.done :: first.map (fun _ => .done) ++ [.refused x], s') := by
    have hlast : h.perform (.event (.leave r)) t = (.refused x, s') := by simp only [perform, hr]
    rw [performAll_cons, perform, List.map_append, performAll_append,
      h.performAll_of_feedAll hfirst, List.map_singleton, performAll_cons, hlast]
    rfl
  have hrun (rest : List Event) : h.replay (first ++ .leave r :: rest) s = (.error x, s') :=
    h.replay_eq_of_error (h.feedAll_append_cons_of_error hfirst hr rest)
  refine ⟨.reset :: (first ++ [Event.leave r]).map .event, ?_, by rw [hcalls, hrun], first, r, rest,
    x, rfl, rfl, by rw [hcalls], by rw [hrun], fun rest' => by rw [hrun, hrun]⟩
  rw [hrun, h.traced.replay_eq_of_error htraced, List.append_assoc]
  rfl

end

/-- **The protocol of a run.** Whatever the handler and the events: a run calls for a new start,
then tells the events up to the first end that is refused, or all of them, and then asks for the
result if none was refused. It leaves the handler in the state that these calls lead to. -/
theorem replay_protocol (es : List Event) (s : σ) (log : List Call) :
    ∃ calls, h.traced.replay es (s, log) = ((h.replay es s).1, (h.replay es s).2, log ++ calls) ∧
      (h.performAll calls s).2 = (h.replay es s).2 ∧
      (h.Completes es s calls ∨ h.BreaksOff es s calls) := by
  rcases h.feedAll_cases es (h.reset s) with ⟨s', hes⟩ | ⟨first, r, rest, x, t, s', rfl, hfirst, hr⟩
  · obtain ⟨calls, htraced, hstate, hcompletes⟩ := completes_of_feedAll log hes
    exact ⟨calls, htraced, hstate, .inl hcompletes⟩
  · obtain ⟨calls, htraced, hstate, hbreaks⟩ := breaksOff_of_feed log hfirst hr rest
    exact ⟨calls, htraced, hstate, .inr hbreaks⟩

end Handler

end Gherkin
