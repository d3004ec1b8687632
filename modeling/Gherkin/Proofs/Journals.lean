import Gherkin.Proofs.Conclusions
import Gherkin.Proofs.Excursions
import Gherkin.Proofs.OpenRules
import Gherkin.Proofs.Sessions
import Gherkin.Proofs.WithoutComments

/-!
# Journals of calls

What is noted of a call, and how many rules are open after it, can be said without the assembly: it
follows from the call, from the reply to it, and from what stands in the open rules. A new start, a
line and a result are not noted. Of a rule that is entered or left it is noted how many rules were
open before; if an end is refused the reason is noted, with the two rows that differ where a table
is not rectangular; and if a feature comes to nothing, the cause is noted.

## Main definitions

* `Gherkin.Call.depth` : the number of open rules after calls.
* `Gherkin.Forest.absence?` : why a feature comes to nothing.
* `Gherkin.Nesting.Noted` : what is noted of a call with a reply.

## Main results

* `Gherkin.Assembly.depth_ofCalls` : the number of open rules follows the calls.
* `Gherkin.Nesting.Shown.noted_leave` : what is noted of an end.
* `Gherkin.Session.journal_of_calls` : the reports on calls.
-/

namespace Gherkin

/-! ### The number of open rules -/

/-- The number of open rules after a call, from that before it. -/
def Call.climb : Call → Nat → Nat
  | .reset, _ => 0
  | .event e, n => e.climb n
  | .result, n => n

/-- The number of open rules after calls, where none was open before. -/
def Call.depth (cs : List Call) : Nat := cs.foldl (fun n c => c.climb n) 0

namespace Assembly

theorem depth_perform (c : Call) (s : Assembly) :
    (handler.perform c s).2.depth = c.climb s.depth := by
  cases c with
  | reset => rfl
  | event e =>
    rw [Handler.snd_perform_event]
    exact depth_feed e s
  | result => exact depth_result s

theorem depth_performAll (cs : List Call) (s : Assembly) :
    (handler.performAll cs s).2.depth = cs.foldl (fun n c => c.climb n) s.depth := by
  induction cs generalizing s with
  | nil => rfl
  | cons c cs ih => rw [Handler.performAll_cons, ih, depth_perform, List.foldl_cons]

/-- How many rules are open is said by the calls alone, whatever is refused. -/
theorem depth_ofCalls (cs : List Call) : (ofCalls cs).depth = Call.depth cs :=
  depth_performAll cs empty

end Assembly

/-! ### What is noted -/

/-- Why a feature with a forest in it comes to nothing, if it does. -/
def Forest.absence? (ts : Forest) : Option Absence :=
  match (lines .featureLine (header ts).2).head? with
  | none => some .noLine
  | some line => if line.dialect = none then some (.noDialect line.location) else none

theorem Forest.absence?_eq_noLine_iff {ts : Forest} :
    absence? ts = some .noLine ↔ (lines .featureLine (header ts).2).head? = none := by
  rw [absence?]
  cases (lines .featureLine (header ts).2).head? <;> simp

theorem Forest.absence?_eq_noDialect_iff {ts : Forest} {location : Location} :
    absence? ts = some (.noDialect location) ↔
      ∃ line, (lines .featureLine (header ts).2).head? = some line ∧ line.dialect = none ∧
        line.location = location := by
  rw [absence?]
  cases (lines .featureLine (header ts).2).head? <;> simp

/-- The notes on a call that is made when `depth` rules are open with the nesting `n`, and that gets
a reply. -/
inductive Nesting.Noted (n : Nesting) (depth : Nat) : Call → Reply Fault Document → List Note → Prop
  | reset : Noted n depth .reset .done []
  | token (t : Token) : Noted n depth (.event (.token t)) .done []
  | enter (r : Rule) :
      Noted n depth (.event (.enter r)) .done
        [⟨.trace, "start " ++ r.name ++ " at depth " ++ depth.repr⟩]
  /-- The contract of the grammar is broken. -/
  | violation (r : Rule) (v : Violation) (h : n.fault? r = some (.violation v)) :
      Noted n depth (.event (.leave r)) (.refused (.violation v))
        [⟨.trace, "end " ++ r.name ++ " at depth " ++ depth.repr⟩,
          ⟨.warn, "grammar contract violated: " ++ v.message⟩]
  /-- A row of a table has not as many cells as the first. -/
  | ragged (r : Rule) {first row : Token}
      (h : n.fault? r = some (.invalid row.location Ragged.reason))
      (hfirst : (Forest.lines .tableRow n.here).head? = some first)
      (hrow : Forest.raggedRow? n.here = some row) :
      Noted n depth (.event (.leave r)) (.refused (.invalid row.location Ragged.reason))
        [⟨.trace, "end " ++ r.name ++ " at depth " ++ depth.repr⟩,
          ⟨.debug, "table row at " ++ row.location.text ++ " has " ++ row.items.length.repr ++
            " cells, expected " ++ first.items.length.repr⟩,
          ⟨.debug, "rejected " ++ r.name ++ ": " ++
            (Fault.invalid row.location Ragged.reason).message⟩]
  /-- A feature without a line of its own comes to nothing. -/
  | noLine (h : n.fault? .feature = none)
      (hline : (Forest.lines .featureLine (Forest.header n.here).2).head? = none) :
      Noted n depth (.event (.leave .feature)) .done
        [⟨.trace, "end " ++ Rule.feature.name ++ " at depth " ++ depth.repr⟩,
          ⟨.debug, "feature has no feature line; document has no feature"⟩]
  /-- A feature whose line has no dialect comes to nothing. -/
  | noDialect {line : Token} (h : n.fault? .feature = none)
      (hline : (Forest.lines .featureLine (Forest.header n.here).2).head? = some line)
      (hdialect : line.dialect = none) :
      Noted n depth (.event (.leave .feature)) .done
        [⟨.trace, "end " ++ Rule.feature.name ++ " at depth " ++ depth.repr⟩,
          ⟨.debug, "feature line at " ++ line.location.text ++
            " has no resolved dialect; document has no feature"⟩]
  | left (r : Rule) (h : n.fault? r = none) (ha : r = .feature → Forest.absence? n.here = none) :
      Noted n depth (.event (.leave r)) .done
        [⟨.trace, "end " ++ r.name ++ " at depth " ++ depth.repr⟩]
  | result (d : Document) : Noted n depth .result (.result d) []

/-- The two causes for the absence of a feature are told apart. -/
theorem Absence.message_noLine_ne (location : Location) :
    noLine.message ≠ (noDialect location).message := by
  have hprefix (a b c : String) : a.toList <+: (a ++ b ++ c).toList := by
    rw [String.toList_append, String.toList_append, List.append_assoc]
    exact List.prefix_append _ _
  intro h
  have hopening : "feature line at ".toList <+: (noDialect location).message.toList :=
    hprefix _ _ _
  rw [← h] at hopening
  exact absurd hopening (by decide)

/-! ### Ends -/

/-- Only a table that is not rectangular is refused for its rows. -/
theorem Frame.reason?_rows_of_conclude {f : Frame Value} {cs : Array Comment} {x : Ragged}
    (h : f.conclude cs = .error (.ragged x)) : f.rows.reason? = some x := by
  have hreason : (f.conclude cs).reason? = some (.ragged x) := by rw [h, Except.reason?_error]
  unfold conclude at hreason
  cases hr : f.rule <;>
    simp only [hr, Except.reason?_mapError, Except.reason?_map, Except.reason?_ok,
      Option.map_eq_some_iff, Rejection.ragged.injEq, exists_eq_right, reduceCtorEq, and_false,
      exists_false] at hreason
  case dataTable | examplesTable => exact hreason

/-- Of a value that comes of another rule than a feature nothing is noted. -/
theorem Value.Sound.ofOutcome_eq {r : Rule} {v : Value} (hv : v.Sound r) (hr : r ≠ .feature) :
    Note.ofOutcome r (.ok v) = [] := by
  cases hv with
  | feature _ => exact absurd rfl hr
  | _ => rfl

namespace Forest

/-- A table that is not rectangular has a first row, and a row that differs from it. -/
theorem exists_of_reason?_rows {r : Rule} {ts : Forest} {vs : List (Rule × Value)} {x : Ragged}
    (hx : (Frame.ofContents r (tokens ts) vs).rows.reason? = some x) :
    ∃ first row, (lines .tableRow ts).head? = some first ∧ raggedRow? ts = some row ∧
      x = ⟨row.location, row.items.length, first.items.length⟩ := by
  rw [reason?_rows, Option.map_eq_some_iff] at hx
  obtain ⟨row, hrow, rfl⟩ := hx
  cases hlines : lines .tableRow ts with
  | nil => simp [raggedRow?, hlines] at hrow
  | cons first rest => exact ⟨first, row, rfl, hrow, by simp [width, hlines]⟩

variable {c cs : Array Comment} {ts : Forest} {vs : List (Rule × Value)}
  (h : Forest.values c ts = .ok (vs, cs))

include h

/-- A feature comes to nothing for the cause that its line shows. -/
theorem absence?_of_feature {g : Except Absence Feature}
    (hg : (Frame.ofContents .feature (tokens ts) vs).feature = .ok g) :
    absence? ts = Except.reason? g := by
  have hf := sound_contents h .feature
  obtain ⟨comments, ws, cs', hin, hheader⟩ := header_frame h
  rw [Frame.feature, hf.child?_eq .background, hf.childrenOf_eq .scenarioDefinition,
    hf.child?_eq .featureHeader] at hg
  simp only [Except.ok_bind, hheader] at hg
  have htoken := token?_ofContents (header ts).1 (header ts).2 ws (k := .featureLine) (by decide)
  rw [absence?, ← htoken]
  generalize Frame.ofContents (header ts).1 (tokens (header ts).2) ws = f at hg
  cases hline : f.token? .featureLine with
  | none =>
    rw [hline] at hg
    cases hg
    rfl
  | some line =>
    cases hlanguage : line.dialect with
    | none =>
      simp only [hline, hlanguage] at hg
      cases hg
      simp [hlanguage]
    | some language =>
      simp only [hline, hlanguage] at hg
      obtain ⟨tags, -, hg⟩ := Except.bind_eq_ok_iff.mp hg
      obtain ⟨text, -, hg⟩ := Except.bind_eq_ok_iff.mp hg
      cases hg
      simp [hlanguage]

end Forest

namespace Nesting

variable {n : Nesting} {s : Assembly}

/-- What is noted of an end by the name of the innermost open rule. -/
theorem noted_conclude {f : Frame Value} {ts : Forest} (hf : f.Shows ts) (hfs : f.Sound)
    (before : Forest) (around : List (Forest × Rule)) (waiting : Array Comment) (depth : Nat) :
    Noted ⟨ts, (before, f.rule) :: around⟩ depth (.event (.leave f.rule))
      (Assembly.replyTo (f.conclude waiting))
      (.leaving f.rule depth :: Note.ofOutcome f.rule (f.conclude waiting)) := by
  have hfault : Nesting.fault? ⟨ts, (before, f.rule) :: around⟩ f.rule =
      (f.conclude waiting).reason?.map Rejection.fault :=
    (if_pos rfl).trans (hf.reason?_conclude hfs waiting).symm
  -- The same is noted of the frame and of the contents of the rule, as comments are not noted.
  obtain ⟨vs, cs, hvs, hagree⟩ := hf.conclude hfs #[] waiting
  rw [← Note.ofOutcome_eq f.rule hagree]
  generalize f.conclude waiting = y at hagree hfault
  cases hx : (Frame.ofContents f.rule (Forest.tokens ts) vs).conclude cs with
  | error x =>
    rw [hx] at hagree
    cases hagree
    cases x with
    | violation v => exact .violation f.rule v hfault
    | ragged x =>
      obtain ⟨first, row, hfirst, hrow, rfl⟩ :=
        Forest.exists_of_reason?_rows (Frame.reason?_rows_of_conclude hx)
      exact .ragged f.rule hfault hfirst hrow
  | ok v =>
    rw [hx] at hagree
    cases hagree with
    | ok _ =>
      by_cases hr : f.rule = .feature
      · rw [hr] at hx hfault ⊢
        obtain ⟨g, hg, rfl⟩ := Frame.exists_of_conclude hx
        have habsence := Forest.absence?_of_feature hvs hg
        cases g with
        | error absence =>
          cases absence with
          | noLine => exact .noLine hfault (Forest.absence?_eq_noLine_iff.mp habsence)
          | noDialect location =>
            obtain ⟨line, hline, hdialect, rfl⟩ := Forest.absence?_eq_noDialect_iff.mp habsence
            exact .noDialect hfault hline hdialect
        | ok g => exact .left .feature hfault fun _ => habsence
      · have hsound : v.Sound f.rule := (Forest.sound_contents hvs f.rule).conclude hx
        rw [hsound.ofOutcome_eq hr]
        exact .left f.rule hfault fun h => absurd h hr

/-- **Ends.** What is noted of an end is what the reply and the open rules say. -/
theorem Shown.noted_leave (hn : n.Shown s.frames) (hs : s.Sound) (r : Rule) (depth : Nat) :
    n.Noted depth (.event (.leave r)) (Assembly.replyTo (s.leave r).1)
      (.leaving r depth :: Note.ofOutcome r (s.leave r).1) := by
  obtain ⟨root, frames, comments⟩ := s
  cases hn with
  | outermost ts => exact .violation r _ rfl
  | @inside n fs f ts hn hf =>
    have hfs : f.Sound := hs.frames f List.mem_cons_self
    by_cases hr : f.rule = r
    · subst hr
      have hnoted := noted_conclude hf hfs n.here n.around comments depth
      simp only [Assembly.leave, if_true]
      cases hv : f.conclude comments <;> rw [hv] at hnoted <;> exact hnoted
    · simp only [Assembly.leave, if_neg hr]
      exact .violation r _ (if_neg hr)

end Nesting

/-! ### Calls -/

namespace Session

/-- What is noted of a call is what the reply and the open rules say. -/
theorem noted_call {n : Nesting} {s : Session} (hn : n.Shown s.assembly.frames)
    (hs : s.assembly.Sound) (hnotes : s.notes = #[]) (c : Call) :
    n.Noted s.assembly.depth c (s.call c).1.outcome (s.call c).1.notes := by
  obtain ⟨assembly, notes⟩ := s
  obtain rfl : notes = #[] := hnotes
  match c with
  | .reset => exact .reset
  | .event (.token t) => exact .token t
  | .event (.enter r) => exact .enter r
  | .event (.leave r) =>
    have hnoted := hn.noted_leave hs r assembly.depth
    have hreply : (handler.perform (.event (.leave r)) ⟨assembly, #[]⟩).1 =
        Assembly.replyTo (assembly.leave r).1 := by
      rw [fst_perform, Assembly.perform_leave]
    have hnotes : (handler.perform (.event (.leave r)) ⟨assembly, #[]⟩).2.notes.toList =
        .leaving r assembly.depth :: Note.ofOutcome r (assembly.leave r).1 := by
      rw [Handler.snd_perform_event]
      simp [Handler.feed, handler, leave]
    rw [← hreply, ← hnotes] at hnoted
    exact hnoted
  | .result => exact .result _

end Session

end Gherkin
