import Gherkin.Assembly.Conclusion
import Gherkin.Event.Handler

/-!
# Assembling a document

A document is assembled from events with one frame for every rule that is open. A token is filed in
the innermost frame. A rule that is left becomes a value, which is filed in the frame around it; if
it cannot be left, its frame is dropped and nothing is filed. Comments are filed in no frame: they
wait for the next document.

Around all rules there is an outermost frame, in which the documents are filed that are complete.

## Main definitions

* `Gherkin.Assembly` : the open frames and the comments that wait.
* `Gherkin.Assembly.depth` : the number of open rules.
* `Gherkin.Assembly.attach`, `Gherkin.Assembly.enter`, `Gherkin.Assembly.leave`,
  `Gherkin.Assembly.result` : what is done with events, and the document made of them.
* `Gherkin.Assembly.handler` : all of this as a handler.

## Main results

* `Gherkin.Assembly.depth_enter`, `Gherkin.Assembly.depth_leave` : the number of open rules goes up
  and down by one, and no other operation changes it.
-/

namespace Gherkin

/-- A document in the making. -/
structure Assembly where
  /-- The frame around all rules. -/
  root : Frame Value := .new .outermost
  /-- The frames of the open rules, the innermost first. -/
  frames : List (Frame Value) := []
  /-- The comments that are in no document yet, the earliest first. -/
  comments : Array Comment := #[]

namespace Assembly

/-- Nothing has been met yet. -/
def empty : Assembly := {}

instance : Inhabited Assembly := ⟨empty⟩

/-- The number of open rules. -/
def depth (s : Assembly) : Nat := s.frames.length

/-- The frame of the innermost open rule. -/
def innermost (s : Assembly) : Frame Value := s.frames.headD s.root

/-- The innermost frame, changed by `g`. -/
def modifyInnermost (g : Frame Value → Frame Value) (s : Assembly) : Assembly :=
  match s with
  | ⟨root, [], comments⟩ => ⟨g root, [], comments⟩
  | ⟨root, f :: fs, comments⟩ => ⟨root, g f :: fs, comments⟩

/-- Takes in a token. -/
def attach (t : Token) (s : Assembly) : Assembly :=
  if t.kind.isComment then { s with comments := s.comments.push (.ofToken t) }
  else s.modifyInnermost (·.fileToken t)

/-- Enters a rule. -/
def enter (r : Rule) (s : Assembly) : Assembly := { s with frames := .new r :: s.frames }

/-- Files the value of the rule `r`. A document has taken the comments that waited. -/
def file (r : Rule) (v : Value) (s : Assembly) : Assembly :=
  let s := s.modifyInnermost (·.fileChild r v)
  if r = .document then { s with comments := #[] } else s

/-- Leaves the innermost rule, which should be `r`, and says what it became or why it could not be
left. Its frame is dropped in either case. -/
def leave (r : Rule) (s : Assembly) : Except Rejection Value × Assembly :=
  match s.frames with
  | [] => (.error (.violation (.noOpenRule r)), s)
  | f :: fs =>
    let rest := { s with frames := fs }
    if f.rule = r then
      match f.conclude s.comments with
      | .ok v => (.ok v, rest.file r v)
      | .error x => (.error x, rest)
    else (.error (.violation (.unbalanced f.rule r)), rest)

/-- The earliest document that is complete; all others are dropped. Where none is, a document
without a feature takes the comments that waited. -/
def result (s : Assembly) : Document × Assembly :=
  let (document?, root) := s.root.takeChild? .document Value.document?
  let s := { s with root }
  match document? with
  | .ok (some d) => (d, s)
  | _ => (⟨none, s.comments.toList⟩, { s with comments := #[] })

/-- The document that is handed out is read off the outermost frame. -/
theorem fst_result_eq (s : Assembly) :
    s.result.1 = match s.root.child? .document Value.document? with
      | .ok (some d) => d
      | _ => ⟨none, s.comments.toList⟩ := by
  unfold result Frame.child?
  dsimp only
  split <;> rfl

/-- What is reported of a rule that is left. -/
def reported : Except Rejection Value → Except Fault Unit
  | .ok _ => .ok ()
  | .error x => .error x.fault

/-- Assembles a document from events. -/
def handler : Handler Assembly Fault Document where
  reset _ := empty
  attach := attach
  enter := enter
  leave r s :=
    let left := s.leave r
    (reported left.1, left.2)
  result := result

/-! ### The number of open rules -/

section Depth

variable (s : Assembly)

@[simp]
theorem depth_empty : empty.depth = 0 := rfl

@[simp]
theorem depth_modifyInnermost (g : Frame Value → Frame Value) :
    (s.modifyInnermost g).depth = s.depth := by
  rcases s with ⟨root, _ | ⟨f, fs⟩, comments⟩ <;> rfl

@[simp]
theorem depth_attach (t : Token) : (s.attach t).depth = s.depth := by
  unfold attach
  split
  · rfl
  · exact s.depth_modifyInnermost _

@[simp]
theorem depth_enter (r : Rule) : (s.enter r).depth = s.depth + 1 := rfl

@[simp]
theorem depth_file (r : Rule) (v : Value) : (s.file r v).depth = s.depth := by
  unfold file
  split
  · exact s.depth_modifyInnermost _
  · exact s.depth_modifyInnermost _

/-- A rule that is left is no longer open, whether it became a value or not. -/
@[simp]
theorem depth_leave (r : Rule) : (s.leave r).2.depth = s.depth - 1 := by
  unfold leave
  cases hf : s.frames with
  | nil => simp [depth, hf]
  | cons f fs =>
    have hrest : ({ s with frames := fs } : Assembly).depth = s.depth - 1 := by
      simp [depth, hf]
    dsimp only
    split
    · split
      · rw [depth_file, hrest]
      · exact hrest
    · exact hrest

@[simp]
theorem depth_result : s.result.2.depth = s.depth := by
  unfold result
  dsimp only
  split <;> rfl

end Depth

end Assembly

/-- The document that events make, or the fault that ends the run. -/
def Document.ofEvents (es : List Event) : Except Fault Document :=
  (Assembly.handler.replay es .empty).1

end Gherkin
