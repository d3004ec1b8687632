import Gherkin.Assembly.Conclusion
import Gherkin.Event.Tree

/-!
# Documents of forests

The document of a forest, by recursion on its trees. No frame is open while another is read: the
value of a rule is made of the tokens that stand directly in it and of the values of the rules
directly in it, from left to right. Only the comments are handed on from one tree to the next,
since a document has those of the trees before it and of the trees inside it.

## Main definitions

* `Gherkin.Frame.ofContents` : a rule with its tokens and the values of its rules.
* `Gherkin.Tree.values`, `Gherkin.Forest.values` : the values of a tree and of a forest.
* `Gherkin.Forest.document` : the document of a forest.
-/

namespace Gherkin

/-- The frame of the rule `r` with the tokens of `tokens`, less the comments, and the children of
`children`. -/
def Frame.ofContents (r : Rule) (tokens : List Token) (children : List (Rule × Value)) :
    Frame Value where
  rule := r
  tokens := .ofList ((tokens.filter fun t => !t.kind.isComment).map fun t => (t.kind, t))
  children := .ofList children

mutual

/-- The value of a tree under the rule that it comes from, if the tree is no token, and the
comments that are in no document after it. The comments given are those from before the tree. -/
def Tree.values (comments : Array Comment) :
    Tree → Except Rejection (List (Rule × Value) × Array Comment)
  | .token t => .ok ([], if t.kind.isComment then comments.push (.ofToken t) else comments)
  | .node r inner => do
    let (children, comments) ← Forest.values comments inner
    let value ← (Frame.ofContents r (Forest.tokens inner) children).conclude comments
    return ([(r, value)], if r = .document then #[] else comments)

/-- The values of the trees of a forest. -/
def Forest.values (comments : Array Comment) :
    List Tree → Except Rejection (List (Rule × Value) × Array Comment)
  | [] => .ok ([], comments)
  | t :: ts => do
    let (here, comments) ← t.values comments
    let (there, comments) ← Forest.values comments ts
    return (here ++ there, comments)

end

/-- The document of a forest: that of its first tree which is one. Where no tree is, it is a
document with the comments of the forest and without a feature. -/
def Forest.document (ts : Forest) : Except Fault Document :=
  match Forest.values #[] ts with
  | .error x => .error x.fault
  | .ok (values, comments) =>
    .ok ((values.findSome? fun v => v.2.document?).getD ⟨none, comments.toList⟩)

end Gherkin
