import Gherkin.Fault
import Gherkin.Proofs.KeptLines

/-!
# Messages of faults

A fault can be told from its message. That of an invalid file starts with a bracket and gives its
location in digits, so it is known where the location ends and the reason begins, whatever the
reason is. That of a violation starts with a word of its own and is a list of words from there on:
names of rules and tokens are single words, and the words around the names are not the same for any
two sorts of violations.

## Main definitions

* `Gherkin.Violation.words` : the words of the message of a violation.

## Main results

* `Gherkin.Location.text_append_inj` : a location recovered from the text that starts with it.
* `Gherkin.Violation.message_injective` : a violation recovered from its message.
* `Gherkin.Fault.message_inj` : faults have the same message only where they are the same.
-/

namespace Gherkin

/-! ### Locations -/

/-- What stands before the first `c` in a text, and what stands after it. -/
theorem Text.append_cons_inj {c : Char} {l l' m m' : List Char} (hl : c ∉ l) (hl' : c ∉ l') :
    l ++ c :: m = l' ++ c :: m' ↔ l = l' ∧ m = m' := by
  refine ⟨fun h => ?_, fun ⟨h, h'⟩ => by rw [h, h']⟩
  have hsplit := congrArg (List.splitOn c) h
  rw [List.splitOn_append_cons_self_of_not_mem hl, List.splitOn_append_cons_self_of_not_mem hl']
    at hsplit
  obtain rfl : l = l' := (List.cons.inj hsplit).1
  exact ⟨rfl, (List.cons.inj (List.append_cancel_left h)).2⟩

namespace Location

theorem toList_text (l : Location) :
    l.text.toList = '(' :: (Nat.toDigits 10 l.line.toNat ++
      ':' :: (Nat.toDigits 10 l.column.toNat ++ [')'])) := by
  simp [text, Nat.repr_eq_ofList_toDigits]

/-- A number is written in digits alone. -/
theorem notMem_toDigits {c : Char} (hc : c.isDigit = false) (n : UInt32) :
    c ∉ Nat.toDigits 10 n.toNat := by
  intro h
  rw [Nat.isDigit_of_mem_toDigits (by decide) (by decide) h] at hc
  cases hc

/-- A number is known from its digits. -/
theorem eq_of_toDigits {m n : UInt32} (h : Nat.toDigits 10 m.toNat = Nat.toDigits 10 n.toNat) :
    m = n := by
  have hvalue := congrArg (Nat.ofDigitChars 10 · 0) h
  simpa only [Nat.ofDigitChars_ten_toDigits, UInt32.toNat_inj] using hvalue

/-- A text that starts with a location shows which location that is, and how it goes on. -/
theorem text_append_inj {l l' : Location} {s s' : String} :
    l.text ++ s = l'.text ++ s' ↔ l = l' ∧ s = s' := by
  refine ⟨fun h => ?_, fun ⟨h, h'⟩ => by rw [h, h']⟩
  rw [← String.toList_inj, String.toList_append, String.toList_append, toList_text, toList_text]
    at h
  simp only [List.cons_append, List.append_assoc, List.nil_append, List.cons.injEq, true_and] at h
  obtain ⟨hline, h⟩ := (Text.append_cons_inj (notMem_toDigits rfl _) (notMem_toDigits rfl _)).mp h
  obtain ⟨hcolumn, hs⟩ :=
    (Text.append_cons_inj (notMem_toDigits rfl _) (notMem_toDigits rfl _)).mp h
  refine ⟨?_, String.toList_inj.mp hs⟩
  cases l
  cases l'
  rw [mk.injEq]
  exact ⟨eq_of_toDigits hline, eq_of_toDigits hcolumn⟩

end Location

/-! ### Words of a violation -/

theorem Rule.space_notMem_name (r : Rule) : ' ' ∉ r.name.toList := by
  cases r <;> decide

theorem TokenKind.space_notMem_name (k : TokenKind) : ' ' ∉ k.name.toList := by
  cases k <;> decide

namespace Violation

/-- The words of the message of a violation. -/
def words : Violation → List String
  | noOpenRule ended => ["cannot", "end", ended.name ++ ":", "no", "rule", "is", "open"]
  | unbalanced innermost ended =>
    ["cannot", "end", ended.name ++ ":", "innermost", "open", "rule", "is", innermost.name]
  | missingToken rule token => [rule.name, "has", "no", token.name, "token"]
  | missingChild rule child => [rule.name, "has", "no", child.name, "child"]
  | unexpectedChild rule child => [rule.name, "has", "a", "malformed", child.name, "child"]

theorem message_eq_intercalate (v : Violation) : v.message = " ".intercalate v.words := by
  cases v <;> simp [message, words, ← String.toList_inj]

theorem words_ne_nil (v : Violation) : v.words ≠ [] := by
  cases v <;> exact List.cons_ne_nil _ _

theorem space_notMem_words (v : Violation) : ∀ w ∈ v.words, ' ' ∉ w.toList := by
  cases v <;> simp [words, Rule.space_notMem_name, TokenKind.space_notMem_name]

/-- The words of a violation say of which sort it is, and name what it is about. -/
theorem words_injective {v w : Violation} (h : v.words = w.words) : v = w := by
  cases v <;> cases w <;> simp [words] at h
  case noOpenRule.noOpenRule => rw [Rule.name_injective h]
  case unbalanced.unbalanced => rw [Rule.name_injective h.1, Rule.name_injective h.2]
  case missingToken.missingToken => rw [Rule.name_injective h.1, TokenKind.name_injective h.2]
  case missingChild.missingChild => rw [Rule.name_injective h.1, Rule.name_injective h.2]
  case unexpectedChild.unexpectedChild => rw [Rule.name_injective h.1, Rule.name_injective h.2]

/-- A violation is known from its message. -/
theorem message_injective {v w : Violation} (h : v.message = w.message) : v = w := by
  rw [message_eq_intercalate, message_eq_intercalate] at h
  exact words_injective ((Text.intercalate_inj ' ' v.words_ne_nil w.words_ne_nil
    v.space_notMem_words w.space_notMem_words).mp h)

end Violation

/-! ### Faults -/

namespace Fault

/-- An invalid file is not taken for a violation. -/
theorem message_invalid_ne (l : Location) (reason : String) (v : Violation) :
    (invalid l reason).message ≠ (violation v).message := by
  intro h
  have hlist := congrArg String.toList h
  simp [message_invalid, message_violation, Location.toList_text] at hlist

/-- **Messages of faults.** Faults have the same message exactly where they are the same, be it the
location and the reason that are said of a file or the sort of a violation and what it names. -/
theorem message_inj : ∀ a b : Fault, a.message = b.message ↔ a = b := by
  intro a b
  refine ⟨fun h => ?_, congrArg message⟩
  cases a with
  | invalid l reason =>
    cases b with
    | invalid l' reason' =>
      rw [message_invalid, message_invalid, String.append_assoc, String.append_assoc] at h
      obtain ⟨rfl, hreason⟩ := Location.text_append_inj.mp h
      obtain rfl := (String.append_right_inj _).mp hreason
      rfl
    | violation w => exact absurd h (message_invalid_ne l reason w)
  | violation v =>
    cases b with
    | invalid l reason => exact absurd h.symm (message_invalid_ne l reason v)
    | violation w =>
      obtain rfl := Violation.message_injective ((String.append_right_inj _).mp h)
      rfl

end Fault

end Gherkin
