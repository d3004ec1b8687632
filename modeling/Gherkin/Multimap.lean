import Gherkin.OrderedMap

/-!
# Multimaps

A multimap files values under keys and gives back, for each key, the values filed under it in the
order of their arrival. It is a map from keys to arrays: a value that is filed goes to the end of
the array of its key, which is put in where the key has none, and a key is removed when its values
are taken. So a multimap is a family of queues, one for each key, and what is filed or taken under
one key changes nothing under another.

Which map it is does not matter, as long as it is a lawful one. A dictionary is used where nothing
else is said.

## Main definitions

* `Gherkin.Multimap` : values filed under keys.
* `Gherkin.Multimap.get` : the queue of a key, the view through which the operations are described.
* `Gherkin.Multimap.keys` : the keys in use.
* `Gherkin.Multimap.add`, `Gherkin.Multimap.append` : values put at the end of their queues.
* `Gherkin.Multimap.take` : a queue read and emptied.
* `Gherkin.Multimap.Filled` : no key is in use without a value.

## Main results

* `Gherkin.Multimap.get_add`, `Gherkin.Multimap.get_append`, `Gherkin.Multimap.get_take` : all
  queues after a change.
* `Gherkin.Multimap.Filled.add`, `Gherkin.Multimap.Filled.take` : no key loses its last value and
  stays.
-/

namespace Gherkin

/-- Values filed under keys. It stands for a map whose keys are in the order of their insertion, and
in which each key has an array of its values, in the order of their arrival. -/
structure Multimap (κ α : Type) (μ : Type := Dictionary κ (Array α)) where
  queues : μ

namespace Multimap

variable {κ α μ : Type} [OrderedMap μ κ (Array α)]

instance : EmptyCollection (Multimap κ α μ) := ⟨⟨OrderedMap.empty⟩⟩

/-- The values filed under `k`, the earliest first. -/
def get (m : Multimap κ α μ) (k : κ) : List α := ((OrderedMap.get? m.queues k).getD #[]).toList

/-- The keys in use, in the order in which they came into use. -/
def keys (m : Multimap κ α μ) : List κ := OrderedMap.keys m.queues

/-- Files `a` under `k`, after all that is there. -/
def add (m : Multimap κ α μ) (k : κ) (a : α) : Multimap κ α μ :=
  ⟨OrderedMap.entry m.queues k #[] fun queue => queue.push a⟩

/-- Files the values of a list, one after the other. -/
def append (m : Multimap κ α μ) (l : List (κ × α)) : Multimap κ α μ :=
  l.foldl (fun m e => m.add e.1 e.2) m

/-- The values of a list, filed one after the other. -/
def ofList (l : List (κ × α)) : Multimap κ α μ := append ∅ l

/-- The values filed under `k`, and the multimap without them. -/
def take (m : Multimap κ α μ) (k : κ) : List α × Multimap κ α μ :=
  let (queue?, queues) := OrderedMap.remove m.queues k
  ((queue?.getD #[]).toList, ⟨queues⟩)

/-! ### Lists filed at once -/

@[simp]
theorem append_nil (m : Multimap κ α μ) : m.append [] = m := rfl

@[simp]
theorem append_append (m : Multimap κ α μ) (l l' : List (κ × α)) :
    (m.append l).append l' = m.append (l ++ l') := by
  simp [append]

theorem add_eq_append (m : Multimap κ α μ) (k : κ) (a : α) : m.add k a = m.append [(k, a)] := rfl

theorem empty_append (l : List (κ × α)) : (∅ : Multimap κ α μ).append l = ofList l := rfl

/-! ### Queues -/

variable [DecidableEq κ] [LawfulOrderedMap μ]

@[simp]
theorem get_empty (k : κ) : (∅ : Multimap κ α μ).get k = [] := by
  change ((OrderedMap.get? (OrderedMap.empty : μ) k).getD #[]).toList = []
  rw [OrderedMap.get?_empty]
  rfl

theorem get_add (m : Multimap κ α μ) (j k : κ) (a : α) :
    (m.add j a).get k = if j = k then m.get k ++ [a] else m.get k := by
  rw [get, add, LawfulOrderedMap.get?_entry]
  split
  · next h => simp [get, h]
  · rfl

@[simp]
theorem get_add_self (m : Multimap κ α μ) (k : κ) (a : α) :
    (m.add k a).get k = m.get k ++ [a] := by
  simp [get_add]

@[simp]
theorem get_add_of_ne (m : Multimap κ α μ) {j k : κ} (h : j ≠ k) (a : α) :
    (m.add j a).get k = m.get k := by
  simp [get_add, h]

/-- Of values under different keys it does not matter which is filed first. -/
theorem get_add_comm (m : Multimap κ α μ) {j k : κ} (h : j ≠ k) (a b : α) (l : κ) :
    ((m.add j a).add k b).get l = ((m.add k b).add j a).get l := by
  by_cases hj : j = l
  · subst hj
    simp [Ne.symm h]
  · simp [get_add, hj]

theorem get_append (m : Multimap κ α μ) (l : List (κ × α)) (k : κ) :
    (m.append l).get k = m.get k ++ l.filterMap fun e => if e.1 = k then some e.2 else none := by
  induction l generalizing m with
  | nil => simp
  | cons e l ih =>
    change ((m.add e.1 e.2).append l).get k = _
    by_cases h : e.1 = k <;> simp [ih, h]

theorem get_ofList (l : List (κ × α)) (k : κ) :
    (ofList l : Multimap κ α μ).get k =
      l.filterMap fun e => if e.1 = k then some e.2 else none := by
  rw [ofList, get_append, get_empty, List.nil_append]

@[simp]
theorem fst_take (m : Multimap κ α μ) (k : κ) : (m.take k).1 = m.get k :=
  congrArg (fun queue? => (queue?.getD #[]).toList) (LawfulOrderedMap.fst_remove m.queues k)

theorem get_take (m : Multimap κ α μ) (j k : κ) :
    (m.take j).2.get k = if j = k then [] else m.get k := by
  change ((OrderedMap.get? (OrderedMap.remove m.queues j).2 k).getD #[]).toList = _
  rw [LawfulOrderedMap.get?_remove]
  split <;> rfl

/-! ### Keys -/

/-- A new key comes last. -/
theorem keys_add (m : Multimap κ α μ) (k : κ) (a : α) :
    (m.add k a).keys = if k ∈ m.keys then m.keys else m.keys ++ [k] :=
  LawfulOrderedMap.keys_entry m.queues k _ _

/-- The other keys stay in their order. -/
theorem keys_take (m : Multimap κ α μ) (k : κ) : (m.take k).2.keys = m.keys.filter fun j => j ≠ k :=
  LawfulOrderedMap.keys_remove m.queues k

/-- No key is in use without a value. -/
def Filled (m : Multimap κ α μ) : Prop := ∀ k ∈ m.keys, m.get k ≠ []

theorem filled_empty : (∅ : Multimap κ α μ).Filled := by
  intro k hk
  change k ∈ OrderedMap.keys (OrderedMap.empty : μ) at hk
  rw [LawfulOrderedMap.keys_empty] at hk
  exact absurd hk List.not_mem_nil

theorem Filled.add {m : Multimap κ α μ} (hm : m.Filled) (j : κ) (a : α) : (m.add j a).Filled := by
  intro k hk
  rw [get_add]
  split
  · simp
  · next h =>
    have hmem : k ∈ m.keys := by
      rw [keys_add] at hk
      split at hk
      · exact hk
      · simpa [Ne.symm h] using hk
    exact hm k hmem

theorem Filled.append {m : Multimap κ α μ} (hm : m.Filled) (l : List (κ × α)) :
    (m.append l).Filled := by
  induction l generalizing m with
  | nil => exact hm
  | cons e l ih => exact ih (hm.add e.1 e.2)

theorem Filled.take {m : Multimap κ α μ} (hm : m.Filled) (j : κ) : (m.take j).2.Filled := by
  intro k hk
  rw [keys_take, List.mem_filter, decide_eq_true_eq] at hk
  rw [get_take, if_neg (Ne.symm hk.2)]
  exact hm k hk.1

end Multimap

end Gherkin
