/-!
# Maps in the order of insertion

A map gives a value for every key that is in use, and its keys stay in the order in which they came
into use. How a map is stored is left open: `Gherkin.OrderedMap` names the operations, and
`Gherkin.LawfulOrderedMap` says what they do, and nothing else is relied on. A dictionary, which is
a list of keys with their values, is such a map.

## Main definitions

* `Gherkin.OrderedMap` : the operations of a map.
* `Gherkin.LawfulOrderedMap` : what these operations do.
* `Gherkin.Dictionary` : a map stored as a list.

## Main results

* `Gherkin.OrderedMap.get?_empty` : nothing is in an empty map.
* `Gherkin.Dictionary.get?_insertIn`, `Gherkin.Dictionary.get?_remove` : a dictionary after a
  change.
-/

namespace Gherkin

/-- The operations of a map from `κ` to `ν` whose keys are in the order of their insertion. -/
class OrderedMap (μ : Type) (κ ν : outParam Type) where
  empty : μ
  /-- The keys in use, in order. -/
  keys (m : μ) : List κ
  /-- The value of a key, if the key is in use. -/
  get? (m : μ) (k : κ) : Option ν
  /-- Changes the value of `k` by `g`. A key that is not in use is put in first, with the value
  `start`. -/
  entry (m : μ) (k : κ) (start : ν) (g : ν → ν) : μ
  /-- The value of a key, and the map without that key. -/
  remove (m : μ) (k : κ) : Option ν × μ

/-- The operations of a map are those of a map whose keys are in the order of their insertion. -/
class LawfulOrderedMap (μ : Type) {κ ν : outParam Type} [DecidableEq κ] [OrderedMap μ κ ν] :
    Prop where
  keys_empty : OrderedMap.keys (OrderedMap.empty : μ) = []
  /-- The keys in use are those with a value. -/
  mem_keys_iff (m : μ) (k : κ) : k ∈ OrderedMap.keys m ↔ (OrderedMap.get? m k).isSome = true
  get?_entry (m : μ) (k j : κ) (start : ν) (g : ν → ν) :
    OrderedMap.get? (OrderedMap.entry m k start g) j =
      if k = j then some (g ((OrderedMap.get? m k).getD start)) else OrderedMap.get? m j
  /-- A new key comes last, and a key that was there stays where it is. -/
  keys_entry (m : μ) (k : κ) (start : ν) (g : ν → ν) :
    OrderedMap.keys (OrderedMap.entry m k start g) =
      if k ∈ OrderedMap.keys m then OrderedMap.keys m else OrderedMap.keys m ++ [k]
  fst_remove (m : μ) (k : κ) : (OrderedMap.remove m k).1 = OrderedMap.get? m k
  get?_remove (m : μ) (k j : κ) :
    OrderedMap.get? (OrderedMap.remove m k).2 j = if k = j then none else OrderedMap.get? m j
  /-- The other keys stay in their order. -/
  keys_remove (m : μ) (k : κ) :
    OrderedMap.keys (OrderedMap.remove m k).2 = (OrderedMap.keys m).filter fun j => j ≠ k

theorem OrderedMap.get?_empty {μ κ ν : Type} [DecidableEq κ] [OrderedMap μ κ ν]
    [LawfulOrderedMap μ] (k : κ) : get? (empty : μ) k = none := by
  rw [Option.eq_none_iff_forall_ne_some]
  intro v hv
  have hk : k ∈ keys (empty : μ) := (LawfulOrderedMap.mem_keys_iff _ k).mpr (hv ▸ rfl)
  rw [LawfulOrderedMap.keys_empty] at hk
  exact absurd hk List.not_mem_nil

/-! ### Dictionaries -/

/-- A map stored as a list of keys with their values, in order. -/
structure Dictionary (κ ν : Type) where
  entries : List (κ × ν) := []

namespace Dictionary

variable {κ ν : Type}

/-- The keys in use. -/
def keys (d : Dictionary κ ν) : List κ := d.entries.map Prod.fst

variable [DecidableEq κ]

/-- The value of a key. -/
def get? (d : Dictionary κ ν) (k : κ) : Option ν :=
  (d.entries.find? fun e => e.1 = k).map Prod.snd

/-- The entries with the value of `k` changed by `g`, or with a last entry for `k`. -/
def insertIn (k : κ) (start : ν) (g : ν → ν) : List (κ × ν) → List (κ × ν)
  | [] => [(k, g start)]
  | (j, v) :: es => if j = k then (j, g v) :: es else (j, v) :: insertIn k start g es

/-- The value of a key, and the dictionary without that key. -/
def remove (d : Dictionary κ ν) (k : κ) : Option ν × Dictionary κ ν :=
  (d.get? k, ⟨d.entries.filter fun e => e.1 ≠ k⟩)

instance : OrderedMap (Dictionary κ ν) κ ν where
  empty := {}
  keys := keys
  get? := get?
  entry d k start g := ⟨insertIn k start g d.entries⟩
  remove := remove

variable (d : Dictionary κ ν) (k j : κ) (start : ν) (g : ν → ν)

theorem mem_keys_iff : k ∈ d.keys ↔ (d.get? k).isSome = true := by
  simp [keys, get?]

theorem get?_insertIn (es : List (κ × ν)) :
    get? ⟨insertIn k start g es⟩ j =
      if k = j then some (g ((get? ⟨es⟩ k).getD start)) else get? ⟨es⟩ j := by
  induction es with
  | nil => by_cases hj : k = j <;> simp [get?, insertIn, hj]
  | cons e es ih =>
    obtain ⟨i, v⟩ := e
    by_cases hi : i = k
    · by_cases hj : k = j <;> simp [get?, insertIn, hi, hj]
    · simp only [get?] at ih
      by_cases hij : i = j
      · subst hij
        simp [get?, insertIn, hi, Ne.symm hi]
      · simp [get?, insertIn, hi, hij, ih]

theorem keys_insertIn (es : List (κ × ν)) :
    keys ⟨insertIn k start g es⟩ =
      if k ∈ keys ⟨es⟩ then keys ⟨es⟩ else keys ⟨es⟩ ++ [k] := by
  induction es with
  | nil => rfl
  | cons e es ih =>
    obtain ⟨i, v⟩ := e
    simp only [keys] at ih
    by_cases hi : i = k
    · simp [keys, insertIn, hi]
    · by_cases hk : k ∈ es.map Prod.fst <;> simp_all [keys, insertIn, Ne.symm hi]

theorem get?_remove : (d.remove k).2.get? j = if k = j then none else d.get? j := by
  simp only [remove, get?, List.find?_filter]
  split
  · next hj => simp [hj]
  · next hj =>
    congr 2
    funext e
    by_cases he : e.1 = j
    · simp [he, Ne.symm hj]
    · simp [he]

instance : LawfulOrderedMap (Dictionary κ ν) where
  keys_empty := rfl
  mem_keys_iff := mem_keys_iff
  get?_entry d k j start g := get?_insertIn k j start g d.entries
  keys_entry d k start g := keys_insertIn k start g d.entries
  fst_remove _ _ := rfl
  get?_remove := get?_remove
  keys_remove d k := by
    change (d.entries.filter fun e => e.1 ≠ k).map Prod.fst = (d.entries.map Prod.fst).filter _
    rw [List.filter_map]
    rfl

end Dictionary

end Gherkin
