import Mathlib.Data.Set.Finite.Lattice
import Mathlib.Data.Set.Finite.List
import Mathlib.Data.List.ReduceOption
import Mathlib.Order.Defs.LinearOrder
import Mathlib.Tactic

/-!
# A min-heap with resident values

A heap of fixed capacity whose elements live in numbered slots. A key names its slot, and a slot
belongs to at most one key at a time. Every occupied slot has a priority and a resident value.

The heap answers with a slot of least priority. Which one, when several are least, is the heap's
own affair, so `firstEntryIf` is asked for an answer and says whether the heap may give it.

* `entry_eq_occupied_iff`: a key is found exactly in its own slot.
* `not_of_firstEntryIf_none`: no slot passes a downward closed test when the heap answers none.
* `exists_firstEntryIf`: the heap always has an answer.
-/

namespace ResidentHeap

/-- A key that names a slot. -/
class Indexed (K : Type*) where
  index : K → ℕ

/-- An occupied slot. -/
structure Slot (K S R : Type*) where
  key : K
  priority : S
  resident : R

/-- The slots of a heap, as many as its capacity. -/
structure Heap (K S R : Type*) where
  slots : List (Option (Slot K S R))

/-- What a key finds in its slot. -/
inductive Entry (K S R : Type*) where
  | outOfRange
  | vacant
  | occupied (slot : Slot K S R)
  | conflict (current : K)

namespace Heap

variable {K S R : Type*}

/-- A heap without elements. -/
def new (capacity : ℕ) : Heap K S R := ⟨List.replicate capacity none⟩

/-- The number of slots. -/
def capacity (heap : Heap K S R) : ℕ := heap.slots.length

/-- The occupied slots. -/
def occupants (heap : Heap K S R) : List (Slot K S R) := heap.slots.reduceOption

/-- Fills or empties a slot. -/
def put (heap : Heap K S R) (i : ℕ) (slot : Option (Slot K S R)) : Heap K S R :=
  ⟨heap.slots.set i slot⟩

theorem mem_occupants_iff {heap : Heap K S R} {slot : Slot K S R} :
    slot ∈ heap.occupants ↔ ∃ i : ℕ, heap.slots[i]? = some (some slot) := by
  rw [occupants, List.reduceOption_mem_iff, List.mem_iff_getElem?]

theorem slots_put (heap : Heap K S R) (i j : ℕ) (slot : Option (Slot K S R)) :
    (heap.put i slot).slots[j]? =
      if i = j then (heap.slots[j]?).map fun _ => slot else heap.slots[j]? := by
  rw [put, List.getElem?_set']
  split_ifs with h
  · subst h
    rfl
  · rfl

theorem put_self {heap : Heap K S R} {i : ℕ} {slot : Option (Slot K S R)}
    (h : heap.slots[i]? = some slot) : heap.put i slot = heap := by
  obtain ⟨hi, rfl⟩ := List.getElem?_eq_some_iff.mp h
  rw [put, List.set_getElem_self]

section Keys

variable [DecidableEq K] [Indexed K]

/-- Looks a key up in its slot. -/
def entry (heap : Heap K S R) (key : K) : Entry K S R :=
  match heap.slots[Indexed.index key]? with
  | none => .outOfRange
  | some none => .vacant
  | some (some slot) => if slot.key = key then .occupied slot else .conflict slot.key

/-- A key is found exactly in its own slot. -/
theorem entry_eq_occupied_iff {heap : Heap K S R} {key : K} {slot : Slot K S R} :
    heap.entry key = .occupied slot ↔
      heap.slots[Indexed.index key]? = some (some slot) ∧ slot.key = key := by
  rw [entry]
  rcases heap.slots[Indexed.index key]? with _ | _ | found
  · simp
  · simp
  · by_cases h : found.key = key
    · simp only [h, if_true, Entry.occupied.injEq, Option.some.injEq]
      constructor
      · rintro rfl
        exact ⟨rfl, h⟩
      · exact fun h => h.1
    · simp only [h, if_false, reduceCtorEq, Option.some.injEq, false_iff, not_and]
      rintro rfl
      exact h

theorem entry_eq_vacant_iff {heap : Heap K S R} {key : K} :
    heap.entry key = .vacant ↔ heap.slots[Indexed.index key]? = some none := by
  rw [entry]
  rcases heap.slots[Indexed.index key]? with _ | _ | found
  · simp
  · simp
  · by_cases h : found.key = key <;> simp [h]

end Keys

section Order

variable [LinearOrder S]

/-- The slot has the least priority of the heap. -/
def IsFirst (heap : Heap K S R) (slot : Slot K S R) : Prop :=
  ∀ other ∈ heap.occupants, slot.priority ≤ other.priority

instance (heap : Heap K S R) (slot : Slot K S R) : Decidable (heap.IsFirst slot) :=
  inferInstanceAs (Decidable (∀ other ∈ heap.occupants, slot.priority ≤ other.priority))

/-- The first entry, if its priority passes the test. The answer is given as the number of a slot,
or none; the result is `none` when the heap cannot give this answer. -/
def firstEntryIf (heap : Heap K S R) (test : S → Bool) :
    Option ℕ → Option (Option (Slot K S R))
  | none =>
    if ∀ slot ∈ heap.occupants, heap.IsFirst slot → test slot.priority = false then some none
    else none
  | some i =>
    match heap.slots[i]? with
    | some (some slot) =>
      if heap.IsFirst slot ∧ test slot.priority = true then some (some slot) else none
    | _ => none

theorem exists_isFirst {heap : Heap K S R} {slot : Slot K S R} (h : slot ∈ heap.occupants) :
    ∃ first ∈ heap.occupants, heap.IsFirst first := by
  obtain ⟨first, hmem, hle⟩ := Set.exists_min_image {slot | slot ∈ heap.occupants}
    (fun slot => slot.priority) (List.finite_toSet heap.occupants) ⟨slot, h⟩
  exact ⟨first, hmem, hle⟩

theorem firstEntryIf_eq_some {heap : Heap K S R} {test : S → Bool} {choice : Option ℕ}
    {slot : Slot K S R} (h : heap.firstEntryIf test choice = some (some slot)) :
    ∃ i, choice = some i ∧ heap.slots[i]? = some (some slot) ∧ heap.IsFirst slot ∧
      test slot.priority = true := by
  rcases choice with _ | i
  · simp only [firstEntryIf] at h
    split at h <;> simp at h
  · rw [firstEntryIf] at h
    split at h
    · rename_i found hfound
      split_ifs at h with hfirst
      obtain rfl : found = slot := by simpa using h
      exact ⟨i, rfl, hfound, hfirst⟩
    · contradiction

theorem firstEntryIf_of_isFirst {heap : Heap K S R} {test : S → Bool} {i : ℕ} {slot : Slot K S R}
    (hslot : heap.slots[i]? = some (some slot)) (hfirst : heap.IsFirst slot)
    (htest : test slot.priority = true) : heap.firstEntryIf test (some i) = some (some slot) := by
  simp only [firstEntryIf, hslot, if_pos (And.intro hfirst htest)]

theorem choice_of_firstEntryIf_none {heap : Heap K S R} {test : S → Bool} {choice : Option ℕ}
    (h : heap.firstEntryIf test choice = some none) : choice = none := by
  rcases choice with _ | i
  · rfl
  · rw [firstEntryIf] at h
    split at h
    · split_ifs at h
      simp at h
    · contradiction

/-- No slot passes a downward closed test when the heap answers none. -/
theorem not_of_firstEntryIf_none {heap : Heap K S R} {test : S → Bool} {choice : Option ℕ}
    (hclosed : ∀ a b, a ≤ b → test b = true → test a = true)
    (h : heap.firstEntryIf test choice = some none) {slot : Slot K S R}
    (hslot : slot ∈ heap.occupants) : test slot.priority = false := by
  obtain rfl := choice_of_firstEntryIf_none h
  simp only [firstEntryIf, Option.ite_none_right_eq_some] at h
  obtain ⟨first, hmem, hfirst⟩ := exists_isFirst hslot
  rw [Bool.eq_false_iff]
  intro htest
  have hfirstTest := hclosed _ _ (hfirst slot hslot) htest
  rw [h.1 first hmem hfirst] at hfirstTest
  contradiction

theorem firstEntryIf_none {heap : Heap K S R} {test : S → Bool}
    (h : ∀ slot ∈ heap.occupants, test slot.priority = false) :
    heap.firstEntryIf test none = some none := by
  rw [firstEntryIf, if_pos fun slot hslot _ => h slot hslot]

/-- The heap always has an answer. -/
theorem exists_firstEntryIf (heap : Heap K S R) (test : S → Bool) :
    ∃ choice answer, heap.firstEntryIf test choice = some answer := by
  by_cases h : ∀ slot ∈ heap.occupants, heap.IsFirst slot → test slot.priority = false
  · exact ⟨none, none, by rw [firstEntryIf, if_pos h]⟩
  · push Not at h
    obtain ⟨slot, hslot, hfirst, htest⟩ := h
    obtain ⟨i, hi⟩ := mem_occupants_iff.mp hslot
    exact ⟨some i, some slot, firstEntryIf_of_isFirst hi hfirst (by simpa using htest)⟩

end Order

end Heap

end ResidentHeap
