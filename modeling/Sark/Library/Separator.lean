import Mathlib.Data.List.Basic
import Mathlib.Data.List.TakeWhile
import Mathlib.Tactic.Linarith

/-!
# Lists with separators

Parts without a separator, each with one in front of it, and the list that they are joined to. The
parts of a list are those that `List.splitOn` finds.

* `joined_splitOn`, `splitOn_joined`: splitting and joining are inverse to each other.
* `eq_of_append_cons_eq`: what stands in front of the first separator is determined.
-/

namespace Sark

variable {α : Type*}

/-- What stands in front of the first separator is determined. -/
theorem eq_of_append_cons_eq {separator : α} {left left' right right' : List α}
    (hleft : separator ∉ left) (hleft' : separator ∉ left')
    (h : left ++ separator :: right = left' ++ separator :: right') :
    left = left' ∧ right = right' := by
  induction left generalizing left' with
  | nil =>
    cases left' with
    | nil => exact ⟨rfl, (List.cons.inj h).2⟩
    | cons byte left' => exact absurd (List.cons.inj h).1 (by simp_all)
  | cons byte left ih =>
    cases left' with
    | nil => exact absurd (List.cons.inj h).1 (by simp_all [eq_comm])
    | cons byte' left' =>
      obtain ⟨rfl, htail⟩ := List.cons.inj h
      obtain ⟨rfl, rfl⟩ := ih (by simp_all) (by simp_all) htail
      exact ⟨rfl, rfl⟩

section First

variable [DecidableEq α] {separator : α} {left right value : List α}

theorem takeWhile_ne_append (h : separator ∉ left) :
    (left ++ separator :: right).takeWhile (· ≠ separator) = left := by
  have hall : ∀ item ∈ left, decide (item ≠ separator) = true := by
    intro item hmem
    rw [decide_eq_true_iff]
    rintro rfl
    exact h hmem
  rw [List.takeWhile_append_of_pos hall]
  simp

theorem dropWhile_ne_append (h : separator ∉ left) :
    (left ++ separator :: right).dropWhile (· ≠ separator) = separator :: right := by
  have hall : ∀ item ∈ left, decide (item ≠ separator) = true := by
    intro item hmem
    rw [decide_eq_true_iff]
    rintro rfl
    exact h hmem
  rw [List.dropWhile_append_of_pos hall]
  simp

theorem notMem_takeWhile_ne : separator ∉ value.takeWhile (· ≠ separator) := by
  intro hmem
  simpa using List.mem_takeWhile_imp hmem

theorem dropWhile_ne_eq_nil : value.dropWhile (· ≠ separator) = [] ↔ separator ∉ value := by
  rw [List.dropWhile_eq_nil_iff]
  constructor
  · intro h hmem
    simpa using h separator hmem
  · intro h item hmem
    rw [decide_eq_true_iff]
    rintro rfl
    exact h hmem

theorem takeWhile_ne_eq_self (h : separator ∉ value) :
    value.takeWhile (· ≠ separator) = value := by
  have happend := List.takeWhile_append_dropWhile (p := (· ≠ separator)) (l := value)
  rwa [dropWhile_ne_eq_nil.mpr h, List.append_nil] at happend

theorem dropWhile_ne_eq_cons {item : α} (h : value.dropWhile (· ≠ separator) = item :: right) :
    item = separator ∧ value = value.takeWhile (· ≠ separator) ++ separator :: right := by
  have hitem : item = separator := by
    have hhead := List.head?_dropWhile_not (· ≠ separator) value
    rw [h] at hhead
    simpa using hhead
  refine ⟨hitem, ?_⟩
  rw [← hitem, ← h, hitem, List.takeWhile_append_dropWhile]

end First

/-- The parts with a separator in front of each. -/
def joined (separator : α) (parts : List (List α)) : List α :=
  parts.flatMap (separator :: ·)

section Joined

variable {separator : α} {parts : List (List α)}

@[simp]
theorem joined_nil : joined separator [] = [] := rfl

@[simp]
theorem joined_cons (part : List α) (parts : List (List α)) :
    joined separator (part :: parts) = separator :: part ++ joined separator parts := rfl

@[simp]
theorem joined_append (first second : List (List α)) :
    joined separator (first ++ second) = joined separator first ++ joined separator second :=
  List.flatMap_append

theorem joined_ne_nil (h : parts ≠ []) : joined separator parts ≠ [] := by
  obtain ⟨part, parts, rfl⟩ := List.exists_cons_of_ne_nil h
  simp

theorem length_joined_reverse (parts : List (List α)) :
    (joined separator parts.reverse).length = (joined separator parts).length := by
  induction parts with
  | nil => rfl
  | cons part parts ih =>
    rw [List.reverse_cons, joined_append, joined_cons, joined_cons, List.length_append, ih]
    simp only [List.length_append, List.length_cons, joined_nil, List.length_nil]
    omega

end Joined

section Split

variable [DecidableEq α] {separator : α} {parts : List (List α)}

theorem joined_splitOn (value : List α) :
    joined separator (value.splitOn separator) = separator :: value := by
  induction value with
  | nil => rfl
  | cons item value ih =>
    rw [List.splitOn_cons_eq_if_modifyHead]
    split
    next h =>
      obtain rfl := eq_of_beq h
      rw [joined_cons, ih]
      rfl
    next =>
      obtain ⟨first, rest, hsplit⟩ :=
        List.exists_cons_of_ne_nil (List.splitOn_ne_nil separator value)
      rw [hsplit] at ih ⊢
      simp only [List.modifyHead_cons, joined_cons, List.cons_append, List.cons.injEq,
        true_and] at ih ⊢
      exact ih

theorem notMem_of_mem_splitOn {value part : List α} (h : part ∈ value.splitOn separator) :
    separator ∉ part := by
  induction value generalizing part with
  | nil =>
    obtain rfl : part = [] := by simpa using h
    simp
  | cons item value ih =>
    rw [List.splitOn_cons_eq_if_modifyHead] at h
    split at h
    next =>
      rcases List.mem_cons.mp h with rfl | h
      · simp
      · exact ih h
    next hne =>
      obtain ⟨first, rest, hsplit⟩ :=
        List.exists_cons_of_ne_nil (List.splitOn_ne_nil separator value)
      rw [hsplit] at ih h
      rw [List.modifyHead_cons] at h
      rcases List.mem_cons.mp h with rfl | h
      · have hfirst : separator ∉ first := ih List.mem_cons_self
        simp only [List.mem_cons, not_or]
        exact ⟨fun heq => hne (by simp [heq]), hfirst⟩
      · exact ih (List.mem_cons_of_mem _ h)

/-- Parts without separators are what the joined list is split into. -/
theorem splitOn_joined (hne : parts ≠ []) (h : ∀ part ∈ parts, separator ∉ part) :
    (joined separator parts).tail.splitOn separator = parts := by
  induction parts with
  | nil => exact absurd rfl hne
  | cons part parts ih =>
    have hpart : separator ∉ part := h part List.mem_cons_self
    rw [joined_cons, List.cons_append, List.tail_cons]
    cases parts with
    | nil =>
      rw [joined_nil, List.append_nil]
      exact List.splitOn_eq_singleton hpart
    | cons second parts =>
      have hrest := ih (by simp) (fun part hmem => h part (List.mem_cons_of_mem _ hmem))
      rw [joined_cons, List.cons_append, List.splitOn_append_cons_self,
        List.splitOn_eq_singleton hpart]
      rw [joined_cons, List.cons_append, List.tail_cons] at hrest
      rw [hrest]
      rfl

end Split

end Sark
