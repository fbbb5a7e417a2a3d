import Mathlib.Data.List.Basic
import Mathlib.Tactic.Linarith

/-!
# Writing over a part of a list

A buffer of fixed length is written to at a place. Writes side by side are one write, and what is
read beside a write is what stood there.

* `splice_splice_right`, `splice_splice_left`: two writes that touch.
* `window_splice_of_le`, `window_splice_of_ge`: reading in front of a write and behind it.
-/

namespace Sark

variable {α : Type*}

/-- The buffer with `text` written over it from `start` on. -/
def splice (start : ℕ) (text buffer : List α) : List α :=
  buffer.take start ++ text ++ buffer.drop (start + text.length)

/-- The `n` elements of the buffer from `start` on. -/
def window (start n : ℕ) (buffer : List α) : List α :=
  (buffer.drop start).take n

section Splice

variable {start n : ℕ} {text more buffer : List α}

@[simp]
theorem splice_nil : splice start [] buffer = buffer := by
  simp [splice]

@[simp]
theorem length_splice (h : start + text.length ≤ buffer.length) :
    (splice start text buffer).length = buffer.length := by
  simp only [splice, List.length_append, List.length_take, List.length_drop]
  omega

theorem splice_of_length_eq (h : text.length = buffer.length) : splice 0 text buffer = text := by
  rw [splice, Nat.zero_add, h, List.drop_length, List.take_zero, List.nil_append, List.append_nil]

theorem getElem?_splice (h : start + text.length ≤ buffer.length) (i : ℕ) :
    (splice start text buffer)[i]? =
      if i < start then buffer[i]?
      else if i < start + text.length then text[i - start]? else buffer[i]? := by
  have htake : (buffer.take start).length = start := by
    rw [List.length_take]
    omega
  rw [splice, List.append_assoc, List.getElem?_append, htake]
  split
  next hi => rw [List.getElem?_take_of_lt hi]
  next hi =>
    rw [List.getElem?_append]
    split
    next hin => rw [if_pos (by omega)]
    next hin =>
      rw [if_neg (by omega), List.getElem?_drop]
      congr 1
      omega

/-- A write that goes on where another ended. -/
theorem splice_splice_right (h : start + text.length + more.length ≤ buffer.length) :
    splice (start + text.length) more (splice start text buffer) =
      splice start (text ++ more) buffer := by
  refine List.ext_getElem? fun i => ?_
  rw [getElem?_splice (by rw [length_splice (by omega)]; omega), getElem?_splice (by omega),
    getElem?_splice (by rw [List.length_append]; omega), List.length_append, List.getElem?_append]
  split_ifs <;> first | rfl | omega | (congr 1; omega)

/-- A write that ends where another began. -/
theorem splice_splice_left (h : start + more.length + text.length ≤ buffer.length) :
    splice start more (splice (start + more.length) text buffer) =
      splice start (more ++ text) buffer := by
  refine List.ext_getElem? fun i => ?_
  rw [getElem?_splice (by rw [length_splice (by omega)]; omega), getElem?_splice (by omega),
    getElem?_splice (by rw [List.length_append]; omega), List.length_append, List.getElem?_append]
  split_ifs <;> first | rfl | omega | (congr 1; omega)

theorem length_window (h : start + n ≤ buffer.length) : (window start n buffer).length = n := by
  rw [window, List.length_take, List.length_drop]
  omega

theorem getElem?_window (i : ℕ) :
    (window start n buffer)[i]? = if i < n then buffer[start + i]? else none := by
  rw [window, List.getElem?_take]
  simp only [List.getElem?_drop]

/-- What is read in front of a write. -/
theorem window_splice_of_le {place : ℕ} (h : start + text.length ≤ buffer.length)
    (hle : place + n ≤ start) :
    window place n (splice start text buffer) = window place n buffer := by
  refine List.ext_getElem? fun i => ?_
  simp only [getElem?_window, getElem?_splice h]
  split_ifs <;> first | rfl | omega

/-- What is read behind a write. -/
theorem window_splice_of_ge {place : ℕ} (h : start + text.length ≤ buffer.length)
    (hge : start + text.length ≤ place) :
    window place n (splice start text buffer) = window place n buffer := by
  refine List.ext_getElem? fun i => ?_
  simp only [getElem?_window, getElem?_splice h]
  split_ifs <;> first | rfl | omega

theorem window_splice (h : start + text.length ≤ buffer.length) :
    window start text.length (splice start text buffer) = text := by
  refine List.ext_getElem? fun i => ?_
  simp only [getElem?_window, getElem?_splice h]
  split_ifs with hi hlt hin
  · omega
  · rw [Nat.add_sub_cancel_left]
  · omega
  · exact (List.getElem?_eq_none (by omega)).symm

theorem window_window {inner m : ℕ} (h : inner + m ≤ n) :
    window inner m (window start n buffer) = window (start + inner) m buffer := by
  refine List.ext_getElem? fun i => ?_
  simp only [getElem?_window]
  split_ifs <;> first | rfl | omega | rw [Nat.add_assoc]

end Splice

end Sark
