import Mathlib.Data.List.Basic
import Mathlib.Tactic.Linarith

/-!
# Chunks of a list

A list cut into chunks of one length, as far as they go, and what is left at its end.

* `asChunks_append`: the chunks and what is left make up the list.
* `length_of_mem_asChunks`: every chunk has the length.
-/

namespace Chunks

variable {α : Type*} {n : ℕ} {items : List α}

/-- The chunks of one length, and what is left. -/
def asChunks (n : ℕ) (items : List α) : List (List α) × List α :=
  ((List.range (items.length / n)).map fun i => (items.drop (i * n)).take n,
    items.drop (items.length / n * n))

theorem flatMap_range_chunks (n k : ℕ) (items : List α) (h : k * n ≤ items.length) :
    (List.range k).flatMap (fun i => (items.drop (i * n)).take n) = items.take (k * n) := by
  induction k with
  | zero => simp
  | succ k ih =>
    rw [Nat.succ_mul] at h
    rw [List.range_succ, List.flatMap_append, ih (by omega), List.flatMap_singleton, Nat.succ_mul,
      List.take_add]

/-- The chunks and what is left make up the items. -/
theorem asChunks_append (n : ℕ) (items : List α) :
    (asChunks n items).1.flatten ++ (asChunks n items).2 = items := by
  rw [asChunks]
  simp only
  rw [← List.flatMap_def, flatMap_range_chunks _ _ _ (Nat.div_mul_le_self _ _),
    List.take_append_drop]

theorem length_of_mem_asChunks {chunk : List α} (h : chunk ∈ (asChunks n items).1) :
    chunk.length = n := by
  rw [asChunks, List.mem_map] at h
  obtain ⟨i, hi, rfl⟩ := h
  rw [List.mem_range] at hi
  have hle := Nat.div_mul_le_self items.length n
  have hmul : (i + 1) * n ≤ items.length / n * n := Nat.mul_le_mul_right n hi
  rw [Nat.succ_mul] at hmul
  rw [List.length_take, List.length_drop]
  omega

theorem mem_of_mem_asChunks {chunk : List α} {item : α} (h : chunk ∈ (asChunks n items).1)
    (hitem : item ∈ chunk) : item ∈ items := by
  rw [← asChunks_append n items]
  exact List.mem_append_left _ (List.mem_flatten.mpr ⟨chunk, h, hitem⟩)

theorem mem_of_mem_rest {item : α} (h : item ∈ (asChunks n items).2) : item ∈ items :=
  List.mem_of_mem_drop h

end Chunks
