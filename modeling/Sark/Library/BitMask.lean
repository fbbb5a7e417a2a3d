import Mathlib.Data.Nat.Bitwise
import Sark.Library.Swar

/-!
# Masks with one bit for each element

A list of truth values as the bits of a number, the first one lowest. Masks side by side are one
mask, and the trailing zeros of a mask lead to the first element that is marked.

* `ofBits_append`: masks side by side.
* `findIdx?_ofBits`: the first bit that is set.
-/

namespace BitMask

open Swar (trailingZeros trailingZeros_pow_mul_odd)

/-- The number with these bits, the lowest one first. -/
def ofBits : List Bool → ℕ
  | [] => 0
  | bit :: bits => bit.toNat + 2 * ofBits bits

variable {bits more : List Bool}

theorem ofBits_lt (bits : List Bool) : ofBits bits < 2 ^ bits.length := by
  induction bits with
  | nil => simp [ofBits]
  | cons bit bits ih =>
    have hbit := Bool.toNat_le bit
    rw [ofBits, List.length_cons, pow_succ]
    omega

theorem ofBits_append_eq_add (bits more : List Bool) :
    ofBits (bits ++ more) = ofBits bits + 2 ^ bits.length * ofBits more := by
  induction bits with
  | nil => simp [ofBits]
  | cons bit bits ih =>
    rw [List.cons_append, ofBits, ofBits, ih, List.length_cons, pow_succ]
    ring

/-- Masks side by side are one mask. -/
theorem ofBits_append (bits more : List Bool) :
    ofBits (bits ++ more) = ofBits bits ||| ofBits more <<< bits.length := by
  rw [ofBits_append_eq_add, Nat.shiftLeft_eq, Nat.lor_comm, mul_comm (ofBits more),
    ← Nat.two_pow_add_eq_or_of_lt (ofBits_lt bits), Nat.add_comm]

theorem ofBits_eq_zero_iff : ofBits bits = 0 ↔ ∀ bit ∈ bits, bit = false := by
  induction bits with
  | nil => simp [ofBits]
  | cons bit bits ih =>
    rw [ofBits, Nat.add_eq_zero_iff, List.forall_mem_cons, ← ih]
    cases bit <;> simp

/-- A mask that is not zero has a first bit: the bits behind it make an odd number with it. -/
theorem exists_first (h : ofBits bits ≠ 0) : ∃ i m, bits.findIdx? id = some i ∧
    ofBits bits = 2 ^ i * (2 * m + 1) := by
  induction bits with
  | nil => exact absurd rfl h
  | cons bit bits ih =>
    rw [ofBits] at h ⊢
    rw [List.findIdx?_cons]
    rcases bit with _ | _
    · simp only [Bool.toNat_false, Nat.zero_add] at h ⊢
      obtain ⟨i, m, hfind, heq⟩ := ih (by omega)
      refine ⟨i + 1, m, by rw [hfind]; rfl, ?_⟩
      rw [heq]
      ring
    · refine ⟨0, ofBits bits, rfl, ?_⟩
      simp only [Bool.toNat_true]
      ring

/-- The trailing zeros of a mask lead to the first bit that is set. -/
theorem findIdx?_ofBits (h : ofBits bits ≠ 0) :
    bits.findIdx? id = some (trailingZeros (ofBits bits)) := by
  obtain ⟨i, m, hfind, heq⟩ := exists_first h
  rw [hfind, heq, trailingZeros_pow_mul_odd]

end BitMask
