import Mathlib.Data.Nat.Log
import Mathlib.Tactic

/-!
# Decimal numbers

The number that a run of ASCII digits denotes, read from the left behind a number that is already
there.

* `Decimal.extend_eq`: digits move the number to the left of them.
* `Decimal.log_extend`: a number without leading zeros has as many digits as its logarithm says.
-/

namespace Sark.Decimal

/-- The value of an ASCII digit. -/
def digit (byte : UInt8) : ℕ :=
  byte.toNat - 0x30

/-- A number followed by digits. -/
def extend (value : ℕ) (digits : List UInt8) : ℕ :=
  digits.foldl (fun value byte => value * 10 + digit byte) value

variable {value : ℕ} {byte : UInt8} {digits : List UInt8}

@[simp]
theorem extend_nil (value : ℕ) : extend value [] = value :=
  rfl

@[simp]
theorem extend_cons (value : ℕ) (byte : UInt8) (digits : List UInt8) :
    extend value (byte :: digits) = extend (value * 10 + digit byte) digits := by
  rw [extend, extend, List.foldl_cons]

theorem extend_append (value : ℕ) (left right : List UInt8) :
    extend value (left ++ right) = extend (extend value left) right :=
  List.foldl_append

theorem le_extend (value : ℕ) (digits : List UInt8) : value ≤ extend value digits := by
  induction digits generalizing value with
  | nil => exact le_rfl
  | cons byte digits ih =>
    rw [extend_cons]
    have := ih (value * 10 + digit byte)
    omega

theorem extend_eq (value : ℕ) (digits : List UInt8) :
    extend value digits = value * 10 ^ digits.length + extend 0 digits := by
  induction digits generalizing value with
  | nil => simp
  | cons byte digits ih =>
    rw [extend_cons, extend_cons, ih, ih (0 * 10 + digit byte), List.length_cons, pow_succ]
    ring

theorem extend_lt (hdigits : ∀ byte ∈ digits, digit byte < 10) :
    extend 0 digits < 10 ^ digits.length := by
  induction digits with
  | nil => simp
  | cons byte digits ih =>
    rw [List.forall_mem_cons] at hdigits
    have hrest := ih hdigits.2
    rw [extend_cons, extend_eq, List.length_cons, pow_succ, zero_mul, zero_add]
    have hfirst := Nat.mul_le_mul_right (10 ^ digits.length) (Nat.le_of_lt_succ hdigits.1)
    omega

theorem log_extend (hbyte : digit byte ≠ 0) (hdigits : ∀ other ∈ byte :: digits, digit other < 10) :
    Nat.log 10 (extend 0 (byte :: digits)) = digits.length := by
  have hlow : 10 ^ digits.length ≤ extend 0 (byte :: digits) := by
    rw [extend_cons, extend_eq, zero_mul, zero_add]
    exact (Nat.le_mul_of_pos_left _ (Nat.pos_of_ne_zero hbyte)).trans (Nat.le_add_right _ _)
  exact Nat.log_eq_of_pow_le_of_lt_pow hlow (extend_lt hdigits)

theorem extend_ne_zero (hbyte : digit byte ≠ 0) : extend 0 (byte :: digits) ≠ 0 := by
  have hle := le_extend (0 * 10 + digit byte) digits
  rw [extend_cons]
  omega

end Sark.Decimal
