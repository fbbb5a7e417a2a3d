import Mathlib.Data.UInt
import Mathlib.Tactic

/-!
# Big-endian numbers

Numbers as byte strings of a given width, with the most significant byte first.

* `ofBytes_toBytes`, `toBytes_ofBytes`: the two directions.
-/

namespace BigEndian

/-- The number that a byte string stands for. -/
def ofBytes : List UInt8 → ℕ
  | [] => 0
  | byte :: bytes => byte.toNat * 256 ^ bytes.length + ofBytes bytes

/-- The last `width` bytes of a number. -/
def toBytes : ℕ → ℕ → List UInt8
  | 0, _ => []
  | width + 1, n => UInt8.ofNat (n / 256 ^ width) :: toBytes width n

@[simp]
theorem length_toBytes (width n : ℕ) : (toBytes width n).length = width := by
  induction width with
  | zero => rfl
  | succ width ih => rw [toBytes, List.length_cons, ih]

theorem ofBytes_lt (bytes : List UInt8) : ofBytes bytes < 256 ^ bytes.length := by
  induction bytes with
  | nil => exact Nat.one_pos
  | cons byte bytes ih =>
    have hbyte : byte.toNat + 1 ≤ 256 := byte.toNat_lt
    calc ofBytes (byte :: bytes)
        < byte.toNat * 256 ^ bytes.length + 256 ^ bytes.length := Nat.add_lt_add_left ih _
      _ = (byte.toNat + 1) * 256 ^ bytes.length := by ring
      _ ≤ 256 * 256 ^ bytes.length := Nat.mul_le_mul_right _ hbyte
      _ = 256 ^ (byte :: bytes).length := by rw [List.length_cons, pow_succ, Nat.mul_comm]

/-- Only the last bytes of a number are kept. -/
theorem ofBytes_toBytes (width n : ℕ) : ofBytes (toBytes width n) = n % 256 ^ width := by
  induction width with
  | zero => rw [pow_zero, Nat.mod_one]; rfl
  | succ width ih =>
    have hbyte : (UInt8.ofNat (n / 256 ^ width)).toNat = n / 256 ^ width % 256 :=
      UInt8.toNat_ofNat'
    rw [toBytes, ofBytes, length_toBytes, ih, hbyte, pow_succ, Nat.mod_mul]
    ring

theorem ofBytes_toBytes_of_lt {width n : ℕ} (h : n < 256 ^ width) :
    ofBytes (toBytes width n) = n := by
  rw [ofBytes_toBytes, Nat.mod_eq_of_lt h]

theorem toBytes_add_mul (width n m : ℕ) :
    toBytes width (n + m * 256 ^ width) = toBytes width n := by
  induction width generalizing m with
  | zero => rfl
  | succ width ih =>
    have hpow : 0 < 256 ^ width := by positivity
    have hsum : n + m * 256 ^ (width + 1) = n + m * 256 * 256 ^ width := by ring
    rw [toBytes, toBytes, hsum, ih, Nat.add_mul_div_right _ _ hpow]
    congr 1
    rw [← UInt8.toNat_inj, UInt8.toNat_ofNat', UInt8.toNat_ofNat']
    omega

theorem toBytes_ofBytes (bytes : List UInt8) : toBytes bytes.length (ofBytes bytes) = bytes := by
  induction bytes with
  | nil => rfl
  | cons byte bytes ih =>
    have hlt := ofBytes_lt bytes
    rw [List.length_cons, toBytes, ofBytes, Nat.add_comm, toBytes_add_mul, ih,
      Nat.add_mul_div_right _ _ (by positivity), Nat.div_eq_of_lt hlt, Nat.zero_add,
      UInt8.ofNat_toNat]

theorem drop_toBytes (skip width n : ℕ) :
    (toBytes (skip + width) n).drop skip = toBytes width n := by
  induction skip with
  | zero => rw [Nat.zero_add, List.drop_zero]
  | succ skip ih => rw [Nat.add_right_comm, toBytes, List.drop_succ_cons, ih]

end BigEndian
