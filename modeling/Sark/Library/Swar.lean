import Mathlib.Data.Nat.Bitwise
import Mathlib.Data.UInt
import Mathlib.Tactic

/-!
# Byte lanes of machine words

A machine word as a little-endian list of byte lanes, and the word-parallel lane tests built from
one wrapping subtraction: `(w - n·0x01…01) & !w & 0x80…80` is zero exactly when every lane is at
least `n`, for `n ≤ 128`. A borrow out of a lane can only disturb lanes above one that already
failed the test, so the verdict over the whole word is exact although single lanes may be marked
wrongly.

Everything is stated over natural numbers below `256 ^ k`, for any number `k` of lanes.
-/

namespace Swar

/-- The word whose lanes are `bytes`, least significant first. -/
def ofBytes : List UInt8 → ℕ
  | [] => 0
  | byte :: bytes => byte.toNat + 256 * ofBytes bytes

/-- The word of `k` lanes that all hold `n`. -/
def splat (n k : ℕ) : ℕ :=
  match k with
  | 0 => 0
  | k + 1 => n + 256 * splat n k

@[simp]
theorem ofBytes_nil : ofBytes [] = 0 :=
  rfl

@[simp]
theorem ofBytes_cons (byte : UInt8) (bytes : List UInt8) :
    ofBytes (byte :: bytes) = byte.toNat + 256 * ofBytes bytes :=
  rfl

theorem ofBytes_lt (bytes : List UInt8) : ofBytes bytes < 256 ^ bytes.length := by
  induction bytes with
  | nil => simp
  | cons byte bytes ih =>
    have hbyte := byte.toNat_lt
    rw [ofBytes_cons, List.length_cons, pow_succ]
    omega

theorem splat_lt {n : ℕ} (h : n < 256) (k : ℕ) : splat n k < 256 ^ k := by
  induction k with
  | zero => simp [splat]
  | succ k ih =>
    rw [splat, pow_succ]
    omega

/-! ## Lane-wise operations -/

theorem testBit_lane {a : ℕ} (ha : a < 256) (x i : ℕ) :
    (a + 256 * x).testBit i = if i < 8 then a.testBit i else x.testBit (i - 8) := by
  have h := Nat.testBit_two_pow_mul_add x (i := 8) (b := a) (by omega) i
  rwa [show 2 ^ 8 * x + a = a + 256 * x by omega] at h

theorem and_lane {a b : ℕ} (ha : a < 256) (hb : b < 256) (x y : ℕ) :
    (a + 256 * x) &&& (b + 256 * y) = (a &&& b) + 256 * (x &&& y) := by
  have hab : a &&& b < 256 := lt_of_le_of_lt Nat.and_le_left ha
  refine Nat.eq_of_testBit_eq fun i => ?_
  rw [Nat.testBit_and, testBit_lane ha, testBit_lane hb, testBit_lane hab]
  split <;> simp

theorem xor_lane {a b : ℕ} (ha : a < 256) (hb : b < 256) (x y : ℕ) :
    (a + 256 * x) ^^^ (b + 256 * y) = (a ^^^ b) + 256 * (x ^^^ y) := by
  have hab : a ^^^ b < 256 := Nat.xor_lt_two_pow (n := 8) ha hb
  refine Nat.eq_of_testBit_eq fun i => ?_
  rw [Nat.testBit_xor, testBit_lane ha, testBit_lane hb, testBit_lane hab]
  split <;> simp

theorem ofBytes_xor_splat (bytes : List UInt8) (byte : UInt8) :
    ofBytes bytes ^^^ splat byte.toNat bytes.length = ofBytes (bytes.map (· ^^^ byte)) := by
  induction bytes with
  | nil => simp [splat]
  | cons first bytes ih =>
    rw [ofBytes_cons, List.length_cons, splat, xor_lane first.toNat_lt byte.toNat_lt, ih]
    simp

/-! ## The lane tests -/

theorem and_high_eq_zero_iff {a : ℕ} (ha : a < 256) : a &&& 128 = 0 ↔ a < 128 := by
  rw [show (128 : ℕ) = 2 ^ 7 by rfl, Nat.and_two_pow, Nat.testBit_eq_decide_div_mod_eq]
  simp only [Nat.reducePow, mul_eq_zero, Bool.toNat_eq_zero, decide_eq_false_iff_not]
  omega

theorem ofBytes_and_high_eq_zero_iff (bytes : List UInt8) :
    ofBytes bytes &&& splat 128 bytes.length = 0 ↔ ∀ byte ∈ bytes, byte.toNat < 128 := by
  induction bytes with
  | nil => simp
  | cons byte bytes ih =>
    rw [ofBytes_cons, List.length_cons, splat, and_lane byte.toNat_lt (by norm_num),
      Nat.add_eq_zero_iff, and_high_eq_zero_iff byte.toNat_lt, mul_eq_zero, List.forall_mem_cons, ih]
    simp

theorem and_and_high_eq_zero_iff {a b : ℕ} (ha : a < 256) (hb : b < 256) :
    a &&& b &&& 128 = 0 ↔ a < 128 ∨ b < 128 := by
  have hab : a &&& b &&& 128 = (a &&& 128) &&& (b &&& 128) := by
    refine Nat.eq_of_testBit_eq fun i => ?_
    simp only [Nat.testBit_and]
    cases a.testBit i <;> cases b.testBit i <;> simp
  rw [hab, ← and_high_eq_zero_iff ha, ← and_high_eq_zero_iff hb,
    show (128 : ℕ) = 2 ^ 7 by rfl, Nat.and_two_pow, Nat.and_two_pow]
  cases a.testBit 7 <;> cases b.testBit 7 <;> simp

/-- The subtraction test: no lane is marked exactly when every lane is at least `n`. -/
theorem sub_splat_eq_zero_iff {n : ℕ} (hn : n ≤ 128) (bytes : List UInt8) :
    (256 ^ bytes.length - splat n bytes.length + ofBytes bytes) % 256 ^ bytes.length &&&
        (256 ^ bytes.length - 1 - ofBytes bytes) &&& splat 128 bytes.length = 0 ↔
      ∀ byte ∈ bytes, n ≤ byte.toNat := by
  induction bytes with
  | nil => simp [splat]
  | cons byte bytes ih =>
    have hbyte := byte.toNat_lt
    have hword := ofBytes_lt bytes
    have hsplat := splat_lt (n := n) (by omega) bytes.length
    have hmod : ∀ a x P, a < 256 → (a + 256 * x) % (256 * P) = a + 256 * (x % P) := by
      intro a x P ha
      rw [Nat.mod_mul, show (a + 256 * x) % 256 = a by omega, show (a + 256 * x) / 256 = x by omega]
    rw [List.forall_mem_cons, ← ih, ofBytes_cons, List.length_cons, splat, splat, pow_succ]
    generalize 256 ^ bytes.length = P at *
    generalize ofBytes bytes = W at *
    generalize splat n bytes.length = S at *
    rw [mul_comm P 256, show 256 * P - 1 - (byte.toNat + 256 * W) =
      (255 - byte.toNat) + 256 * (P - 1 - W) by omega]
    by_cases hle : n ≤ byte.toNat
    · -- no borrow leaves this lane
      rw [show 256 * P - (n + 256 * S) + (byte.toNat + 256 * W) =
          (byte.toNat - n) + 256 * (P - S + W) by omega, hmod _ _ _ (by omega),
        and_lane (by omega) (by omega),
        and_lane (lt_of_le_of_lt Nat.and_le_left (by omega)) (by omega), Nat.add_eq_zero_iff,
        and_and_high_eq_zero_iff (by omega) (by omega), mul_eq_zero]
      have : byte.toNat - n < 128 ∨ 255 - byte.toNat < 128 := by omega
      simp [this, hle]
    · -- the lane is marked, whatever the borrow does above it
      rw [show 256 * P - (n + 256 * S) + (byte.toNat + 256 * W) =
          (256 + byte.toNat - n) + 256 * (P - S - 1 + W) by omega, hmod _ _ _ (by omega),
        and_lane (by omega) (by omega),
        and_lane (lt_of_le_of_lt Nat.and_le_left (by omega)) (by omega), Nat.add_eq_zero_iff,
        and_and_high_eq_zero_iff (by omega) (by omega)]
      have : ¬(256 + byte.toNat - n < 128 ∨ 255 - byte.toNat < 128) := by omega
      simp [this, hle]

/-! ## The first marked lane -/

/-- How many of the lowest bits of a nonzero number are zero. -/
def trailingZeros (n : ℕ) : ℕ :=
  if n = 0 then 0 else if n % 2 = 1 then 0 else trailingZeros (n / 2) + 1

theorem trailingZeros_pow_mul_odd (k m : ℕ) : trailingZeros (2 ^ k * (2 * m + 1)) = k := by
  induction k with
  | zero =>
    rw [trailingZeros, if_neg (by omega), if_pos (by omega)]
  | succ k ih =>
    have hpos : 0 < 2 ^ k * (2 * m + 1) := by positivity
    have hdouble : 2 ^ (k + 1) * (2 * m + 1) = 2 * (2 ^ k * (2 * m + 1)) := by ring
    rw [hdouble, trailingZeros, if_neg (by omega), if_neg (by omega), Nat.mul_div_cancel_left _
      (by norm_num), ih]

/-- The lanes of a bitmap: all ones where a byte is marked. -/
def marks (marked : UInt8 → Bool) (bytes : List UInt8) : ℕ :=
  ofBytes (bytes.map fun byte => if marked byte then 255 else 0)

theorem marks_eq_zero_iff (marked : UInt8 → Bool) (bytes : List UInt8) :
    marks marked bytes = 0 ↔ ∀ byte ∈ bytes, marked byte = false := by
  unfold marks
  induction bytes with
  | nil => simp
  | cons byte bytes ih =>
    rw [List.map_cons, ofBytes_cons, Nat.add_eq_zero_iff, List.forall_mem_cons, ← ih]
    cases marked byte <;> simp

theorem trailingZeros_marks {marked : UInt8 → Bool} {bytes : List UInt8}
    (h : marks marked bytes ≠ 0) :
    bytes.findIdx? marked = some (trailingZeros (marks marked bytes) / 8) := by
  have hfound (bytes : List UInt8) (hne : marks marked bytes ≠ 0) :
      ∃ index m, bytes.findIdx? marked = some index ∧
        marks marked bytes = 2 ^ (8 * index) * (2 * m + 1) := by
    unfold marks at hne ⊢
    induction bytes with
    | nil => exact absurd rfl hne
    | cons byte bytes ih =>
      rw [List.map_cons, ofBytes_cons] at hne ⊢
      rw [List.findIdx?_cons]
      cases hmarked : marked byte with
      | true =>
        refine ⟨0, 127 + 128 * ofBytes (bytes.map fun byte => if marked byte then 255 else 0), by simp,
          ?_⟩
        simp only [if_pos, UInt8.reduceToNat]
        ring
      | false =>
        simp only [hmarked, Bool.false_eq_true, if_false, UInt8.toNat_zero, Nat.zero_add] at hne ⊢
        obtain ⟨index, m, hindex, hmarks⟩ := ih (by omega)
        refine ⟨index + 1, m, by rw [hindex]; rfl, ?_⟩
        rw [hmarks]
        ring
  obtain ⟨index, m, hindex, hmarks⟩ := hfound bytes h
  rw [hindex, hmarks, trailingZeros_pow_mul_odd, Nat.mul_div_cancel_left _ (by norm_num)]

end Swar
