import Sark.H3.Frame.Settings
import Sark.Library.BigEndian

/-!
# Integers of variable length

The integers that frames consist of, in the form that QUIC gives them: one, two, four or eight
bytes, the highest first, with the width in the two highest bits. They are what the library is
expected to read and write.

* `Integer.lawful`: the library's laws hold of them.
-/

namespace Sark.H3.Integer

open BigEndian (toBytes ofBytes)

/-- Why an integer is not read: there are fewer bytes than it takes. -/
structure Underflow where
  actual : ℕ
  required : ℕ
  deriving DecidableEq, Repr

/-- How many numbers have the width that a tag says. -/
def range (tag : ℕ) : ℕ :=
  64 * 256 ^ (2 ^ tag - 1)

theorem range_mul (tag : ℕ) : range tag * 4 = 256 ^ 2 ^ tag := by
  have hpos := Nat.two_pow_pos tag
  rw [range, show 2 ^ tag = 2 ^ tag - 1 + 1 by omega, pow_succ, Nat.add_sub_cancel]
  omega

/-- The smallest width that a number fits, as a tag. -/
def tagOf (n : ℕ) : ℕ :=
  if n < range 0 then 0 else if n < range 1 then 1 else if n < range 2 then 2 else 3

theorem tagOf_le (n : ℕ) : tagOf n ≤ 3 := by
  rw [tagOf]
  split_ifs <;> decide

theorem lt_range {n : ℕ} (h : n < 2 ^ 62) : n < range (tagOf n) := by
  rw [tagOf]
  split_ifs with hzero hone htwo
  · exact hzero
  · exact hone
  · exact htwo
  · exact h

/-- The bytes of an integer. -/
def encode (n : ℕ) : Bytes :=
  toBytes (2 ^ tagOf n) (n + tagOf n * range (tagOf n))

/-- The integer in front of some bytes, and its width. -/
def read (bytes : Bytes) : Except Underflow (Fin (2 ^ 62) × ℕ) :=
  match bytes.head? with
  | none => .error ⟨0, 1⟩
  | some first =>
    let width := varintWidth first
    if bytes.length < width then .error ⟨bytes.length, width⟩
    else .ok (Fin.ofNat (2 ^ 62) (ofBytes (bytes.take width) % (64 * 256 ^ (width - 1))), width)

instance : VarInt (Fin (2 ^ 62)) Underflow where
  get := Fin.val
  fromU8 := fun byte => Fin.ofNat (2 ^ 62) byte.toNat
  fromUsize := fun n => if h : n < 2 ^ 62 then some ⟨n, h⟩ else none
  encodedLen := fun n => 2 ^ tagOf n
  pack := fun n => encode n
  decode := read
  underflow := Underflow.mk

theorem width_encode {n : ℕ} (h : n < 2 ^ 62) :
    ∃ first, (encode n).head? = some first ∧ varintWidth first = 2 ^ tagOf n := by
  have hlt := lt_range h
  have htag := tagOf_le n
  have hwidth : 2 ^ tagOf n = 2 ^ tagOf n - 1 + 1 := by
    have hpos := Nat.two_pow_pos (tagOf n)
    omega
  have hpow : 0 < 256 ^ (2 ^ tagOf n - 1) := by positivity
  refine ⟨UInt8.ofNat ((n + tagOf n * range (tagOf n)) / 256 ^ (2 ^ tagOf n - 1)), ?_, ?_⟩
  · rw [encode, hwidth]
    rfl
  · have hhigh : (n + tagOf n * range (tagOf n)) / 256 ^ (2 ^ tagOf n - 1) =
        n / 256 ^ (2 ^ tagOf n - 1) + tagOf n * 64 := by
      rw [range, ← Nat.mul_assoc, Nat.add_mul_div_right _ _ hpow]
    have hless : n / 256 ^ (2 ^ tagOf n - 1) < 64 :=
      (Nat.div_lt_iff_lt_mul hpow).mpr hlt
    have hall : ∀ high < 64, ∀ tag ≤ 3,
        varintWidth (UInt8.ofNat (high + tag * 64)) = 2 ^ tag := by decide +kernel
    rw [hhigh]
    exact hall _ hless _ htag

theorem length_encode (n : ℕ) : (encode n).length = 2 ^ tagOf n :=
  BigEndian.length_toBytes _ _

theorem read_encode (n : Fin (2 ^ 62)) (rest : Bytes) :
    read (encode n ++ rest) = .ok (n, 2 ^ tagOf n) := by
  obtain ⟨first, hfirst, hwidth⟩ := width_encode n.isLt
  have hlt := lt_range n.isLt
  have hhead : (encode n ++ rest).head? = some first := by
    rw [List.head?_append, hfirst]
    rfl
  have htake : (encode n ++ rest).take (2 ^ tagOf n) = encode n :=
    List.take_left' (length_encode n)
  have hlong : ¬(encode n ++ rest).length < 2 ^ tagOf n := by
    rw [List.length_append, length_encode]
    omega
  have hvalue : ofBytes (encode n) = n + tagOf n * range (tagOf n) := by
    rw [encode, BigEndian.ofBytes_toBytes, ← range_mul]
    refine Nat.mod_eq_of_lt ?_
    have htag := Nat.mul_le_mul_right (range (tagOf n)) (tagOf_le n)
    omega
  rw [read, hhead]
  dsimp only
  rw [hwidth, if_neg hlong, htake, hvalue]
  have hmod : (n + tagOf n * range (tagOf n)) % (64 * 256 ^ (2 ^ tagOf n - 1)) = n := by
    show (n + tagOf n * range (tagOf n)) % range (tagOf n) = n
    rw [Nat.add_mul_mod_self_right, Nat.mod_eq_of_lt hlt]
  rw [hmod]
  congr 2
  exact Fin.ofNat_val_eq_self n

theorem read_of_le {first : UInt8} {rest : Bytes}
    (h : varintWidth first ≤ (first :: rest).length) :
    read (first :: rest) = .ok (Fin.ofNat (2 ^ 62)
      (ofBytes ((first :: rest).take (varintWidth first)) % (64 * 256 ^ (varintWidth first - 1))),
        varintWidth first) := by
  rw [read, List.head?_cons]
  exact if_neg (Nat.not_lt.mpr h)

theorem lawful : VarInt.Lawful (Fin (2 ^ 62)) Underflow where
  decode_nil := rfl
  decode_short first rest h := if_pos h
  decode_take first rest h := by
    have htake : (first :: rest).take (varintWidth first) =
        first :: rest.take (varintWidth first - 1) := by
      have hpos := varintWidth_pos first
      rw [show varintWidth first = varintWidth first - 1 + 1 by omega, List.take_succ_cons,
        Nat.add_sub_cancel]
    have hlength : varintWidth first ≤ (first :: rest.take (varintWidth first - 1)).length := by
      rw [← htake, List.length_take, Nat.min_eq_left h]
    show read _ = read _
    rw [htake, read_of_le h, read_of_le hlength, ← htake, List.take_take, Nat.min_self]
  decode_width first rest value n h := by
    by_cases hshort : (first :: rest).length < varintWidth first
    · have herror : read (first :: rest) = .error ⟨_, _⟩ := if_pos hshort
      exact absurd (herror.symm.trans h) (by simp)
    · have hok := read_of_le (Nat.not_lt.mp hshort)
      exact (Prod.mk.inj (Except.ok.inj (hok.symm.trans h))).2.symm
  decode_pack := read_encode
  length_pack value := length_encode value
  get_inj h := Fin.ext h
  get_lt value := value.isLt
  get_fromU8 byte := Nat.mod_eq_of_lt (byte.toNat_lt.trans (by norm_num))
  get_fromUsize := by
    intro n value h
    have hsome : (if h : n < 2 ^ 62 then some (⟨n, h⟩ : Fin (2 ^ 62)) else none) = some value := h
    split_ifs at hsome
    exact congrArg Fin.val (Option.some.inj hsome).symm

end Sark.H3.Integer
