import Sark.Http.H1.Value
import Sark.Library.Swar

/-!
# Plain runs of JSON text

`json/src/bytes` scans text eight bytes at a time: `isPlain` decides from one machine word whether
eight bytes contain an escape candidate. `isPlain_word` says that the verdict is exact, and
`takePlain_eq` that a word-wise scan followed by a byte-wise one stops at the first byte that is
not plain.
-/

namespace Sark.Json

/-- The failures of the JSON scanners. -/
inductive Error
  | invalid
  | depth
  | token
  deriving DecidableEq, Repr

/-- `input::is_whitespace`. -/
def isWhitespace (byte : UInt8) : Bool :=
  byte == 0x20 || byte == 0x09 || byte == 0x0a || byte == 0x0d

/-- A byte that text may hold unescaped; with `ascii`, a byte below `0x80` as well. -/
def isPlainByte (ascii : Bool) (byte : UInt8) : Bool :=
  0x20 ≤ byte && byte != 0x22 && byte != 0x5c && (!ascii || byte < 0x80)

/-- `bytes::is_plain`: admits words without escapes, optionally requiring ASCII bytes. -/
def isPlain (ascii : Bool) (word : UInt64) : Bool :=
  let high : UInt64 := 0x8080808080808080
  let ones : UInt64 := 0x0101010101010101
  let quote := word ^^^ 0x2222222222222222
  let slash := word ^^^ 0x5c5c5c5c5c5c5c5c
  let control := (word - 0x2020202020202020) &&& ~~~word
  let quote := (quote - ones) &&& ~~~quote
  let slash := (slash - ones) &&& ~~~slash
  (control ||| quote ||| slash ||| (if ascii then word else 0)) &&& high == 0

/-- `u64::from_ne_bytes` on a little-endian machine. The lane tests do not depend on the order. -/
def word (bytes : Bytes) : UInt64 :=
  UInt64.ofNat (Swar.ofBytes bytes)

/-- The length of the leading run of complete plain words,
`chunk.as_chunks::<8>().0.iter().position(..) * 8`. -/
def plainWords (ascii : Bool) : Bytes → ℕ
  | b₀ :: b₁ :: b₂ :: b₃ :: b₄ :: b₅ :: b₆ :: b₇ :: rest =>
    if isPlain ascii (word [b₀, b₁, b₂, b₃, b₄, b₅, b₆, b₇]) then 8 + plainWords ascii rest else 0
  | _ => 0

/-- A word-wise scan for plain bytes, finished byte by byte. -/
def takePlain (ascii : Bool) (chunk : Bytes) : Bytes :=
  let start := plainWords ascii chunk
  chunk.take start ++ (chunk.drop start).takeWhile (isPlainByte ascii)

/-! ## Exactness of the word test -/

theorem isPlainByte_iff {ascii : Bool} {byte : UInt8} :
    isPlainByte ascii byte = true ↔
      0x20 ≤ byte.toNat ∧ byte ≠ 0x22 ∧ byte ≠ 0x5c ∧ (ascii = true → byte.toNat < 0x80) := by
  cases ascii <;> simp [isPlainByte, UInt8.le_iff_toNat_le, UInt8.lt_iff_toNat_lt, and_assoc]

theorem sub_and_not_toNat {n : ℕ} (hn : n ≤ 128) {bytes : Bytes} (hlength : bytes.length = 8)
    (lanes : UInt64) (hlanes : lanes.toNat = Swar.splat n 8) :
    ((word bytes - lanes) &&& ~~~word bytes).toNat &&& 0x8080808080808080 = 0 ↔
      ∀ byte ∈ bytes, n ≤ byte.toNat := by
  have hlt := Swar.ofBytes_lt bytes
  have hsub := Swar.sub_splat_eq_zero_iff hn bytes
  have hhigh : Swar.splat 128 8 = 0x8080808080808080 := by rfl
  rw [hlength] at hlt hsub
  rw [← hsub, UInt64.toNat_and, UInt64.toNat_sub, UInt64.toNat_not, hlanes, hhigh]
  have hword : (word bytes).toNat = Swar.ofBytes bytes := by
    simp only [word, UInt64.toNat_ofNat']
    exact Nat.mod_eq_of_lt hlt
  rw [hword]
  norm_num [UInt64.size]

theorem word_xor (bytes : Bytes) (byte : UInt8) (hlength : bytes.length = 8) (lanes : UInt64)
    (hlanes : lanes.toNat = Swar.splat byte.toNat 8) :
    word bytes ^^^ lanes = word (bytes.map (· ^^^ byte)) := by
  have hlt : Swar.ofBytes bytes < 2 ^ 64 := by
    simpa [hlength] using Swar.ofBytes_lt bytes
  have hlt' : Swar.ofBytes (bytes.map (· ^^^ byte)) < 2 ^ 64 := by
    simpa [hlength] using Swar.ofBytes_lt (bytes.map (· ^^^ byte))
  rw [← UInt64.toNat_inj, UInt64.toNat_xor, hlanes, word, word, UInt64.toNat_ofNat',
    UInt64.toNat_ofNat', Nat.mod_eq_of_lt hlt, Nat.mod_eq_of_lt hlt', ← hlength,
    Swar.ofBytes_xor_splat]

theorem one_le_xor_iff {byte other : UInt8} : 1 ≤ (byte ^^^ other).toNat ↔ byte ≠ other := by
  rw [Nat.one_le_iff_ne_zero, ne_eq, ← UInt8.toNat_zero, UInt8.toNat_inj, UInt8.xor_eq_zero_iff]

theorem word_and_high {bytes : Bytes} (hlength : bytes.length = 8) :
    (word bytes).toNat &&& 0x8080808080808080 = 0 ↔ ∀ byte ∈ bytes, byte.toNat < 0x80 := by
  have hlt : Swar.ofBytes bytes < 2 ^ 64 := by
    simpa [hlength] using Swar.ofBytes_lt bytes
  have hhigh := Swar.ofBytes_and_high_eq_zero_iff bytes
  rwa [hlength, show Swar.splat 128 8 = 0x8080808080808080 by rfl, ← Nat.mod_eq_of_lt hlt,
    ← UInt64.toNat_ofNat'] at hhigh

/-- The word test is exact. -/
theorem isPlain_word {ascii : Bool} {bytes : Bytes} (hlength : bytes.length = 8) :
    isPlain ascii (word bytes) = true ↔ ∀ byte ∈ bytes, isPlainByte ascii byte = true := by
  have hcontrol := sub_and_not_toNat (n := 0x20) (by norm_num) hlength 0x2020202020202020 (by rfl)
  have hquote := sub_and_not_toNat (n := 1) (by norm_num)
    (show (bytes.map (· ^^^ 0x22)).length = 8 by simpa using hlength) 0x0101010101010101 (by rfl)
  have hslash := sub_and_not_toNat (n := 1) (by norm_num)
    (show (bytes.map (· ^^^ 0x5c)).length = 8 by simpa using hlength) 0x0101010101010101 (by rfl)
  rw [List.forall_mem_map] at hquote hslash
  simp only [one_le_xor_iff] at hquote hslash
  simp only [isPlain, word_xor bytes 0x22 hlength 0x2222222222222222 (by rfl),
    word_xor bytes 0x5c hlength 0x5c5c5c5c5c5c5c5c (by rfl), beq_iff_eq,
    ← UInt64.toNat_inj, UInt64.toNat_and _ 0x8080808080808080, UInt64.toNat_or,
    UInt64.reduceToNat, Nat.and_or_distrib_right, Nat.or_eq_zero_iff, hcontrol, hquote, hslash]
  cases ascii with
  | false => simp [isPlainByte_iff, forall_and, and_assoc]
  | true => simp [isPlainByte_iff, forall_and, and_assoc, word_and_high hlength]

theorem plain_of_mem_take_plainWords {ascii : Bool} {chunk : Bytes} :
    ∀ byte ∈ chunk.take (plainWords ascii chunk), isPlainByte ascii byte = true := by
  fun_induction plainWords ascii chunk with
  | case1 b₀ b₁ b₂ b₃ b₄ b₅ b₆ b₇ rest hplain ih =>
    have hword := (isPlain_word rfl).mp hplain
    intro byte hbyte
    rw [show 8 + plainWords ascii rest = plainWords ascii rest + 8 by omega] at hbyte
    simp only [List.take_succ_cons, List.mem_cons] at hbyte
    by_cases hmem : byte ∈ rest.take (plainWords ascii rest)
    · exact ih byte hmem
    · exact hword byte (by simp only [List.mem_cons]; tauto)
  | case2 => simp
  | case3 => simp

/-- The scan stops at the first byte that is not plain. -/
theorem takePlain_eq (ascii : Bool) (chunk : Bytes) :
    takePlain ascii chunk = chunk.takeWhile (isPlainByte ascii) := by
  unfold takePlain
  conv_rhs => rw [← List.take_append_drop (plainWords ascii chunk) chunk]
  rw [List.takeWhile_append_of_pos plain_of_mem_take_plainWords]

end Sark.Json
