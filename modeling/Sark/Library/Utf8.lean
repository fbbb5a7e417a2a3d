import Mathlib.Data.UInt
import Mathlib.Tactic

/-!
# UTF-8

Well-formed byte sequences, both as the encodings of characters and by the ranges of RFC 3629,
section 4, with the theorem that the two agree (`Utf8.sequence_iff`).
-/

namespace Utf8

/-- The encoding of a list of characters. -/
def encode (chars : List Char) : List UInt8 :=
  chars.flatMap String.utf8EncodeChar

/-- A byte string is valid when it encodes some characters. -/
def Valid (bytes : List UInt8) : Prop :=
  ∃ chars, bytes = encode chars

@[simp]
theorem encode_nil : encode [] = [] :=
  rfl

@[simp]
theorem encode_cons (c : Char) (chars : List Char) :
    encode (c :: chars) = String.utf8EncodeChar c ++ encode chars :=
  rfl

/-- A continuation byte. -/
def Tail (byte : UInt8) : Prop :=
  0x80 ≤ byte ∧ byte ≤ 0xbf

/-- The byte ranges of one character. -/
inductive Sequence : List UInt8 → Prop
  | one {a : UInt8} : a ≤ 0x7f → Sequence [a]
  | two {a b : UInt8} : 0xc2 ≤ a → a ≤ 0xdf → Tail b → Sequence [a, b]
  | three {a b c : UInt8} :
      0xe0 ≤ a → a ≤ 0xef → Tail b → (a = 0xe0 → 0xa0 ≤ b) → (a = 0xed → b ≤ 0x9f) → Tail c →
      Sequence [a, b, c]
  | four {a b c d : UInt8} :
      0xf0 ≤ a → a ≤ 0xf4 → Tail b → (a = 0xf0 → 0x90 ≤ b) → (a = 0xf4 → b ≤ 0x8f) → Tail c →
      Tail d → Sequence [a, b, c, d]

theorem Tail.iff_toNat {byte : UInt8} : Tail byte ↔ 0x80 ≤ byte.toNat ∧ byte.toNat ≤ 0xbf := by
  simp [Tail, UInt8.le_iff_toNat_le]

theorem exists_char {v : ℕ} (h : v < 0xd800 ∨ 0xdfff < v ∧ v < 0x110000) :
    ∃ c : Char, c.val.toNat = v := by
  refine ⟨⟨UInt32.ofNat v, ?_⟩, ?_⟩
  · simp only [UInt32.isValidChar, Nat.isValidChar, UInt32.toNat_ofNat']
    omega
  · simp only [UInt32.toNat_ofNat']
    omega

theorem char_range (c : Char) :
    c.val.toNat < 0xd800 ∨ 0xdfff < c.val.toNat ∧ c.val.toNat < 0x110000 :=
  c.valid

theorem sequence_encode (c : Char) : Sequence (String.utf8EncodeChar c) := by
  have hrange := char_range c
  unfold String.utf8EncodeChar
  generalize c.val.toNat = v at *
  simp only
  split
  · exact .one (by simp [UInt8.le_iff_toNat_le]; omega)
  split
  · refine .two ?_ ?_ ?_ <;>
      simp only [UInt8.le_iff_toNat_le, Tail.iff_toNat, UInt8.toNat_ofNat', UInt8.reduceToNat] <;>
      omega
  split
  · refine .three ?_ ?_ ?_ ?_ ?_ ?_ <;>
      simp only [UInt8.le_iff_toNat_le, ← UInt8.toNat_inj, Tail.iff_toNat, UInt8.toNat_ofNat',
        UInt8.reduceToNat] <;>
      omega
  · refine .four ?_ ?_ ?_ ?_ ?_ ?_ ?_ <;>
      simp only [UInt8.le_iff_toNat_le, ← UInt8.toNat_inj, Tail.iff_toNat, UInt8.toNat_ofNat',
        UInt8.reduceToNat] <;>
      omega

/-- The byte ranges of RFC 3629 are exactly the encodings of characters. -/
theorem sequence_iff {bytes : List UInt8} :
    Sequence bytes ↔ ∃ c : Char, bytes = String.utf8EncodeChar c := by
  refine ⟨fun h => ?_, ?_⟩
  · cases h with
    | @one a ha =>
      simp only [UInt8.le_iff_toNat_le, UInt8.reduceToNat] at ha
      obtain ⟨c, hc⟩ := exists_char (v := a.toNat) (by omega)
      refine ⟨c, ?_⟩
      simp only [String.utf8EncodeChar, hc]
      rw [if_pos (by omega)]
      simp
    | @two a b ha ha' hb =>
      simp only [UInt8.le_iff_toNat_le, UInt8.reduceToNat, Tail.iff_toNat] at ha ha' hb
      obtain ⟨c, hc⟩ := exists_char (v := (a.toNat - 0xc0) * 64 + (b.toNat - 0x80)) (by omega)
      refine ⟨c, ?_⟩
      simp only [String.utf8EncodeChar, hc]
      rw [if_neg (by omega), if_pos (by omega)]
      simp only [List.cons.injEq, ← UInt8.toNat_inj, UInt8.toNat_ofNat', and_true]
      omega
    | @three a b c ha ha' hb hb₁ hb₂ hc =>
      simp only [UInt8.le_iff_toNat_le, UInt8.reduceToNat, Tail.iff_toNat, ← UInt8.toNat_inj]
        at ha ha' hb hb₁ hb₂ hc
      obtain ⟨char, hchar⟩ := exists_char
        (v := (a.toNat - 0xe0) * 4096 + (b.toNat - 0x80) * 64 + (c.toNat - 0x80)) (by omega)
      refine ⟨char, ?_⟩
      simp only [String.utf8EncodeChar, hchar]
      rw [if_neg (by omega), if_neg (by omega), if_pos (by omega)]
      simp only [List.cons.injEq, ← UInt8.toNat_inj, UInt8.toNat_ofNat', and_true]
      omega
    | @four a b c d ha ha' hb hb₁ hb₂ hc hd =>
      simp only [UInt8.le_iff_toNat_le, UInt8.reduceToNat, Tail.iff_toNat, ← UInt8.toNat_inj]
        at ha ha' hb hb₁ hb₂ hc hd
      obtain ⟨char, hchar⟩ := exists_char
        (v := (a.toNat - 0xf0) * 262144 + (b.toNat - 0x80) * 4096 + (c.toNat - 0x80) * 64 +
          (d.toNat - 0x80)) (by omega)
      refine ⟨char, ?_⟩
      simp only [String.utf8EncodeChar, hchar]
      rw [if_neg (by omega), if_neg (by omega), if_neg (by omega)]
      simp only [List.cons.injEq, ← UInt8.toNat_inj, UInt8.toNat_ofNat', and_true]
      omega
  · rintro ⟨c, rfl⟩
    exact sequence_encode c

end Utf8
