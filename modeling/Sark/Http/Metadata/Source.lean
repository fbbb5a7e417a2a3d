import Sark.Http.Metadata.Huffman

/-!
# Huffman strings of a source

The encoder of the static Huffman code (`http/src/field/metadata/huffman/source.rs`). A source is
measured before it is encoded, since the length stands in front of the string.

* `Source.length_encode`: as many bytes are encoded as were measured.
-/

namespace Sark.Metadata.Huffman.Source

/-- `CODES[byte as usize]`. There are more than 256 codes, so the default is not used. -/
def code (byte : UInt8) : ℕ × ℕ :=
  codes.getD byte.toNat (0, 0)

/-- `Chunk::bits`, over all chunks. A chunk only keeps its sum within 64 bits. -/
def bits (input : Bytes) : ℕ :=
  (input.map fun byte => (code byte).2).sum

/-- `Source::try_measure`. -/
def tryMeasure (input : Bytes) : Option ℕ :=
  let encoded := (bits input + 7) / 8
  if encoded < 2 ^ 64 then some encoded else none

/-- The loop over the complete bytes of the bit buffer: the bits that are left, and the bytes. -/
def drain (buffer bitsIn : ℕ) : ℕ × Bytes :=
  if 8 ≤ bitsIn then
    let rest := drain buffer (bitsIn - 8)
    (rest.1, UInt8.ofNat (buffer >>> (bitsIn - 8)) :: rest.2)
  else (bitsIn, [])

/-- The loop of `Source::encode`, with its bit buffer. -/
def encodeFrom (buffer bitsIn : ℕ) : Bytes → Bytes
  | [] =>
    if 0 < bitsIn then
      let padBits := 8 - bitsIn
      [UInt8.ofNat ((buffer <<< padBits) % 2 ^ 64 ||| (1 <<< padBits - 1))]
    else []
  | byte :: input =>
    let next := (buffer <<< (code byte).2) % 2 ^ 64 ||| (code byte).1
    let drained := drain next (bitsIn + (code byte).2)
    drained.2 ++ encodeFrom next drained.1 input

/-- `Source::encode`. -/
def encode (input : Bytes) : Bytes :=
  encodeFrom 0 0 input

theorem drain_fst (buffer bitsIn : ℕ) : (drain buffer bitsIn).1 = bitsIn % 8 := by
  induction bitsIn using Nat.strong_induction_on with
  | _ bitsIn ih =>
    rw [drain]
    by_cases h : 8 ≤ bitsIn
    · rw [if_pos h]
      dsimp only
      rw [ih (bitsIn - 8) (by omega)]
      omega
    · rw [if_neg h]
      exact (Nat.mod_eq_of_lt (not_le.mp h)).symm

theorem length_drain (buffer bitsIn : ℕ) : (drain buffer bitsIn).2.length = bitsIn / 8 := by
  induction bitsIn using Nat.strong_induction_on with
  | _ bitsIn ih =>
    rw [drain]
    by_cases h : 8 ≤ bitsIn
    · rw [if_pos h]
      dsimp only
      rw [List.length_cons, ih (bitsIn - 8) (by omega)]
      omega
    · rw [if_neg h]
      exact (Nat.div_eq_of_lt (not_le.mp h)).symm

theorem length_encodeFrom (buffer : ℕ) {bitsIn : ℕ} (h : bitsIn < 8) (input : Bytes) :
    (encodeFrom buffer bitsIn input).length = (bitsIn + bits input + 7) / 8 := by
  induction input generalizing buffer bitsIn with
  | nil =>
    rw [encodeFrom, bits, List.map_nil, List.sum_nil]
    by_cases hzero : 0 < bitsIn
    · rw [if_pos hzero, List.length_singleton]
      omega
    · rw [if_neg hzero, List.length_nil]
      omega
  | cons byte input ih =>
    rw [encodeFrom, List.length_append, length_drain, drain_fst,
      ih _ (Nat.mod_lt _ (by norm_num)), bits, bits, List.map_cons, List.sum_cons]
    omega

theorem length_encode {input : Bytes} {len : ℕ} (h : tryMeasure input = some len) :
    (encode input).length = len := by
  rw [tryMeasure] at h
  split_ifs at h
  rw [encode, length_encodeFrom 0 (by norm_num), Nat.zero_add]
  exact Option.some.inj h

end Sark.Metadata.Huffman.Source
