import Sark.Http.H1.Value
import Sark.Library.Fallible

/-!
# Base64 text

Standard Base64 for field values (`http/src/field/base64`): the encoder with its two paddings, and
the validation of a text. A text is valid exactly if it is what the encoder writes for some bytes.

* `Encoder.length_write`: the length that is predicted is the length that is written.
* `unpack_write`, `write_unpack`: the decoded bytes of a written text, and the text of decoded
  bytes.
* `Encoded.shape_eq_ok_iff`: what validation accepts.
-/

namespace Sark.Base64

/-! ## The alphabet -/

/-- `base64::TABLE`: `A-Z`, `a-z`, `0-9`, `+` and `/`. -/
def TABLE : Bytes :=
  (List.range' 0x41 26 ++ List.range' 0x61 26 ++ List.range' 0x30 10 ++ [0x2b, 0x2f]).map
    UInt8.ofNat

/-- `base64::Error`. -/
inductive Error
  | length (actual : ℕ)
  | byte (index : ℕ) (byte : UInt8)
  | padding (index : ℕ) (byte : UInt8)
  | source (start stop capacity : ℕ)
  | output (start len capacity : ℕ)
  deriving DecidableEq, Repr

/-- `base64::value`. -/
def value (byte : UInt8) (index : ℕ) : Except Error UInt8 :=
  if 0x41 ≤ byte ∧ byte ≤ 0x5a then .ok (byte - 0x41)
  else if 0x61 ≤ byte ∧ byte ≤ 0x7a then .ok (26 + byte - 0x61)
  else if 0x30 ≤ byte ∧ byte ≤ 0x39 then .ok (52 + byte - 0x30)
  else if byte = 0x2b then .ok 62
  else if byte = 0x2f then .ok 63
  else .error (.byte index byte)

/-- `scalar::VALUES`: the index of a byte in the alphabet. -/
def VALUES (byte : UInt8) : UInt8 :=
  match TABLE.findIdx? (· == byte) with
  | some index => UInt8.ofNat index
  | none => 255

theorem forall_byte {p : UInt8 → Prop} (h : ∀ n < 256, p (UInt8.ofNat n)) : ∀ byte, p byte := by
  intro byte
  have := h byte.toNat byte.toNat_lt
  rwa [UInt8.ofNat_toNat] at this

theorem length_TABLE : TABLE.length = 64 :=
  rfl

theorem mem_TABLE_iff (byte : UInt8) : byte ∈ TABLE ↔
    0x41 ≤ byte ∧ byte ≤ 0x5a ∨ 0x61 ≤ byte ∧ byte ≤ 0x7a ∨ 0x30 ≤ byte ∧ byte ≤ 0x39 ∨
      byte = 0x2b ∨ byte = 0x2f := by
  simp only [TABLE, List.mem_map, List.mem_append, List.mem_range'_1, List.mem_cons,
    List.not_mem_nil, or_false, UInt8.le_iff_toNat_le, ← UInt8.toNat_inj, UInt8.toNat_ofNat,
    UInt8.toNat_ofNat']
  constructor
  · rintro ⟨n, hn, hbyte⟩
    omega
  · intro h
    have hlt := byte.toNat_lt
    exact ⟨byte.toNat, by omega, by omega⟩

theorem findIdx?_map_ofNat (byte : UInt8) (numbers : List ℕ) (h : ∀ n ∈ numbers, n < 256) :
    (numbers.map UInt8.ofNat).findIdx? (· == byte) = numbers.findIdx? (· == byte.toNat) := by
  induction numbers with
  | nil => rfl
  | cons n numbers ih =>
    have hn : (UInt8.ofNat n == byte) = (n == byte.toNat) := by
      rw [Bool.eq_iff_iff, beq_iff_eq, beq_iff_eq, ← UInt8.toNat_inj, UInt8.toNat_ofNat',
        Nat.mod_eq_of_lt (h n List.mem_cons_self)]
    rw [List.map_cons, List.findIdx?_cons, List.findIdx?_cons, hn,
      ih fun m hm => h m (List.mem_cons_of_mem _ hm)]

theorem findIdx?_range' (start count c : ℕ) : (List.range' start count).findIdx? (· == c) =
    if start ≤ c ∧ c < start + count then some (c - start) else none := by
  induction count generalizing start with
  | zero => rw [if_neg (by omega)]; rfl
  | succ count ih =>
    rw [List.range'_succ, List.findIdx?_cons, ih]
    by_cases hc : start = c
    · rw [if_pos (beq_iff_eq.mpr hc), if_pos (by omega), hc, Nat.sub_self]
    · rw [if_neg (by simpa using hc)]
      by_cases hle : start + 1 ≤ c ∧ c < start + 1 + count
      · rw [if_pos hle, if_pos (by omega), Option.map_some, show c - (start + 1) + 1 = c - start by
          omega]
      · rw [if_neg hle, if_neg (by omega), Option.map_none]

theorem VALUES_eq (byte : UInt8) : VALUES byte =
    if 0x41 ≤ byte ∧ byte ≤ 0x5a then byte - 0x41
    else if 0x61 ≤ byte ∧ byte ≤ 0x7a then 26 + byte - 0x61
    else if 0x30 ≤ byte ∧ byte ≤ 0x39 then 52 + byte - 0x30
    else if byte = 0x2b then 62
    else if byte = 0x2f then 63
    else 255 := by
  rw [VALUES, TABLE, findIdx?_map_ofNat _ _ (by decide), List.findIdx?_append,
    List.findIdx?_append, List.findIdx?_append, findIdx?_range', findIdx?_range',
    findIdx?_range']
  revert byte
  refine forall_byte ?_
  decide +kernel

/-- The two tables agree: a byte of the alphabet has its index for a value, and any other is
refused. -/
theorem value_eq (byte : UInt8) (index : ℕ) :
    value byte index = if byte ∈ TABLE then .ok (VALUES byte) else .error (.byte index byte) := by
  simp only [value, mem_TABLE_iff, VALUES_eq]
  split_ifs <;> first | rfl | grind

/-- The symbol of a six bit number. -/
def letter (n : ℕ) : UInt8 :=
  TABLE.getD (n &&& 63) 0

theorem letter_mod (n : ℕ) : letter n = TABLE.getD (n % 64) 0 := by
  rw [letter, show 63 = 2 ^ 6 - 1 from rfl, Nat.and_two_pow_sub_one_eq_mod]

theorem letter_mem (n : ℕ) : letter n ∈ TABLE := by
  have hlt : n % 64 < TABLE.length := by rw [length_TABLE]; exact Nat.mod_lt _ (by norm_num)
  rw [letter_mod, List.getD_eq_getElem?_getD, List.getElem?_eq_getElem hlt, Option.getD_some]
  exact List.getElem_mem hlt

theorem VALUES_letter (n : ℕ) : (VALUES (letter n)).toNat = n % 64 := by
  have hall : ∀ m < 64, (VALUES (TABLE.getD m 0)).toNat = m := by
    simp only [VALUES_eq]
    decide +kernel
  rw [letter_mod]
  exact hall _ (Nat.mod_lt _ (by norm_num))

theorem exists_letter {byte : UInt8} (h : byte ∈ TABLE) : ∃ n < 64, letter n = byte := by
  obtain ⟨n, hn, rfl⟩ := List.mem_iff_getElem.mp h
  rw [length_TABLE] at hn
  refine ⟨n, hn, ?_⟩
  rw [letter_mod, Nat.mod_eq_of_lt hn, List.getD_eq_getElem?_getD, List.getElem?_eq_getElem,
    Option.getD_some]

theorem VALUES_lt {byte : UInt8} (h : byte ∈ TABLE) : (VALUES byte).toNat < 64 := by
  obtain ⟨n, -, rfl⟩ := exists_letter h
  rw [VALUES_letter]
  exact Nat.mod_lt _ (by norm_num)

theorem letter_VALUES {byte : UInt8} (h : byte ∈ TABLE) : letter (VALUES byte).toNat = byte := by
  obtain ⟨n, hn, rfl⟩ := exists_letter h
  rw [VALUES_letter, Nat.mod_eq_of_lt hn]

/-! ## The encoder -/

/-- `encoder::Padding`. -/
inductive Padding
  | omitted
  | included
  deriving DecidableEq, Repr

/-- `base64::Encoder`. -/
structure Encoder where
  bytes : Bytes
  padding : Padding

namespace Encoder

/-- The symbols of three bytes. -/
def group (a b c : UInt8) : Bytes :=
  let value := a.toNat <<< 16 ||| b.toNat <<< 8 ||| c.toNat
  [letter (value >>> 18), letter (value >>> 12), letter (value >>> 6), letter value]

/-- The fragments that `Encoder::try_write` emits, in their order. -/
def fragments (padding : Padding) : Bytes → List Bytes
  | a :: b :: c :: rest => group a b c :: fragments padding rest
  | [a, b] =>
    let value := a.toNat <<< 16 ||| b.toNat <<< 8
    let out := [letter (value >>> 18), letter (value >>> 12), letter (value >>> 6), 0x3d]
    [out.take (match padding with | .omitted => 3 | .included => 4)]
  | [a] =>
    let value := a.toNat <<< 16
    let out := [letter (value >>> 18), letter (value >>> 12), 0x3d, 0x3d]
    [out.take (match padding with | .omitted => 2 | .included => 4)]
  | [] => []

/-- `Encoder::write` into a sink that keeps what it receives. -/
def write (self : Encoder) : Bytes :=
  (fragments self.padding self.bytes).flatten

/-- `Encode::encoded_len`. -/
def encodedLen (self : Encoder) : ℕ :=
  let blocks := self.bytes.length / 3
  let rest := self.bytes.length % 3
  let tail :=
    if rest = 0 then 0
    else match self.padding with
      | .omitted => rest + 1
      | .included => 4
  blocks * 4 + tail

end Encoder

/-! ## Validation -/

/-- `shape::Tail`. -/
inductive Tail
  | none
  | two
  | three
  deriving DecidableEq, Repr

/-- `shape::Shape`. -/
structure Shape where
  groups : ℕ
  tail : Tail
  deriving DecidableEq, Repr

namespace Shape

/-- `Shape::new`. -/
def new (bytes : Bytes) : Except Error Shape :=
  let len := bytes.length
  if [0x3d, 0x3d, 0x3d] <:+ bytes then .error (.padding (len - 3) 0x3d)
  else if [0x3d, 0x3d] <:+ bytes then
    if len % 4 = 0 then .ok ⟨(len - 2) / 4, .two⟩ else .error (.length len)
  else if [0x3d] <:+ bytes then
    if len % 4 = 0 then .ok ⟨(len - 1) / 4, .three⟩ else .error (.length len)
  else if len % 4 = 0 then .ok ⟨len / 4, .none⟩
  else if len % 4 = 1 then .error (.length len)
  else if len % 4 = 2 then .ok ⟨len / 4, .two⟩
  else .ok ⟨len / 4, .three⟩

/-- `Shape::full`. -/
def full (groups : ℕ) : Shape :=
  ⟨groups, .none⟩

/-- `Shape::symbols`. -/
def symbols (self : Shape) : ℕ :=
  self.groups * 4 + match self.tail with
    | .none => 0
    | .two => 2
    | .three => 3

/-- `Shape::decoded`. -/
def decoded (self : Shape) : ℕ :=
  self.groups * 3 + match self.tail with
    | .none => 0
    | .two => 1
    | .three => 2

/-- How many symbols `Encoded::shape` looks up in the alphabet. -/
def checked (self : Shape) : ℕ :=
  match self.tail with
  | .none => self.symbols
  | .two => self.groups * 4 + 1
  | .three => self.groups * 4 + 2

/-- The bits that the symbol behind them must leave unused. -/
def mask (self : Shape) : UInt8 :=
  match self.tail with
  | .none => 0
  | .two => 0x0f
  | .three => 0x03

/-- Whether there is such a symbol. -/
def padding (self : Shape) : ℕ :=
  match self.tail with
  | .none => 0
  | .two => 1
  | .three => 1

end Shape

namespace Encoded

/-- `Iterator::try_for_each` over the enumerated bytes, from an index on. -/
def tryForEach (f : ℕ → UInt8 → Except Error Unit) (index : ℕ) : Bytes → Except Error Unit
  | [] => .ok ()
  | byte :: rest => do
    f index byte
    tryForEach f (index + 1) rest

/-- `Encoded::check`. -/
def check (index : ℕ) (byte : UInt8) : Except Error Unit :=
  if 0x41 ≤ byte ∧ byte ≤ 0x5a ∨ 0x61 ≤ byte ∧ byte ≤ 0x7a ∨ 0x30 ≤ byte ∧ byte ≤ 0x39 ∨
      byte = 0x2b ∨ byte = 0x2f then .ok ()
  else .error (.byte index byte)

/-- One lane of `Encoded::check_chunk`: the subtractions wrap. -/
def lane (byte : UInt8) : Bool :=
  byte - 0x41 ≤ 25 || byte - 0x61 ≤ 25 || byte - 0x30 ≤ 9 || byte == 0x2b || byte == 0x2f

/-- `Encoded::check_chunk`. -/
def checkChunk (bytes : Bytes) (index : ℕ) : Except Error Unit :=
  if bytes.foldl (fun valid byte => valid && lane byte) true then .ok ()
  else tryForEach check index bytes

/-- The blocks of sixteen bytes that `Encoded::shape` checks first. -/
def checkBlocks : ℕ → ℕ → Bytes → Except Error Unit
  | 0, _, _ => .ok ()
  | blocks + 1, index, bytes => do
    checkChunk (bytes.take 16) index
    checkBlocks blocks (index + 16) (bytes.drop 16)

/-- What `Encoded::shape` asks of a byte behind the blocks. -/
def checkRest (checked : ℕ) (mask : UInt8) (index : ℕ) (byte : UInt8) : Except Error Unit :=
  if index < checked then check index byte
  else do
    let found ← value byte index
    if found &&& mask ≠ 0 then .error (.padding index byte) else .ok ()

/-- `Encoded::shape`. -/
def shape (text : Bytes) : Except Error Shape := do
  let shape ← Shape.new text
  let blocks := shape.checked / 16
  checkBlocks blocks 0 text
  let index := blocks * 16
  tryForEach (checkRest shape.checked shape.mask) index
    ((text.drop index).take (shape.checked - index + shape.padding))
  return shape

/-- `Encoded::decoded_len`. -/
def decodedLen (text : Bytes) : Except Error ℕ :=
  (Shape.new text).map Shape.decoded

/-- `Encoded::validate`. -/
def validate (text : Bytes) : Except Error ℕ := do
  let shape ← shape text
  return shape.decoded

end Encoded

/-! ## The values of a text -/

/-- The bytes that six bit values are unpacked to. -/
def unpack : Bytes → Bytes
  | a :: b :: c :: d :: rest =>
    (a <<< 2 ||| b >>> 4) :: (b <<< 4 ||| c >>> 2) :: (c <<< 6 ||| d) :: unpack rest
  | [a, b, c] => [a <<< 2 ||| b >>> 4, b <<< 4 ||| c >>> 2]
  | [a, b] => [a <<< 2 ||| b >>> 4]
  | _ => []

/-- The symbols of a text without its padding: unused bits are zero. -/
def Canonical : Bytes → Prop
  | a :: b :: c :: d :: rest => (a ∈ TABLE ∧ b ∈ TABLE ∧ c ∈ TABLE ∧ d ∈ TABLE) ∧ Canonical rest
  | [a, b, c] => a ∈ TABLE ∧ b ∈ TABLE ∧ c ∈ TABLE ∧ VALUES c &&& 0x03 = 0
  | [a, b] => a ∈ TABLE ∧ b ∈ TABLE ∧ VALUES b &&& 0x0f = 0
  | [_] => False
  | [] => True

/-- The padding behind so many symbols. -/
def pads (symbols : ℕ) : Bytes :=
  List.replicate ((4 - symbols % 4) % 4) 0x3d

/-! ### Shifts of bytes -/

theorem toNat_shiftLeft_or {x y : UInt8} {left : ℕ} (hleft : left < 8)
    (hy : y.toNat < 2 ^ left) :
    (x <<< UInt8.ofNat left ||| y).toNat = x.toNat % 2 ^ (8 - left) * 2 ^ left + y.toNat := by
  have hshift : (UInt8.ofNat left).toNat = left := by
    rw [UInt8.toNat_ofNat']
    omega
  have hpow : 2 ^ 8 = 2 ^ (8 - left) * 2 ^ left := by rw [← pow_add, Nat.sub_add_cancel hleft.le]
  rw [UInt8.toNat_or, UInt8.toNat_shiftLeft, hshift, Nat.mod_eq_of_lt hleft, Nat.shiftLeft_eq, hpow,
    Nat.mul_mod_mul_right, ← Nat.shiftLeft_eq, Nat.shiftLeft_add_eq_or_of_lt hy]

theorem toNat_first {x y : UInt8} (hx : x.toNat < 64) (hy : y.toNat < 64) :
    (x <<< 2 ||| y >>> 4).toNat = x.toNat * 4 + y.toNat / 16 := by
  have hshift : (y >>> 4).toNat = y.toNat / 16 := by
    rw [UInt8.toNat_shiftRight, Nat.shiftRight_eq_div_pow]
    rfl
  have h := @toNat_shiftLeft_or x (y >>> 4) 2 (by norm_num) (by rw [hshift]; omega)
  rw [hshift] at h
  exact h.trans (by norm_num; omega)

theorem toNat_second {x y : UInt8} (hy : y.toNat < 64) :
    (x <<< 4 ||| y >>> 2).toNat = x.toNat % 16 * 16 + y.toNat / 4 := by
  have hshift : (y >>> 2).toNat = y.toNat / 4 := by
    rw [UInt8.toNat_shiftRight, Nat.shiftRight_eq_div_pow]
    rfl
  have h := @toNat_shiftLeft_or x (y >>> 2) 4 (by norm_num) (by rw [hshift]; omega)
  rw [hshift] at h
  exact h.trans (by norm_num)

theorem toNat_third {x y : UInt8} (hy : y.toNat < 64) :
    (x <<< 6 ||| y).toNat = x.toNat % 4 * 64 + y.toNat := by
  have h := @toNat_shiftLeft_or x y 6 (by norm_num) (by omega)
  exact h.trans (by norm_num)

theorem or_eq (a b c : UInt8) : a.toNat <<< 16 ||| b.toNat <<< 8 ||| c.toNat =
    a.toNat * 65536 + b.toNat * 256 + c.toNat := by
  have ha := a.toNat_lt
  have hb := b.toNat_lt
  have hc := c.toNat_lt
  have hshift : b.toNat <<< 8 = b.toNat * 256 := Nat.shiftLeft_eq _ _
  rw [← Nat.shiftLeft_add_eq_or_of_lt (by rw [hshift]; omega), Nat.shiftLeft_eq, hshift,
    show a.toNat * 2 ^ 16 + b.toNat * 256 = (a.toNat * 256 + b.toNat) <<< 8 by
      rw [Nat.shiftLeft_eq]; ring,
    ← Nat.shiftLeft_add_eq_or_of_lt (by omega), Nat.shiftLeft_eq]
  ring

/-! ### Groups -/

theorem unpack_group (a b c : UInt8) (rest : Bytes) :
    unpack ((Encoder.group a b c ++ rest).map VALUES) =
      a :: b :: c :: unpack (rest.map VALUES) := by
  have ha := a.toNat_lt
  have hb := b.toNat_lt
  have hc := c.toNat_lt
  simp only [Encoder.group, or_eq, Nat.shiftRight_eq_div_pow, List.cons_append, List.nil_append,
    List.map_cons, unpack, List.cons.injEq, and_true]
  have hlt (n : ℕ) : (VALUES (letter n)).toNat < 64 := VALUES_lt (letter_mem n)
  refine ⟨?_, ?_, ?_⟩
  · rw [← UInt8.toNat_inj, toNat_first (hlt _) (hlt _), VALUES_letter, VALUES_letter]
    omega
  · rw [← UInt8.toNat_inj, toNat_second (hlt _), VALUES_letter, VALUES_letter]
    omega
  · rw [← UInt8.toNat_inj, toNat_third (hlt _), VALUES_letter, VALUES_letter]
    omega

theorem group_unpack {a b c d : UInt8} (ha : a ∈ TABLE) (hb : b ∈ TABLE) (hc : c ∈ TABLE)
    (hd : d ∈ TABLE) :
    Encoder.group (VALUES a <<< 2 ||| VALUES b >>> 4) (VALUES b <<< 4 ||| VALUES c >>> 2)
      (VALUES c <<< 6 ||| VALUES d) = [a, b, c, d] := by
  have ha' := VALUES_lt ha
  have hb' := VALUES_lt hb
  have hc' := VALUES_lt hc
  have hd' := VALUES_lt hd
  have hletter {byte : UInt8} (hmem : byte ∈ TABLE) {n : ℕ} (hn : n % 64 = (VALUES byte).toNat) :
      letter n = byte := by
    rw [letter_mod, hn, ← Nat.mod_eq_of_lt (VALUES_lt hmem), ← letter_mod, letter_VALUES hmem]
  simp only [Encoder.group, or_eq, Nat.shiftRight_eq_div_pow]
  simp only [toNat_first ha' hb', toNat_second hc', toNat_third hd']
  rw [hletter ha (by omega), hletter hb (by omega), hletter hc (by omega), hletter hd (by omega)]

/-! ### Tails -/

theorem fragments_two (a b : UInt8) :
    (Encoder.fragments .omitted [a, b]).flatten = (Encoder.group a b 0).take 3 := by
  simp [Encoder.fragments, Encoder.group]

theorem fragments_one (a : UInt8) :
    (Encoder.fragments .omitted [a]).flatten = (Encoder.group a 0 0).take 2 := by
  simp [Encoder.fragments, Encoder.group]

theorem unpack_two (a b : UInt8) :
    unpack (((Encoder.group a b 0).take 3).map VALUES) = [a, b] := by
  have h := unpack_group a b 0 []
  simp only [Encoder.group, List.append_nil, List.map_cons, List.map_nil, unpack, List.cons.injEq,
    and_true] at h
  obtain ⟨hfirst, hsecond, -⟩ := h
  simp only [Encoder.group, List.take_succ_cons, List.take_zero, List.map_cons, List.map_nil,
    unpack, hfirst, hsecond]

theorem unpack_one (a : UInt8) :
    unpack (((Encoder.group a 0 0).take 2).map VALUES) = [a] := by
  have h := unpack_group a 0 0 []
  simp only [Encoder.group, List.append_nil, List.map_cons, List.map_nil, unpack, List.cons.injEq,
    and_true] at h
  obtain ⟨hfirst, -⟩ := h
  simp only [Encoder.group, List.take_succ_cons, List.take_zero, List.map_cons, List.map_nil,
    unpack, hfirst]

theorem letter_zero : (0x41 : UInt8) ∈ TABLE ∧ VALUES 0x41 = 0 := by
  rw [mem_TABLE_iff, VALUES_eq]
  decide

theorem mask_two_iff (value : UInt8) : value &&& 0x0f = 0 ↔ value.toNat % 16 = 0 := by
  rw [← UInt8.toNat_inj, UInt8.toNat_and, show (0x0f : UInt8).toNat = 2 ^ 4 - 1 from rfl,
    Nat.and_two_pow_sub_one_eq_mod]
  rfl

theorem mask_three_iff (value : UInt8) : value &&& 0x03 = 0 ↔ value.toNat % 4 = 0 := by
  rw [← UInt8.toNat_inj, UInt8.toNat_and, show (0x03 : UInt8).toNat = 2 ^ 2 - 1 from rfl,
    Nat.and_two_pow_sub_one_eq_mod]
  rfl

theorem second_eq_zero {value : UInt8} (h : value &&& 0x0f = 0) :
    value <<< 4 ||| (0 : UInt8) >>> 2 = 0 := by
  rw [← UInt8.toNat_inj, toNat_second (by decide), (mask_two_iff value).mp h]
  rfl

theorem third_eq_zero {value : UInt8} (h : value &&& 0x03 = 0) :
    value <<< 6 ||| (0 : UInt8) = 0 := by
  rw [← UInt8.toNat_inj, toNat_third (by decide), (mask_three_iff value).mp h]
  rfl

/-! ## The encoder against the decoder -/

/-- The symbols that are written for bytes. -/
def symbols (bytes : Bytes) : Bytes :=
  (Encoder.fragments .omitted bytes).flatten

theorem length_symbols (bytes : Bytes) :
    (symbols bytes).length =
      bytes.length / 3 * 4 + if bytes.length % 3 = 0 then 0 else bytes.length % 3 + 1 := by
  unfold symbols
  induction bytes using Encoder.fragments.induct with
  | case1 a b c rest ih =>
    simp only [Encoder.fragments, List.flatten_cons, List.length_append, List.length_cons, ih,
      Encoder.group, List.length_nil]
    grind
  | case2 a b => simp [Encoder.fragments]
  | case3 a => simp [Encoder.fragments]
  | case4 => rfl

theorem flatten_included (bytes : Bytes) :
    (Encoder.fragments .included bytes).flatten = symbols bytes ++ pads (symbols bytes).length := by
  unfold symbols
  induction bytes using Encoder.fragments.induct with
  | case1 a b c rest ih =>
    simp only [Encoder.fragments, List.flatten_cons, ih, List.append_assoc, pads,
      List.length_append, Encoder.group, List.length_cons, List.length_nil]
    simp
  | case2 a b => simp [Encoder.fragments, pads]
  | case3 a => simp [Encoder.fragments, pads]
  | case4 => rfl

theorem unpack_symbols (bytes : Bytes) : unpack ((symbols bytes).map VALUES) = bytes := by
  unfold symbols
  induction bytes using Encoder.fragments.induct with
  | case1 a b c rest ih =>
    rw [Encoder.fragments, List.flatten_cons, unpack_group, ih]
  | case2 a b => rw [fragments_two, unpack_two]
  | case3 a => rw [fragments_one, unpack_one]
  | case4 => rfl

theorem symbols_unpack {text : Bytes} (h : Canonical text) :
    symbols (unpack (text.map VALUES)) = text := by
  unfold symbols
  induction text using Canonical.induct with
  | case1 a b c d rest ih =>
    obtain ⟨⟨ha, hb, hc, hd⟩, hrest⟩ := h
    simp only [List.map_cons, unpack]
    rw [Encoder.fragments, List.flatten_cons, group_unpack ha hb hc hd, ih hrest]
    rfl
  | case2 a b c =>
    obtain ⟨ha, hb, hc, hmask⟩ := h
    obtain ⟨hd, hzero⟩ := letter_zero
    have hgroup := group_unpack ha hb hc hd
    rw [hzero, third_eq_zero hmask] at hgroup
    simp only [List.map_cons, List.map_nil, unpack]
    rw [fragments_two, hgroup]
    rfl
  | case3 a b =>
    obtain ⟨ha, hb, hmask⟩ := h
    obtain ⟨hd, hzero⟩ := letter_zero
    have hgroup := group_unpack ha hb hd hd
    rw [hzero, second_eq_zero hmask, show (0 : UInt8) <<< 6 ||| 0 = 0 from rfl] at hgroup
    simp only [List.map_cons, List.map_nil, unpack]
    rw [fragments_one, hgroup]
    rfl
  | case4 a => exact h.elim
  | case5 => rfl

theorem canonical_symbols (bytes : Bytes) : Canonical (symbols bytes) := by
  unfold symbols
  induction bytes using Encoder.fragments.induct with
  | case1 a b c rest ih =>
    rw [Encoder.fragments, List.flatten_cons]
    exact ⟨⟨letter_mem _, letter_mem _, letter_mem _, letter_mem _⟩, ih⟩
  | case2 a b =>
    rw [fragments_two]
    refine ⟨letter_mem _, letter_mem _, letter_mem _, ?_⟩
    rw [mask_three_iff, VALUES_letter, or_eq, Nat.shiftRight_eq_div_pow, UInt8.toNat_zero]
    omega
  | case3 a =>
    rw [fragments_one]
    refine ⟨letter_mem _, letter_mem _, ?_⟩
    rw [mask_two_iff, VALUES_letter, or_eq, Nat.shiftRight_eq_div_pow, UInt8.toNat_zero]
    omega
  | case4 => exact trivial

theorem Canonical.length_mod {text : Bytes} (h : Canonical text) : text.length % 4 ≠ 1 := by
  induction text using Canonical.induct with
  | case1 a b c d rest ih =>
    have := ih h.2
    simp only [List.length_cons]
    omega
  | case2 a b c => simp
  | case3 a b => simp
  | case4 a => exact h.elim
  | case5 => simp

theorem Canonical.mem {text : Bytes} (h : Canonical text) : ∀ byte ∈ text, byte ∈ TABLE := by
  induction text using Canonical.induct with
  | case1 a b c d rest ih =>
    obtain ⟨⟨ha, hb, hc, hd⟩, hrest⟩ := h
    simp only [List.forall_mem_cons]
    exact ⟨ha, hb, hc, hd, ih hrest⟩
  | case2 a b c => simpa using ⟨h.1, h.2.1, h.2.2.1⟩
  | case3 a b => simpa using ⟨h.1, h.2.1⟩
  | case4 a => exact h.elim
  | case5 => simp

namespace Encoder

/-- Each padding writes the symbols, and the included one what is missing of the last group. -/
theorem write_eq (bytes : Bytes) (padding : Padding) : (Encoder.mk bytes padding).write =
    symbols bytes ++ if padding = .included then pads (symbols bytes).length else [] := by
  cases padding with
  | omitted => rw [if_neg (by decide), List.append_nil]; rfl
  | included => exact flatten_included bytes

theorem length_write (self : Encoder) : self.write.length = self.encodedLen := by
  obtain ⟨bytes, padding⟩ := self
  rw [write_eq, List.length_append, length_symbols]
  cases padding with
  | omitted => simp [encodedLen]
  | included =>
    rw [if_pos rfl]
    simp only [pads, List.length_replicate, encodedLen]
    split <;> omega

end Encoder

/-! ## What validation accepts -/

namespace Encoded

theorem tryForEach_eq_ok_iff {f : ℕ → UInt8 → Except Error Unit} {index : ℕ} {text : Bytes} :
    tryForEach f index text = .ok () ↔
      ∀ i byte, text[i]? = some byte → f (index + i) byte = .ok () := by
  induction text generalizing index with
  | nil => simp [tryForEach]
  | cons byte text ih =>
    rw [tryForEach, Except.bind_eq_ok_iff]
    constructor
    · rintro ⟨_, hbyte, hrest⟩ i found hfound
      cases i with
      | zero =>
        obtain rfl : byte = found := by simpa using hfound
        exact hbyte
      | succ i =>
        rw [show index + (i + 1) = index + 1 + i by omega]
        exact ih.mp hrest i found (by simpa using hfound)
    · intro h
      refine ⟨(), h 0 byte rfl, ih.mpr fun i found hfound => ?_⟩
      rw [show index + 1 + i = index + (i + 1) by omega]
      exact h (i + 1) found (by simpa using hfound)

theorem check_eq_ok_iff {index : ℕ} {byte : UInt8} : check index byte = .ok () ↔ byte ∈ TABLE := by
  rw [check, mem_TABLE_iff]
  split_ifs with h
  · exact iff_of_true rfl h
  · exact iff_of_false (by simp) h

theorem lane_iff (byte : UInt8) : lane byte = true ↔ byte ∈ TABLE := by
  have hlt := byte.toNat_lt
  simp only [lane, mem_TABLE_iff, Bool.or_eq_true, decide_eq_true_eq, beq_iff_eq,
    UInt8.le_iff_toNat_le, UInt8.toNat_sub, ← UInt8.toNat_inj, UInt8.reduceToNat]
  omega

theorem foldl_lane (bytes : Bytes) (valid : Bool) :
    bytes.foldl (fun valid byte => valid && lane byte) valid = (valid && bytes.all lane) := by
  induction bytes generalizing valid with
  | nil => simp
  | cons byte bytes ih => rw [List.foldl_cons, ih, List.all_cons, Bool.and_assoc]

theorem checkChunk_eq (bytes : Bytes) (index : ℕ) :
    checkChunk bytes index = tryForEach check index bytes := by
  rw [checkChunk]
  split
  next h =>
    refine (tryForEach_eq_ok_iff.mpr fun i byte hbyte => ?_).symm
    rw [check_eq_ok_iff, ← lane_iff]
    rw [foldl_lane, Bool.true_and, List.all_eq_true] at h
    exact h byte (List.mem_of_getElem? hbyte)
  next => rfl

theorem tryForEach_append (f : ℕ → UInt8 → Except Error Unit) (index : ℕ) (lead rest : Bytes) :
    tryForEach f index (lead ++ rest) =
      tryForEach f index lead >>= fun _ => tryForEach f (index + lead.length) rest := by
  induction lead generalizing index with
  | nil => rfl
  | cons byte lead ih =>
    rw [List.cons_append, tryForEach, tryForEach, ih, bind_assoc, List.length_cons, Nat.add_assoc,
      Nat.add_comm 1]

theorem checkBlocks_eq {blocks index : ℕ} {bytes : Bytes} (h : blocks * 16 ≤ bytes.length) :
    checkBlocks blocks index bytes = tryForEach check index (bytes.take (blocks * 16)) := by
  induction blocks generalizing index bytes with
  | zero => simp [checkBlocks, tryForEach]
  | succ blocks ih =>
    have hsplit : bytes.take ((blocks + 1) * 16) =
        bytes.take 16 ++ (bytes.drop 16).take (blocks * 16) := by
      rw [← List.take_add]
      congr 1
      omega
    have hlength : (bytes.take 16).length = 16 := by
      rw [List.length_take]
      omega
    rw [checkBlocks, checkChunk_eq, ih (by rw [List.length_drop]; omega), hsplit, tryForEach_append,
      hlength]

end Encoded

namespace Shape

theorem checked_add_padding (self : Shape) : self.checked + self.padding = self.symbols := by
  obtain ⟨groups, _ | _ | _⟩ := self <;> rfl

/-- What a text of a shape has behind its symbols. -/
theorem new_eq_ok {text : Bytes} {shape : Shape} (h : new text = .ok shape) :
    shape.symbols ≤ text.length ∧
      (text.drop shape.symbols = [] ∨ text.drop shape.symbols = pads shape.symbols) := by
  unfold new at h
  simp only at h
  split at h
  next => exact absurd h (by simp)
  next =>
    split at h
    next htwo =>
      split at h
      next hmod =>
        obtain rfl := Except.ok.inj h
        obtain ⟨lead, rfl⟩ := htwo
        simp only [List.length_append, List.length_cons, List.length_nil] at hmod
        have hsymbols : symbols ⟨((lead ++ [0x3d, 0x3d]).length - 2) / 4, .two⟩ = lead.length := by
          simp only [symbols, List.length_append, List.length_cons, List.length_nil]
          omega
        rw [hsymbols, List.drop_left, pads, show (4 - lead.length % 4) % 4 = 2 by omega]
        exact ⟨by simp, .inr rfl⟩
      next => exact absurd h (by simp)
    next =>
      split at h
      next hone =>
        split at h
        next hmod =>
          obtain rfl := Except.ok.inj h
          obtain ⟨lead, rfl⟩ := hone
          rw [List.length_append, List.length_singleton] at hmod
          have hsymbols : symbols ⟨((lead ++ [0x3d]).length - 1) / 4, .three⟩ = lead.length := by
            simp only [symbols, List.length_append, List.length_singleton]
            omega
          rw [hsymbols, List.drop_left, pads, show (4 - lead.length % 4) % 4 = 1 by omega]
          exact ⟨by simp, .inr rfl⟩
        next => exact absurd h (by simp)
      next =>
        -- without padding, the symbols are the whole text
        have hsymbols : shape.symbols = text.length := by
          split_ifs at h <;> simp only [Except.ok.injEq] at h <;> subst h <;>
            simp only [symbols] <;> omega
        rw [hsymbols]
        exact ⟨le_rfl, .inl List.drop_length⟩

/-- A text that has the symbols of a shape, and behind them nothing or their padding. -/
theorem new_of_symbols {symbols : Bytes} {shape : Shape} (hlength : symbols.length = shape.symbols)
    (hlast : symbols.getLast? ≠ some 0x3d) :
    new symbols = .ok shape ∧ new (symbols ++ pads shape.symbols) = .ok shape := by
  have hsuffix (more : Bytes) : ¬more ++ [0x3d] <:+ symbols := by
    rintro ⟨lead, rfl⟩
    simp at hlast
  -- padding does not add to what the symbols end with
  have hbehind (more behind : Bytes) : ¬more ++ [0x3d] ++ behind <:+ symbols ++ behind := by
    rintro ⟨lead, h⟩
    rw [← List.append_assoc] at h
    exact hsuffix more ⟨lead, List.append_cancel_right h⟩
  have hnone := hsuffix []
  have htwo := hsuffix [0x3d]
  have hthree := hsuffix [0x3d, 0x3d]
  simp only [List.nil_append, List.cons_append] at hnone htwo hthree
  have hnew : new symbols = .ok shape := by
    rw [new, if_neg hthree, if_neg htwo, if_neg hnone]
    obtain ⟨groups, _ | _ | _⟩ := shape <;> simp only [Shape.symbols] at hlength
    · rw [if_pos (by omega)]
      simp only [Except.ok.injEq, mk.injEq, and_true]
      omega
    · rw [if_neg (by omega), if_neg (by omega), if_pos (by omega)]
      simp only [Except.ok.injEq, mk.injEq, and_true]
      omega
    · rw [if_neg (by omega), if_neg (by omega), if_neg (by omega)]
      simp only [Except.ok.injEq, mk.injEq, and_true]
      omega
  refine ⟨hnew, ?_⟩
  obtain ⟨groups, _ | _ | _⟩ := shape <;> simp only [Shape.symbols] at hlength ⊢
  · rw [pads, show (4 - (groups * 4 + 0) % 4) % 4 = 0 by omega, List.replicate_zero,
      List.append_nil]
    exact hnew
  · have hlong : ¬[0x3d, 0x3d, 0x3d] <:+ symbols ++ [0x3d, 0x3d] := hbehind [] [0x3d, 0x3d]
    rw [pads, show (4 - (groups * 4 + 2) % 4) % 4 = 2 by omega,
      show List.replicate 2 0x3d = ([0x3d, 0x3d] : Bytes) from rfl, new, if_neg hlong,
      if_pos ⟨symbols, rfl⟩]
    simp only [List.length_append, List.length_cons, List.length_nil, hlength]
    rw [if_pos (by omega), show (groups * 4 + 2 + (0 + 1 + 1) - 2) / 4 = groups by omega]
  · have hlong : ¬[0x3d, 0x3d, 0x3d] <:+ symbols ++ [0x3d] := hbehind [0x3d] [0x3d]
    have hshort : ¬[0x3d, 0x3d] <:+ symbols ++ [0x3d] := hbehind [] [0x3d]
    rw [pads, show (4 - (groups * 4 + 3) % 4) % 4 = 1 by omega,
      show List.replicate 1 0x3d = ([0x3d] : Bytes) from rfl, new, if_neg hlong, if_neg hshort,
      if_pos ⟨symbols, rfl⟩]
    simp only [List.length_append, List.length_cons, List.length_nil, hlength]
    rw [if_pos (by omega), show (groups * 4 + 3 + (0 + 1) - 1) / 4 = groups by omega]

end Shape

namespace Encoded

/-- What `Encoded::shape` asks of the symbols of a shape. -/
def Accepts (shape : Shape) (symbols : Bytes) : Prop :=
  ∀ i byte, symbols[i]? = some byte →
    byte ∈ TABLE ∧ (shape.checked ≤ i → VALUES byte &&& shape.mask = 0)

theorem checkRest_eq_ok_iff {checked index : ℕ} {mask byte : UInt8} :
    checkRest checked mask index byte = .ok () ↔
      byte ∈ TABLE ∧ (checked ≤ index → VALUES byte &&& mask = 0) := by
  rw [checkRest]
  split
  next h => simp [check_eq_ok_iff, Nat.not_le.mpr h]
  next h =>
    rw [value_eq, Except.bind_eq_ok_iff]
    split
    next hmem => simp [hmem, not_lt.mp h]
    next hmem => simp [hmem]

/-- A text is accepted exactly if it has a shape whose symbols are. -/
theorem shape_eq_ok_iff_accepts {text : Bytes} {found : Shape} :
    shape text = .ok found ↔
      Shape.new text = .ok found ∧ Accepts found (text.take found.symbols) := by
  rw [shape, Except.bind_eq_ok_iff]
  constructor
  · rintro ⟨found', hnew, h⟩
    have hle := (Shape.new_eq_ok hnew).1
    have hsum := found'.checked_add_padding
    dsimp only at h
    rw [checkBlocks_eq (by omega), Except.bind_eq_ok_iff] at h
    obtain ⟨_, hblocks, h⟩ := h
    rw [Except.bind_eq_ok_iff] at h
    obtain ⟨_, hrest, h⟩ := h
    obtain rfl := Except.ok.inj h
    refine ⟨hnew, fun i byte hbyte => ?_⟩
    rw [List.getElem?_take, Option.ite_none_right_eq_some] at hbyte
    rw [tryForEach_eq_ok_iff] at hblocks hrest
    rcases lt_or_ge i (found'.checked / 16 * 16) with hi | hi
    · have := hblocks i byte (by rw [List.getElem?_take_of_lt hi, hbyte.2])
      rw [check_eq_ok_iff] at this
      exact ⟨this, by omega⟩
    · have := hrest (i - found'.checked / 16 * 16) byte (by
        rw [List.getElem?_take_of_lt (by omega), List.getElem?_drop, Nat.add_sub_cancel' hi,
          hbyte.2])
      rwa [checkRest_eq_ok_iff, Nat.add_sub_cancel' hi] at this
  · rintro ⟨hnew, haccepts⟩
    have hle := (Shape.new_eq_ok hnew).1
    have hsum := found.checked_add_padding
    refine ⟨found, hnew, ?_⟩
    have hblocks : tryForEach check 0 (text.take (found.checked / 16 * 16)) = .ok () := by
      rw [tryForEach_eq_ok_iff]
      intro i byte hbyte
      rw [List.getElem?_take, Option.ite_none_right_eq_some] at hbyte
      rw [check_eq_ok_iff]
      exact (haccepts i byte (by rw [List.getElem?_take_of_lt (by omega), hbyte.2])).1
    have hrest : tryForEach (checkRest found.checked found.mask) (found.checked / 16 * 16)
        ((text.drop (found.checked / 16 * 16)).take
          (found.checked - found.checked / 16 * 16 + found.padding)) = .ok () := by
      rw [tryForEach_eq_ok_iff]
      intro i byte hbyte
      rw [List.getElem?_take, Option.ite_none_right_eq_some, List.getElem?_drop] at hbyte
      rw [checkRest_eq_ok_iff]
      exact haccepts _ byte (by rw [List.getElem?_take_of_lt (by omega), hbyte.2])
    dsimp only
    rw [checkBlocks_eq (by omega), hblocks]
    simp only [hrest]
    rfl

theorem forall_getElem?_cons {p : ℕ → UInt8 → Prop} {first : UInt8} {rest : Bytes} :
    (∀ i byte, (first :: rest)[i]? = some byte → p i byte) ↔
      p 0 first ∧ ∀ i byte, rest[i]? = some byte → p (i + 1) byte := by
  constructor
  · intro h
    exact ⟨h 0 first rfl, fun i byte hbyte => h (i + 1) byte (by simpa using hbyte)⟩
  · rintro ⟨hfirst, hrest⟩ i byte hbyte
    cases i with
    | zero =>
      obtain rfl : first = byte := by simpa using hbyte
      exact hfirst
    | succ i => exact hrest i byte (by simpa using hbyte)

/-- The symbols of a shape are accepted exactly if they are canonical. -/
theorem accepts_iff {shape : Shape} {symbols : Bytes} (hlength : symbols.length = shape.symbols) :
    Accepts shape symbols ↔ Canonical symbols := by
  obtain ⟨groups, tail⟩ := shape
  induction groups generalizing symbols with
  | zero =>
    rcases tail with _ | _ | _ <;> simp only [Shape.symbols, Nat.zero_mul, Nat.zero_add] at hlength
    · obtain rfl := List.length_eq_zero_iff.mp hlength
      simp [Accepts, Canonical]
    · obtain ⟨a, b, rfl⟩ := List.length_eq_two.mp hlength
      simp only [Accepts, forall_getElem?_cons, Canonical]
      simp [Shape.checked, Shape.mask]
    · obtain ⟨a, b, c, rfl⟩ := List.length_eq_three.mp hlength
      simp only [Accepts, forall_getElem?_cons, Canonical]
      simp [Shape.checked, Shape.mask]
  | succ groups ih =>
    have hsucc : Shape.symbols ⟨groups + 1, tail⟩ = Shape.symbols ⟨groups, tail⟩ + 4 := by
      simp only [Shape.symbols]
      ring
    have hchecked : Shape.checked ⟨groups + 1, tail⟩ = Shape.checked ⟨groups, tail⟩ + 4 := by
      rcases tail with _ | _ | _ <;> simp only [Shape.checked, Shape.symbols] <;> ring
    rw [hsucc] at hlength
    match symbols, hlength with
    | a :: b :: c :: d :: rest, hlength =>
      simp only [List.length_cons] at hlength
      rw [Canonical, ← ih (by omega)]
      simp only [Accepts, hchecked, forall_getElem?_cons]
      -- no bits of the first group are unused
      have hmask : Shape.mask ⟨groups + 1, tail⟩ = Shape.mask ⟨groups, tail⟩ := rfl
      have hbelow (i : ℕ) (hi : i < 4) : ¬Shape.checked ⟨groups, tail⟩ + 4 ≤ i := by omega
      simp only [hmask, and_assoc, hbelow 0 (by norm_num), hbelow (0 + 1) (by norm_num),
        hbelow (0 + 1 + 1) (by norm_num), hbelow (0 + 1 + 1 + 1) (by norm_num), false_imp_iff,
        true_and]
      simp only [Nat.add_assoc, Nat.reduceAdd, Nat.add_le_add_iff_right]

/-- Validation accepts canonical symbols, alone or with their padding, and nothing else. -/
theorem shape_eq_ok_iff {text : Bytes} {found : Shape} :
    shape text = .ok found ↔ ∃ symbols, Canonical symbols ∧ symbols.length = found.symbols ∧
      (text = symbols ∨ text = symbols ++ pads symbols.length) := by
  rw [shape_eq_ok_iff_accepts]
  constructor
  · rintro ⟨hnew, haccepts⟩
    obtain ⟨hle, hbehind⟩ := Shape.new_eq_ok hnew
    have hlength : (text.take found.symbols).length = found.symbols := by
      rw [List.length_take, min_eq_left hle]
    refine ⟨_, (accepts_iff hlength).mp haccepts, hlength, ?_⟩
    have htext := List.take_append_drop found.symbols text
    rcases hbehind with hnil | hpads
    · rw [hnil, List.append_nil] at htext
      exact .inl htext.symm
    · rw [hpads] at htext
      rw [hlength]
      exact .inr htext.symm
  · rintro ⟨symbols, hcanonical, hlength, htext⟩
    have hlast : symbols.getLast? ≠ some 0x3d := fun h =>
      absurd ((mem_TABLE_iff _).mp (hcanonical.mem _ (List.mem_of_getLast? h))) (by decide)
    obtain ⟨halone, hpadded⟩ := Shape.new_of_symbols hlength hlast
    have haccepts := (accepts_iff hlength).mpr hcanonical
    rcases htext with rfl | rfl
    · rw [← hlength, List.take_length]
      exact ⟨halone, haccepts⟩
    · rw [← hlength] at hpadded ⊢
      rw [List.take_left]
      exact ⟨hpadded, haccepts⟩

theorem exists_shape {symbols : Bytes} (h : Canonical symbols) :
    ∃ shape : Shape, symbols.length = shape.symbols := by
  have hmod := h.length_mod
  have hdiv := Nat.div_add_mod symbols.length 4
  rcases show symbols.length % 4 = 0 ∨ symbols.length % 4 = 2 ∨ symbols.length % 4 = 3 by omega with
    h | h | h
  · exact ⟨⟨symbols.length / 4, .none⟩, by simp only [Shape.symbols]; omega⟩
  · exact ⟨⟨symbols.length / 4, .two⟩, by simp only [Shape.symbols]; omega⟩
  · exact ⟨⟨symbols.length / 4, .three⟩, by simp only [Shape.symbols]; omega⟩

theorem length_unpack {shape : Shape} {values : Bytes} (hlength : values.length = shape.symbols) :
    (unpack values).length = shape.decoded := by
  obtain ⟨groups, tail⟩ := shape
  induction groups generalizing values with
  | zero =>
    rcases tail with _ | _ | _ <;> simp only [Shape.symbols, Nat.zero_mul, Nat.zero_add] at hlength
    · obtain rfl := List.length_eq_zero_iff.mp hlength
      rfl
    · obtain ⟨a, b, rfl⟩ := List.length_eq_two.mp hlength
      rfl
    · obtain ⟨a, b, c, rfl⟩ := List.length_eq_three.mp hlength
      rfl
  | succ groups ih =>
    have hsymbols : Shape.symbols ⟨groups + 1, tail⟩ = Shape.symbols ⟨groups, tail⟩ + 4 := by
      simp only [Shape.symbols]
      ring
    have hdecoded : Shape.decoded ⟨groups + 1, tail⟩ = Shape.decoded ⟨groups, tail⟩ + 3 := by
      simp only [Shape.decoded]
      ring
    rw [hsymbols] at hlength
    match values, hlength with
    | a :: b :: c :: d :: rest, hlength =>
      simp only [List.length_cons] at hlength
      rw [unpack, hdecoded, ← @ih rest (by omega)]
      rfl

/-- Validation accepts exactly what the encoder writes, and returns how many bytes it stands for. -/
theorem validate_iff {text : Bytes} {length : ℕ} :
    validate text = .ok length ↔
      ∃ self : Encoder, text = self.write ∧ length = self.bytes.length := by
  have hvalidate : validate text = .ok length ↔
      ∃ found, shape text = .ok found ∧ found.decoded = length := by
    rw [validate, Except.bind_eq_ok_iff]
    refine exists_congr fun found => and_congr_right fun _ => ⟨fun h => Except.ok.inj h, ?_⟩
    rintro rfl
    rfl
  rw [hvalidate]
  constructor
  · rintro ⟨found, hshape, rfl⟩
    obtain ⟨symbols, hcanonical, hlength, htext⟩ := shape_eq_ok_iff.mp hshape
    have hunpack : (unpack (symbols.map VALUES)).length = found.decoded :=
      length_unpack (by rw [List.length_map, hlength])
    have hsymbols := symbols_unpack hcanonical
    rcases htext with rfl | rfl
    · refine ⟨⟨_, .omitted⟩, ?_, hunpack.symm⟩
      rw [Encoder.write_eq, hsymbols, if_neg (by decide), List.append_nil]
    · refine ⟨⟨_, .included⟩, ?_, hunpack.symm⟩
      rw [Encoder.write_eq, hsymbols, if_pos rfl]
  · rintro ⟨⟨bytes, padding⟩, rfl, rfl⟩
    have hcanonical := canonical_symbols bytes
    obtain ⟨found, hlength⟩ := exists_shape hcanonical
    refine ⟨found, shape_eq_ok_iff.mpr ⟨symbols bytes, hcanonical, hlength, ?_⟩, ?_⟩
    · rw [Encoder.write_eq]
      split
      · exact .inr rfl
      · exact .inl (List.append_nil _)
    · rw [← @length_unpack found ((symbols bytes).map VALUES) (by rw [List.length_map, hlength]),
        unpack_symbols]

end Encoded

end Sark.Base64
