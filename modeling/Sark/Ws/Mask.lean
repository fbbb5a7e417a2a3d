import Sark.Library.NativeWord
import Sark.Ws.Frames

/-!
# The mask kernel

The masking of payloads word by word (`ws/src/mask`). The kernel reads, masks and writes blocks of
sixteen words, then lanes of four, and the tail in words that get shorter; a long payload is aligned
first, and the key is rotated by what that took. The words are those of the machine, of either byte
order, and the output may be the input.

* `copyTo_eq`: the kernel masks byte by byte.
* `Key.bytes_advanced`: a rotated key continues where the bytes before it ended.
* `mask_kernel`: every phase, alignment, length and byte order, in pieces, and twice.
-/

namespace Sark.Ws

open NativeWord (Endian fromNe toNe rotateRight rotateRight_eq xorBytes toNe_xor)

/-! ## Keys -/

namespace Key

/-- `Key::new`, from four bytes. -/
def ofList (bytes : Bytes) : Key :=
  ⟨bytes.getD 0 0, bytes.getD 1 0, bytes.getD 2 0, bytes.getD 3 0⟩

/-- The word that is stored in the order of the machine. -/
def word (endian : Endian) (key : Key) : ℕ :=
  fromNe endian key.bytes

/-- `Key::advanced`: `offset as u32` and the product with eight wrap. -/
def advanced (key : Key) (offset : ℕ) : Key :=
  let word := fromNe .little key.bytes
  ofList (toNe .little 4 (rotateRight word (offset % 2 ^ 32 * 8 % 2 ^ 32)))

end Key

/-! ## The kernel -/

/-- `BLOCK`. -/
def blockLen : ℕ :=
  64

/-- `LANE`. -/
def laneLen : ℕ :=
  16

/-- `ALIGN_MIN`. -/
def alignMin : ℕ :=
  384

/-- `align_offset(LANE)` of an address. -/
def alignOffset (address : ℕ) : ℕ :=
  (laneLen - address % laneLen) % laneLen

/-- What the kernel is given: the byte order of the machine, whether the output is the input, and
the input if it is not. -/
structure Kernel where
  endian : Endian
  inPlace : Bool
  src : Bytes

/-- `for word in &mut value`: exclusive or of `count` words with one. -/
def xorWords (endian : Endian) (width word : ℕ) : ℕ → Bytes → Bytes
  | 0, _ => []
  | count + 1, value =>
    toNe endian width (fromNe endian (value.take width) ^^^ word) ++
      xorWords endian width word count (value.drop width)

/-- `while at + n <= len`, with a body that moves on by `n`. -/
def loop (n : ℕ) (body : ℕ → Bytes → Bytes) (len place : ℕ) (dst : Bytes) : ℕ × Bytes :=
  if 0 < n ∧ place + n ≤ len then loop n body len (place + n) (body place dst) else (place, dst)
  termination_by len - place

namespace Kernel

/-- `read_unaligned`: from the output itself if the kernel works in place. -/
def read (self : Kernel) (dst : Bytes) (place n : ℕ) : Bytes :=
  window place n (if self.inPlace then dst else self.src)

/-- Reads `count` words, masks them with one word and writes them. Both pointers stand at `base`. -/
def words (self : Kernel) (base width count word place : ℕ) (dst : Bytes) : Bytes :=
  splice (base + place)
    (xorWords self.endian width word count (self.read dst (base + place) (width * count))) dst

/-- `if at + n <= len`. -/
def once (n : ℕ) (body : ℕ → Bytes → Bytes) (len : ℕ) (state : ℕ × Bytes) : ℕ × Bytes :=
  if state.1 + n ≤ len then (state.1 + n, body state.1 state.2) else state

/-- `tail`. -/
def tail (self : Kernel) (base place len : ℕ) (key : Key) (dst : Bytes) : Bytes :=
  let word := key.word self.endian ||| key.word self.endian <<< 32
  let state := loop 8 (self.words base 8 1 word) len place dst
  let state := once 4 (self.words base 4 1 (key.word self.endian)) len state
  let mask := toNe self.endian 4 (key.word self.endian)
  let state := once 2 (fun place => self.words base 2 1
    (fromNe self.endian [mask.getD (place &&& 3) 0, mask.getD ((place + 1) &&& 3) 0]) place) len
    state
  if state.1 < len then
    splice (base + state.1) ((self.read state.2 (base + state.1) 1).map fun byte =>
      byte ^^^ mask.getD (state.1 &&& 3) 0) state.2
  else state.2

/-- `copy_to`, behind the alignment. -/
def aligned (self : Kernel) (base len : ℕ) (key : Key) (dst : Bytes) : Bytes :=
  let state := loop blockLen (self.words base 4 16 (key.word self.endian)) len 0 dst
  let state := loop laneLen (self.words base 4 4 (key.word self.endian)) len state.1 state.2
  self.tail base state.1 len key state.2

/-- `copy_to`: the address is that of the output. -/
def copyTo (self : Kernel) (key : Key) (address len : ℕ) (dst : Bytes) : Bytes :=
  if alignMin ≤ len ∧ alignOffset address ≠ 0 then
    let lead := alignOffset address
    let dst := self.tail 0 0 lead key dst
    self.aligned lead (len - lead) (key.advanced lead) dst
  else self.aligned 0 len key dst

end Kernel

namespace Key

/-- `Key::apply`, on a buffer at an address. -/
def apply (endian : Endian) (key : Key) (address : ℕ) (buf : Bytes) : Bytes :=
  Kernel.copyTo ⟨endian, true, buf⟩ key address buf.length buf

/-- `Key::copy` as the kernel does it: the common length is written, and it is returned. -/
def copyInto (endian : Endian) (key : Key) (address : ℕ) (dst src : Bytes) : Bytes :=
  (Kernel.copyTo ⟨endian, false, src⟩ key address (min dst.length src.length) dst).take
    (min dst.length src.length)

end Key

/-- `mask::Cursor`. -/
structure Cursor where
  key : Key
  deriving DecidableEq

/-- `Key::cursor`. -/
def Key.cursor (key : Key) : Cursor :=
  ⟨key⟩

/-- `Cursor::apply`. -/
def Cursor.apply (endian : Endian) (self : Cursor) (address : ℕ) (buf : Bytes) : Bytes × Cursor :=
  (self.key.apply endian address buf, ⟨self.key.advanced buf.length⟩)

/-- Pieces of a payload, each at its own address, masked one after the other. -/
def Cursor.applyAll (endian : Endian) (self : Cursor) : List (ℕ × Bytes) → Bytes × Cursor
  | [] => ([], self)
  | piece :: pieces =>
    let masked := self.apply endian piece.1 piece.2
    let rest := Cursor.applyAll endian masked.2 pieces
    (masked.1 ++ rest.1, rest.2)

/-! ## Byte by byte -/

/-- A payload masked from a phase on: every byte with the byte of the key at its place. -/
def masked (key : Key) (phase : ℕ) (data : Bytes) : Bytes :=
  data.mapIdx fun i byte => byte ^^^ key.bytes.getD ((phase + i) % 4) 0

section Masked

variable {key : Key} {phase n : ℕ} {data more : Bytes}

@[simp]
theorem length_masked : (masked key phase data).length = data.length :=
  List.length_mapIdx

theorem masked_append (key : Key) (phase : ℕ) (data more : Bytes) :
    masked key phase (data ++ more) =
      masked key phase data ++ masked key (phase + data.length) more := by
  rw [masked, List.mapIdx_append]
  congr 1
  refine List.mapIdx_eq_mapIdx_iff.mpr fun i hi => ?_
  rw [Nat.add_assoc, Nat.add_comm data.length]

theorem masked_congr {other : ℕ} (h : phase % 4 = other % 4) :
    masked key phase data = masked key other data := by
  refine List.mapIdx_eq_mapIdx_iff.mpr fun i _ => ?_
  rw [Nat.add_mod, h, ← Nat.add_mod]

theorem masked_masked (key : Key) (phase : ℕ) (data : Bytes) :
    masked key phase (masked key phase data) = data := by
  refine List.ext_getElem (by simp) fun i hi hi' => ?_
  simp only [masked, List.getElem_mapIdx]
  rw [UInt8.xor_assoc, UInt8.xor_self, UInt8.xor_zero]

end Masked

/-! ## Rotation -/

section Rotation

variable {key : Key} {offset : ℕ}

theorem fromNe_little (a b c d : UInt8) : fromNe .little [a, b, c, d] =
    a.toNat + 2 ^ 8 * b.toNat + 2 ^ 16 * c.toNat + 2 ^ 24 * d.toNat := by
  simp only [fromNe, List.reverse_cons, List.reverse_nil, List.nil_append, List.cons_append,
    BigEndian.ofBytes, List.length_cons, List.length_nil]
  omega

theorem toNe_little (a b c d : UInt8) :
    toNe .little 4 (a.toNat + 2 ^ 8 * b.toNat + 2 ^ 16 * c.toNat + 2 ^ 24 * d.toNat) =
      [a, b, c, d] := by
  rw [← fromNe_little]
  exact NativeWord.toNe_fromNe .little [a, b, c, d]

/-- A key with its first bytes moved to the end. -/
def Key.turned (key : Key) : ℕ → Key
  | 0 => key
  | 1 => ⟨key.b, key.c, key.d, key.a⟩
  | 2 => ⟨key.c, key.d, key.a, key.b⟩
  | _ => ⟨key.d, key.a, key.b, key.c⟩

/-- The rotation moves the bytes of the key by the offset. -/
theorem advanced_eq (key : Key) (offset : ℕ) : key.advanced offset = key.turned (offset % 4) := by
  obtain ⟨a, b, c, d⟩ := key
  have ha := a.toNat_lt
  have hb := b.toNat_lt
  have hc := c.toNat_lt
  have hd := d.toNat_lt
  have hamount : offset % 2 ^ 32 * 8 % 2 ^ 32 % 32 = 8 * (offset % 4) := by omega
  have hlt : offset % 4 < 4 := Nat.mod_lt _ (by norm_num)
  -- the lowest bytes of the word are the first ones of the key
  have hturned : ∀ low high next : ℕ,
      a.toNat + 2 ^ 8 * b.toNat + 2 ^ 16 * c.toNat + 2 ^ 24 * d.toNat =
        low + 2 ^ (8 * (offset % 4)) * high →
      low < 2 ^ (8 * (offset % 4)) → high < 2 ^ (32 - 8 * (offset % 4)) →
      high + 2 ^ (32 - 8 * (offset % 4)) * low = next →
      Key.advanced ⟨a, b, c, d⟩ offset = Key.ofList (toNe .little 4 next) := by
    intro low high next hword hlow hhigh hnext
    rw [Key.advanced, Key.bytes, fromNe_little, hword, rotateRight_eq hamount hlow hhigh, hnext]
  generalize offset % 4 = quarter at *
  interval_cases quarter
  · rw [hturned 0 (a.toNat + 2 ^ 8 * b.toNat + 2 ^ 16 * c.toNat + 2 ^ 24 * d.toNat)
      (a.toNat + 2 ^ 8 * b.toNat + 2 ^ 16 * c.toNat + 2 ^ 24 * d.toNat) (by omega) (by norm_num)
      (by omega) (by omega), toNe_little]
    rfl
  · rw [hturned a.toNat (b.toNat + 2 ^ 8 * c.toNat + 2 ^ 16 * d.toNat)
      (b.toNat + 2 ^ 8 * c.toNat + 2 ^ 16 * d.toNat + 2 ^ 24 * a.toNat) (by omega) (by omega)
      (by omega) (by omega), toNe_little]
    rfl
  · rw [hturned (a.toNat + 2 ^ 8 * b.toNat) (c.toNat + 2 ^ 8 * d.toNat)
      (c.toNat + 2 ^ 8 * d.toNat + 2 ^ 16 * a.toNat + 2 ^ 24 * b.toNat) (by omega) (by omega)
      (by omega) (by omega), toNe_little]
    rfl
  · rw [hturned (a.toNat + 2 ^ 8 * b.toNat + 2 ^ 16 * c.toNat) d.toNat
      (d.toNat + 2 ^ 8 * a.toNat + 2 ^ 16 * b.toNat + 2 ^ 24 * c.toNat) (by omega) (by omega)
      (by omega) (by omega), toNe_little]
    rfl

theorem getD_advanced (key : Key) (offset i : ℕ) :
    (key.advanced offset).bytes.getD (i % 4) 0 = key.bytes.getD ((offset + i) % 4) 0 := by
  rw [advanced_eq, Nat.add_mod]
  have hlt : offset % 4 < 4 := Nat.mod_lt _ (by norm_num)
  have hlt' : i % 4 < 4 := Nat.mod_lt _ (by norm_num)
  generalize offset % 4 = quarter at *
  generalize i % 4 = place at *
  interval_cases quarter <;> interval_cases place <;> rfl

theorem masked_advanced (key : Key) (offset phase : ℕ) (data : Bytes) :
    masked (key.advanced offset) phase data = masked key (offset + phase) data := by
  refine List.mapIdx_eq_mapIdx_iff.mpr fun i _ => ?_
  rw [getD_advanced, Nat.add_assoc]

theorem advanced_advanced (key : Key) (offset later : ℕ) :
    (key.advanced offset).advanced later = key.advanced (offset + later) := by
  rw [advanced_eq, advanced_eq, advanced_eq, Nat.add_mod]
  have hlt : offset % 4 < 4 := Nat.mod_lt _ (by norm_num)
  have hlt' : later % 4 < 4 := Nat.mod_lt _ (by norm_num)
  generalize offset % 4 = quarter at *
  generalize later % 4 = place at *
  interval_cases quarter <;> interval_cases place <;> rfl

end Rotation

/-! ## Words -/

section Words

variable {endian : Endian} {key : Key} {phase width count : ℕ} {value word : Bytes}

/-- Exclusive or of words masks their bytes, if the key stands in each of them as it should. -/
theorem xorWords_eq (hword : word.length = width)
    (hmasked : ∀ value : Bytes, value.length = width → xorBytes value word = masked key phase value)
    (hwidth : width % 4 = 0 ∨ count ≤ 1) (hvalue : value.length = width * count) :
    xorWords endian width (fromNe endian word) count value = masked key phase value := by
  induction count generalizing value with
  | zero =>
    obtain rfl : value = [] := List.eq_nil_of_length_eq_zero hvalue
    rfl
  | succ count ih =>
    rw [Nat.mul_succ] at hvalue
    have htake : (value.take width).length = width := by
      rw [List.length_take]
      omega
    have hdrop : (value.drop width).length = width * count := by
      rw [List.length_drop]
      omega
    have hfirst := toNe_xor endian (htake.trans hword.symm)
    rw [htake] at hfirst
    rw [xorWords, hfirst, hmasked _ htake]
    conv_rhs => rw [← List.take_append_drop width value, masked_append, htake]
    congr 1
    rcases hwidth with hwidth | hcount
    · rw [ih (.inl hwidth) hdrop]
      exact masked_congr (by omega)
    · obtain rfl : count = 0 := by omega
      rw [Nat.mul_zero] at hdrop
      rw [List.eq_nil_of_length_eq_zero hdrop]
      rfl

end Words

/-! ## The loops -/

section Kernel

variable {kernel : Kernel} {key : Key} {source dst value : Bytes}
  {base width count word place len n : ℕ}

/-- The output with so many bytes behind the base masked. -/
def upTo (key : Key) (source dst : Bytes) (base n : ℕ) : Bytes :=
  splice base (masked key 0 (window base n source)) dst

/-- Both the input and the output reach so far, and the input is the output if the kernel works in
place. -/
structure Kernel.Reaches (kernel : Kernel) (source dst : Bytes) (stop : ℕ) : Prop where
  source_eq : source = if kernel.inPlace then dst else kernel.src
  le_source : stop ≤ source.length
  le_dst : stop ≤ dst.length

variable {stop : ℕ}

theorem upTo_zero (key : Key) (source dst : Bytes) (base : ℕ) :
    upTo key source dst base 0 = dst := by
  rw [upTo, window, List.take_zero]
  exact splice_nil

theorem length_masked_window (key : Key) (h : kernel.Reaches source dst stop)
    (hle : base + n ≤ stop) :
    (masked key 0 (window base n source)).length = n := by
  have := h.le_source
  rw [length_masked, length_window (by omega)]

theorem read_upTo (h : kernel.Reaches source dst stop) (hle : base + place + n ≤ stop) :
    kernel.read (upTo key source dst base place) (base + place) n =
      window (base + place) n source := by
  have hdst := h.le_dst
  have hlength := length_masked_window key h (show base + place ≤ stop by omega)
  rw [Kernel.read, h.source_eq]
  split_ifs with hplace
  · rw [h.source_eq, if_pos hplace] at hlength
    rw [upTo, window_splice_of_ge]
    · omega
    · omega
  · rfl

theorem splice_upTo (h : kernel.Reaches source dst stop) (hle : base + place + n ≤ stop)
    (hvalue : value = masked key place (window (base + place) n source)) :
    splice (base + place) value (upTo key source dst base place) =
      upTo key source dst base (place + n) := by
  have hdst := h.le_dst
  have hsource := h.le_source
  have hlength := length_masked_window key h (show base + place ≤ stop by omega)
  have hnext : (masked key place (window (base + place) n source)).length = n := by
    rw [length_masked, length_window (by omega)]
  have hsplit : window base (place + n) source =
      window base place source ++ window (base + place) n source := by
    rw [window, List.take_add, List.drop_drop]
    rfl
  have hwindow : (window base place source).length = place := length_window (by omega)
  subst hvalue
  rw [upTo, upTo, hsplit, masked_append, hwindow, Nat.zero_add]
  have hsplice := @splice_splice_right _ base (masked key 0 (window base place source))
    (masked key place (window (base + place) n source)) dst (by omega)
  rw [hlength] at hsplice
  exact hsplice

theorem words_upTo {word : Bytes} (h : kernel.Reaches source dst stop) (hword : word.length = width)
    (hmasked : ∀ value : Bytes, value.length = width →
      xorBytes value word = masked key place value)
    (hwidth : width % 4 = 0 ∨ count ≤ 1) (hle : base + place + width * count ≤ stop) :
    kernel.words base width count (fromNe kernel.endian word) place
        (upTo key source dst base place) =
      upTo key source dst base (place + width * count) := by
  have hsource := h.le_source
  rw [Kernel.words, read_upTo h hle]
  refine splice_upTo h hle ?_
  exact xorWords_eq hword hmasked hwidth (length_window (by omega))

/-- A loop that moves on by `n` bytes stops less than `n` bytes in front of the end. -/
theorem loop_upTo (key : Key) (source dst : Bytes) (base : ℕ) {body : ℕ → Bytes → Bytes}
    (hn : 0 < n)
    (hbody : ∀ place, place % n = 0 → place + n ≤ len →
      body place (upTo key source dst base place) = upTo key source dst base (place + n))
    (hplace : place % n = 0) (hle : place ≤ len) :
    ∃ next, place ≤ next ∧ next ≤ len ∧ len < next + n ∧ next % n = 0 ∧
      loop n body len place (upTo key source dst base place) =
        (next, upTo key source dst base next) := by
  induction hrest : len - place using Nat.strong_induction_on generalizing place with
  | _ rest ih =>
    rw [loop]
    split_ifs with hmore
    · rw [hbody place hplace hmore.2]
      obtain ⟨next, hnext, hlast, hshort, hmod, heq⟩ :=
        ih (len - (place + n)) (by omega) (by rw [Nat.add_mod_right, hplace]) hmore.2 rfl
      exact ⟨next, by omega, hlast, hshort, hmod, heq⟩
    · exact ⟨place, le_rfl, hle, by omega, hplace, rfl⟩

theorem xorBytes_key (hplace : place % 4 = 0) {value : Bytes} (h : value.length = 4) :
    xorBytes value key.bytes = masked key place value := by
  rw [masked_congr (hplace.trans (Nat.zero_mod 4).symm)]
  match value, h with
  | [a, b, c, d], _ => rfl

theorem xorBytes_double (hplace : place % 4 = 0) {value : Bytes} (h : value.length = 8) :
    xorBytes value (key.bytes ++ key.bytes) = masked key place value := by
  rw [masked_congr (hplace.trans (Nat.zero_mod 4).symm)]
  match value, h with
  | [a, b, c, d, e, f, g, h], _ =>
    simp [xorBytes, masked, Key.bytes]

theorem word_double (endian : Endian) (key : Key) :
    key.word endian ||| key.word endian <<< 32 = fromNe endian (key.bytes ++ key.bytes) :=
  (NativeWord.fromNe_double endian key.bytes).symm

theorem mask_eq (endian : Endian) (key : Key) : toNe endian 4 (key.word endian) = key.bytes :=
  NativeWord.toNe_fromNe endian key.bytes

theorem and_three (n : ℕ) : n &&& 3 = n % 4 :=
  Nat.and_two_pow_sub_one_eq_mod n 2

theorem xorBytes_pair {value : Bytes} (h : value.length = 2) :
    xorBytes value [key.bytes.getD (place &&& 3) 0, key.bytes.getD ((place + 1) &&& 3) 0] =
      masked key place value := by
  rw [and_three, and_three]
  match value, h with
  | [a, b], _ => rfl

theorem once_upTo (key : Key) (source dst : Bytes) (base : ℕ) (body : ℕ → Bytes → Bytes)
    (hbody : place + n ≤ len →
      body place (upTo key source dst base place) = upTo key source dst base (place + n))
    (hle : place ≤ len) :
    ∃ next, place ≤ next ∧ next ≤ len ∧ (next = place ∧ len < place + n ∨ next = place + n) ∧
      Kernel.once n body len (place, upTo key source dst base place) =
        (next, upTo key source dst base next) := by
  rw [Kernel.once]
  simp only
  split_ifs with hmore
  · exact ⟨place + n, by omega, hmore, .inr rfl, by rw [hbody hmore]⟩
  · exact ⟨place, le_rfl, hle, .inl ⟨rfl, by omega⟩, rfl⟩

theorem tail_upTo (h : kernel.Reaches source dst stop) (hplace : place % 8 = 0) (hle : place ≤ len)
    (hstop : base + len ≤ stop) :
    kernel.tail base place len key (upTo key source dst base place) =
      upTo key source dst base len := by
  have hsource := h.le_source
  rw [Kernel.tail]
  simp only [word_double, mask_eq]
  have hdouble : ∀ place, place % 8 = 0 → place + 8 ≤ len →
      kernel.words base 8 1 (fromNe kernel.endian (key.bytes ++ key.bytes)) place
        (upTo key source dst base place) = upTo key source dst base (place + 8) :=
    fun place hmod hmore => words_upTo h rfl (fun value hvalue => xorBytes_double (by omega) hvalue)
      (.inl rfl) (by omega)
  obtain ⟨next₁, h₁, hlast₁, hshort₁, hmod₁, heq₁⟩ :=
    loop_upTo key source dst base (by norm_num) hdouble hplace hle
  rw [heq₁]
  have hword : next₁ + 4 ≤ len → kernel.words base 4 1 (key.word kernel.endian) next₁
      (upTo key source dst base next₁) = upTo key source dst base (next₁ + 4) :=
    fun hmore => words_upTo h rfl (fun value hvalue => xorBytes_key (by omega) hvalue) (.inl rfl)
      (by omega)
  obtain ⟨next₂, h₂, hlast₂, hcase₂, heq₂⟩ := once_upTo key source dst base _ hword hlast₁
  rw [heq₂]
  have hpair : next₂ + 2 ≤ len → kernel.words base 2 1 (fromNe kernel.endian
      [key.bytes.getD (next₂ &&& 3) 0, key.bytes.getD ((next₂ + 1) &&& 3) 0]) next₂
        (upTo key source dst base next₂) = upTo key source dst base (next₂ + 2) :=
    fun hmore => words_upTo h rfl (fun value hvalue => xorBytes_pair hvalue) (.inr le_rfl)
      (by omega)
  obtain ⟨next₃, h₃, hlast₃, hcase₃, heq₃⟩ := once_upTo key source dst base
    (fun place => kernel.words base 2 1 (fromNe kernel.endian
      [key.bytes.getD (place &&& 3) 0, key.bytes.getD ((place + 1) &&& 3) 0]) place) hpair hlast₂
  rw [heq₃]
  simp only
  split_ifs with hmore
  · -- one byte is left
    rw [read_upTo h (by omega), show len = next₃ + 1 by omega]
    refine splice_upTo h (by omega) ?_
    have hlength : (window (base + next₃) 1 source).length = 1 := length_window (by omega)
    obtain ⟨byte, hbyte⟩ := List.length_eq_one_iff.mp hlength
    rw [hbyte, and_three]
    rfl
  · rw [show next₃ = len by omega]

/-- Behind the alignment, the kernel masks all of the bytes. -/
theorem aligned_upTo (h : kernel.Reaches source dst stop) (hstop : base + len ≤ stop) :
    kernel.aligned base len key dst = upTo key source dst base len := by
  have hwords : ∀ count place, place % 4 = 0 → place + 4 * count ≤ len →
      kernel.words base 4 count (key.word kernel.endian) place (upTo key source dst base place) =
        upTo key source dst base (place + 4 * count) :=
    fun count place hmod hmore => words_upTo h rfl (fun value hvalue => xorBytes_key hmod hvalue)
      (.inl rfl) (by omega)
  have hblock : ∀ place, place % blockLen = 0 → place + blockLen ≤ len →
      kernel.words base 4 16 (key.word kernel.endian) place (upTo key source dst base place) =
        upTo key source dst base (place + blockLen) := by
    intro place hmod hmore
    rw [blockLen] at hmod hmore ⊢
    exact hwords 16 place (by omega) hmore
  have hlane : ∀ place, place % laneLen = 0 → place + laneLen ≤ len →
      kernel.words base 4 4 (key.word kernel.endian) place (upTo key source dst base place) =
        upTo key source dst base (place + laneLen) := by
    intro place hmod hmore
    rw [laneLen] at hmod hmore ⊢
    exact hwords 4 place (by omega) hmore
  obtain ⟨next₁, h₁, hlast₁, hshort₁, hmod₁, heq₁⟩ :=
    loop_upTo key source dst base (by decide) hblock (Nat.zero_mod _) (Nat.zero_le len)
  have hmod : next₁ % laneLen = 0 := by
    rw [blockLen] at hmod₁
    rw [laneLen]
    omega
  obtain ⟨next₂, h₂, hlast₂, hshort₂, hmod₂, heq₂⟩ :=
    loop_upTo key source dst base (by decide) hlane hmod hlast₁
  rw [upTo_zero] at heq₁
  rw [laneLen] at hmod₂
  rw [Kernel.aligned]
  simp only [heq₁, heq₂]
  exact tail_upTo h (by omega) hlast₂ hstop

/-- The kernel masks the common length, however the output is aligned. -/
theorem copyTo_eq (h : kernel.Reaches source dst len) (address : ℕ) :
    kernel.copyTo key address len dst = upTo key source dst 0 len := by
  have hsource := h.le_source
  have hdst := h.le_dst
  rw [Kernel.copyTo]
  split_ifs with halign
  · -- the unaligned bytes in front, and the rest with the rotated key
    obtain ⟨hlong, -⟩ := halign
    have hlead : alignOffset address < 16 := Nat.mod_lt _ (by decide)
    rw [alignMin] at hlong
    generalize alignOffset address = lead at *
    have hfirst : kernel.tail 0 0 lead key (upTo key source dst 0 0) = upTo key source dst 0 lead :=
      tail_upTo h (Nat.zero_mod 8) (Nat.zero_le lead) (by omega)
    have hread : kernel.read (upTo key source dst 0 lead) (0 + lead) (len - lead) =
        window (0 + lead) (len - lead) source := read_upTo h (by omega)
    have hsplice : splice (0 + lead) (masked key lead (window (0 + lead) (len - lead) source))
        (upTo key source dst 0 lead) = upTo key source dst 0 (lead + (len - lead)) :=
      splice_upTo h (by omega) rfl
    have hlength : (upTo key source dst 0 lead).length = dst.length := by
      have := length_masked_window key h (show 0 + lead ≤ len by omega)
      rw [upTo, length_splice (by omega)]
    rw [Nat.zero_add, Kernel.read] at hread
    rw [Nat.zero_add, Nat.add_sub_cancel' (by omega)] at hsplice
    rw [upTo_zero] at hfirst
    have hreaches : kernel.Reaches
        (if kernel.inPlace then upTo key source dst 0 lead else kernel.src)
        (upTo key source dst 0 lead) len := by
      refine ⟨rfl, ?_, by omega⟩
      split_ifs with hplace
      · omega
      · rw [h.source_eq, if_neg hplace] at hsource
        exact hsource
    simp only [hfirst]
    rw [aligned_upTo hreaches (by omega), upTo, hread, masked_advanced, Nat.add_zero, hsplice]
  · exact aligned_upTo h (by omega)

end Kernel

/-! ## The kernel as a mask -/

section Kernels

variable {endian : Endian} {key : Key} {phase : ℕ} {buf : Bytes}

theorem apply_eq (endian : Endian) (key : Key) (address : ℕ) (buf : Bytes) :
    key.apply endian address buf = masked key 0 buf := by
  have hreaches : Kernel.Reaches ⟨endian, true, buf⟩ buf buf buf.length := ⟨rfl, le_rfl, le_rfl⟩
  rw [Key.apply, copyTo_eq hreaches, upTo, window, List.drop_zero, List.take_length,
    splice_of_length_eq length_masked]

theorem copyInto_eq (endian : Endian) (key : Key) (address : ℕ) (dst src : Bytes) :
    key.copyInto endian address dst src = masked key 0 (src.take (min dst.length src.length)) := by
  have hreaches : Kernel.Reaches ⟨endian, false, src⟩ src dst (min dst.length src.length) :=
    ⟨rfl, min_le_right _ _, min_le_left _ _⟩
  rw [Key.copyInto, copyTo_eq hreaches, upTo, window, List.drop_zero, splice, List.take_zero,
    List.nil_append]
  exact List.take_left' (by rw [length_masked, List.length_take]; omega)

theorem applyAll_eq (endian : Endian) (key : Key) (pieces : List (ℕ × Bytes)) :
    Cursor.applyAll endian ⟨key⟩ pieces =
      (masked key 0 (pieces.flatMap Prod.snd),
        ⟨key.advanced (pieces.flatMap Prod.snd).length⟩) := by
  induction pieces generalizing key with
  | nil =>
    rw [List.flatMap_nil, advanced_eq]
    rfl
  | cons piece pieces ih =>
    rw [Cursor.applyAll, Cursor.apply]
    simp only
    rw [ih, apply_eq, List.flatMap_cons, masked_append, masked_advanced, advanced_advanced,
      List.length_append, Nat.add_zero, Nat.zero_add]

/-- For every byte order, key, phase, length and alignment, in place and not: the kernel masks byte
`i` with byte `(phase + i) % 4` of the key, pieces are masked as the whole, and masking twice gives
the payload back. -/
theorem mask_kernel (endian : Endian) (key : Key) :
    (∀ phase address buf, (key.advanced phase).apply endian address buf =
      buf.mapIdx fun i byte => byte ^^^ key.bytes.getD ((phase + i) % 4) 0) ∧
    (∀ phase address dst src, (key.advanced phase).copyInto endian address dst src =
      (src.take (min dst.length src.length)).mapIdx fun i byte =>
        byte ^^^ key.bytes.getD ((phase + i) % 4) 0) ∧
    (∀ address data, key.copyInto endian address (List.replicate data.length 0) data =
      key.copy data) ∧
    (∀ phase address pieces, Cursor.applyAll endian (key.advanced phase).cursor pieces =
      ((key.advanced phase).apply endian address (pieces.flatMap Prod.snd),
        (key.advanced (phase + (pieces.flatMap Prod.snd).length)).cursor)) ∧
    ∀ phase address again buf, (key.advanced phase).apply endian again
      ((key.advanced phase).apply endian address buf) = buf := by
  have happly (phase address : ℕ) (buf : Bytes) :
      (key.advanced phase).apply endian address buf = masked key phase buf := by
    rw [apply_eq, masked_advanced, Nat.add_zero]
  refine ⟨happly, fun phase address dst src => ?_, fun address data => ?_,
    fun phase address pieces => ?_, fun phase address again buf => ?_⟩
  · rw [copyInto_eq, masked_advanced, Nat.add_zero]
    rfl
  · rw [copyInto_eq, List.length_replicate, Nat.min_self, List.take_length]
    simp only [masked, Nat.zero_add]
    rfl
  · rw [Key.cursor, applyAll_eq, happly, masked_advanced, Nat.add_zero, advanced_advanced]
    rfl
  · rw [happly, happly, masked_masked]

end Kernels

end Sark.Ws
