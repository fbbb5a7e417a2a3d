import Sark.Http.Field.Base64
import Sark.Library.Splice

/-!
# Base64 in place

The decoder of Base64 text inside one buffer (`http/src/field/base64/decode`). Source and
destination may overlap: depending on where the destination begins, the groups are decoded forwards,
backwards, or backwards up to the place where the two meet and forwards behind it. A destination that
does not begin behind the source is decoded in blocks first.

* `View.commit_eq`: in each of these orders, the decoded bytes of the original source are written
  and nothing else is.
* `Decoder.in_place`: decoding in place against decoding a copy.
* `canonical_codec`: the encoder, the validation and the decoder against each other.
-/

namespace Sark.Base64

/-! ## The decoder -/

/-- `decode::Mode`. -/
inductive Mode
  | forward
  | backward
  | overlap (groups : ℕ)
  deriving DecidableEq, Repr

/-- `decode::View`. -/
structure View where
  bytes : Bytes
  origin : ℕ
  destination : ℕ
  shape : Shape
  mode : Mode
  deriving DecidableEq, Repr

namespace View

/-- `View::try_new`. A sum that overflows is larger than any buffer. -/
def tryNew (bytes : Bytes) (start stop dst : ℕ) : Except Error View := do
  let cap := bytes.length
  if ¬(start ≤ stop ∧ stop ≤ cap) then .error (.source start stop cap)
  else do
    let shape ← Encoded.shape (window start (stop - start) bytes)
    if cap < dst + shape.decoded then .error (.output dst shape.decoded cap)
    else .ok {
      bytes := bytes
      origin := start
      destination := dst
      shape := shape
      mode :=
        if dst ≤ start then .forward
        else if dst - start < shape.groups then .overlap (dst - start)
        else .backward }

/-- `View::read`: reading outside the buffer is undefined. -/
def read (self : View) (n place : ℕ) : Option Bytes :=
  if place + n ≤ self.bytes.length then some (window place n self.bytes) else none

/-- `View::write`: writing outside the buffer is undefined. -/
def write (self : View) (place : ℕ) (value : Bytes) : Option View :=
  if place + value.length ≤ self.bytes.length then
    some { self with bytes := splice place value self.bytes }
  else none

/-- The view of another buffer. -/
abbrev holding (self : View) (bytes : Bytes) : View :=
  { self with bytes := bytes }

end View

namespace Scalar

/-- `scalar::full`. -/
def full (view : View) (read written : ℕ) : Option View := do
  let input ← view.read 4 read
  match input.map VALUES with
  | [a, b, c, d] =>
    view.write written [a <<< 2 ||| b >>> 4, b <<< 4 ||| c >>> 2, c <<< 6 ||| d]
  | _ => none

/-- `scalar::tail`. -/
def tail (view : View) (read written : ℕ) : Tail → Option View
  | .none => some view
  | .two => do
    let input ← view.read 2 read
    match input.map VALUES with
    | [a, b] => view.write written [a <<< 2 ||| b >>> 4]
    | _ => none
  | .three => do
    let input ← view.read 3 read
    match input.map VALUES with
    | [a, b, c] => view.write written [a <<< 2 ||| b >>> 4, b <<< 4 ||| c >>> 2]
    | _ => none

/-- The loop of `scalar::forward`, with the tail behind it. -/
def forwardLoop (last : Tail) : ℕ → View → ℕ → ℕ → Option View
  | 0, view, read, written => tail view read written last
  | groups + 1, view, read, written => do
    let view ← full view read written
    forwardLoop last groups view (read + 4) (written + 3)

/-- `scalar::forward`. -/
def forward (view : View) (read written : ℕ) (shape : Shape) : Option View :=
  let consumed := read - view.origin
  forwardLoop shape.tail ((shape.symbols - consumed) / 4) view read written

/-- The loop of `scalar::backward`. -/
def backwardLoop : ℕ → View → Option View
  | 0, view => some view
  | groups + 1, view => do
    let view ← full view (view.origin + groups * 4) (view.destination + groups * 3)
    backwardLoop groups view

/-- `scalar::backward`. -/
def backward (view : View) (shape : Shape) : Option View := do
  let groups := shape.groups
  let view ← tail view (view.origin + groups * 4) (view.destination + groups * 3) shape.tail
  backwardLoop groups view

end Scalar

namespace Simd

/-- One lane of `simd::values`: the operations wrap. -/
def lane (byte : UInt8) : UInt8 :=
  byte + 16 + 3 * (if byte = 0x2b then 1 else 0) - 12 * (if 0x30 ≤ byte then 1 else 0) -
    69 * (if 0x41 ≤ byte then 1 else 0) - 6 * (if 0x61 ≤ byte then 1 else 0)

/-- `simd::values`. -/
def values (input : Bytes) : Bytes :=
  input.map lane

/-- `simd::pack`. -/
def pack : Bytes → Bytes
  | a :: b :: c :: d :: rest =>
    [a <<< 2 ||| b >>> 4, b <<< 4 ||| c >>> 2, c <<< 6 ||| d] ++ pack rest
  | _ => []

/-- The loop of `simd::decode`. -/
def loop : ℕ → View → ℕ → ℕ → Option (View × ℕ × ℕ)
  | 0, view, read, written => some (view, read, written)
  | blocks + 1, view, read, written => do
    let lanes ← view.read 16 read
    let view ← view.write written (pack (values lanes))
    loop blocks view (read + 16) (written + 12)

/-- `simd::decode`, with the `Progress` that it returns. -/
def decode (view : View) : Option (View × ℕ × ℕ) :=
  loop (view.shape.groups / 4) view view.origin view.destination

end Simd

/-- `View::commit`. -/
def View.commit (self : View) : Option (Bytes × ℕ) := do
  let shape := self.shape
  let view ← match self.mode with
    | .forward => (Simd.decode self).bind fun progress =>
        Scalar.forward progress.1 progress.2.1 progress.2.2 shape
    | .backward => Scalar.backward self shape
    | .overlap groups =>
      let lead := Shape.full groups
      (Scalar.backward self lead).bind fun view =>
        Scalar.forward view (view.origin + lead.symbols) (view.destination + lead.decoded) shape
  return (view.bytes, shape.decoded)

/-- `Decoder::decode`, with the buffer that it leaves behind. -/
def Decoder.decode (bytes : Bytes) (start stop dst : ℕ) : Option (Bytes × Except Error ℕ) :=
  match View.tryNew bytes start stop dst with
  | .error error => some (bytes, .error error)
  | .ok view => view.commit.map fun done => (done.1, .ok done.2)

/-! ## Windows of symbols -/

theorem window_append {α : Type*} (start n m : ℕ) (buffer : List α) :
    window start (n + m) buffer = window start n buffer ++ window (start + n) m buffer := by
  rw [window, window, window, List.take_add, List.drop_drop]

theorem unpack_append {lead rest : Bytes} (h : 4 ∣ lead.length) :
    unpack (lead ++ rest) = unpack lead ++ unpack rest := by
  induction lead using unpack.induct with
  | case1 a b c d lead ih =>
    simp only [List.length_cons] at h
    rw [List.cons_append, List.cons_append, List.cons_append, List.cons_append, unpack, unpack,
      ih (by omega)]
    rfl
  | case2 a b c => exact absurd h (by norm_num)
  | case3 a b => exact absurd h (by norm_num)
  | case4 lead hfour hthree htwo =>
    rcases lead with _ | ⟨a, _ | ⟨b, _ | ⟨c, _ | ⟨d, lead⟩⟩⟩⟩
    · rfl
    · exact absurd h (by norm_num)
    · exact (htwo a b rfl).elim
    · exact (hthree a b c rfl).elim
    · exact (hfour a b c d lead rfl).elim

/-- The bytes that the symbols of a window stand for. -/
def decodedAt (start n : ℕ) (buffer : Bytes) : Bytes :=
  unpack ((window start n buffer).map VALUES)

section Windows

variable {start n m groups : ℕ} {buffer : Bytes}

theorem decodedAt_append (h : 4 ∣ n) (hn : start + n ≤ buffer.length) :
    decodedAt start (n + m) buffer =
      decodedAt start n buffer ++ decodedAt (start + n) m buffer := by
  rw [decodedAt, window_append, List.map_append, unpack_append]
  · rfl
  · rwa [List.length_map, length_window hn]

theorem length_decodedAt {shape : Shape} (h : start + shape.symbols ≤ buffer.length) :
    (decodedAt start shape.symbols buffer).length = shape.decoded :=
  Encoded.length_unpack (by rw [List.length_map, length_window h])

theorem length_decodedAt_groups (h : start + groups * 4 ≤ buffer.length) :
    (decodedAt start (groups * 4) buffer).length = groups * 3 :=
  @length_decodedAt start buffer (Shape.full groups) h

end Windows

/-! ## One group -/

section Groups

variable {view : View} {read written : ℕ}

theorem Scalar.full_eq (hread : read + 4 ≤ view.bytes.length)
    (hwritten : written + 3 ≤ view.bytes.length) :
    Scalar.full view read written =
      some (view.holding (splice written (decodedAt read 4 view.bytes) view.bytes)) := by
  have hlength := length_window hread
  obtain ⟨a, b, c, d, hwindow⟩ := List.length_eq_four.mp hlength
  rw [Scalar.full, View.read, if_pos hread, Option.bind_eq_bind, Option.bind_some, decodedAt,
    hwindow]
  simp [View.write, hwritten, unpack]

theorem Shape.symbols_two : (Shape.mk 0 .two).symbols = 2 :=
  rfl

theorem Shape.symbols_three : (Shape.mk 0 .three).symbols = 3 :=
  rfl

theorem Scalar.tail_eq (last : Tail) (hread : read + (Shape.mk 0 last).symbols ≤ view.bytes.length)
    (hwritten : written + (Shape.mk 0 last).decoded ≤ view.bytes.length) :
    Scalar.tail view read written last = some (view.holding (splice written
      (decodedAt read (Shape.mk 0 last).symbols view.bytes) view.bytes)) := by
  have hlength := length_window hread
  rw [decodedAt]
  cases last with
  | none =>
    have hnil := List.length_eq_zero_iff.mp hlength
    rw [hnil, List.map_nil, unpack, splice_nil]
    · rfl
    all_goals simp
  | two =>
    have hread' : read + 2 ≤ view.bytes.length := hread
    have hwritten' : written + 1 ≤ view.bytes.length := hwritten
    obtain ⟨a, b, hwindow⟩ := List.length_eq_two.mp hlength
    rw [Shape.symbols_two] at hwindow ⊢
    rw [Scalar.tail, View.read, if_pos hread', Option.bind_eq_bind, Option.bind_some, hwindow]
    simp [View.write, hwritten', unpack]
  | three =>
    have hread' : read + 3 ≤ view.bytes.length := hread
    have hwritten' : written + 2 ≤ view.bytes.length := hwritten
    obtain ⟨a, b, c, hwindow⟩ := List.length_eq_three.mp hlength
    rw [Shape.symbols_three] at hwindow ⊢
    rw [Scalar.tail, View.read, if_pos hread', Option.bind_eq_bind, Option.bind_some, hwindow]
    simp [View.write, hwritten', unpack]

end Groups

theorem Shape.symbols_succ (groups : ℕ) (last : Tail) :
    (Shape.mk (groups + 1) last).symbols = 4 + (Shape.mk groups last).symbols := by
  simp only [Shape.symbols]
  ring

theorem Shape.decoded_succ (groups : ℕ) (last : Tail) :
    (Shape.mk (groups + 1) last).decoded = 3 + (Shape.mk groups last).decoded := by
  simp only [Shape.decoded]
  ring

/-! ## Forwards -/

section Forwards

variable {view : View} {buffer done : Bytes} {start read : ℕ}

theorem decodedAt_splice_of_ge {n : ℕ} (h : start + done.length ≤ buffer.length)
    (hge : start + done.length ≤ read) :
    decodedAt read n (splice start done buffer) = decodedAt read n buffer := by
  rw [decodedAt, window_splice_of_ge h hge, decodedAt]

/-- Groups that are written no further than they are read. -/
theorem Scalar.forwardLoop_eq (last : Tail) {groups : ℕ}
    (hread : read + (Shape.mk groups last).symbols ≤ buffer.length)
    (hroom : start + done.length + (Shape.mk groups last).decoded ≤ buffer.length)
    (hbehind : start + done.length ≤ read) (hbytes : view.bytes = splice start done buffer) :
    Scalar.forwardLoop last groups view read (start + done.length) =
      some (view.holding (splice start
        (done ++ decodedAt read (Shape.mk groups last).symbols buffer) buffer)) := by
  induction groups generalizing view done read with
  | zero =>
    have hlength : view.bytes.length = buffer.length := by rw [hbytes, length_splice (by omega)]
    rw [Scalar.forwardLoop, Scalar.tail_eq last (by omega) (by omega), hbytes,
      decodedAt_splice_of_ge (by omega) hbehind, splice_splice_right]
    rw [length_decodedAt hread]
    omega
  | succ groups ih =>
    have hlength : view.bytes.length = buffer.length := by rw [hbytes, length_splice (by omega)]
    rw [Shape.symbols_succ] at hread ⊢
    rw [Shape.decoded_succ] at hroom
    have hgroup : (decodedAt read 4 buffer).length = 3 :=
      @length_decodedAt_groups read 1 buffer (by omega)
    rw [Scalar.forwardLoop, Scalar.full_eq (by omega) (by omega), Option.bind_eq_bind,
      Option.bind_some, hbytes, decodedAt_splice_of_ge (by omega) hbehind,
      splice_splice_right (by omega), decodedAt_append (by norm_num) (by omega),
      ← List.append_assoc]
    have := @ih (view.holding (splice start (done ++ decodedAt read 4 buffer) buffer))
      (done ++ decodedAt read 4 buffer) (read + 4) (by omega)
      (by rw [List.length_append, hgroup]; omega) (by rw [List.length_append, hgroup]; omega) rfl
    rwa [List.length_append, hgroup] at this

theorem Simd.lane_eq {byte : UInt8} (h : byte ∈ TABLE) : lane byte = VALUES byte := by
  have hall : ∀ byte ∈ TABLE, lane byte = VALUES byte := by
    simp only [VALUES_eq]
    decide +kernel
  exact hall byte h

theorem Simd.pack_eq {values : Bytes} (h : 4 ∣ values.length) : pack values = unpack values := by
  induction values using pack.induct with
  | case1 a b c d rest ih =>
    simp only [List.length_cons] at h
    rw [pack, unpack, ih (by omega)]
    rfl
  | case2 values hfour =>
    rcases values with _ | ⟨a, _ | ⟨b, _ | ⟨c, _ | ⟨d, rest⟩⟩⟩⟩
    · rfl
    · exact absurd h (by norm_num)
    · exact absurd h (by norm_num)
    · exact absurd h (by norm_num)
    · exact (hfour a b c d rest rfl).elim

theorem Simd.pack_values {input : Bytes} (h : ∀ byte ∈ input, byte ∈ TABLE)
    (hlength : 4 ∣ input.length) : pack (values input) = unpack (input.map VALUES) := by
  rw [values, pack_eq (by rwa [List.length_map])]
  congr 1
  exact List.map_congr_left fun byte hbyte => lane_eq (h byte hbyte)

/-- Blocks that are written no further than they are read. -/
theorem Simd.loop_eq {blocks : ℕ} (hread : read + blocks * 16 ≤ buffer.length)
    (hroom : start + done.length + blocks * 12 ≤ buffer.length)
    (hbehind : start + done.length ≤ read) (hbytes : view.bytes = splice start done buffer)
    (hmem : ∀ byte ∈ window read (blocks * 16) buffer, byte ∈ TABLE) :
    Simd.loop blocks view read (start + done.length) =
      some (view.holding (splice start (done ++ decodedAt read (blocks * 16) buffer) buffer),
        read + blocks * 16, start + done.length + blocks * 12) := by
  induction blocks generalizing view done read with
  | zero =>
    have hnil : decodedAt read 0 buffer = [] := by simp [decodedAt, window, unpack]
    simp only [Simd.loop, Nat.zero_mul, hnil, List.append_nil, ← hbytes, Nat.add_zero]
  | succ blocks ih =>
    have hlength : view.bytes.length = buffer.length := by rw [hbytes, length_splice (by omega)]
    have hsplit : (blocks + 1) * 16 = 16 + blocks * 16 := by ring
    rw [hsplit, window_append] at hmem
    have hpack : pack (values (window read 16 view.bytes)) = decodedAt read 16 buffer := by
      rw [hbytes, window_splice_of_ge (by omega) hbehind,
        pack_values (fun byte hbyte => hmem byte (List.mem_append_left _ hbyte))
          (by rw [length_window (by omega)]; norm_num), decodedAt]
    have hblock : (decodedAt read 16 buffer).length = 12 :=
      @length_decodedAt_groups read 4 buffer (by omega)
    rw [Simd.loop, View.read, if_pos (by omega), Option.bind_eq_bind, Option.bind_some, hpack,
      View.write, hblock, if_pos (by omega), Option.bind_eq_bind, Option.bind_some, hbytes,
      splice_splice_right (by omega), hsplit, decodedAt_append (by norm_num) (by omega),
      ← List.append_assoc]
    have := @ih (view.holding (splice start (done ++ decodedAt read 16 buffer) buffer))
      (done ++ decodedAt read 16 buffer) (read + 16) (by omega)
      (by rw [List.length_append, hblock]; omega) (by rw [List.length_append, hblock]; omega) rfl
      (fun byte hbyte => hmem byte (List.mem_append_right _ hbyte))
    rw [List.length_append, hblock, ← Nat.add_assoc] at this
    rw [this]
    simp only [Option.some.injEq, Prod.mk.injEq, true_and]
    omega

end Forwards

/-! ## Backwards -/

section Backwards

variable {view : View} {buffer done : Bytes}

/-- Groups that are written no earlier than they are read. -/
theorem Scalar.backwardLoop_eq {groups : ℕ}
    (hroom : view.destination + groups * 3 + done.length ≤ buffer.length)
    (hahead : view.origin + groups * 4 ≤ view.destination + groups * 3)
    (hbytes : view.bytes = splice (view.destination + groups * 3) done buffer) :
    Scalar.backwardLoop groups view = some (view.holding (splice view.destination
      (decodedAt view.origin (groups * 4) buffer ++ done) buffer)) := by
  induction groups generalizing view done with
  | zero =>
    have hnil : decodedAt view.origin 0 buffer = [] := by simp [decodedAt, window, unpack]
    rw [Scalar.backwardLoop, Nat.zero_mul, hnil, List.nil_append]
    rw [Nat.zero_mul, Nat.add_zero] at hbytes
    rw [← hbytes]
  | succ groups ih =>
    have hlength : view.bytes.length = buffer.length := by rw [hbytes, length_splice (by omega)]
    have hgroup : (decodedAt (view.origin + groups * 4) 4 buffer).length = 3 :=
      @length_decodedAt_groups (view.origin + groups * 4) 1 buffer (by omega)
    have hread : decodedAt (view.origin + groups * 4) 4 view.bytes =
        decodedAt (view.origin + groups * 4) 4 buffer := by
      rw [hbytes, decodedAt, window_splice_of_le (by omega) (by omega), decodedAt]
    have hsplit : (groups + 1) * 4 = groups * 4 + 4 := by ring
    have hplace : view.destination + (groups + 1) * 3 = view.destination + groups * 3 +
        (decodedAt (view.origin + groups * 4) 4 buffer).length := by
      rw [hgroup]
      ring
    rw [hplace] at hbytes
    rw [Scalar.backwardLoop, Scalar.full_eq (by omega) (by omega), Option.bind_eq_bind,
      Option.bind_some, hread, hbytes, splice_splice_left (by omega), ih]
    · rw [hsplit, decodedAt_append (by omega) (by omega), List.append_assoc]
    · simp only [List.length_append, hgroup]
      omega
    · dsimp only
      omega
    · rfl

end Backwards

/-! ## A whole text -/

section Commit

variable {view : View} {buffer : Bytes}

theorem Shape.symbols_eq (self : Shape) {groups : ℕ} (h : groups ≤ self.groups) :
    self.symbols = groups * 4 + (Shape.mk (self.groups - groups) self.tail).symbols := by
  simp only [Shape.symbols]
  omega

theorem Shape.decoded_eq (self : Shape) {groups : ℕ} (h : groups ≤ self.groups) :
    self.decoded = groups * 3 + (Shape.mk (self.groups - groups) self.tail).decoded := by
  simp only [Shape.decoded]
  omega

theorem Scalar.forward_eq {groups : ℕ} (hgroups : groups ≤ view.shape.groups)
    (hread : view.origin + view.shape.symbols ≤ buffer.length)
    (hroom : view.destination + view.shape.decoded ≤ buffer.length)
    (hbehind : view.destination ≤ view.origin + groups)
    (hbytes : view.bytes =
      splice view.destination (decodedAt view.origin (groups * 4) buffer) buffer) :
    Scalar.forward view (view.origin + groups * 4) (view.destination + groups * 3) view.shape =
      some (view.holding (splice view.destination
        (decodedAt view.origin view.shape.symbols buffer) buffer)) := by
  have hsymbols := view.shape.symbols_eq hgroups
  have hdecoded := view.shape.decoded_eq hgroups
  have hdone : (decodedAt view.origin (groups * 4) buffer).length = groups * 3 :=
    length_decodedAt_groups (by omega)
  have hleft : (view.shape.symbols - (view.origin + groups * 4 - view.origin)) / 4 =
      view.shape.groups - groups := by
    rw [hsymbols]
    simp only [Shape.symbols]
    split <;> omega
  have hloop := @forwardLoop_eq view buffer (decodedAt view.origin (groups * 4) buffer)
    view.destination (view.origin + groups * 4) view.shape.tail (view.shape.groups - groups)
    (by omega) (by omega) (by omega) hbytes
  rw [hdone] at hloop
  rw [Scalar.forward, hleft, hloop, ← decodedAt_append (by omega) (by omega), ← hsymbols]

/-- What a view admits. -/
structure View.Admitted (view : View) : Prop where
  read : view.origin + view.shape.symbols ≤ view.bytes.length
  room : view.destination + view.shape.decoded ≤ view.bytes.length
  mem : ∀ byte ∈ window view.origin view.shape.symbols view.bytes, byte ∈ TABLE
  mode_eq : view.mode =
    if view.destination ≤ view.origin then .forward
    else if view.destination - view.origin < view.shape.groups then
      .overlap (view.destination - view.origin)
    else .backward

namespace View.Admitted

/-- The decoded view. -/
abbrev done (view : View) : View :=
  view.holding (splice view.destination
    (decodedAt view.origin view.shape.symbols view.bytes) view.bytes)

theorem forward (h : view.Admitted) (hmode : view.destination ≤ view.origin) :
    Scalar.forward view view.origin view.destination view.shape = some (done view) := by
  have hnil : decodedAt view.origin 0 view.bytes = [] := by simp [decodedAt, window, unpack]
  have := @Scalar.forward_eq view view.bytes 0 (Nat.zero_le _) h.read h.room (by omega)
    (by rw [Nat.zero_mul, hnil, splice_nil])
  simpa using this

/-- A destination in front of the source, in blocks as long as there are any. -/
theorem blocks (h : view.Admitted) (hmode : view.destination ≤ view.origin) :
    ((Simd.decode view).bind fun progress =>
      Scalar.forward progress.1 progress.2.1 progress.2.2 view.shape) = some (done view) := by
  have hread := h.read
  have hroom := h.room
  have hsymbols := view.shape.symbols_eq (show view.shape.groups / 4 * 4 ≤ _ by omega)
  have hdecoded := view.shape.decoded_eq (show view.shape.groups / 4 * 4 ≤ _ by omega)
  have hmem : ∀ byte ∈ window view.origin (view.shape.groups / 4 * 16) view.bytes,
      byte ∈ TABLE := by
    intro byte hbyte
    refine h.mem byte ?_
    rw [hsymbols, show view.shape.groups / 4 * 4 * 4 = view.shape.groups / 4 * 16 by ring,
      window_append]
    exact List.mem_append_left _ hbyte
  have hloop := @Simd.loop_eq view view.bytes [] view.destination view.origin
    (view.shape.groups / 4) (by omega) (by simp only [List.length_nil]; omega)
    (by simpa using hmode) splice_nil.symm hmem
  simp only [List.length_nil, Nat.add_zero, List.nil_append] at hloop
  rw [Simd.decode, hloop, Option.bind_some]
  have hforward := @Scalar.forward_eq (view.holding (splice view.destination
    (decodedAt view.origin (view.shape.groups / 4 * 16) view.bytes) view.bytes)) view.bytes
    (view.shape.groups / 4 * 4) (by dsimp only; omega) hread hroom (by dsimp only; omega)
    (by dsimp only; rw [show view.shape.groups / 4 * 4 * 4 = view.shape.groups / 4 * 16 by ring])
  rw [show view.shape.groups / 4 * 4 * 4 = view.shape.groups / 4 * 16 by ring,
    show view.shape.groups / 4 * 4 * 3 = view.shape.groups / 4 * 12 by ring] at hforward
  exact hforward

theorem backward (h : view.Admitted)
    (hmode : view.origin + view.shape.groups ≤ view.destination) :
    Scalar.backward view view.shape = some (done view) := by
  have hread := h.read
  have hroom := h.room
  have hsymbols := view.shape.symbols_eq le_rfl
  have hdecoded := view.shape.decoded_eq le_rfl
  rw [Nat.sub_self] at hsymbols hdecoded
  have htail := @Scalar.tail_eq view (view.origin + view.shape.groups * 4)
    (view.destination + view.shape.groups * 3) view.shape.tail (by omega) (by omega)
  have hlength := @length_decodedAt (view.origin + view.shape.groups * 4) view.bytes
    (Shape.mk 0 view.shape.tail) (by omega)
  rw [Scalar.backward, htail, Option.bind_eq_bind, Option.bind_some]
  have hloop := @Scalar.backwardLoop_eq
    (view.holding (splice (view.destination + view.shape.groups * 3)
      (decodedAt (view.origin + view.shape.groups * 4) (Shape.mk 0 view.shape.tail).symbols
        view.bytes) view.bytes)) view.bytes _ view.shape.groups (by dsimp only; omega)
    (by dsimp only; omega) rfl
  rw [hloop]
  dsimp only
  rw [← decodedAt_append (by omega) (by omega), ← hsymbols]

theorem overlap (h : view.Admitted) {groups : ℕ} (hgroups : groups ≤ view.shape.groups)
    (hmode : view.destination = view.origin + groups) :
    ((Scalar.backward view (Shape.full groups)).bind fun lead =>
      Scalar.forward lead (lead.origin + (Shape.full groups).symbols)
        (lead.destination + (Shape.full groups).decoded) view.shape) = some (done view) := by
  have hread := h.read
  have hroom := h.room
  have hsymbols := view.shape.symbols_eq hgroups
  have hdecoded := view.shape.decoded_eq hgroups
  have hloop := @Scalar.backwardLoop_eq view view.bytes [] groups
    (by simp only [List.length_nil]; omega) (by omega) splice_nil.symm
  rw [List.append_nil] at hloop
  have hlead : Scalar.backward view (Shape.full groups) =
      some (view.holding (splice view.destination
        (decodedAt view.origin (groups * 4) view.bytes) view.bytes)) := by
    rw [Scalar.backward]
    exact hloop
  rw [hlead, Option.bind_some]
  exact @Scalar.forward_eq (view.holding (splice view.destination
    (decodedAt view.origin (groups * 4) view.bytes) view.bytes)) view.bytes groups hgroups hread
    hroom (by dsimp only; omega) rfl

/-- In every mode, the decoded bytes of the source are written and nothing else is. -/
theorem commit_eq (h : view.Admitted) :
    view.commit = some ((done view).bytes, view.shape.decoded) := by
  have hmode := h.mode_eq
  rw [View.commit]
  by_cases hle : view.destination ≤ view.origin
  · rw [if_pos hle] at hmode
    simp only [hmode, h.blocks hle]
    rfl
  · rw [if_neg hle] at hmode
    by_cases hlt : view.destination - view.origin < view.shape.groups
    · rw [if_pos hlt] at hmode
      simp only [hmode, h.overlap hlt.le (by omega)]
      rfl
    · rw [if_neg hlt] at hmode
      simp only [hmode, h.backward (by omega)]
      rfl

end View.Admitted

end Commit

/-! ## What a view admits -/

/-- A range of Base64 text and a place for what it decodes to. -/
structure Admits (buffer : Bytes) (start stop dst length : ℕ) : Prop where
  range : start ≤ stop ∧ stop ≤ buffer.length
  validate : Encoded.validate (window start (stop - start) buffer) = .ok length
  room : dst + length ≤ buffer.length

theorem Encoded.validate_eq_ok_iff {text : Bytes} {length : ℕ} :
    validate text = .ok length ↔ ∃ found, shape text = .ok found ∧ found.decoded = length := by
  rw [validate, Except.bind_eq_ok_iff]
  refine exists_congr fun found => and_congr_right fun _ => ⟨fun h => Except.ok.inj h, ?_⟩
  rintro rfl
  rfl

theorem Encoded.canonical_take {text : Bytes} {found : Shape} (h : shape text = .ok found) :
    found.symbols ≤ text.length ∧ Canonical (text.take found.symbols) ∧
      (text = text.take found.symbols ∨ text = text.take found.symbols ++ pads found.symbols) := by
  obtain ⟨symbols, hcanonical, hlength, htext⟩ := shape_eq_ok_iff.mp h
  have htake : text.take found.symbols = symbols := by
    rw [← hlength]
    rcases htext with rfl | rfl
    · exact List.take_length
    · exact List.take_left
  have hle : found.symbols ≤ text.length := by
    rw [← hlength, ← htake]
    exact List.length_take_le' _ _
  rw [htake]
  refine ⟨hle, hcanonical, ?_⟩
  rwa [hlength] at htext

namespace View

variable {buffer : Bytes} {start stop dst : ℕ}

theorem tryNew_eq_ok {view : View} (h : tryNew buffer start stop dst = .ok view) :
    view.Admitted ∧ Admits buffer start stop dst view.shape.decoded ∧
      Encoded.shape (window start (stop - start) buffer) = .ok view.shape ∧
      view.bytes = buffer ∧ view.origin = start ∧ view.destination = dst := by
  rw [tryNew] at h
  split at h
  next => exact absurd h (by simp)
  next hrange =>
    rw [not_not] at hrange
    obtain ⟨shape, hshape, h⟩ := Except.bind_eq_ok_iff.mp h
    split at h
    next => exact absurd h (by simp)
    next hroom =>
      obtain rfl := Except.ok.inj h
      rw [not_lt] at hroom
      obtain ⟨hle, hcanonical, -⟩ := Encoded.canonical_take hshape
      rw [length_window (by omega)] at hle
      refine ⟨⟨by dsimp only; omega, hroom, ?_, rfl⟩,
        ⟨hrange, Encoded.validate_eq_ok_iff.mpr ⟨shape, hshape, rfl⟩, hroom⟩, hshape, rfl, rfl, rfl⟩
      have := hcanonical.mem
      rwa [window, List.take_take, min_eq_left hle] at this

theorem exists_view {length : ℕ} (h : Admits buffer start stop dst length) :
    ∃ view, tryNew buffer start stop dst = .ok view := by
  obtain ⟨found, hshape, rfl⟩ := Encoded.validate_eq_ok_iff.mp h.validate
  rw [tryNew, if_neg (not_not.mpr h.range), hshape]
  exact ⟨_, if_neg (not_lt.mpr h.room)⟩

end View

/-! ## The decoder -/

namespace Decoder

variable {buffer : Bytes} {start stop dst length : ℕ}

/-- The bytes that a text stands for. -/
def decoded (text : Bytes) : Bytes :=
  match Encoded.shape text with
  | .ok shape => decodedAt 0 shape.symbols text
  | .error _ => []

theorem decode_eq_ok (h : Admits buffer start stop dst length) :
    decode buffer start stop dst =
      some (splice dst (decoded (window start (stop - start) buffer)) buffer, .ok length) ∧
    (decoded (window start (stop - start) buffer)).length = length := by
  obtain ⟨view, hview⟩ := View.exists_view h
  obtain ⟨hadmitted, hadmits, hshape, rfl, rfl, rfl⟩ := View.tryNew_eq_ok hview
  have hlength : view.shape.decoded = length :=
    Except.ok.inj (hadmits.validate.symm.trans h.validate)
  have hle := (Encoded.canonical_take hshape).1
  have hwindow : decoded (window view.origin (stop - view.origin) view.bytes) =
      decodedAt view.origin view.shape.symbols view.bytes := by
    have hrange := h.range
    rw [length_window (by omega)] at hle
    rw [decoded, hshape]
    dsimp only
    rw [decodedAt, decodedAt, window_window (by omega), Nat.add_zero]
  rw [decode, hview, hwindow, length_decodedAt hadmitted.read]
  dsimp only
  rw [hadmitted.commit_eq, hlength]
  exact ⟨rfl, rfl⟩

theorem decode_eq_error (h : ¬∃ length, Admits buffer start stop dst length) :
    ∃ error, decode buffer start stop dst = some (buffer, .error error) := by
  rw [decode]
  cases hview : View.tryNew buffer start stop dst with
  | error error => exact ⟨error, rfl⟩
  | ok view => exact absurd ⟨_, (View.tryNew_eq_ok hview).2.1⟩ h

theorem admits_copy {text : Bytes} (h : Encoded.validate text = .ok length) :
    Admits text 0 text.length 0 length := by
  have hwhole : window 0 (text.length - 0) text = text := by simp [window]
  refine ⟨by omega, by rw [hwhole]; exact h, ?_⟩
  obtain ⟨found, hshape, rfl⟩ := Encoded.validate_eq_ok_iff.mp h
  have hle := (Encoded.canonical_take hshape).1
  have hdecoded : found.decoded ≤ found.symbols := by
    obtain ⟨groups, _ | _ | _⟩ := found <;> simp only [Shape.decoded, Shape.symbols] <;> omega
  omega

theorem decode_copy {text : Bytes} (h : Encoded.validate text = .ok length) :
    decode text 0 text.length 0 = some (decoded text ++ text.drop length, .ok length) := by
  have hwhole : window 0 (text.length - 0) text = text := by simp [window]
  obtain ⟨hdecode, hlength⟩ := decode_eq_ok (admits_copy h)
  rw [hwhole] at hdecode hlength
  rw [hdecode, splice, hlength, List.take_zero, List.nil_append, Nat.zero_add]

theorem decoded_write (self : Encoder) :
    Encoded.validate self.write = .ok self.bytes.length ∧ decoded self.write = self.bytes := by
  have hvalidate := Encoded.validate_iff.mpr ⟨self, rfl, rfl⟩
  refine ⟨hvalidate, ?_⟩
  obtain ⟨bytes, padding⟩ := self
  obtain ⟨found, hshape, -⟩ := Encoded.validate_eq_ok_iff.mp hvalidate
  obtain ⟨hcanonical, hlength⟩ : Canonical (symbols bytes) ∧
      (symbols bytes).length = found.symbols := by
    refine ⟨canonical_symbols bytes, ?_⟩
    obtain ⟨found', hfound'⟩ := Encoded.exists_shape (canonical_symbols bytes)
    have hshape' : Encoded.shape (Encoder.mk bytes padding).write = .ok found' := by
      refine Encoded.shape_eq_ok_iff.mpr ⟨_, canonical_symbols bytes, hfound', ?_⟩
      rw [Encoder.write_eq]
      split
      · exact .inr rfl
      · exact .inl (List.append_nil _)
    obtain rfl := Except.ok.inj (hshape.symm.trans hshape')
    exact hfound'
  have htake : window 0 found.symbols (Encoder.mk bytes padding).write = symbols bytes := by
    rw [window, List.drop_zero, Encoder.write_eq, ← hlength, List.take_left]
  rw [decoded, hshape]
  dsimp only
  rw [decodedAt, htake, unpack_symbols]

/-- Decoding in place writes, at the destination and nowhere else, what decoding a copy of the text
writes. What is not admitted leaves the buffer as it is. Whenever the blocks are used, they leave
what the groups one by one do, and their lanes are the table of the groups. -/
theorem in_place (buffer : Bytes) (start stop dst : ℕ) :
    (∀ length, Admits buffer start stop dst length → ∃ bytes rest, bytes.length = length ∧
      decode buffer start stop dst = some (splice dst bytes buffer, .ok length) ∧
      decode (window start (stop - start) buffer) 0 (stop - start) 0 =
        some (bytes ++ rest, .ok length)) ∧
    ((¬∃ length, Admits buffer start stop dst length) →
      ∃ error, decode buffer start stop dst = some (buffer, .error error)) ∧
    (∀ view, View.tryNew buffer start stop dst = .ok view → dst ≤ start →
      ((Simd.decode view).bind fun progress =>
        Scalar.forward progress.1 progress.2.1 progress.2.2 view.shape) =
      Scalar.forward view view.origin view.destination view.shape) ∧
    ∀ byte ∈ TABLE, Simd.lane byte = VALUES byte := by
  refine ⟨fun length h => ?_, decode_eq_error, fun view hview hdst => ?_, fun _ => Simd.lane_eq⟩
  · obtain ⟨hdecode, hlength⟩ := decode_eq_ok h
    have hcopy := decode_copy h.validate
    rw [length_window (by have := h.range; omega)] at hcopy
    exact ⟨_, _, hlength, hdecode, hcopy⟩
  · obtain ⟨hadmitted, -, -, -, horigin, hdestination⟩ := View.tryNew_eq_ok hview
    rw [← horigin, ← hdestination] at hdst
    rw [hadmitted.blocks hdst, hadmitted.forward hdst]

end Decoder

/-- What the encoder writes, with either padding, has the predicted length and is decoded to its
bytes. A text is valid exactly if it has canonical symbols and behind them nothing or their padding,
which is exactly if the encoder writes it, and then it is what the encoder writes for its decoded
bytes. -/
theorem canonical_codec (self : Encoder) (text : Bytes) :
    (self.write.length = self.encodedLen ∧
      Encoded.decodedLen self.write = .ok self.bytes.length ∧
      ∃ rest, Decoder.decode self.write 0 self.write.length 0 =
        some (self.bytes ++ rest, .ok self.bytes.length)) ∧
    ((∃ length, Encoded.validate text = .ok length) ↔
      ∃ symbols, Canonical symbols ∧ (text = symbols ∨ text = symbols ++ pads symbols.length)) ∧
    ((∃ length, Encoded.validate text = .ok length) ↔ ∃ encoder : Encoder, text = encoder.write) ∧
    ∀ length, Encoded.validate text = .ok length → ∃ bytes rest padding,
      Decoder.decode text 0 text.length 0 = some (bytes ++ rest, .ok length) ∧
      bytes.length = length ∧ (Encoder.mk bytes padding).write = text := by
  refine ⟨⟨self.length_write, ?_, ?_⟩, ⟨?_, ?_⟩, ⟨?_, ?_⟩, ?_⟩
  · obtain ⟨found, hshape, hlength⟩ :=
      Encoded.validate_eq_ok_iff.mp (Decoder.decoded_write self).1
    rw [Encoded.decodedLen, (Encoded.shape_eq_ok_iff_accepts.mp hshape).1, ← hlength]
    rfl
  · obtain ⟨hvalidate, hdecoded⟩ := Decoder.decoded_write self
    have hcopy := Decoder.decode_copy hvalidate
    rw [hdecoded] at hcopy
    exact ⟨_, hcopy⟩
  · rintro ⟨length, h⟩
    obtain ⟨found, hshape, -⟩ := Encoded.validate_eq_ok_iff.mp h
    obtain ⟨symbols, hcanonical, -, htext⟩ := Encoded.shape_eq_ok_iff.mp hshape
    exact ⟨symbols, hcanonical, htext⟩
  · rintro ⟨symbols, hcanonical, htext⟩
    obtain ⟨found, hlength⟩ := Encoded.exists_shape hcanonical
    have hshape := Encoded.shape_eq_ok_iff.mpr ⟨symbols, hcanonical, hlength, htext⟩
    exact ⟨_, Encoded.validate_eq_ok_iff.mpr ⟨found, hshape, rfl⟩⟩
  · rintro ⟨length, h⟩
    obtain ⟨encoder, htext, -⟩ := Encoded.validate_iff.mp h
    exact ⟨encoder, htext⟩
  · rintro ⟨encoder, htext⟩
    exact ⟨_, Encoded.validate_iff.mpr ⟨encoder, htext, rfl⟩⟩
  · intro length h
    obtain ⟨encoder, rfl, rfl⟩ := Encoded.validate_iff.mp h
    have hcopy := Decoder.decode_copy h
    rw [(Decoder.decoded_write encoder).2] at hcopy
    exact ⟨encoder.bytes, _, encoder.padding, hcopy, rfl, rfl⟩

end Sark.Base64
