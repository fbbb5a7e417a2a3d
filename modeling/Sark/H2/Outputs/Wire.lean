import Mathlib.Algebra.Order.Floor.Div
import Sark.H2.Conn.Message
import Sark.H2.Frame.Layout
import Sark.Http.H1.Value

/-!
# Header blocks on the wire

The framing of a header block (`h2/src/conn/outputs/wire.rs`). The encoder writes the block into a
slot of the pool in pieces of any length; nine bytes are left in front of each payload, and once the
block is complete, the headers are written over them.

* `Wire.extend_outcome`, `Wire.writeSlice_outcome`: a write keeps the layout or finds no room.
* `Wire.finish_of_wireLength_le`: a slot that has room for the frames is not refused.
* `Block.sealed_laid`: the bytes of the layout become frames.
* `wire_framed`: every block is framed as one HEADERS frame and CONTINUATION frames.
-/

open Sark.H2.Frame

namespace Sark.H2.Outputs

/-- What the framing uses of `pool::Span`: the bytes, the size of the slot, and a committed
`try_append`. -/
class Span (σ : Type) (ε : outParam Type) where
  bytes : σ → Bytes
  capacity : σ → ℕ
  tryAppend : σ → Bytes → Except ε σ

/-- A committed append adds its bytes, and an append that fits is not refused. -/
class LawfulSpan (σ : Type) {ε : outParam Type} [Span σ ε] : Prop where
  bytes_of_ok {span next : σ} {more : Bytes} :
    Span.tryAppend span more = .ok next → Span.bytes next = Span.bytes span ++ more
  capacity_of_ok {span next : σ} {more : Bytes} :
    Span.tryAppend span more = .ok next → Span.capacity next = Span.capacity span
  lt_of_error {span : σ} {more : Bytes} {error : ε} :
    Span.tryAppend span more = .error error →
      Span.capacity span < (Span.bytes span).length + more.length

variable {σ ε : Type} [Span σ ε]

/-- The bytes that are left for a header. -/
def hole : Bytes :=
  List.replicate headerLen 0

@[simp]
theorem length_hole : hole.length = headerLen :=
  List.length_replicate

/-- `Wire`, whose current frame is never over the maximum. -/
structure Wire (σ ε : Type) where
  bytes : σ
  maxFrame : Limit
  blockLen : ℕ
  frameLen : ℕ
  frameLen_le : frameLen ≤ maxFrame.value
  error : Option ε

/-- `Block`. -/
structure Block (σ : Type) where
  bytes : σ
  maxFrame : Limit
  blockLen : ℕ

namespace Wire

/-- `Wire::new`. -/
def new (bytes : σ) (max : Limit) : Except ε (Wire σ ε) :=
  (Span.tryAppend bytes hole).map fun bytes => ⟨bytes, max, 0, 0, Nat.zero_le _, none⟩

/-- The error is kept. -/
def fail (self : Wire σ ε) (error : ε) : Wire σ ε :=
  { self with error := some error }

/-- Bytes of the current frame were appended. -/
def grow (self : Wire σ ε) (bytes : σ) (n : ℕ) (h : self.frameLen + n ≤ self.maxFrame.value) :
    Wire σ ε :=
  { self with
    bytes := bytes
    frameLen := self.frameLen + n
    frameLen_le := h
    blockLen := self.blockLen + n }

/-- `Wire::advance`. -/
def advance (self : Wire σ ε) : Bool × Wire σ ε :=
  if self.frameLen = self.maxFrame.value then
    match Span.tryAppend self.bytes hole with
    | .error error => (false, self.fail error)
    | .ok bytes =>
      (true, { self with bytes := bytes, frameLen := 0, frameLen_le := Nat.zero_le _ })
  else (true, self)

theorem frameLen_lt_of_advance {self : Wire σ ε} (h : self.advance.1 = true) :
    self.advance.2.frameLen < self.advance.2.maxFrame.value := by
  by_cases hfull : self.frameLen = self.maxFrame.value
  · rw [advance, if_pos hfull] at h ⊢
    cases happend : Span.tryAppend self.bytes hole with
    | error error => rw [happend] at h; exact absurd h (by simp)
    | ok bytes =>
      have hge := self.maxFrame.ge
      show 0 < self.maxFrame.value
      omega
  · rw [advance, if_neg hfull]
    exact Nat.lt_of_le_of_ne self.frameLen_le hfull

/-- `Writer::write_byte`. -/
def writeByte (self : Wire σ ε) (byte : UInt8) : Wire σ ε :=
  if self.error.isSome then self
  else if h : self.advance.1 then
    match Span.tryAppend self.advance.2.bytes [byte] with
    | .error error => self.advance.2.fail error
    | .ok bytes => self.advance.2.grow bytes 1 (frameLen_lt_of_advance h)
  else self.advance.2

/-- The bytes of a slice that the current frame takes. -/
def taken (self : Wire σ ε) (rest : Bytes) : ℕ :=
  min rest.length (self.maxFrame.value - self.frameLen)

omit [Span σ ε] in
theorem frameLen_add_taken_le (self : Wire σ ε) (rest : Bytes) :
    self.frameLen + self.taken rest ≤ self.maxFrame.value := by
  have hle := self.frameLen_le
  rw [taken]
  omega

theorem taken_pos {self : Wire σ ε} {rest : Bytes} (h : self.advance.1 = true)
    (hrest : rest ≠ []) : 0 < self.advance.2.taken rest := by
  have hlt := frameLen_lt_of_advance h
  have hlength := List.length_pos_of_ne_nil hrest
  rw [taken]
  omega

/-- The loop of `Writer::write_slice`. -/
def writeRest (self : Wire σ ε) (rest : Bytes) : Wire σ ε :=
  if _ : rest = [] then self
  else if _ : self.advance.1 then
    match Span.tryAppend self.advance.2.bytes (rest.take (self.advance.2.taken rest)) with
    | .error error => self.advance.2.fail error
    | .ok bytes =>
      (self.advance.2.grow bytes (self.advance.2.taken rest)
        (frameLen_add_taken_le _ rest)).writeRest (rest.drop (self.advance.2.taken rest))
  else self.advance.2
termination_by rest.length
decreasing_by
  have hrest : rest ≠ [] := ‹_›
  have hpos := taken_pos ‹_› hrest
  have hlength := List.length_pos_of_ne_nil hrest
  rw [List.length_drop]
  omega

/-- `Writer::write_slice`. -/
def writeSlice (self : Wire σ ε) (bytes : Bytes) : Wire σ ε :=
  if self.error.isSome then self else self.writeRest bytes

/-- `Extend::extend`. -/
def extend : Wire σ ε → Bytes → Wire σ ε
  | self, [] => self
  | self, byte :: bytes =>
    if (self.writeByte byte).error.isSome then self.writeByte byte
    else (self.writeByte byte).extend bytes

/-- `Wire::finish`. -/
def finish (self : Wire σ ε) : Except ε (Block σ) :=
  match self.error with
  | some error => .error error
  | none => .ok ⟨self.bytes, self.maxFrame, self.blockLen⟩

end Wire

/-- A write of the encoder. -/
inductive Write
  | byte (byte : UInt8)
  | slice (bytes : Bytes)
  | extend (bytes : Bytes)
  deriving DecidableEq, Repr

/-- The bytes of a write. -/
def Write.bytes : Write → Bytes
  | .byte b => [b]
  | .slice bytes | .extend bytes => bytes

/-- A write of the encoder into the frames. -/
def Wire.write (self : Wire σ ε) : Write → Wire σ ε
  | .byte b => self.writeByte b
  | .slice bytes => self.writeSlice bytes
  | .extend bytes => self.extend bytes

/-- The writes of a block, from the first to the last. -/
def Wire.writes (self : Wire σ ε) (writes : List Write) : Wire σ ε :=
  writes.foldl Wire.write self

namespace Block

/-- The header of a chunk in `Block::seal`. -/
def header (max : Limit) (id : Id) (boundary : Boundary) (first : Bool) (left : ℕ) : Header where
  length := max.take left
  kind := if first then .headers else .continuation
  flags :=
    (if first ∧ boundary = .end then endStream else 0) |||
      (if (max.take left).value = left then endHeaders else 0)
  streamId := id

/-- The chunks of `Block::seal`. The header of a chunk that is too short for it would be written
over what is not there. -/
def sealChunks (max : Limit) (id : Id) (boundary : Boundary) (first : Bool) (left : ℕ)
    (bytes : Bytes) : Option Bytes :=
  if _ : bytes = [] then some []
  else
    let chunk := bytes.take (max.value + headerLen)
    let rest := bytes.drop (max.value + headerLen)
    let header := header max id boundary first left
    if chunk.length < headerLen then none
    else
      let target := header.wireBytes ++ chunk.drop headerLen
      if header.length.value = left then some (target ++ rest)
      else
        (sealChunks max id boundary false (left - header.length.value) rest).map (target ++ ·)
termination_by bytes.length
decreasing_by
  have hlength : 0 < bytes.length := List.length_pos_of_ne_nil ‹_›
  rw [List.length_drop, headerLen]
  omega

/-- `Block::seal`, with the bytes that `into_shared` hands out. -/
def sealed (self : Block σ) (id : Id) (boundary : Boundary) : Option Bytes :=
  sealChunks self.maxFrame id boundary true self.blockLen (Span.bytes self.bytes)

end Block

/-! ## The layout -/

/-- Payloads with room for their headers. -/
def reserved (payloads : List Bytes) : Bytes :=
  payloads.flatMap (hole ++ ·)

@[simp]
theorem reserved_append (first second : List Bytes) :
    reserved (first ++ second) = reserved first ++ reserved second :=
  List.flatMap_append

@[simp]
theorem reserved_singleton (payload : Bytes) : reserved [payload] = hole ++ payload :=
  List.flatMap_singleton _ _

theorem length_reserved (payloads : List Bytes) :
    (reserved payloads).length = payloads.flatten.length + headerLen * payloads.length := by
  induction payloads with
  | nil => rfl
  | cons payload payloads ih =>
    rw [reserved, List.flatMap_cons, List.length_append, ← reserved, ih, List.length_append,
      length_hole, List.flatten_cons, List.length_append, List.length_cons]
    ring

/-- The payloads before the current one are full. -/
structure Payloads (max : Limit) where
  full : List Bytes
  last : Bytes
  length_full : ∀ payload ∈ full, payload.length = max.value
  length_last : last.length ≤ max.value

namespace Payloads

variable {max : Limit}

/-- All payloads. -/
def all (self : Payloads max) : List Bytes :=
  self.full ++ [self.last]

/-- The bytes of the block. -/
def block (self : Payloads max) : Bytes :=
  self.full.flatten ++ self.last

/-- No payload follows one that a block filled. -/
def Tight (self : Payloads max) : Prop :=
  self.full ≠ [] → self.last ≠ []

theorem length_flatten_full (self : Payloads max) :
    self.full.flatten.length = self.full.length * max.value := by
  rw [List.length_flatten, List.map_congr_left self.length_full, List.map_const',
    List.sum_replicate, smul_eq_mul]

theorem length_block (self : Payloads max) :
    self.block.length = self.full.length * max.value + self.last.length := by
  rw [block, List.length_append, length_flatten_full]

theorem flatten_all (self : Payloads max) : self.all.flatten = self.block := by
  simp [all, block]

end Payloads

/-- The number of frames of a block. -/
def frames (max : Limit) (n : ℕ) : ℕ :=
  (Nat.max n 1) ⌈/⌉ max.value

/-- The bytes that the frames of a block take. -/
def wireLength (max : Limit) (n : ℕ) : ℕ :=
  n + headerLen * frames max n

theorem lt_frames {max : Limit} {n k : ℕ} (h : k * max.value < Nat.max n 1) :
    k < frames max n := by
  have hpos : 0 < max.value := Nat.lt_of_lt_of_le (by norm_num) max.ge
  rw [frames, ← not_le, ceilDiv_le_iff_le_mul hpos, not_le, Nat.mul_comm]
  exact h

theorem frames_mono (max : Limit) {n m : ℕ} (h : n ≤ m) : frames max n ≤ frames max m := by
  have hpos : 0 < max.value := Nat.lt_of_lt_of_le (by norm_num) max.ge
  rw [frames, ceilDiv_le_iff_le_mul hpos]
  exact (max_le_max h le_rfl).trans (le_smul_ceilDiv hpos)

theorem wireLength_mono (max : Limit) {n m : ℕ} (h : n ≤ m) :
    wireLength max n ≤ wireLength max m :=
  Nat.add_le_add h (Nat.mul_le_mul_left _ (frames_mono max h))

/-- The wire is a layout of payloads in a slot. -/
structure Wire.Lays (wire : Wire σ ε) (max : Limit) (room : ℕ) (payloads : Payloads max) :
    Prop where
  maxFrame : wire.maxFrame = max
  capacity : Span.capacity wire.bytes = room
  bytes : Span.bytes wire.bytes = reserved payloads.all
  frameLen : wire.frameLen = payloads.last.length
  blockLen : wire.blockLen = payloads.block.length
  error : wire.error = none

/-- The wire holds what was written, and no payload was begun without a byte. -/
def Wire.Holds (self : Wire σ ε) (max : Limit) (room : ℕ) (written : Bytes) : Prop :=
  ∃ payloads : Payloads max, self.Lays max room payloads ∧ payloads.Tight ∧
    payloads.block = written

/-- The wire holds what was written, or the slot has no room for its frames. -/
def Wire.Outcome (self : Wire σ ε) (max : Limit) (room : ℕ) (written : Bytes) : Prop :=
  self.Holds max room written ∨
    self.error.isSome ∧ room < wireLength max written.length

theorem Wire.Outcome.of_isSome {self : Wire σ ε} {max : Limit} {room : ℕ} {written more : Bytes}
    (h : self.Outcome max room written) (herror : self.error.isSome)
    (hlength : written.length ≤ more.length) : self.Outcome max room more := by
  rcases h with ⟨payloads, hlays, -, -⟩ | ⟨-, hroom⟩
  · rw [hlays.error] at herror
    exact absurd herror (by simp)
  · exact .inr ⟨herror, hroom.trans_le (wireLength_mono max hlength)⟩

theorem Wire.Outcome.holds {self : Wire σ ε} {max : Limit} {room : ℕ} {written : Bytes}
    (h : self.Outcome max room written) (herror : ¬ self.error.isSome) :
    self.Holds max room written :=
  h.resolve_right fun hsome => herror hsome.1

section Steps

variable {self : Wire σ ε} {max : Limit} {room : ℕ} {payloads : Payloads max} {written : Bytes}

theorem Wire.Lays.length_bytes (h : self.Lays max room payloads) :
    (Span.bytes self.bytes).length =
      payloads.block.length + headerLen * (payloads.full.length + 1) := by
  rw [h.bytes, length_reserved, payloads.flatten_all, Payloads.all, List.length_append,
    List.length_singleton]

variable [LawfulSpan σ]

/-- An advance opens a frame with room, or the slot has none for the header. -/
theorem Wire.Lays.advance (h : self.Lays max room payloads) :
    (∃ next : Payloads max, self.advance.1 = true ∧ self.advance.2.Lays max room next ∧
      next.block = payloads.block) ∨
    self.advance.1 = false ∧ self.advance.2.error.isSome ∧
      ∀ n, payloads.block.length < n → room < wireLength max n := by
  by_cases hfull : self.frameLen = self.maxFrame.value
  · have hlast : payloads.last.length = max.value := by
      rw [← h.frameLen, hfull, h.maxFrame]
    rw [Wire.advance, if_pos hfull]
    cases happend : Span.tryAppend self.bytes hole with
    | error error =>
      refine .inr ⟨rfl, rfl, fun n hn => ?_⟩
      -- every frame so far is full, so a further byte needs another one
      have hroom := LawfulSpan.lt_of_error happend
      have hframes : payloads.full.length + 1 < frames max n := by
        refine lt_frames (lt_of_lt_of_le ?_ (le_max_left n 1))
        have hblock := payloads.length_block
        calc (payloads.full.length + 1) * max.value
            = payloads.block.length := by rw [hblock, hlast]; ring
          _ < n := hn
      rw [h.capacity, h.length_bytes, length_hole] at hroom
      rw [wireLength]
      have := Nat.mul_le_mul_left headerLen (Nat.succ_le_of_lt hframes)
      rw [Nat.mul_succ] at this
      omega
    | ok bytes =>
      have hlength : ∀ payload ∈ payloads.all, payload.length = max.value := by
        intro payload hmem
        rcases List.mem_append.mp hmem with hmem | hmem
        · exact payloads.length_full payload hmem
        · rw [List.mem_singleton.mp hmem, hlast]
      refine .inl ⟨⟨payloads.all, [], hlength, Nat.zero_le _⟩, rfl, ?_, ?_⟩
      · refine ⟨h.maxFrame, ?_, ?_, rfl, ?_, h.error⟩
        · exact (LawfulSpan.capacity_of_ok happend).trans h.capacity
        · show Span.bytes bytes = reserved (payloads.all ++ [[]])
          rw [LawfulSpan.bytes_of_ok happend, h.bytes, reserved_append, reserved_singleton,
            List.append_nil]
        · show self.blockLen = _
          rw [h.blockLen]
          simp [Payloads.block, Payloads.all]
      · simp [Payloads.block, Payloads.all]
  · rw [Wire.advance, if_neg hfull]
    exact .inl ⟨payloads, rfl, h, rfl⟩

/-- More bytes of the current frame. -/
def Payloads.push (payloads : Payloads max) (more : Bytes)
    (h : payloads.last.length + more.length ≤ max.value) : Payloads max where
  full := payloads.full
  last := payloads.last ++ more
  length_full := payloads.length_full
  length_last := (List.length_append).trans_le h

omit [LawfulSpan σ] in
theorem Wire.Lays.lt_wireLength (h : self.Lays max room payloads) {more : Bytes} (hmore : more ≠ [])
    (hroom : room < (Span.bytes self.bytes).length + more.length) :
    room < wireLength max (payloads.block ++ more).length := by
  have hpos := List.length_pos_of_ne_nil hmore
  have hframes : payloads.full.length < frames max (payloads.block ++ more).length := by
    refine lt_frames (lt_of_lt_of_le ?_ (le_max_left _ 1))
    rw [List.length_append, payloads.length_block]
    omega
  have hheaders := Nat.mul_le_mul_left headerLen (Nat.succ_le_of_lt hframes)
  rw [h.length_bytes] at hroom
  rw [wireLength, List.length_append] at *
  rw [Nat.succ_eq_add_one] at hheaders
  omega

/-- Bytes that the current frame takes are appended, or the slot has no room for them. -/
theorem Wire.Lays.append (h : self.Lays max room payloads) {more : Bytes} (hmore : more ≠ [])
    (hle : self.frameLen + more.length ≤ self.maxFrame.value) :
    (∃ bytes, Span.tryAppend self.bytes more = .ok bytes ∧
      (self.grow bytes more.length hle).Holds max room (payloads.block ++ more)) ∨
    ∃ error, Span.tryAppend self.bytes more = .error error ∧
      room < wireLength max (payloads.block ++ more).length := by
  cases happend : Span.tryAppend self.bytes more with
  | error error =>
    have hroom := LawfulSpan.lt_of_error happend
    rw [h.capacity] at hroom
    exact .inr ⟨error, rfl, h.lt_wireLength hmore hroom⟩
  | ok bytes =>
    have hlast : payloads.last.length + more.length ≤ max.value := by
      rw [← h.frameLen, ← h.maxFrame]
      exact hle
    refine .inl ⟨bytes, rfl, payloads.push more hlast, ?_, ?_, ?_⟩
    · refine ⟨h.maxFrame, ?_, ?_, ?_, ?_, h.error⟩
      · exact (LawfulSpan.capacity_of_ok happend).trans h.capacity
      · rw [Wire.grow, LawfulSpan.bytes_of_ok happend, h.bytes]
        simp [Payloads.all, Payloads.push]
      · show self.frameLen + _ = _
        rw [h.frameLen, Payloads.push, List.length_append]
      · show self.blockLen + _ = _
        rw [h.blockLen]
        simp [Payloads.block, Payloads.push]
        ring
    · intro _
      simp [Payloads.push, hmore]
    · simp [Payloads.block, Payloads.push]

theorem Wire.writeByte_outcome (h : self.Outcome max room written) (byte : UInt8) :
    (self.writeByte byte).Outcome max room (written ++ [byte]) := by
  by_cases herror : self.error.isSome
  · rw [writeByte, if_pos herror]
    exact h.of_isSome herror (by simp)
  obtain ⟨payloads, hlays, -, rfl⟩ := h.holds herror
  rw [writeByte, if_neg herror]
  rcases hlays.advance with ⟨next, hadvance, hnext, hblock⟩ | ⟨hadvance, hsome, hroom⟩
  · rw [dif_pos hadvance, ← hblock]
    rcases hnext.append (List.cons_ne_nil byte []) (frameLen_lt_of_advance hadvance) with
      ⟨bytes, happend, hholds⟩ | ⟨error, happend, hroom⟩
    · rw [happend]
      exact .inl hholds
    · rw [happend]
      exact .inr ⟨rfl, hroom⟩
  · rw [dif_neg (by simp [hadvance])]
    exact .inr ⟨hsome, hroom _ (by simp)⟩

/-- The loop of `write_slice` keeps the layout or finds no room. -/
theorem Wire.writeRest_outcome (h : self.Holds max room written) (rest : Bytes) :
    (self.writeRest rest).Outcome max room (written ++ rest) := by
  generalize hsize : rest.length = size
  induction size using Nat.strong_induction_on generalizing self written rest with
  | _ size ih =>
    rw [writeRest]
    by_cases hrest : rest = []
    · rw [dif_pos hrest, hrest, List.append_nil]
      exact .inl h
    obtain ⟨payloads, hlays, -, rfl⟩ := h
    rw [dif_neg hrest]
    rcases hlays.advance with ⟨next, hadvance, hnext, hblock⟩ | ⟨hadvance, hsome, hroom⟩
    · have hpos := taken_pos hadvance hrest
      have htaken : (rest.take (self.advance.2.taken rest)).length = self.advance.2.taken rest :=
        List.length_take_of_le (Nat.min_le_left _ _)
      have hmore : rest.take (self.advance.2.taken rest) ≠ [] := by
        rw [← List.length_pos_iff, htaken]
        exact hpos
      rw [dif_pos hadvance, ← hblock]
      have hle := frameLen_add_taken_le self.advance.2 rest
      rcases hnext.append hmore (by rw [htaken]; exact hle) with
        ⟨bytes, happend, hholds⟩ | ⟨error, happend, hroom⟩
      · rw [happend]
        simp only [htaken] at hholds
        have hdrop : (rest.drop (self.advance.2.taken rest)).length < size := by
          have hlength := List.length_pos_of_ne_nil hrest
          rw [List.length_drop, hsize]
          omega
        have := ih _ hdrop hholds (rest.drop (self.advance.2.taken rest)) rfl
        rwa [List.append_assoc, List.take_append_drop] at this
      · rw [happend]
        refine .inr ⟨rfl, hroom.trans_le (wireLength_mono max ?_)⟩
        rw [List.length_append, List.length_append, List.length_take]
        omega
    · rw [dif_neg (by simp [hadvance])]
      refine .inr ⟨hsome, hroom _ ?_⟩
      have hlength := List.length_pos_of_ne_nil hrest
      rw [List.length_append]
      omega

/-- `write_slice` keeps the layout or finds no room. -/
theorem Wire.writeSlice_outcome (h : self.Outcome max room written) (bytes : Bytes) :
    (self.writeSlice bytes).Outcome max room (written ++ bytes) := by
  by_cases herror : self.error.isSome
  · rw [writeSlice, if_pos herror]
    exact h.of_isSome herror (by simp)
  · rw [writeSlice, if_neg herror]
    exact writeRest_outcome (h.holds herror) bytes

/-- `extend` keeps the layout or finds no room. -/
theorem Wire.extend_outcome (h : self.Outcome max room written) (bytes : Bytes) :
    (self.extend bytes).Outcome max room (written ++ bytes) := by
  induction bytes generalizing self written with
  | nil =>
    rw [extend, List.append_nil]
    exact h
  | cons byte bytes ih =>
    have hbyte := writeByte_outcome h byte
    rw [extend]
    by_cases herror : (self.writeByte byte).error.isSome
    · rw [if_pos herror]
      exact hbyte.of_isSome herror (by simp)
    · rw [if_neg herror, List.append_cons]
      exact ih hbyte

theorem Wire.write_outcome (h : self.Outcome max room written) (write : Write) :
    (self.write write).Outcome max room (written ++ write.bytes) := by
  cases write with
  | byte b => exact writeByte_outcome h b
  | slice bytes => exact writeSlice_outcome h bytes
  | extend bytes => exact extend_outcome h bytes

theorem Wire.writes_outcome (h : self.Outcome max room written) (writes : List Write) :
    (self.writes writes).Outcome max room (written ++ writes.flatMap Write.bytes) := by
  induction writes generalizing self written with
  | nil =>
    rw [List.flatMap_nil, List.append_nil]
    exact h
  | cons write writes ih =>
    rw [Wire.writes, List.foldl_cons, List.flatMap_cons, ← List.append_assoc]
    exact ih (write_outcome h write)

end Steps

section Blocks

variable [LawfulSpan σ] {span : σ} {max : Limit} {wire : Wire σ ε} {writes : List Write}

theorem Wire.new_holds (hspan : Span.bytes span = []) (h : Wire.new span max = .ok wire) :
    wire.Holds max (Span.capacity span) [] := by
  obtain ⟨bytes, happend, rfl⟩ := Except.map_eq_ok_iff.mp h
  refine ⟨⟨[], [], by simp, Nat.zero_le _⟩, ?_, fun hne => absurd rfl hne, rfl⟩
  refine ⟨rfl, LawfulSpan.capacity_of_ok happend, ?_, rfl, rfl, rfl⟩
  show Span.bytes bytes = _
  rw [LawfulSpan.bytes_of_ok happend, hspan]
  simp [Payloads.all]

omit [Span σ ε] [LawfulSpan σ] in
theorem Wire.finish_of_error_eq_none (h : wire.error = none) :
    wire.finish = .ok ⟨wire.bytes, wire.maxFrame, wire.blockLen⟩ := by
  rw [finish, h]

/-- A slot that has room for the frames of a block takes it. -/
theorem Wire.finish_of_wireLength_le (hspan : Span.bytes span = [])
    (hroom : wireLength max (writes.flatMap Write.bytes).length ≤ Span.capacity span) :
    ∃ (wire : Wire σ ε) (block : Block σ),
      Wire.new span max = .ok wire ∧ (wire.writes writes).finish = .ok block := by
  cases happend : Span.tryAppend span hole with
  | error error =>
    have hlt := LawfulSpan.lt_of_error happend
    have hframes : 0 < frames max (writes.flatMap Write.bytes).length :=
      lt_frames (by simp)
    have hheaders := Nat.mul_le_mul_left headerLen (Nat.succ_le_of_lt hframes)
    rw [hspan, length_hole, List.length_nil] at hlt
    rw [wireLength] at hroom
    omega
  | ok bytes =>
    have hnew : Wire.new span max = .ok (⟨bytes, max, 0, 0, Nat.zero_le _, none⟩ : Wire σ ε) := by
      rw [Wire.new, happend]
      rfl
    rcases writes_outcome (.inl (new_holds hspan hnew)) writes with
      ⟨payloads, hlays, -, -⟩ | ⟨-, hlt⟩
    · exact ⟨_, _, hnew, finish_of_error_eq_none hlays.error⟩
    · rw [List.nil_append] at hlt
      omega

theorem Wire.finish_laid (hspan : Span.bytes span = []) (hnew : Wire.new span max = .ok wire)
    {block : Block σ} (hfinish : (wire.writes writes).finish = .ok block) :
    ∃ payloads : Payloads max, payloads.Tight ∧ payloads.block = writes.flatMap Write.bytes ∧
      block.maxFrame = max ∧ Span.bytes block.bytes = reserved payloads.all ∧
      block.blockLen = payloads.block.length := by
  have herror : ¬ (wire.writes writes).error.isSome := by
    intro hsome
    obtain ⟨error, herror⟩ := Option.isSome_iff_exists.mp hsome
    rw [finish, herror] at hfinish
    exact absurd hfinish (by simp)
  obtain ⟨payloads, hlays, htight, hblock⟩ :=
    (writes_outcome (.inl (new_holds hspan hnew)) writes).holds herror
  rw [finish_of_error_eq_none hlays.error, Except.ok.injEq] at hfinish
  rw [← hfinish]
  exact ⟨payloads, htight, hblock, hlays.maxFrame, hlays.bytes, hlays.blockLen⟩

end Blocks

/-! ## The frames -/

/-- A frame with a fragment of a header block. -/
structure Fragment where
  header : Header
  payload : Bytes
  deriving Repr

/-- The bytes of a frame. -/
def Fragment.wireBytes (self : Fragment) : Bytes :=
  self.header.wireBytes ++ self.payload

/-- The frame of a payload. -/
def Fragment.of (max : Limit) (id : Id) (boundary : Boundary) (first last : Bool)
    (payload : Bytes) : Fragment where
  header :=
    { length := max.take payload.length
      kind := if first then .headers else .continuation
      flags :=
        (if first ∧ boundary = .end then endStream else 0) ||| (if last then endHeaders else 0)
      streamId := id }
  payload := payload

/-- The frames of payloads, one behind the other. -/
def fragments (max : Limit) (id : Id) (boundary : Boundary) (first : Bool)
    (payloads : List Bytes) : List Fragment :=
  payloads.mapIdx fun i payload =>
    Fragment.of max id boundary (first && i == 0) (i + 1 == payloads.length) payload

theorem fragments_cons (max : Limit) (id : Id) (boundary : Boundary) (first : Bool)
    (payload : Bytes) {payloads : List Bytes} (h : payloads ≠ []) :
    fragments max id boundary first (payload :: payloads) =
      Fragment.of max id boundary first false payload ::
        fragments max id boundary false payloads := by
  have hpos : (0 == payloads.length) = false :=
    beq_false_of_ne (List.length_pos_of_ne_nil h).ne
  simp [fragments, List.mapIdx_cons, hpos]

/-- The chunks of a layout are the frames of its payloads. -/
theorem Block.sealChunks_reserved {max : Limit} (id : Id) (boundary : Boundary) (first : Bool)
    (payloads : Payloads max) (htight : payloads.Tight) :
    sealChunks max id boundary first payloads.block.length (reserved payloads.all) =
      some ((fragments max id boundary first payloads.all).flatMap Fragment.wireBytes) := by
  obtain ⟨full, last, hfull, hlast⟩ := payloads
  simp only [Payloads.Tight, Payloads.block, Payloads.all] at *
  induction full generalizing first with
  | nil =>
    have hne : hole ++ last ≠ [] := by simp [hole, headerLen]
    have htake : (hole ++ last).take (max.value + headerLen) = hole ++ last :=
      List.take_of_length_le (by rw [List.length_append, length_hole]; omega)
    have hdrop : (hole ++ last).drop (max.value + headerLen) = [] :=
      List.drop_of_length_le (by rw [List.length_append, length_hole]; omega)
    have hlength : (max.take last.length).value = last.length := Nat.min_eq_left hlast
    rw [List.nil_append, reserved_singleton, List.flatten_nil, List.nil_append, sealChunks,
      dif_neg hne]
    dsimp only
    rw [htake, hdrop, if_neg (by simp), header, if_pos hlength, List.append_nil,
      List.drop_left' length_hole]
    simp [fragments, Fragment.of, Fragment.wireBytes, hlength]
  | cons payload full ih =>
    have hpayload : payload.length = max.value := hfull payload (by simp)
    have hpos : 0 < max.value := Nat.lt_of_lt_of_le (by norm_num) max.ge
    have hlastNe : last ≠ [] := htight (by simp)
    have hrest : 0 < (full.flatten ++ last).length :=
      List.length_pos_of_ne_nil (by simp [hlastNe])
    have hreserved : reserved (payload :: full ++ [last]) =
        (hole ++ payload) ++ reserved (full ++ [last]) := rfl
    have hchunk : (hole ++ payload).length = max.value + headerLen := by
      rw [List.length_append, length_hole, hpayload, Nat.add_comm]
    have hleft : ((payload :: full).flatten ++ last).length =
        max.value + (full.flatten ++ last).length := by
      rw [List.flatten_cons, List.append_assoc, List.length_append, hpayload]
    have hlength : (max.take (max.value + (full.flatten ++ last).length)).value = max.value :=
      Nat.min_eq_right (Nat.le_add_right _ _)
    have hmore : ¬ max.value = max.value + (full.flatten ++ last).length := by omega
    have hheader : header max id boundary first (max.value + (full.flatten ++ last).length) =
        (Fragment.of max id boundary first false payload).header := by
      have htake : max.take (max.value + (full.flatten ++ last).length) =
          max.take payload.length := by
        ext
        rw [hlength, hpayload]
        exact (Nat.min_self _).symm
      rw [header, hlength, if_neg hmore, htake]
      rfl
    have hvalue : (Fragment.of max id boundary first false payload).header.length.value =
        max.value := by
      rw [← hheader]
      exact hlength
    have htail := ih false (fun p hp => hfull p (by simp [hp])) (fun _ => hlastNe)
    rw [hreserved, hleft, sealChunks, dif_neg (by simp [hole, headerLen])]
    dsimp only
    rw [List.take_left' hchunk, List.drop_left' hchunk, if_neg (by rw [hchunk]; omega), hheader,
      hvalue, if_neg hmore, Nat.add_sub_cancel_left, htail, List.drop_left' length_hole,
      List.cons_append, fragments_cons _ _ _ _ _ (by simp), List.flatMap_cons]
    rfl

/-- The frames of a header block: one HEADERS frame and CONTINUATION frames of one stream, with
the block in their payloads. -/
structure Framed (max : Limit) (id : Id) (boundary : Boundary) (block : Bytes)
    (frames : List Fragment) : Prop where
  ne_nil : frames ≠ []
  block : frames.flatMap Fragment.payload = block
  length : ∀ frame ∈ frames, frame.header.length.value = frame.payload.length
  le : ∀ frame ∈ frames, frame.payload.length ≤ max.value
  streamId : ∀ frame ∈ frames, frame.header.streamId = id
  kind : ∀ i frame, frames[i]? = some frame →
    frame.header.kind = if i = 0 then .headers else .continuation
  flags : ∀ i frame, frames[i]? = some frame → frame.header.flags =
    (if i = 0 ∧ boundary = .end then endStream else 0) |||
      (if i + 1 = frames.length then endHeaders else 0)
  full : ∀ i frame, frames[i]? = some frame → i + 1 < frames.length →
    frame.payload.length = max.value
  payload_ne_nil : ∀ i frame, frames[i]? = some frame → 0 < i → frame.payload ≠ []

section Framing

variable {max : Limit} {id : Id} {boundary : Boundary}

theorem length_fragments (first : Bool) (payloads : List Bytes) :
    (fragments max id boundary first payloads).length = payloads.length :=
  List.length_mapIdx

theorem getElem?_fragments {payloads : List Bytes} {i : ℕ} {frame : Fragment}
    (h : (fragments max id boundary true payloads)[i]? = some frame) :
    ∃ payload, payloads[i]? = some payload ∧
      frame = Fragment.of max id boundary (i == 0) (i + 1 == payloads.length) payload := by
  rw [fragments, List.getElem?_mapIdx, Option.map_eq_some_iff] at h
  obtain ⟨payload, hpayload, rfl⟩ := h
  exact ⟨payload, hpayload, by rw [Bool.true_and]⟩

theorem flatMap_payload_fragments (payloads : List Bytes) :
    (fragments max id boundary true payloads).flatMap Fragment.payload = payloads.flatten := by
  rw [fragments, List.flatMap_def]
  congr 1
  ext i
  simp [Fragment.of]

/-- The frames of payloads are those of a header block. -/
theorem framed_fragments (payloads : Payloads max) (htight : payloads.Tight) :
    Framed max id boundary payloads.block (fragments max id boundary true payloads.all) := by
  have hle : ∀ payload ∈ payloads.all, payload.length ≤ max.value := by
    intro payload hmem
    rcases List.mem_append.mp hmem with hmem | hmem
    · exact (payloads.length_full payload hmem).le
    · rw [List.mem_singleton.mp hmem]
      exact payloads.length_last
  have hmem : ∀ frame ∈ fragments max id boundary true payloads.all,
      ∃ first last, ∃ payload ∈ payloads.all,
        frame = Fragment.of max id boundary first last payload := by
    intro frame hframe
    obtain ⟨i, hi⟩ := List.mem_iff_getElem?.mp hframe
    obtain ⟨payload, hpayload, heq⟩ := getElem?_fragments hi
    exact ⟨_, _, payload, List.mem_of_getElem? hpayload, heq⟩
  have hcount : payloads.all.length = payloads.full.length + 1 := by simp [Payloads.all]
  refine ⟨?_, ?_, ?_, ?_, ?_, ?_, ?_, ?_, ?_⟩
  · rw [← List.length_pos_iff, length_fragments, hcount]
    exact Nat.succ_pos _
  · rw [flatMap_payload_fragments, payloads.flatten_all]
  · intro frame hframe
    obtain ⟨first, last, payload, hpayload, rfl⟩ := hmem frame hframe
    exact Nat.min_eq_left (hle payload hpayload)
  · intro frame hframe
    obtain ⟨first, last, payload, hpayload, rfl⟩ := hmem frame hframe
    exact hle payload hpayload
  · intro frame hframe
    obtain ⟨first, last, payload, hpayload, rfl⟩ := hmem frame hframe
    rfl
  · intro i frame hi
    obtain ⟨payload, hpayload, rfl⟩ := getElem?_fragments hi
    simp [Fragment.of]
  · intro i frame hi
    obtain ⟨payload, hpayload, rfl⟩ := getElem?_fragments hi
    simp [Fragment.of, length_fragments]
  · intro i frame hi hlast
    obtain ⟨payload, hpayload, rfl⟩ := getElem?_fragments hi
    rw [length_fragments, hcount] at hlast
    rw [Payloads.all, List.getElem?_append_left (by omega)] at hpayload
    exact payloads.length_full payload (List.mem_of_getElem? hpayload)
  · intro i frame hi hpos
    obtain ⟨payload, hpayload, rfl⟩ := getElem?_fragments hi
    have hlt : i < payloads.full.length + 1 := by
      rw [← hcount]
      exact (List.getElem?_eq_some_iff.mp hpayload).1
    have hfull : payloads.full ≠ [] := List.ne_nil_of_length_pos (by omega)
    by_cases hi : i < payloads.full.length
    · -- a full payload is as long as the maximum, which is positive
      rw [Payloads.all, List.getElem?_append_left hi] at hpayload
      have hlength := payloads.length_full payload (List.mem_of_getElem? hpayload)
      have hge := max.ge
      exact List.ne_nil_of_length_pos (show 0 < payload.length by omega)
    · have hlast : i = payloads.full.length := by omega
      rw [Payloads.all, hlast, List.getElem?_concat_length, Option.some.injEq] at hpayload
      rw [Fragment.of, ← hpayload]
      exact htight hfull

end Framing

/-- Whatever the writes of a block are, what is sealed is one HEADERS frame and CONTINUATION
frames. -/
theorem wire_framed [LawfulSpan σ] {span : σ} {max : Limit} {wire : Wire σ ε}
    {writes : List Write} {block : Block σ} (hspan : Span.bytes span = [])
    (hnew : Wire.new span max = .ok wire) (hfinish : (wire.writes writes).finish = .ok block)
    (id : Id) (boundary : Boundary) :
    ∃ frames, block.sealed id boundary = some (frames.flatMap Fragment.wireBytes) ∧
      Framed max id boundary (writes.flatMap Write.bytes) frames := by
  obtain ⟨payloads, htight, hblock, hmax, hbytes, hlen⟩ := Wire.finish_laid hspan hnew hfinish
  refine ⟨fragments max id boundary true payloads.all, ?_, ?_⟩
  · rw [Block.sealed, hmax, hbytes, hlen]
    exact Block.sealChunks_reserved id boundary true payloads htight
  · rw [← hblock]
    exact framed_fragments payloads htight

/-- A slot of a pool: what was written, and its size. -/
structure Slot where
  bytes : Bytes
  capacity : ℕ
  deriving DecidableEq, Repr

instance : Span Slot Unit where
  bytes := Slot.bytes
  capacity := Slot.capacity
  tryAppend slot more :=
    if slot.bytes.length + more.length ≤ slot.capacity then
      .ok { slot with bytes := slot.bytes ++ more }
    else .error ()

instance : LawfulSpan Slot where
  bytes_of_ok {span next more} h := by
    simp only [Span.tryAppend] at h
    split_ifs at h
    exact (Except.ok.inj h) ▸ rfl
  capacity_of_ok {span next more} h := by
    simp only [Span.tryAppend] at h
    split_ifs at h
    exact (Except.ok.inj h) ▸ rfl
  lt_of_error {span more error} h := by
    simp only [Span.tryAppend] at h
    split_ifs at h with hroom
    exact not_le.mp hroom

/-- A block of five bytes in two writes. -/
theorem wire_framed_five :
    ∃ (wire : Wire Slot Unit) (block : Block Slot) (frames : List Fragment),
      Wire.new ⟨[], 64⟩ .default = .ok wire ∧
      (wire.writes [.byte 1, .slice [2, 3, 4, 5]]).finish = .ok block ∧
      block.sealed ⟨1, by decide⟩ .end = some (frames.flatMap Fragment.wireBytes) ∧
      Framed .default ⟨1, by decide⟩ .end [1, 2, 3, 4, 5] frames := by
  have hroom : wireLength .default
      ([Write.byte 1, .slice [2, 3, 4, 5]].flatMap Write.bytes).length ≤ 64 := by decide +kernel
  have hspan : Span.bytes (⟨[], 64⟩ : Slot) = [] := rfl
  obtain ⟨wire, block, hnew, hfinish⟩ := Wire.finish_of_wireLength_le hspan hroom
  obtain ⟨frames, hseal, hframed⟩ := wire_framed hspan hnew hfinish ⟨1, by decide⟩ .end
  exact ⟨wire, block, frames, hnew, hfinish, hseal, hframed⟩

end Sark.H2.Outputs
