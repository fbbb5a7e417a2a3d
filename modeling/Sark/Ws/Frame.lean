import Mathlib.Data.Nat.Bitwise
import Sark.Http.H1.Value
import Sark.Library.BigEndian
import Sark.Library.Fallible
import Sark.Library.Splice

/-!
# WebSocket frame headers

The frame layout of the WebSocket crate (`ws/src/frame`): a plan admits the opcode, the shape of
control frames and the length once, a frame binds it to a payload and a mask, and the header is
parsed from the beginning of a buffer. A length is written in seven bits, in two bytes or in eight,
and it is only read in the shortest of them.

* `Frame.header_eq`: what is written.
* `Head.parse_header`, `Head.parse_short`: a header that is complete, and one that is not.
* `Head.parse_some`: what is accepted is written as it was.
* `Head.canonical`: all of it, for the frames that a plan admits.
-/

namespace Sark.Ws

open BigEndian (ofBytes toBytes)

/-- `usize::MAX`. -/
def usizeMax : ℕ :=
  2 ^ 64 - 1

/-- `isize::MAX`, which no slice is longer than. -/
def isizeMax : ℕ :=
  2 ^ 63 - 1

/-- `u16::MAX`. -/
def u16Max : ℕ :=
  2 ^ 16 - 1

/-- `frame::MAX_CONTROL_PAYLOAD`. -/
def maxControlPayload : ℕ :=
  125

/-- A mask, `[u8; 4]`. -/
structure Key where
  a : UInt8
  b : UInt8
  c : UInt8
  d : UInt8
  deriving DecidableEq, Repr

/-- The bytes of a mask. -/
def Key.bytes (key : Key) : Bytes :=
  [key.a, key.b, key.c, key.d]

namespace Frame

/-- `frame::Error`. -/
inductive Error
  | reserved (bits : UInt8)
  | nonCanonical (marker : UInt8) (length : ℕ)
  | payload (actual maximum : ℕ)
  | length (value : ℕ)
  | offset (start amount : ℕ)
  deriving DecidableEq, Repr

/-- `frame::PlanError`. -/
inductive PlanError
  | opcode (actual : UInt8)
  | control (fin : Bool) (length : ℕ)
  | length (payload : ℕ) (masked : Bool)
  deriving DecidableEq, Repr

/-- `frame::BindError`. -/
inductive BindError
  | payload (expected actual : ℕ)
  | mask (expected actual : Bool)
  | capacity (required available : ℕ)
  deriving DecidableEq, Repr

end Frame

/-! ## Plans -/

/-- `Plan::head`: the width of a header without its mask. -/
def headWidth (len : ℕ) : ℕ :=
  if len ≤ 125 then 2 else if len ≤ u16Max then 4 else 10

/-- The width of a mask in a header. -/
def maskWidth (masked : Bool) : ℕ :=
  if masked then 4 else 0

/-- `frame::Plan`, with the widths that it retains. -/
structure Plan where
  opcode : UInt8
  fin : Bool
  payloadLen : ℕ
  masked : Bool
  wireLen : ℕ
  head : ℕ
  head_eq : head = headWidth payloadLen
  wireLen_eq : wireLen = head + maskWidth masked + payloadLen
  deriving DecidableEq

namespace Plan

/-- The part of `Plan::new` behind the admission of the opcode. -/
def measured (opcode : UInt8) (fin : Bool) (len : ℕ) (masked : Bool) :
    Except Frame.PlanError Plan :=
  if usizeMax < headWidth len + maskWidth masked + len then .error (.length len masked)
  else .ok ⟨opcode, fin, len, masked, headWidth len + maskWidth masked + len, headWidth len, rfl,
    rfl⟩

/-- `Plan::new`. -/
def new (opcode : UInt8) (fin : Bool) (len : ℕ) (masked : Bool) : Except Frame.PlanError Plan :=
  if opcode ≤ 0x2 then measured opcode fin len masked
  else if 0x8 ≤ opcode ∧ opcode ≤ 0xa then
    if fin = false ∨ maxControlPayload < len then .error (.control fin len)
    else measured opcode fin len masked
  else .error (.opcode opcode)

end Plan

/-- `frame::Frame`: a plan with a payload and a mask that fit it. -/
structure Frame where
  plan : Plan
  payload : Bytes
  mask : Option Key
  length_eq : payload.length = plan.payloadLen
  isSome_eq : mask.isSome = plan.masked
  deriving DecidableEq

/-- `Plan::bind`. -/
def Plan.bind (self : Plan) (data : Bytes) (mask : Option Key) : Except Frame.BindError Frame :=
  if hlength : data.length = self.payloadLen then
    if hmask : mask.isSome = self.masked then .ok ⟨self, data, mask, hlength, hmask⟩
    else .error (.mask self.masked mask.isSome)
  else .error (.payload self.payloadLen data.length)

namespace Frame

/-- `Frame::server`. -/
def server (opcode : UInt8) (payload : Bytes) : Frame where
  plan := ⟨opcode, true, payload.length, false, headWidth payload.length + payload.length,
    headWidth payload.length, rfl, rfl⟩
  payload := payload
  mask := none
  length_eq := rfl
  isSome_eq := rfl

/-- `Frame::prefix`: fourteen bytes, and how many of them are used. -/
def prefixBytes (self : Frame) : Bytes × ℕ :=
  let head := self.plan.head
  let len := self.plan.payloadLen
  let dst := List.replicate 14 (0 : UInt8)
  let dst := splice 0 [if self.plan.fin then 0x80 ||| self.plan.opcode else self.plan.opcode] dst
  let bit : UInt8 := if self.plan.masked then 0x80 else 0
  let wire := toBytes 8 len
  let dst :=
    if head = 2 then splice 1 [bit ||| wire.getD 7 0] dst
    else if head = 4 then splice 2 (wire.drop 6) (splice 1 [bit ||| 126] dst)
    else splice 2 wire (splice 1 [bit ||| 127] dst)
  let dst :=
    match self.mask with
    | some mask => splice head mask.bytes dst
    | none => dst
  (dst, head + maskWidth self.plan.masked)

/-- The header that is written: the bytes of the prefix that are used. -/
def header (self : Frame) : Bytes :=
  self.prefixBytes.1.take self.prefixBytes.2

end Frame

/-! ## The parser -/

/-- `frame::Head`. -/
structure Head where
  fin : Bool
  opcode : UInt8
  mask : Option Key
  start : ℕ
  payloadEnd : ℕ
  deriving DecidableEq, Repr

/-- `Head::payload_len`. -/
def Head.payloadLen (self : Head) : ℕ :=
  self.payloadEnd - self.start

/-- `let Some(..) = ..? else { return Ok(None) }`. -/
def awaiting {ε α β : Type*} (x : Except ε (Option α)) (f : α → Except ε (Option β)) :
    Except ε (Option β) :=
  match x with
  | .error error => .error error
  | .ok none => .ok none
  | .ok (some a) => f a

/-- `frame::Reader`. -/
structure Reader where
  bytes : Bytes
  offset : ℕ

namespace Reader

/-- `Reader::new`: the two bytes that every header has. -/
def new (bytes : Bytes) (start : ℕ) : Except Frame.Error (Option (Reader × UInt8 × UInt8)) :=
  if usizeMax < 2 + start then .error (.offset start 2)
  else
    match bytes.drop start with
    | b0 :: b1 :: _ => .ok (some (⟨bytes, 2 + start⟩, b0, b1))
    | _ => .ok none

/-- `Reader::take`. -/
def take (self : Reader) (n : ℕ) : Except Frame.Error (Option (Bytes × Reader)) :=
  if usizeMax < self.offset + n then .error (.offset self.offset n)
  else if (self.bytes.drop self.offset).length < n then .ok none
  else .ok (some ((self.bytes.drop self.offset).take n, ⟨self.bytes, self.offset + n⟩))

/-- The length that a marker announces. -/
def length (self : Reader) (marker : UInt8) : Except Frame.Error (Option (ℕ × Reader)) :=
  if marker = 126 then
    awaiting (self.take 2) fun read =>
      let len := ofBytes read.1
      if len < 126 then .error (.nonCanonical marker len) else .ok (some (len, read.2))
  else if marker = 127 then
    awaiting (self.take 8) fun read =>
      let raw := ofBytes read.1
      if raw &&& 2 ^ 63 ≠ 0 then .error (.length raw)
      else if raw ≤ u16Max then .error (.nonCanonical marker raw)
      else if usizeMax < raw then .error (.length raw)
      else .ok (some (raw, read.2))
  else .ok (some (marker.toNat, self))

/-- The mask of a header. -/
def mask (self : Reader) (masked : Bool) : Except Frame.Error (Option (Option Key × Reader)) :=
  if masked then
    awaiting (self.take 4) fun read =>
      match read.1 with
      | [a, b, c, d] => .ok (some (some ⟨a, b, c, d⟩, read.2))
      | _ => .ok none
  else .ok (some (none, self))

end Reader

namespace Head

/-- `Head::parse`. -/
def parse (buf : Bytes) (start max : ℕ) : Except Frame.Error (Option Head) :=
  awaiting (Reader.new buf start) fun first =>
    let b0 := first.2.1
    let b1 := first.2.2
    if b0 &&& 0x70 ≠ 0 then .error (.reserved (b0 &&& 0x70))
    else
      awaiting (first.1.length (b1 &&& 0x7f)) fun second =>
        let len := second.1
        if max < len then .error (.payload len max)
        else
          awaiting (second.2.mask (b1 &&& 0x80 ≠ 0)) fun third =>
            let offset := third.2.offset
            if usizeMax < offset + len then .error (.offset offset len)
            else .ok (some ⟨b0 &&& 0x80 ≠ 0, b0 &&& 0x0f, third.1, offset, offset + len⟩)

end Head

/-! ## The layout -/

/-- What stands for a length in the second byte. -/
def marker (len : ℕ) : UInt8 :=
  if len ≤ 125 then UInt8.ofNat len else if len ≤ u16Max then 126 else 127

/-- The bytes of a length that its marker does not hold. -/
def lengthBytes (len : ℕ) : Bytes :=
  if len ≤ 125 then [] else if len ≤ u16Max then toBytes 2 len else toBytes 8 len

/-- The bytes of a header, with the shortest length. -/
def headerBytes (fin : Bool) (opcode : UInt8) (mask : Option Key) (len : ℕ) : Bytes :=
  (if fin then 0x80 ||| opcode else opcode) ::
    ((if mask.isSome then 0x80 else 0) ||| marker len) ::
      (lengthBytes len ++ mask.elim [] Key.bytes)

section Layout

variable {fin : Bool} {opcode : UInt8} {mask : Option Key} {len : ℕ}

theorem length_lengthBytes : (lengthBytes len).length + 2 = headWidth len := by
  rw [lengthBytes, headWidth]
  split_ifs <;> simp

theorem length_maskBytes : (mask.elim [] Key.bytes).length = maskWidth mask.isSome := by
  cases mask <;> rfl

theorem length_headerBytes :
    (headerBytes fin opcode mask len).length = headWidth len + maskWidth mask.isSome := by
  rw [headerBytes, List.length_cons, List.length_cons, List.length_append, length_maskBytes,
    ← length_lengthBytes]
  omega

/-- The header of a frame is laid out with the shortest length. -/
theorem Frame.header_eq (frame : Frame) : frame.header =
    headerBytes frame.plan.fin frame.plan.opcode frame.mask frame.plan.payloadLen := by
  rw [header, prefixBytes, headerBytes, lengthBytes, marker]
  dsimp only
  rw [frame.plan.head_eq, ← frame.isSome_eq]
  generalize frame.plan.payloadLen = len, frame.mask = mask
  have hdrop : (toBytes 8 len).drop 6 = toBytes 2 len := BigEndian.drop_toBytes 6 2 len
  have hlast : (toBytes 8 len).getD 7 0 = UInt8.ofNat len := by
    simp [toBytes]
  rw [hdrop, hlast, headWidth]
  by_cases hshort : len ≤ 125
  · simp only [if_pos hshort, if_pos]
    cases mask <;> simp [splice, Key.bytes, maskWidth, List.replicate]
  by_cases hmiddle : len ≤ u16Max
  · simp only [if_neg hshort, if_pos hmiddle, Nat.reduceEqDiff, if_false, if_pos]
    cases mask <;> simp [splice, toBytes, Key.bytes, maskWidth, List.replicate]
  · simp only [if_neg hshort, if_neg hmiddle, Nat.reduceEqDiff, if_false]
    cases mask <;> simp [splice, toBytes, Key.bytes, maskWidth, List.replicate]

end Layout

/-! ## Bits -/

theorem first_bits {fin : Bool} {opcode : UInt8} (h : opcode ≤ 0x0f) :
    (if fin then 0x80 ||| opcode else opcode) &&& 0x70 = 0 ∧
      (if fin then 0x80 ||| opcode else opcode) &&& 0x0f = opcode ∧
        ((if fin then 0x80 ||| opcode else opcode) &&& 0x80 ≠ 0 ↔ fin = true) := by
  have hall : ∀ fin : Bool, ∀ n < 16,
      (if fin then 0x80 ||| UInt8.ofNat n else UInt8.ofNat n) &&& 0x70 = 0 ∧
        (if fin then 0x80 ||| UInt8.ofNat n else UInt8.ofNat n) &&& 0x0f = UInt8.ofNat n ∧
          ((if fin then 0x80 ||| UInt8.ofNat n else UInt8.ofNat n) &&& 0x80 ≠ 0 ↔ fin = true) := by
    decide +kernel
  simp only [UInt8.le_iff_toNat_le, UInt8.reduceToNat] at h
  have hopcode := hall fin opcode.toNat (by omega)
  rwa [UInt8.ofNat_toNat] at hopcode

theorem first_eq {byte : UInt8} (h : byte &&& 0x70 = 0) : byte &&& 0x0f ≤ 0x0f ∧
    byte = if byte &&& 0x80 ≠ 0 then 0x80 ||| (byte &&& 0x0f) else byte &&& 0x0f := by
  have hall : ∀ n < 256, UInt8.ofNat n &&& 0x70 = 0 → UInt8.ofNat n &&& 0x0f ≤ 0x0f ∧
      UInt8.ofNat n = if UInt8.ofNat n &&& 0x80 ≠ 0 then 0x80 ||| (UInt8.ofNat n &&& 0x0f)
        else UInt8.ofNat n &&& 0x0f := by
    decide +kernel
  have hbyte := hall byte.toNat byte.toNat_lt
  rw [UInt8.ofNat_toNat] at hbyte
  exact hbyte h

theorem second_bits {masked : Bool} {marker : UInt8} (h : marker ≤ 0x7f) :
    ((if masked then 0x80 else 0) ||| marker) &&& 0x7f = marker ∧
      (((if masked then 0x80 else 0) ||| marker) &&& 0x80 ≠ 0 ↔ masked = true) := by
  have hall : ∀ masked : Bool, ∀ n < 128,
      ((if masked then 0x80 else 0) ||| UInt8.ofNat n) &&& 0x7f = UInt8.ofNat n ∧
        (((if masked then 0x80 else 0) ||| UInt8.ofNat n) &&& 0x80 ≠ 0 ↔ masked = true) := by
    decide +kernel
  simp only [UInt8.le_iff_toNat_le, UInt8.reduceToNat] at h
  have hmarker := hall masked marker.toNat (by omega)
  rwa [UInt8.ofNat_toNat] at hmarker

theorem second_eq (byte : UInt8) : byte &&& 0x7f ≤ 0x7f ∧
    byte = (if byte &&& 0x80 ≠ 0 then 0x80 else 0) ||| (byte &&& 0x7f) := by
  have hall : ∀ n < 256, UInt8.ofNat n &&& 0x7f ≤ 0x7f ∧
      UInt8.ofNat n = (if UInt8.ofNat n &&& 0x80 ≠ 0 then 0x80 else 0) |||
        (UInt8.ofNat n &&& 0x7f) := by
    decide +kernel
  have hbyte := hall byte.toNat byte.toNat_lt
  rwa [UInt8.ofNat_toNat] at hbyte

theorem and_top_eq_zero_iff {raw : ℕ} (h : raw < 2 ^ 64) : raw &&& 2 ^ 63 = 0 ↔ raw < 2 ^ 63 := by
  rw [Nat.and_two_pow, Nat.testBit_eq_decide_div_mod_eq, Nat.mul_eq_zero, Bool.toNat_eq_zero,
    decide_eq_false_iff_not]
  omega

theorem marker_le (len : ℕ) : marker len ≤ 0x7f := by
  rw [marker]
  split_ifs with hshort
  · simp only [UInt8.le_iff_toNat_le, UInt8.toNat_ofNat', UInt8.reduceToNat]
    omega
  all_goals decide

/-! ## Reading -/

theorem awaiting_eq_some_iff {ε α β : Type*} {x : Except ε (Option α)}
    {f : α → Except ε (Option β)} {b : β} :
    awaiting x f = .ok (some b) ↔ ∃ a, x = .ok (some a) ∧ f a = .ok (some b) := by
  rcases x with error | _ | a <;> simp [awaiting]

namespace Reader

variable {self next : Reader} {lead rest : Bytes} {n len : ℕ} {mask : Option Key}

theorem take_eq (hdrop : self.bytes.drop self.offset = lead ++ rest)
    (hmax : self.offset + lead.length ≤ usizeMax) :
    self.take lead.length = .ok (some (lead, ⟨self.bytes, self.offset + lead.length⟩)) := by
  rw [take, if_neg (not_lt.mpr hmax), hdrop, if_neg, List.take_left]
  rw [List.length_append]
  omega

theorem take_short (hshort : (self.bytes.drop self.offset).length < n)
    (hmax : self.offset + n ≤ usizeMax) : self.take n = .ok none := by
  rw [take, if_neg (not_lt.mpr hmax), if_pos hshort]

theorem take_eq_some (h : self.take n = .ok (some (lead, next))) : lead.length = n ∧
    self.bytes.drop self.offset = lead ++ self.bytes.drop next.offset ∧
      next = ⟨self.bytes, self.offset + n⟩ := by
  rw [take] at h
  split at h
  · exact absurd h (by simp)
  · split at h
    · exact absurd h (by simp)
    · rename_i hlong
      obtain ⟨rfl, rfl⟩ := Prod.mk.inj (Option.some.inj (Except.ok.inj h))
      refine ⟨List.length_take_of_le (not_lt.mp hlong), ?_, rfl⟩
      rw [← List.drop_drop, List.take_append_drop]

/-- A length is read where it is written. -/
theorem length_eq (hlen : len ≤ isizeMax)
    (hdrop : self.bytes.drop self.offset = lengthBytes len ++ rest)
    (hmax : self.offset + (lengthBytes len).length ≤ usizeMax) :
    self.length (marker len) =
      .ok (some (len, ⟨self.bytes, self.offset + (lengthBytes len).length⟩)) := by
  have htake := take_eq hdrop hmax
  rw [length, marker]
  by_cases hshort : len ≤ 125
  · have hbytes : lengthBytes len = [] := by rw [lengthBytes, if_pos hshort]
    have htoNat : (UInt8.ofNat len).toNat = len := by
      rw [UInt8.toNat_ofNat']
      omega
    have hne {other : UInt8} (hother : 125 < other.toNat) : UInt8.ofNat len ≠ other := by
      intro heq
      rw [← heq, htoNat] at hother
      omega
    rw [if_pos hshort, if_neg (hne (by decide)), if_neg (hne (by decide)), htoNat, hbytes]
    rfl
  by_cases hmiddle : len ≤ u16Max
  · have hbytes : lengthBytes len = toBytes 2 len := by
      rw [lengthBytes, if_neg hshort, if_pos hmiddle]
    have hnumber : ofBytes (toBytes 2 len) = len :=
      BigEndian.ofBytes_toBytes_of_lt (by rw [u16Max] at hmiddle; omega)
    rw [hbytes, BigEndian.length_toBytes] at htake
    rw [if_neg hshort, if_pos hmiddle, if_pos rfl, htake, awaiting]
    dsimp only
    rw [hnumber, if_neg (by omega), hbytes, BigEndian.length_toBytes]
  · have hbytes : lengthBytes len = toBytes 8 len := by
      rw [lengthBytes, if_neg hshort, if_neg hmiddle]
    have hmaximum : isizeMax = 2 ^ 63 - 1 := rfl
    have hnumber : ofBytes (toBytes 8 len) = len :=
      BigEndian.ofBytes_toBytes_of_lt (by omega)
    rw [hbytes, BigEndian.length_toBytes] at htake
    rw [if_neg hshort, if_neg hmiddle, if_neg (by decide), if_pos rfl, htake, awaiting]
    dsimp only
    rw [hnumber, if_neg (not_not.mpr ((and_top_eq_zero_iff (by omega)).mpr (by omega))),
      if_neg hmiddle, if_neg (by rw [usizeMax]; omega), hbytes, BigEndian.length_toBytes]

theorem length_short (hshort : (self.bytes.drop self.offset).length < (lengthBytes len).length)
    (hmax : self.offset + (lengthBytes len).length ≤ usizeMax) :
    self.length (marker len) = .ok none := by
  rw [length, marker]
  rw [lengthBytes] at hshort hmax
  by_cases hfirst : len ≤ 125
  · rw [if_pos hfirst] at hshort
    exact absurd hshort (Nat.not_lt_zero _)
  rw [if_neg hfirst] at hshort hmax ⊢
  by_cases hmiddle : len ≤ u16Max
  · rw [if_pos hmiddle, BigEndian.length_toBytes] at hshort hmax
    rw [if_pos hmiddle, if_pos rfl, take_short hshort hmax]
    rfl
  · rw [if_neg hmiddle, BigEndian.length_toBytes] at hshort hmax
    rw [if_neg hmiddle, if_neg (by decide), if_pos rfl, take_short hshort hmax]
    rfl

/-- What is accepted as a length is its shortest form. -/
theorem length_eq_some {marked : UInt8} (hmarked : marked ≤ 0x7f)
    (h : self.length marked = .ok (some (len, next))) : marked = marker len ∧ len ≤ isizeMax ∧
      self.bytes.drop self.offset = lengthBytes len ++ self.bytes.drop next.offset ∧
        next = ⟨self.bytes, self.offset + (lengthBytes len).length⟩ := by
  rw [length] at h
  split at h
  next hmiddle =>
    subst hmiddle
    obtain ⟨read, hread, h⟩ := awaiting_eq_some_iff.mp h
    obtain ⟨hlength, hdrop, hnext⟩ := take_eq_some hread
    dsimp only at h
    split at h
    · exact absurd h (by simp)
    · rename_i hlong
      obtain ⟨rfl, rfl⟩ := Prod.mk.inj (Option.some.inj (Except.ok.inj h))
      have hlt := BigEndian.ofBytes_lt read.1
      rw [hlength] at hlt
      have hbytes : lengthBytes (ofBytes read.1) = read.1 := by
        rw [lengthBytes, if_neg (by omega), if_pos (by rw [u16Max]; omega), ← hlength,
          BigEndian.toBytes_ofBytes]
      refine ⟨?_, ?_, ?_, ?_⟩
      · rw [marker, if_neg (by omega), if_pos (by rw [u16Max]; omega)]
      · rw [isizeMax]
        omega
      · rw [hbytes, hdrop]
      · rw [hbytes, hlength, hnext]
  next hmiddle =>
    split at h
    next hlast =>
      subst hlast
      obtain ⟨read, hread, h⟩ := awaiting_eq_some_iff.mp h
      obtain ⟨hlength, hdrop, hnext⟩ := take_eq_some hread
      have hlt := BigEndian.ofBytes_lt read.1
      rw [hlength] at hlt
      dsimp only at h
      split at h
      · exact absurd h (by simp)
      · rename_i htop
        rw [not_not, and_top_eq_zero_iff (by omega)] at htop
        split at h
        · exact absurd h (by simp)
        · rename_i hlong
          split at h
          · exact absurd h (by simp)
          · obtain ⟨rfl, rfl⟩ := Prod.mk.inj (Option.some.inj (Except.ok.inj h))
            have hshort : ¬ofBytes read.1 ≤ 125 := by
              rw [u16Max] at hlong
              omega
            have hbytes : lengthBytes (ofBytes read.1) = read.1 := by
              rw [lengthBytes, if_neg hshort, if_neg hlong, ← hlength, BigEndian.toBytes_ofBytes]
            refine ⟨?_, ?_, ?_, ?_⟩
            · rw [marker, if_neg hshort, if_neg hlong]
            · rw [isizeMax]
              omega
            · rw [hbytes, hdrop]
            · rw [hbytes, hlength, hnext]
    next hlast =>
      obtain ⟨rfl, rfl⟩ := Prod.mk.inj (Option.some.inj (Except.ok.inj h))
      have hle : marked.toNat ≤ 125 := by
        simp only [UInt8.le_iff_toNat_le, ← UInt8.toNat_inj, UInt8.reduceToNat] at *
        omega
      have hbytes : lengthBytes marked.toNat = [] := by rw [lengthBytes, if_pos hle]
      refine ⟨?_, ?_, ?_, ?_⟩
      · rw [marker, if_pos hle, UInt8.ofNat_toNat]
      · rw [isizeMax]
        omega
      · rw [hbytes, List.nil_append]
      · rw [hbytes]
        rfl

theorem mask_eq (hdrop : self.bytes.drop self.offset = mask.elim [] Key.bytes ++ rest)
    (hmax : self.offset + maskWidth mask.isSome ≤ usizeMax) : self.mask mask.isSome =
      .ok (some (mask, ⟨self.bytes, self.offset + maskWidth mask.isSome⟩)) := by
  cases mask with
  | none => rfl
  | some key =>
    have htake := take_eq hdrop hmax
    rw [Reader.mask, Option.isSome_some, if_pos rfl]
    rw [show 4 = ((some key).elim [] Key.bytes).length from rfl, htake]
    rfl

theorem mask_short
    (hshort : (self.bytes.drop self.offset).length < maskWidth mask.isSome)
    (hmax : self.offset + maskWidth mask.isSome ≤ usizeMax) :
    self.mask mask.isSome = .ok none := by
  cases mask with
  | none => exact absurd hshort (Nat.not_lt_zero _)
  | some key =>
    have htake : self.take 4 = .ok none := take_short hshort hmax
    rw [Reader.mask, Option.isSome_some, if_pos rfl, htake]
    rfl

theorem mask_eq_some {masked : Bool} (h : self.mask masked = .ok (some (mask, next))) :
    mask.isSome = masked ∧
      self.bytes.drop self.offset = mask.elim [] Key.bytes ++ self.bytes.drop next.offset ∧
        next = ⟨self.bytes, self.offset + maskWidth masked⟩ := by
  cases masked with
  | false =>
    obtain ⟨rfl, rfl⟩ := Prod.mk.inj (Option.some.inj (Except.ok.inj h))
    exact ⟨rfl, rfl, rfl⟩
  | true =>
    rw [Reader.mask, if_pos rfl] at h
    obtain ⟨read, hread, h⟩ := awaiting_eq_some_iff.mp h
    obtain ⟨hlength, hdrop, hnext⟩ := take_eq_some hread
    obtain ⟨a, b, c, d, hbytes⟩ := List.length_eq_four.mp hlength
    rw [hbytes] at h
    obtain ⟨rfl, rfl⟩ := Prod.mk.inj (Option.some.inj (Except.ok.inj h))
    refine ⟨rfl, ?_, hnext⟩
    rw [hdrop, hbytes]
    rfl

end Reader

/-! ## Headers -/

namespace Head

section Headers

variable {buf rest : Bytes} {start max len : ℕ} {fin : Bool} {opcode : UInt8} {mask : Option Key}
  {head : Head}

/-- A header that is complete is parsed, whatever follows. -/
theorem parse_header (hbuf : buf.length ≤ isizeMax) (hopcode : opcode ≤ 0x0f)
    (hlen : len ≤ isizeMax) (hmax : len ≤ max)
    (hdrop : buf.drop start = headerBytes fin opcode mask len ++ rest) :
    parse buf start max = .ok (some ⟨fin, opcode, mask,
      start + (headWidth len + maskWidth mask.isSome),
      start + (headWidth len + maskWidth mask.isSome) + len⟩) := by
  have hspace := congrArg List.length hdrop
  rw [List.length_append, length_headerBytes, List.length_drop, ← length_lengthBytes] at hspace
  have hlimits : isizeMax = 2 ^ 63 - 1 ∧ usizeMax = 2 ^ 64 - 1 := ⟨rfl, rfl⟩
  obtain ⟨hreserved, hlow, hfin⟩ := @first_bits fin opcode hopcode
  obtain ⟨hmarker, hmasked⟩ := @second_bits mask.isSome (marker len) (marker_le len)
  rw [headerBytes] at hdrop
  simp only [List.cons_append, List.append_assoc] at hdrop
  generalize hb0 : (if fin then 0x80 ||| opcode else opcode) = b0 at *
  generalize hb1 : ((if mask.isSome then 0x80 else 0) ||| marker len) = b1 at *
  have hnew : Reader.new buf start = .ok (some (⟨buf, 2 + start⟩, b0, b1)) := by
    rw [Reader.new, if_neg (by omega), hdrop]
  have hfirst : buf.drop (2 + start) =
      lengthBytes len ++ (mask.elim [] Key.bytes ++ rest) := by
    rw [Nat.add_comm, ← List.drop_drop, hdrop]
    rfl
  have hlength := @Reader.length_eq ⟨buf, 2 + start⟩ _ len hlen hfirst
    (by dsimp only; omega)
  have hsecond : buf.drop (2 + start + (lengthBytes len).length) =
      mask.elim [] Key.bytes ++ rest := by
    rw [← List.drop_drop, hfirst, List.drop_left]
  have hmask := @Reader.mask_eq ⟨buf, 2 + start + (lengthBytes len).length⟩ _ mask hsecond
    (by dsimp only; omega)
  rw [parse, hnew, awaiting]
  dsimp only
  rw [if_neg (not_not.mpr hreserved), hmarker, hlength, awaiting]
  dsimp only
  have hfinBit : decide (b0 &&& 0x80 ≠ 0) = fin := by
    simp only [hfin, Bool.decide_eq_true]
  have hmaskBit : decide (b1 &&& 0x80 ≠ 0) = mask.isSome := by
    simp only [hmasked, Bool.decide_eq_true]
  rw [if_neg (not_lt.mpr hmax), hlow, hfinBit, hmaskBit, hmask, awaiting]
  dsimp only
  have hwidth : 2 + start + (lengthBytes len).length + maskWidth mask.isSome =
      start + (headWidth len + maskWidth mask.isSome) := by
    rw [← length_lengthBytes]
    omega
  rw [if_neg (by omega), hwidth]

/-- A header that is not complete is waited for. -/
theorem parse_short (hbuf : buf.length ≤ isizeMax) (hopcode : opcode ≤ 0x0f)
    (hmax : len ≤ max) (hstart : start ≤ buf.length) (hlen : len ≤ isizeMax)
    (hlead : buf.drop start <+: headerBytes fin opcode mask len)
    (hshort : buf.drop start ≠ headerBytes fin opcode mask len) :
    parse buf start max = .ok none := by
  obtain ⟨more, hmore⟩ := hlead
  have hcount := congrArg List.length hmore
  rw [List.length_append, length_headerBytes, List.length_drop, ← length_lengthBytes] at hcount
  have hpos : 0 < more.length := by
    rw [List.length_pos_iff]
    rintro rfl
    rw [List.append_nil] at hmore
    exact hshort hmore
  have hlimits : isizeMax = 2 ^ 63 - 1 ∧ usizeMax = 2 ^ 64 - 1 := ⟨rfl, rfl⟩
  have hwidths : (lengthBytes len).length ≤ 8 ∧ maskWidth mask.isSome ≤ 4 := by
    have hlength := @length_lengthBytes len
    rw [headWidth] at hlength
    refine ⟨by split_ifs at hlength <;> omega, ?_⟩
    rw [maskWidth]
    split <;> omega
  obtain ⟨hreserved, -, -⟩ := @first_bits fin opcode hopcode
  obtain ⟨hmarker, hmasked⟩ := @second_bits mask.isSome (marker len) (marker_le len)
  rw [headerBytes] at hmore
  generalize hb0 : (if fin then 0x80 ||| opcode else opcode) = b0 at *
  generalize hb1 : ((if mask.isSome then 0x80 else 0) ||| marker len) = b1 at *
  rw [parse]
  rcases hdrop : buf.drop start with _ | ⟨first, _ | ⟨second, read⟩⟩
  · rw [Reader.new, if_neg (by omega), hdrop]
    rfl
  · rw [Reader.new, if_neg (by omega), hdrop]
    rfl
  -- the two bytes are there, and they are the header's
  rw [hdrop, List.cons_append, List.cons_append, List.cons.injEq, List.cons.injEq] at hmore
  obtain ⟨rfl, rfl, hmore⟩ := hmore
  have hread := congrArg List.length hdrop
  rw [List.length_drop, List.length_cons, List.length_cons] at hread
  have hfirst : buf.drop (2 + start) = read := by
    rw [Nat.add_comm, ← List.drop_drop, hdrop]
    rfl
  have hnew : Reader.new buf start = .ok (some (⟨buf, 2 + start⟩, first, second)) := by
    rw [Reader.new, if_neg (by omega), hdrop]
  rw [hnew, awaiting]
  dsimp only
  rw [if_neg (not_not.mpr hreserved), hmarker]
  by_cases hlong : read.length < (lengthBytes len).length
  · rw [@Reader.length_short ⟨buf, 2 + start⟩ len (by rw [hfirst]; exact hlong)
      (by dsimp only; omega), awaiting]
  · obtain ⟨masking, hsplit⟩ : ∃ masking, read = lengthBytes len ++ masking := by
      rcases List.append_eq_append_iff.mp hmore with ⟨extra, hextra, -⟩ | ⟨extra, hextra, -⟩
      · have hnil := congrArg List.length hextra
        rw [List.length_append] at hnil
        obtain rfl : extra = [] := List.length_eq_zero_iff.mp (by omega)
        exact ⟨[], by rw [hextra, List.append_nil, List.append_nil]⟩
      · exact ⟨extra, hextra⟩
    have hcountRead := congrArg List.length hsplit
    rw [List.length_append] at hcountRead
    have hsecond : buf.drop (2 + start + (lengthBytes len).length) = masking := by
      rw [← List.drop_drop, hfirst, hsplit, List.drop_left]
    have hmaskBit : decide (second &&& 0x80 ≠ 0) = mask.isSome := by
      simp only [hmasked, Bool.decide_eq_true]
    rw [@Reader.length_eq ⟨buf, 2 + start⟩ masking len hlen (by rw [hfirst, hsplit])
      (by dsimp only; omega), awaiting]
    dsimp only
    rw [if_neg (not_lt.mpr hmax), hmaskBit,
      @Reader.mask_short ⟨buf, 2 + start + (lengthBytes len).length⟩ mask
        (by dsimp only; rw [hsecond]; omega) (by dsimp only; omega), awaiting]

/-- What is accepted is laid out with the shortest length. -/
theorem parse_some (h : parse buf start max = .ok (some head)) :
    head.opcode ≤ 0x0f ∧ head.payloadLen ≤ isizeMax ∧ head.payloadLen ≤ max ∧
      head.start = start + (headWidth head.payloadLen + maskWidth head.mask.isSome) ∧
        head.payloadEnd = head.start + head.payloadLen ∧
          buf.drop start = headerBytes head.fin head.opcode head.mask head.payloadLen ++
            buf.drop head.start := by
  rw [parse] at h
  obtain ⟨⟨reader, b0, b1⟩, hnew, h⟩ := awaiting_eq_some_iff.mp h
  dsimp only at h
  split at h
  · exact absurd h (by simp)
  rename_i hreserved
  obtain ⟨⟨len, second⟩, hlength, h⟩ := awaiting_eq_some_iff.mp h
  dsimp only at h
  split at h
  · exact absurd h (by simp)
  rename_i hmax
  obtain ⟨⟨mask, third⟩, hmask, h⟩ := awaiting_eq_some_iff.mp h
  dsimp only at h
  split at h
  · exact absurd h (by simp)
  obtain rfl := Option.some.inj (Except.ok.inj h)
  rw [Reader.new] at hnew
  split at hnew
  · exact absurd hnew (by simp)
  split at hnew
  swap
  · exact absurd hnew (by simp)
  rename_i first' second' read hdrop
  obtain ⟨rfl, hbytes⟩ := Prod.mk.inj (Option.some.inj (Except.ok.inj hnew))
  obtain ⟨rfl, rfl⟩ := Prod.mk.inj hbytes
  obtain ⟨hopcode, hfirst⟩ := first_eq (not_not.mp hreserved)
  obtain ⟨hmarked, hsecond⟩ := second_eq second'
  obtain ⟨hmarker, hle, hlengthBytes, rfl⟩ := Reader.length_eq_some hmarked hlength
  obtain ⟨hmasked, hmaskBytes, rfl⟩ := Reader.mask_eq_some hmask
  dsimp only at hlengthBytes hmaskBytes
  have hlen : (Head.mk (decide (first' &&& 0x80 ≠ 0)) (first' &&& 0x0f) mask
      (2 + start + (lengthBytes len).length + maskWidth (decide (second' &&& 0x80 ≠ 0)))
      (2 + start + (lengthBytes len).length + maskWidth (decide (second' &&& 0x80 ≠ 0)) +
        len)).payloadLen = len := by
    rw [payloadLen]
    exact Nat.add_sub_cancel_left ..
  have hread : buf.drop (2 + start) = read := by
    rw [Nat.add_comm, ← List.drop_drop, hdrop]
    rfl
  rw [hlen]
  refine ⟨hopcode, hle, not_lt.mp hmax, ?_, rfl, ?_⟩
  · dsimp only
    rw [hmasked, ← length_lengthBytes]
    omega
  · dsimp only
    rw [headerBytes, hdrop, ← hread, hlengthBytes, hmaskBytes, hmasked, ← hmarker,
      List.cons_append, List.cons_append, List.append_assoc]
    simp only [decide_eq_true_eq]
    rw [← hfirst, ← hsecond]

end Headers

end Head

/-! ## Encoding and parsing -/

/-- What the encoder admits: a data frame, or a final control frame with a short payload. -/
def Admitted (opcode : UInt8) (fin : Bool) (len : ℕ) : Prop :=
  opcode ≤ 0x2 ∨ (0x8 ≤ opcode ∧ opcode ≤ 0xa) ∧ fin = true ∧ len ≤ maxControlPayload

section Encoding

variable {opcode : UInt8} {fin masked : Bool} {len : ℕ} {plan : Plan} {data : Bytes}
  {mask : Option Key} {frame : Frame}

theorem Admitted.opcode_le (h : Admitted opcode fin len) : opcode ≤ 0x0f := by
  simp only [Admitted, UInt8.le_iff_toNat_le, UInt8.reduceToNat] at h ⊢
  omega

theorem Plan.new_of_not_admitted (h : ¬Admitted opcode fin len) :
    ∃ error, new opcode fin len masked = .error error := by
  rw [Admitted, not_or] at h
  rw [new, if_neg h.1]
  split
  next hcontrol =>
    have hrefused : fin = false ∨ maxControlPayload < len := by
      by_contra hshape
      rw [not_or, Bool.not_eq_false, not_lt] at hshape
      exact h.2 ⟨hcontrol, hshape⟩
    rw [if_pos hrefused]
    exact ⟨_, rfl⟩
  next => exact ⟨_, rfl⟩

theorem Plan.new_of_admitted (h : Admitted opcode fin len) :
    new opcode fin len masked = measured opcode fin len masked := by
  rw [new]
  rcases h with hdata | ⟨hcontrol, hfin, hlen⟩
  · rw [if_pos hdata]
  · have hshape : ¬(fin = false ∨ maxControlPayload < len) := by
      rw [not_or, Bool.not_eq_false, not_lt]
      exact ⟨hfin, hlen⟩
    rw [if_pos hcontrol, if_neg hshape, ite_self]

theorem Plan.exists_measured (h : len ≤ isizeMax) :
    ∃ plan, measured opcode fin len masked = .ok plan := by
  have hlimits : isizeMax = 2 ^ 63 - 1 ∧ usizeMax = 2 ^ 64 - 1 := ⟨rfl, rfl⟩
  have hwidths : headWidth len ≤ 10 ∧ maskWidth masked ≤ 4 := by
    constructor
    · rw [headWidth]
      split_ifs <;> omega
    · rw [maskWidth]
      split <;> omega
  rw [measured, if_neg (by omega)]
  exact ⟨_, rfl⟩

theorem Plan.of_new (h : new opcode fin len masked = .ok plan) : Admitted opcode fin len ∧
    plan.opcode = opcode ∧ plan.fin = fin ∧ plan.payloadLen = len ∧ plan.masked = masked := by
  by_cases hadmitted : Admitted opcode fin len
  · rw [new_of_admitted hadmitted, measured] at h
    split at h
    · exact absurd h (by simp)
    · obtain rfl := Except.ok.inj h
      exact ⟨hadmitted, rfl, rfl, rfl, rfl⟩
  · obtain ⟨error, herror⟩ := @new_of_not_admitted opcode fin masked len hadmitted
    rw [herror] at h
    exact absurd h (by simp)

theorem Plan.of_bind (h : plan.bind data mask = .ok frame) :
    frame.plan = plan ∧ frame.payload = data ∧ frame.mask = mask := by
  rw [bind] at h
  split at h
  · split at h
    · obtain rfl := Except.ok.inj h
      exact ⟨rfl, rfl, rfl⟩
    · exact absurd h (by simp)
  · exact absurd h (by simp)

theorem Frame.header_of_bind (hplan : Plan.new opcode fin len masked = .ok plan)
    (hframe : plan.bind data mask = .ok frame) :
    frame.header = headerBytes fin opcode mask len := by
  obtain ⟨-, rfl, rfl, rfl, rfl⟩ := Plan.of_new hplan
  obtain ⟨rfl, -, rfl⟩ := Plan.of_bind hframe
  exact frame.header_eq

end Encoding

/-- A header that is written is parsed as it was meant, behind anything and in front of anything,
and every part of it is waited for. What is accepted has the shortest length; it is written as it
was if the encoder admits it, which it does not for reserved opcodes and for control frames that are
not final or too long. -/
theorem Head.canonical :
    (∀ opcode fin len masked plan data mask frame,
      Plan.new opcode fin len masked = .ok plan → plan.bind data mask = .ok frame →
        ∀ lead rest max, len ≤ isizeMax → len ≤ max →
          (lead ++ (frame.header ++ rest)).length ≤ isizeMax →
            parse (lead ++ (frame.header ++ rest)) lead.length max =
              .ok (some ⟨fin, opcode, mask, lead.length + frame.header.length,
                lead.length + frame.header.length + len⟩) ∧
            ∀ part, part <+: frame.header → part ≠ frame.header →
              parse (lead ++ part) lead.length max = .ok none) ∧
    ∀ buf start max head, parse buf start max = .ok (some head) →
      window start (head.start - start) buf =
          headerBytes head.fin head.opcode head.mask head.payloadLen ∧ head.payloadLen < 2 ^ 63 ∧
        (¬Admitted head.opcode head.fin head.payloadLen → ∃ error,
          Plan.new head.opcode head.fin head.payloadLen head.mask.isSome = .error error) ∧
        (Admitted head.opcode head.fin head.payloadLen → ∃ plan,
          Plan.new head.opcode head.fin head.payloadLen head.mask.isSome = .ok plan ∧
            ∀ data : Bytes, data.length = head.payloadLen → ∃ frame,
              plan.bind data head.mask = .ok frame ∧
                frame.header = window start (head.start - start) buf) := by
  refine ⟨?_, ?_⟩
  · intro opcode fin len masked plan data mask frame hplan hframe lead rest max hlen hmax hbuf
    have hopcode := (Plan.of_new hplan).1.opcode_le
    have hheader := Frame.header_of_bind hplan hframe
    rw [hheader] at hbuf ⊢
    refine ⟨?_, fun part hpart hshort => ?_⟩
    · rw [parse_header hbuf hopcode hlen hmax List.drop_left, length_headerBytes]
    · have hlength := hpart.length_le
      simp only [List.length_append] at hbuf
      have hdrop : (lead ++ part).drop lead.length = part := List.drop_left
      rw [← hdrop] at hpart hshort
      exact parse_short (by rw [List.length_append]; omega) hopcode hmax
        (by rw [List.length_append]; omega) hlen hpart hshort
  · intro buf start max head h
    obtain ⟨hopcode, hlen, hmax, hstart, hend, hdrop⟩ := parse_some h
    have hwindow : window start (head.start - start) buf =
        headerBytes head.fin head.opcode head.mask head.payloadLen := by
      rw [window, hdrop, hstart, Nat.add_sub_cancel_left, ← length_headerBytes, List.take_left]
    refine ⟨hwindow, ?_, Plan.new_of_not_admitted, fun hadmitted => ?_⟩
    · rw [isizeMax] at hlen
      omega
    · obtain ⟨plan, hplan⟩ := @Plan.exists_measured head.opcode head.fin head.mask.isSome _ hlen
      rw [← Plan.new_of_admitted hadmitted] at hplan
      refine ⟨plan, hplan, fun data hdata => ?_⟩
      obtain ⟨-, -, -, hpayload, hmasked⟩ := Plan.of_new hplan
      have hbind : ∃ frame, plan.bind data head.mask = .ok frame := by
        rw [Plan.bind, dif_pos (hdata.trans hpayload.symm), dif_pos hmasked.symm]
        exact ⟨_, rfl⟩
      obtain ⟨frame, hframe⟩ := hbind
      exact ⟨frame, hframe, by rw [Frame.header_of_bind hplan hframe, hwindow]⟩

/-- A masked binary frame of two bytes. -/
theorem Head.canonical_masked : ∃ plan frame,
    Plan.new 0x2 true 2 true = .ok plan ∧ plan.bind [7, 8] (some ⟨1, 2, 3, 4⟩) = .ok frame ∧
      parse ([0] ++ (frame.header ++ [6, 10])) 1 2 =
        .ok (some ⟨true, 0x2, some ⟨1, 2, 3, 4⟩, 7, 9⟩) := by
  have hplan : Plan.new 0x2 true 2 true = .ok ⟨0x2, true, 2, true, 8, 2, rfl, rfl⟩ := rfl
  have hframe : Plan.bind ⟨0x2, true, 2, true, 8, 2, rfl, rfl⟩ [7, 8] (some ⟨1, 2, 3, 4⟩) =
      .ok ⟨⟨0x2, true, 2, true, 8, 2, rfl, rfl⟩, [7, 8], some ⟨1, 2, 3, 4⟩, rfl, rfl⟩ := rfl
  exact ⟨_, _, hplan, hframe, (canonical.1 _ _ _ _ _ _ _ _ hplan hframe [0] [6, 10] 2
    (by decide) (by decide) (by decide)).1⟩

/-- A header with a reserved opcode is accepted, and the encoder refuses it. -/
theorem Head.canonical_reserved : parse [0x83, 0x00] 0 0 = .ok (some ⟨true, 0x3, none, 2, 2⟩) ∧
    ∀ data frame, ∀ plan, Plan.new 0x3 true 0 false = .ok plan →
      plan.bind data none ≠ .ok frame := by
  refine ⟨by decide, fun data frame plan hplan => ?_⟩
  exact absurd (Plan.of_new hplan).1 (by simp [Admitted])

end Sark.Ws
