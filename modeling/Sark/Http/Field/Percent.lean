import Sark.Http.Uri.Literal
import Sark.Library.Fallible
import Sark.Library.Splice
import Sark.Library.Utf8Repair

/-!
# Percent-encoded field text

Field text with percent escapes (`http/src/field/text/percent`). The encoder escapes the percent
sign and what is not printable ASCII; the decoder works in place, keeps malformed escapes, and
repairs its output to UTF-8 with a question mark for every byte that belongs to no sequence.

* `Encoder.measured_eq`: the length that is measured is the one that is emitted.
* `Utf8.push_spec`: what a byte adds to the repaired output.
* `Decoder.step_spec`: the output stays behind the input, and what is unread stays as it is.
* `percent_codec`: encoding and decoding.
-/

open Utf8 (Covered Sequence Tail Valid repair width)

namespace Sark.Percent

/-- `u32::MAX`. -/
def u32Max : ℕ :=
  2 ^ 32 - 1

/-- `%`. -/
def percent : UInt8 :=
  0x25

/-! ## Scanning -/

namespace Scan

/-- `Scan::literal`: how far the bytes are ASCII without percent signs. -/
def literal (bytes : Bytes) : ℕ :=
  bytes.findIdx fun byte => byte == percent || 0x80 ≤ byte

/-- The bytes that are escaped. -/
def isEscaped (byte : UInt8) : Bool :=
  !(0x20 ≤ byte && byte ≤ 0x7e) || byte == percent

/-- `Scan::plain`: the bytes in front of the first one that is escaped, and what follows. -/
def plain (bytes : Bytes) : Bytes × Bytes :=
  bytes.splitAt (bytes.findIdx isEscaped)

end Scan

/-- `octet::HEX`. -/
def HEX : Bytes :=
  [0x30, 0x31, 0x32, 0x33, 0x34, 0x35, 0x36, 0x37, 0x38, 0x39, 0x41, 0x42, 0x43, 0x44, 0x45, 0x46]

namespace Octet

/-- `octet::encode`. -/
def encode (byte : UInt8) : Bytes :=
  [percent, HEX.getD (byte >>> 4).toNat 0, HEX.getD (byte &&& 0x0f).toNat 0]

/-- `octet::decode`. -/
def decode (high low : UInt8) : Option UInt8 := do
  let high ← Uri.hex high
  let low ← Uri.hex low
  pure (UInt8.ofNat (high <<< 4 ||| low))

end Octet

/-! ## The encoder -/

/-- `percent::Error`. -/
inductive Error
  | input (actual : ℕ)
  | escape (current : ℕ)
  deriving DecidableEq, Repr

namespace Length

/-- The loop of `Length::measure`. -/
def measureLoop (length : ℕ) (bytes : Bytes) : Except Error ℕ :=
  match hsuffix : (Scan.plain bytes).2 with
  | [] => .ok length
  | _ :: tail =>
    if u32Max - 2 < length then .error (.escape length) else measureLoop (length + 2) tail
  termination_by bytes.length
  decreasing_by
    have := congrArg List.length hsuffix
    rw [Scan.plain, List.splitAt_eq, List.length_drop, List.length_cons] at this
    omega

/-- `Length::measure`. -/
def measure (bytes : Bytes) : Except Error ℕ :=
  if u32Max < bytes.length then .error (.input bytes.length)
  else measureLoop bytes.length bytes

end Length

/-- `raw::Encoder`: a text with its measured length. -/
structure Encoder where
  text : Bytes
  length : ℕ
  isText : Utf8.Valid text
  measured : Length.measure text = .ok length

namespace Encoder

/-- `Encoder::new`. -/
def new (text : Bytes) (isText : Utf8.Valid text) : Except Error Encoder :=
  match h : Length.measure text with
  | .ok length => .ok ⟨text, length, isText, h⟩
  | .error error => .error error

/-- The loop of `Encoder::try_write`. -/
def writeLoop {σ ε : Type*} (emit : σ → Bytes → Except ε σ) (sink : σ) (bytes : Bytes) :
    Except ε σ :=
  if bytes = [] then .ok sink
  else
    match emit sink (Scan.plain bytes).1 with
    | .error error => .error error
    | .ok sink =>
      match hsuffix : (Scan.plain bytes).2 with
      | [] => .ok sink
      | byte :: tail =>
        match emit sink (Octet.encode byte) with
        | .error error => .error error
        | .ok sink => writeLoop emit sink tail
  termination_by bytes.length
  decreasing_by
    have := congrArg List.length hsuffix
    rw [Scan.plain, List.splitAt_eq, List.length_drop, List.length_cons] at this
    omega

/-- `Encoder::try_write`. -/
def tryWrite {σ ε : Type*} (self : Encoder) (emit : σ → Bytes → Except ε σ) (sink : σ) :
    Except ε σ :=
  writeLoop emit sink self.text

/-- A sink that keeps what it receives. -/
def keep (sink bytes : Bytes) : Except Empty Bytes :=
  .ok (sink ++ bytes)

end Encoder

/-! ## Repair -/

/-- `?`. -/
def mark : UInt8 :=
  0x3f

/-- A window of bytes with a write cursor. -/
structure Output where
  bytes : Bytes
  written : ℕ
  deriving DecidableEq, Repr

/-- `Utf8::emit`: a write outside of the window is none. -/
def Output.emit (out : Output) (byte : UInt8) : Option Output :=
  if out.written < out.bytes.length then
    some ⟨splice out.written [byte] out.bytes, out.written + 1⟩
  else none

/-- `utf8::Utf8`: the bytes of a sequence that is not complete. -/
inductive Utf8
  | ready
  | two (first : UInt8)
  | threeFirst (first : UInt8)
  | threeSecond (first second : UInt8)
  | fourFirst (first : UInt8)
  | fourSecond (first second : UInt8)
  | fourThird (first second third : UInt8)
  deriving DecidableEq, Repr

namespace Utf8

/-- `Utf8::is_ready`. -/
def isReady (self : Utf8) : Bool :=
  self = .ready

/-- `Utf8::is_tail`. -/
def isTail (byte : UInt8) : Bool :=
  0x80 ≤ byte && byte ≤ 0xbf

/-- `str::from_utf8`, as far as its success. -/
def fromUtf8 (bytes : Bytes) : Bool :=
  (ByteArray.mk bytes.toArray).validateUTF8

/-- `Utf8::reject`. -/
def reject (out : Output) : ℕ → Option Output
  | 0 => some out
  | len + 1 => do
    let out ← out.emit mark
    reject out len

/-- `Utf8::start`. -/
def start (out : Output) (byte : UInt8) : Option (Utf8 × Output) :=
  if byte ≤ 0x7f then (out.emit byte).map (.ready, ·)
  else if 0xc2 ≤ byte ∧ byte ≤ 0xdf then some (.two byte, out)
  else if 0xe0 ≤ byte ∧ byte ≤ 0xef then some (.threeFirst byte, out)
  else if 0xf0 ≤ byte ∧ byte ≤ 0xf4 then some (.fourFirst byte, out)
  else (out.emit mark).map (.ready, ·)

/-- `Utf8::restart`. -/
def restart (out : Output) (len : ℕ) (byte : UInt8) : Option (Utf8 × Output) := do
  let out ← reject out len
  start out byte

/-- `Utf8::complete`. -/
def complete (out : Output) (bytes : Bytes) : Option (Utf8 × Output) :=
  if fromUtf8 bytes then (bytes.foldlM Output.emit out).map (.ready, ·)
  else (reject out bytes.length).map (.ready, ·)

/-- `Utf8::push`. -/
def push (self : Utf8) (out : Output) (byte : UInt8) : Option (Utf8 × Output) :=
  match self with
  | .ready => start out byte
  | .two first => if isTail byte then complete out [first, byte] else restart out 1 byte
  | .threeFirst first =>
    if isTail byte then some (.threeSecond first byte, out) else restart out 1 byte
  | .threeSecond first second =>
    if isTail byte then complete out [first, second, byte] else restart out 2 byte
  | .fourFirst first =>
    if isTail byte then some (.fourSecond first byte, out) else restart out 1 byte
  | .fourSecond first second =>
    if isTail byte then some (.fourThird first second byte, out) else restart out 2 byte
  | .fourThird first second third =>
    if isTail byte then complete out [first, second, third, byte] else restart out 3 byte

/-- `Utf8::finish`. -/
def finish (self : Utf8) (out : Output) : Option Output :=
  match self with
  | .ready => reject out 0
  | .two _ | .threeFirst _ | .fourFirst _ => reject out 1
  | .threeSecond .. | .fourSecond .. => reject out 2
  | .fourThird .. => reject out 3

end Utf8

/-! ## The decoder -/

/-- `decoder::Decoder`: the window that is admitted, and the cursors in it. -/
structure Decoder where
  bytes : Bytes
  read : ℕ
  start : ℕ
  written : ℕ
  deriving DecidableEq, Repr

/-- `decoder::Error::Bounds`. -/
structure Bounds where
  capacity : ℕ
  source : ℕ × ℕ
  destination : ℕ
  deriving DecidableEq, Repr

namespace Decoder

/-- `Decoder::new`. -/
def new (bytes : Bytes) (src : ℕ × ℕ) (dst : ℕ) : Except Bounds Decoder :=
  if src.1 < dst ∨ src.2 < src.1 then .error ⟨bytes.length, src, dst⟩
  else if bytes.length < src.2 then .error ⟨bytes.length, src, dst⟩
  else .ok ⟨window dst (src.2 - dst) bytes, src.1 - dst, dst, 0⟩

/-- `Decoder::copy`, which is none outside of the window. -/
def copy (self : Decoder) (len : ℕ) : Option Decoder :=
  if self.read + len ≤ self.bytes.length ∧ self.written + len ≤ self.bytes.length then
    some { self with
      bytes := splice self.written (window self.read len self.bytes) self.bytes
      read := self.read + len
      written := self.written + len }
  else none

/-- The byte that the input begins with, and how much of the input it takes. -/
def token (literal : ℕ) (byte : UInt8) (rest : Bytes) : UInt8 × ℕ :=
  if literal ≠ 0 ∨ byte ≠ percent then (byte, 1)
  else
    match rest with
    | high :: low :: _ => (Octet.decode high low).elim (byte, 1) (·, 3)
    | _ => (byte, 1)

/-- How many bytes stand for themselves. -/
def literalAt (byte : UInt8) (rest : Bytes) : ℕ :=
  if byte = percent ∨ 0x80 ≤ byte then 0 else 1 + Scan.literal rest

/-- One turn of the loop of `Decoder::decode`. -/
def step (self : Decoder) (utf8 : Utf8) : Option (Decoder × Utf8) :=
  match self.bytes.drop self.read with
  | [] => none
  | byte :: rest =>
    if literalAt byte rest ≠ 0 ∧ utf8.isReady then
      (self.copy (literalAt byte rest)).map (·, utf8)
    else
      let read := token (literalAt byte rest) byte rest
      (utf8.push ⟨self.bytes, self.written⟩ read.1).map fun next =>
        ({ self with
          bytes := next.2.bytes
          written := next.2.written
          read := self.read + read.2 }, next.1)

end Decoder

/-! ## The cursors -/

namespace Output

variable {out next : Output} {byte : UInt8} {text more : Bytes}

/-- The output with a text behind the cursor. -/
def put (out : Output) (text : Bytes) : Output :=
  ⟨splice out.written text out.bytes, out.written + text.length⟩

@[simp]
theorem put_nil : out.put [] = out := by
  simp [put]

theorem length_put (h : out.written + text.length ≤ out.bytes.length) :
    (out.put text).bytes.length = out.bytes.length :=
  length_splice h

theorem put_put (h : out.written + text.length + more.length ≤ out.bytes.length) :
    (out.put text).put more = out.put (text ++ more) := by
  simp only [put, splice_splice_right h, List.length_append, Nat.add_assoc]

theorem emit_eq (h : out.written < out.bytes.length) : out.emit byte = some (out.put [byte]) := by
  rw [emit, if_pos h]
  rfl

theorem foldlM_emit (h : out.written + text.length ≤ out.bytes.length) :
    text.foldlM emit out = some (out.put text) := by
  induction text generalizing out with
  | nil => rw [put_nil]; rfl
  | cons byte text ih =>
    rw [List.length_cons] at h
    rw [List.foldlM_cons, emit_eq (by omega), Option.bind_eq_bind, Option.bind_some,
      ih (by rw [length_put (by simp; omega)]; simp [put]; omega),
      put_put (by simp; omega), List.singleton_append]

theorem length_emit (h : out.emit byte = some next) : next.bytes.length = out.bytes.length := by
  rw [emit] at h
  split at h
  · obtain rfl := Option.some.inj h
    exact length_splice (by simp; omega)
  · exact absurd h (by simp)

theorem length_foldlM_emit (h : text.foldlM emit out = some next) :
    next.bytes.length = out.bytes.length := by
  induction text generalizing out with
  | nil => rw [Option.some.inj h]
  | cons byte text ih =>
    rw [List.foldlM_cons, Option.bind_eq_bind, Option.bind_eq_some_iff] at h
    obtain ⟨middle, hmiddle, h⟩ := h
    rw [ih h, length_emit hmiddle]

end Output

/-! ## What a byte adds -/

namespace Utf8

variable {self next : Utf8} {out last : Output} {byte first : UInt8} {len : ℕ}

/-- The bytes that are held back. -/
def pending : Utf8 → Bytes
  | .ready => []
  | .two first => [first]
  | .threeFirst first => [first]
  | .threeSecond first second => [first, second]
  | .fourFirst first => [first]
  | .fourSecond first second => [first, second]
  | .fourThird first second third => [first, second, third]

/-- What is held back is the beginning of a sequence of the state's length. -/
def Holds : Utf8 → Prop
  | .ready => True
  | .two first => width first = 2
  | .threeFirst first => width first = 3
  | .threeSecond first second => width first = 3 ∧ Tail second
  | .fourFirst first => width first = 4
  | .fourSecond first second => width first = 4 ∧ Tail second
  | .fourThird first second third => width first = 4 ∧ Tail second ∧ Tail third

theorem isTail_iff : isTail byte = true ↔ Tail byte := by
  rw [isTail, Bool.and_eq_true, decide_eq_true_eq, decide_eq_true_eq, Tail]

theorem reject_eq (h : out.written + len ≤ out.bytes.length) :
    reject out len = some (out.put (List.replicate len mark)) := by
  induction len generalizing out with
  | zero => rw [List.replicate_zero, Output.put_nil]; rfl
  | succ len ih =>
    rw [reject, Output.emit_eq (by omega), Option.bind_eq_bind, Option.bind_some,
      ih (by rw [Output.length_put (by simp; omega)]; simp [Output.put]; omega),
      Output.put_put (by simp; omega), List.replicate_succ, List.singleton_append]

theorem not_begins {rest : Bytes} (hone : ¬byte ≤ 0x7f) (htwo : ¬(0xc2 ≤ byte ∧ byte ≤ 0xdf))
    (hthree : ¬(0xe0 ≤ byte ∧ byte ≤ 0xef)) (hfour : ¬(0xf0 ≤ byte ∧ byte ≤ 0xf4)) :
    ∀ seq, Sequence seq → ¬seq <+: byte :: rest := by
  rintro seq hseq ⟨after, hprefix⟩
  cases hseq with
  | one ha =>
    obtain rfl := (List.cons.inj hprefix).1
    exact hone ha
  | two ha ha' hb =>
    obtain rfl := (List.cons.inj hprefix).1
    exact htwo ⟨ha, ha'⟩
  | three ha ha' hb hb₁ hb₂ hc =>
    obtain rfl := (List.cons.inj hprefix).1
    exact hthree ⟨ha, ha'⟩
  | four ha ha' hb hb₁ hb₂ hc hd =>
    obtain rfl := (List.cons.inj hprefix).1
    exact hfour ⟨ha, ha'⟩

/-- What is written and what is held back are the repaired bytes. -/
structure Adds (held : Bytes) (out : Output) (byte : UInt8) (answer : Option (Utf8 × Output))
    (next : Utf8) (text : Bytes) : Prop where
  answer_eq : answer = some (next, out.put text)
  holds : next.Holds
  length_eq : text.length + next.pending.length = held.length + 1
  repair_eq : ∀ rest,
    repair mark (held ++ byte :: rest) = text ++ repair mark (next.pending ++ rest)

/-- The first byte of a sequence is held back, and what is none is replaced. -/
theorem start_spec (h : out.written < out.bytes.length) :
    ∃ next text, Adds [] out byte (start out byte) next text := by
  rw [start]
  by_cases hone : byte ≤ 0x7f
  · rw [if_pos hone, Output.emit_eq h]
    exact ⟨.ready, [byte], rfl, trivial, rfl, fun rest => Utf8.repair_sequence (.one hone)⟩
  rw [if_neg hone]
  by_cases htwo : 0xc2 ≤ byte ∧ byte ≤ 0xdf
  · rw [if_pos htwo]
    refine ⟨.two byte, [], by rw [Output.put_nil], ?_, rfl, fun rest => rfl⟩
    rw [Holds, width, if_neg hone, if_pos htwo.2]
  rw [if_neg htwo]
  simp only [UInt8.le_iff_toNat_le, UInt8.reduceToNat] at hone htwo
  by_cases hthree : 0xe0 ≤ byte ∧ byte ≤ 0xef
  · rw [if_pos hthree]
    refine ⟨.threeFirst byte, [], by rw [Output.put_nil], ?_, rfl, fun rest => rfl⟩
    simp only [UInt8.le_iff_toNat_le, UInt8.reduceToNat] at hthree
    simp only [Holds, width, UInt8.le_iff_toNat_le, UInt8.reduceToNat]
    rw [if_neg hone, if_neg (by omega), if_pos hthree.2]
  rw [if_neg hthree]
  by_cases hfour : 0xf0 ≤ byte ∧ byte ≤ 0xf4
  · rw [if_pos hfour]
    refine ⟨.fourFirst byte, [], by rw [Output.put_nil], ?_, rfl, fun rest => rfl⟩
    simp only [UInt8.le_iff_toNat_le, UInt8.reduceToNat] at hfour
    simp only [Holds, width, UInt8.le_iff_toNat_le, UInt8.reduceToNat]
    rw [if_neg hone, if_neg (by omega), if_neg (by omega)]
  rw [if_neg hfour, Output.emit_eq h]
  refine ⟨.ready, [mark], rfl, trivial, rfl, fun rest => ?_⟩
  refine Utf8.repair_cons (not_begins ?_ ?_ hthree hfour)
  all_goals simpa only [UInt8.le_iff_toNat_le, UInt8.reduceToNat]

theorem restart_spec {tails : Bytes} (htails : ∀ later ∈ tails, Tail later)
    (hshort : tails.length + 1 < width first) (hbyte : isTail byte ≠ true)
    (h : out.written + (tails.length + 1) < out.bytes.length) :
    ∃ next text,
      Adds (first :: tails) out byte (restart out (tails.length + 1) byte) next text := by
  rw [Ne, isTail_iff] at hbyte
  have hroom :
      out.written + (List.replicate (tails.length + 1) mark).length ≤ out.bytes.length := by
    rw [List.length_replicate]
    omega
  have hlength := Output.length_put hroom
  obtain ⟨next, text, hanswer, hholds, hcount, hrepair⟩ :=
    @start_spec (out.put (List.replicate (tails.length + 1) mark)) byte
      (by rw [hlength, Output.put, List.length_replicate]; exact h)
  simp only [List.nil_append, List.length_nil, zero_add] at hcount hrepair
  refine ⟨next, List.replicate (tails.length + 1) mark ++ text, ?_, hholds, ?_, fun rest => ?_⟩
  · rw [restart, reject_eq (by omega), Option.bind_eq_bind, Option.bind_some, hanswer,
      Output.put_put]
    rw [List.length_replicate]
    omega
  · rw [List.length_append, List.length_replicate, List.length_cons]
    omega
  · rw [Utf8.repair_short htails hshort (by simpa using hbyte), List.append_assoc, ← hrepair rest]

theorem complete_spec {tails : Bytes} (htails : ∀ later ∈ tails, Tail later)
    (hlength : tails.length + 2 = width first) (hbyte : isTail byte = true)
    (h : out.written + (tails.length + 1) < out.bytes.length) :
    ∃ next text, Adds (first :: tails) out byte (complete out (first :: tails ++ [byte])) next
      text := by
  have htails' : ∀ later ∈ tails ++ [byte], Tail later := by
    simpa [or_imp, forall_and] using ⟨htails, isTail_iff.mp hbyte⟩
  have hwidth : (tails ++ [byte]).length + 1 = width first := by
    rw [List.length_append, List.length_singleton]
    omega
  have hassoc (rest : Bytes) :
      first :: tails ++ byte :: rest = first :: (tails ++ [byte]) ++ rest := by
    simp
  rw [complete, List.cons_append]
  split
  next hvalid =>
    rw [fromUtf8, Utf8.validateUTF8_iff] at hvalid
    have hseq := hvalid.sequence (by simpa using hwidth)
    refine ⟨.ready, first :: (tails ++ [byte]), ?_, trivial, by simp [pending], fun rest => ?_⟩
    · rw [Output.foldlM_emit]
      · rfl
      · rw [List.length_cons, hwidth]
        omega
    · rw [hassoc, Utf8.repair_sequence hseq]
      rfl
  next hinvalid =>
    rw [fromUtf8, Utf8.validateUTF8_iff] at hinvalid
    refine ⟨.ready, List.replicate ((tails ++ [byte]).length + 1) mark, ?_, trivial,
      by simp [pending], fun rest => ?_⟩
    · rw [List.length_cons, reject_eq]
      · rfl
      · rw [hwidth]
        omega
    · rw [hassoc, Utf8.repair_invalid htails' hwidth hinvalid]
      rfl

theorem push_spec (hholds : self.Holds) (h : out.written + self.pending.length < out.bytes.length) :
    ∃ next text, Adds self.pending out byte (self.push out byte) next text := by
  cases self with
  | ready => exact start_spec h
  | two first =>
    rw [push]
    split
    next hbyte => exact complete_spec (by simp) (by simp [hholds.symm]) hbyte h
    next hbyte => exact restart_spec (by simp) (by rw [hholds]; simp) hbyte h
  | threeFirst first =>
    rw [push]
    split
    next hbyte =>
      exact ⟨.threeSecond first byte, [], by rw [Output.put_nil], ⟨hholds, isTail_iff.mp hbyte⟩,
        rfl, fun rest => rfl⟩
    next hbyte => exact restart_spec (by simp) (by rw [hholds]; simp) hbyte h
  | threeSecond first second =>
    have htails : ∀ later ∈ [second], Tail later := by simpa using hholds.2
    rw [push]
    split
    next hbyte => exact complete_spec htails (by rw [hholds.1]; rfl) hbyte h
    next hbyte => exact restart_spec htails (by rw [hholds.1]; simp) hbyte h
  | fourFirst first =>
    rw [push]
    split
    next hbyte =>
      exact ⟨.fourSecond first byte, [], by rw [Output.put_nil], ⟨hholds, isTail_iff.mp hbyte⟩,
        rfl, fun rest => rfl⟩
    next hbyte => exact restart_spec (by simp) (by rw [hholds]; simp) hbyte h
  | fourSecond first second =>
    have htails : ∀ later ∈ [second], Tail later := by simpa using hholds.2
    rw [push]
    split
    next hbyte =>
      exact ⟨.fourThird first second byte, [], by rw [Output.put_nil],
        ⟨hholds.1, hholds.2, isTail_iff.mp hbyte⟩, rfl, fun rest => rfl⟩
    next hbyte => exact restart_spec htails (by rw [hholds.1]; simp) hbyte h
  | fourThird first second third =>
    have htails : ∀ later ∈ [second, third], Tail later := by simpa using hholds.2
    rw [push]
    split
    next hbyte => exact complete_spec htails (by rw [hholds.1]; rfl) hbyte h
    next hbyte => exact restart_spec htails (by rw [hholds.1]; simp) hbyte h

theorem repair_pending (h : self.Holds) :
    repair mark self.pending = List.replicate self.pending.length mark := by
  have hshort {first : UInt8} {tails : Bytes} (htails : ∀ later ∈ tails, Tail later)
      (hlt : tails.length + 1 < width first) :
      repair mark (first :: tails) = List.replicate (tails.length + 1) mark := by
    simpa using @Utf8.repair_short mark first [] tails htails hlt (by simp)
  cases self with
  | ready => rfl
  | two first => exact hshort (by simp) (by rw [h]; simp)
  | threeFirst first => exact hshort (by simp) (by rw [h]; simp)
  | threeSecond first second => exact hshort (by simpa using h.2) (by rw [h.1]; simp)
  | fourFirst first => exact hshort (by simp) (by rw [h]; simp)
  | fourSecond first second => exact hshort (by simpa using h.2) (by rw [h.1]; simp)
  | fourThird first second third => exact hshort (by simpa using h.2) (by rw [h.1]; simp)

theorem finish_spec (hholds : self.Holds)
    (h : out.written + self.pending.length ≤ out.bytes.length) :
    self.finish out = some (out.put (repair mark self.pending)) := by
  have hfinish : self.finish out = reject out self.pending.length := by
    cases self <;> rfl
  rw [hfinish, reject_eq h, repair_pending hholds]

theorem length_reject (h : reject out len = some last) : last.bytes.length = out.bytes.length := by
  induction len generalizing out with
  | zero => rw [← Option.some.inj h]
  | succ len ih =>
    rw [reject, Option.bind_eq_bind, Option.bind_eq_some_iff] at h
    obtain ⟨middle, hmiddle, h⟩ := h
    rw [ih h, Output.length_emit hmiddle]

theorem length_start (h : start out byte = some (next, last)) :
    last.bytes.length = out.bytes.length := by
  rw [start] at h
  split_ifs at h
  · obtain ⟨emitted, hemit, hlast⟩ := Option.map_eq_some_iff.mp h
    obtain ⟨-, rfl⟩ := Prod.mk.inj hlast
    exact Output.length_emit hemit
  · rw [← (Prod.mk.inj (Option.some.inj h)).2]
  · rw [← (Prod.mk.inj (Option.some.inj h)).2]
  · rw [← (Prod.mk.inj (Option.some.inj h)).2]
  · obtain ⟨emitted, hemit, hlast⟩ := Option.map_eq_some_iff.mp h
    obtain ⟨-, rfl⟩ := Prod.mk.inj hlast
    exact Output.length_emit hemit

theorem length_restart (h : restart out len byte = some (next, last)) :
    last.bytes.length = out.bytes.length := by
  rw [restart, Option.bind_eq_bind, Option.bind_eq_some_iff] at h
  obtain ⟨middle, hmiddle, h⟩ := h
  rw [length_start h, length_reject hmiddle]

theorem length_complete {bytes : Bytes} (h : complete out bytes = some (next, last)) :
    last.bytes.length = out.bytes.length := by
  rw [complete] at h
  split_ifs at h
  · obtain ⟨emitted, hemit, hlast⟩ := Option.map_eq_some_iff.mp h
    obtain ⟨-, rfl⟩ := Prod.mk.inj hlast
    exact Output.length_foldlM_emit hemit
  · obtain ⟨emitted, hemit, hlast⟩ := Option.map_eq_some_iff.mp h
    obtain ⟨-, rfl⟩ := Prod.mk.inj hlast
    exact length_reject hemit

theorem length_push (h : self.push out byte = some (next, last)) :
    last.bytes.length = out.bytes.length := by
  have hkept {answer : Utf8} (h : some (answer, out) = some (next, last)) :
      last.bytes.length = out.bytes.length := by
    rw [← (Prod.mk.inj (Option.some.inj h)).2]
  cases self <;> rw [push] at h
  · exact length_start h
  all_goals split_ifs at h
  all_goals first
    | exact length_complete h
    | exact length_restart h
    | exact hkept h

end Utf8

/-! ## The loop -/

namespace Decoder

variable {self next : Decoder} {utf8 utf8' : Utf8} {bytes rest : Bytes} {byte : UInt8}

theorem token_pos (literal : ℕ) (byte : UInt8) (rest : Bytes) :
    0 < (token literal byte rest).2 := by
  rw [token.eq_def]
  split
  · exact Nat.one_pos
  · split
    · cases Octet.decode _ _ <;> simp
    · exact Nat.one_pos

theorem step_advances (h : self.step utf8 = some (next, utf8')) :
    next.bytes.length = self.bytes.length ∧ self.read < next.read := by
  rw [step] at h
  split at h
  · exact absurd h (by simp)
  · rename_i byte rest hrest
    split at h
    · rename_i hliteral
      obtain ⟨copied, hcopied, hnext⟩ := Option.map_eq_some_iff.mp h
      obtain ⟨rfl, -⟩ := Prod.mk.inj hnext
      rw [copy] at hcopied
      split at hcopied
      · rename_i hroom
        obtain rfl := Option.some.inj hcopied
        refine ⟨length_splice ?_, by dsimp only; omega⟩
        rw [length_window hroom.1]
        exact hroom.2
      · exact absurd hcopied (by simp)
    · obtain ⟨pushed, hpushed, hnext⟩ := Option.map_eq_some_iff.mp h
      obtain ⟨rfl, -⟩ := Prod.mk.inj hnext
      exact ⟨Utf8.length_push hpushed, Nat.lt_add_of_pos_right (token_pos _ _ _)⟩

/-- The loop of `Decoder::decode`. -/
def decodeLoop (self : Decoder) (utf8 : Utf8) : Option (Decoder × Utf8) :=
  if self.read < self.bytes.length then
    match hstep : self.step utf8 with
    | none => none
    | some (next, utf8) => decodeLoop next utf8
  else some (self, utf8)
  termination_by self.bytes.length - self.read
  decreasing_by
    have := step_advances hstep
    omega

/-- `Decoder::decode`: the window that is left behind, and the range of `Written`. -/
def decode (self : Decoder) : Option (Bytes × (ℕ × ℕ)) := do
  let last ← self.decodeLoop .ready
  let out ← last.2.finish ⟨last.1.bytes, last.1.written⟩
  pure (out.bytes, (last.1.start, last.1.start + out.written))

end Decoder

/-! ## Escapes -/

/-- The byte of the escape that a text begins with. -/
def escapeAt : Bytes → Option UInt8
  | byte :: high :: low :: _ => if byte = percent then Octet.decode high low else none
  | _ => none

/-- The bytes that a text denotes: malformed escapes denote themselves. -/
def unescape (text : Bytes) : Bytes :=
  match text with
  | [] => []
  | byte :: rest =>
    match escapeAt (byte :: rest) with
    | some decoded => decoded :: unescape (rest.drop 2)
    | none => byte :: unescape rest
  termination_by text.length
  decreasing_by
    · rw [List.length_drop, List.length_cons]
      omega
    · simp

/-- The text that is emitted for some bytes. -/
def escape (bytes : Bytes) : Bytes :=
  bytes.flatMap fun byte => if Scan.isEscaped byte then Octet.encode byte else [byte]

section Escapes

variable {byte : UInt8} {run rest bytes : Bytes}

theorem escapeAt_of_ne (h : byte ≠ percent) : escapeAt (byte :: rest) = none := by
  rw [escapeAt.eq_def]
  split
  · rename_i heq
    rw [if_neg]
    rwa [← (List.cons.inj heq).1]
  · rfl

theorem unescape_cons_of_ne (h : byte ≠ percent) :
    unescape (byte :: rest) = byte :: unescape rest := by
  rw [unescape, escapeAt_of_ne h]

theorem unescape_append (h : ∀ byte ∈ run, byte ≠ percent) :
    unescape (run ++ rest) = run ++ unescape rest := by
  induction run with
  | nil => rfl
  | cons byte run ih =>
    rw [List.forall_mem_cons] at h
    rw [List.cons_append, unescape_cons_of_ne h.1, ih h.2, List.cons_append]

theorem unescape_token {literal : ℕ} (h : literal ≠ 0 → byte ≠ percent) :
    unescape (byte :: rest) = (Decoder.token literal byte rest).1 ::
      unescape ((byte :: rest).drop (Decoder.token literal byte rest).2) := by
  rw [Decoder.token.eq_def]
  split
  next hplain =>
    have hne : byte ≠ percent := hplain.elim h id
    rw [unescape_cons_of_ne hne]
    rfl
  next hescape =>
    rw [not_or, not_not, not_not] at hescape
    obtain ⟨-, rfl⟩ := hescape
    rw [unescape]
    rcases rest with _ | ⟨high, _ | ⟨low, rest⟩⟩
    · rfl
    · rfl
    · rw [escapeAt, if_pos rfl]
      dsimp only
      cases Octet.decode high low with
      | none => rfl
      | some decoded => rfl

end Escapes

/-! ## In place -/

namespace Decoder

variable {self next : Decoder} {utf8 utf8' : Utf8} {whole text rest : Bytes} {byte : UInt8}
  {first : ℕ}

/-- The state of the loop: `text` is written over the front of the window, the part that is not
read yet is as it was, and it is repaired as what follows the text. -/
structure Tracks (whole : Bytes) (first : ℕ) (state : Decoder) (utf8 : Utf8) (text : Bytes) :
    Prop where
  bytes_eq : state.bytes = splice 0 text whole
  written_eq : state.written = text.length
  behind : text.length + utf8.pending.length ≤ state.read
  read_le : state.read ≤ whole.length
  holds : utf8.Holds
  repair_eq : repair mark (unescape (whole.drop first)) =
    text ++ repair mark (utf8.pending ++ unescape (whole.drop state.read))

theorem Tracks.length_eq (h : Tracks whole first self utf8 text) :
    self.bytes.length = whole.length := by
  have := h.behind
  have := h.read_le
  rw [h.bytes_eq, length_splice (by omega)]

theorem Tracks.drop_eq (h : Tracks whole first self utf8 text) {place : ℕ}
    (hplace : self.read ≤ place) : self.bytes.drop place = whole.drop place := by
  have := h.behind
  rw [h.bytes_eq, splice, List.take_zero, List.nil_append, Nat.zero_add,
    List.drop_append, List.drop_eq_nil_of_le (by omega), List.nil_append, List.drop_drop]
  congr 1
  omega

theorem token_le (literal : ℕ) (byte : UInt8) (rest : Bytes) :
    (token literal byte rest).2 ≤ rest.length + 1 := by
  rw [token.eq_def]
  split
  · exact Nat.le_add_left 1 _
  · split
    · cases Octet.decode _ _ <;> simp
    · exact Nat.le_add_left 1 _

theorem literalAt_spec (h : literalAt byte rest ≠ 0) :
    literalAt byte rest ≤ rest.length + 1 ∧
      ∀ plain ∈ (byte :: rest).take (literalAt byte rest), plain ≠ percent ∧ plain ≤ 0x7f := by
  rw [literalAt] at h ⊢
  split at h
  · exact absurd rfl h
  · rename_i hbyte
    rw [not_or] at hbyte
    rw [if_neg (not_or.mpr hbyte), Nat.add_comm]
    refine ⟨Nat.add_le_add_right List.findIdx_le_length 1, ?_⟩
    rw [List.take_succ_cons, List.forall_mem_cons]
    have hascii {plain : UInt8} (h : ¬0x80 ≤ plain) : plain ≤ 0x7f := by
      simp only [UInt8.le_iff_toNat_le, UInt8.reduceToNat] at h ⊢
      omega
    refine ⟨⟨hbyte.1, hascii hbyte.2⟩, fun plain hplain => ?_⟩
    obtain ⟨i, hi, rfl⟩ := List.mem_iff_getElem.mp hplain
    rw [List.length_take] at hi
    have hfree := @List.not_of_lt_findIdx _ _ _ i (lt_of_lt_of_le hi (min_le_left _ _))
    rw [List.getElem_take]
    simp only [Bool.or_eq_false_iff, beq_eq_false_iff_ne, decide_eq_false_iff_not] at hfree
    exact ⟨hfree.1, hascii hfree.2⟩

theorem repair_ascii {run : Bytes} (h : ∀ plain ∈ run, plain ≤ 0x7f) :
    repair mark (run ++ rest) = run ++ repair mark rest := by
  induction run with
  | nil => rfl
  | cons byte run ih =>
    rw [List.forall_mem_cons] at h
    have hone := @Utf8.repair_sequence mark [byte] (run ++ rest) (.one h.1)
    rw [List.singleton_append, List.singleton_append] at hone
    rw [List.cons_append, hone, ih h.2, List.cons_append]

/-- A turn of the loop writes behind what is written, over bytes that are read. -/
theorem step_spec (h : Tracks whole first self utf8 text) (hlt : self.read < whole.length) :
    ∃ next utf8' more, self.step utf8 = some (next, utf8') ∧
      Tracks whole first next utf8' (text ++ more) ∧ next.start = self.start := by
  have hbehind := h.behind
  have hlength := h.length_eq
  obtain ⟨byte, rest, hrest⟩ : ∃ byte rest, whole.drop self.read = byte :: rest :=
    List.exists_cons_of_ne_nil (by simpa using hlt)
  have hsize : rest.length + 1 = whole.length - self.read := by
    rw [← List.length_drop, hrest, List.length_cons]
  have hrepair := h.repair_eq
  rw [step, h.drop_eq le_rfl, hrest]
  rw [hrest] at hrepair
  dsimp only
  split
  next hliteral =>
    obtain ⟨hliteral, hready⟩ := hliteral
    obtain ⟨hle, hplain⟩ := literalAt_spec hliteral
    obtain rfl : utf8 = .ready := of_decide_eq_true hready
    generalize literalAt byte rest = n at *
    have hrun : window self.read n self.bytes = (byte :: rest).take n := by
      rw [window, h.drop_eq le_rfl, hrest]
    have hcount : ((byte :: rest).take n).length = n := by
      rw [List.length_take, List.length_cons]
      omega
    have hcopy : self.copy n = some ⟨splice self.written ((byte :: rest).take n) self.bytes,
        self.read + n, self.start, self.written + n⟩ := by
      rw [copy, if_pos, hrun]
      rw [hlength, h.written_eq]
      exact ⟨by omega, by omega⟩
    refine ⟨⟨splice self.written ((byte :: rest).take n) self.bytes, self.read + n, self.start,
      self.written + n⟩, .ready, (byte :: rest).take n, by rw [hcopy]; rfl,
      ⟨?_, ?_, ?_, ?_, trivial, ?_⟩, rfl⟩
    · have hsplice := @splice_splice_right _ 0 text ((byte :: rest).take n) whole (by omega)
      rw [Nat.zero_add] at hsplice
      rw [← hsplice, h.bytes_eq, h.written_eq]
    · rw [List.length_append, hcount, h.written_eq]
    · simp only [Utf8.pending, List.length_nil, Nat.add_zero, List.length_append] at hbehind ⊢
      omega
    · dsimp only
      omega
    · have hsplit := (byte :: rest).take_append_drop n
      have hdrop : whole.drop (self.read + n) = (byte :: rest).drop n := by
        rw [← hrest, List.drop_drop]
      dsimp only
      rw [hrepair, hdrop, Utf8.pending, List.nil_append, List.nil_append]
      conv_lhs => rw [← hsplit]
      rw [unescape_append fun plain hmem => (hplain plain hmem).1,
        repair_ascii fun plain hmem => (hplain plain hmem).2, List.append_assoc]
  next hliteral =>
    have hne : literalAt byte rest ≠ 0 → byte ≠ percent := by
      rintro hliteral rfl
      exact hliteral (if_pos (.inl rfl))
    have htoken : unescape (byte :: rest) = (token (literalAt byte rest) byte rest).1 ::
        unescape ((byte :: rest).drop (token (literalAt byte rest) byte rest).2) :=
      unescape_token hne
    have hle := token_le (literalAt byte rest) byte rest
    have hpos := token_pos (literalAt byte rest) byte rest
    generalize token (literalAt byte rest) byte rest = read at *
    obtain ⟨next, more, hanswer, hholds, hcount, hadds⟩ :=
      @Utf8.push_spec utf8 ⟨self.bytes, self.written⟩ read.1 h.holds
        (by rw [hlength, h.written_eq]; dsimp only; omega)
    refine ⟨⟨splice self.written more self.bytes, self.read + read.2, self.start,
      self.written + more.length⟩, next, more, by rw [hanswer]; rfl, ⟨?_, ?_, ?_, ?_, hholds, ?_⟩,
      rfl⟩
    · have hsplice := @splice_splice_right _ 0 text more whole (by omega)
      rw [Nat.zero_add] at hsplice
      rw [← hsplice, h.bytes_eq, h.written_eq]
    · rw [List.length_append, h.written_eq]
    · rw [List.length_append]
      dsimp only
      omega
    · dsimp only
      omega
    · have hdrop : whole.drop (self.read + read.2) = (byte :: rest).drop read.2 := by
        rw [← hrest, List.drop_drop]
      dsimp only
      rw [hrepair, htoken, hadds, hdrop, List.append_assoc]

/-- The states of the loop. -/
inductive Reaches (start : Decoder) : Decoder → Utf8 → Prop
  | start : Reaches start start .ready
  | step {self next : Decoder} {utf8 utf8' : Utf8} (h : Reaches start self utf8)
      (hlt : self.read < self.bytes.length) (hstep : self.step utf8 = some (next, utf8')) :
      Reaches start next utf8'

theorem Reaches.tracks {start : Decoder} (hstart : Tracks whole first start .ready [])
    (h : Reaches start self utf8) : ∃ text, Tracks whole first self utf8 text := by
  induction h with
  | start => exact ⟨[], hstart⟩
  | step h hlt hstep ih =>
    obtain ⟨text, htracks⟩ := ih
    obtain ⟨next, utf8', more, hnext, hmore, -⟩ := step_spec htracks (htracks.length_eq ▸ hlt)
    rw [hstep] at hnext
    obtain ⟨rfl, rfl⟩ := Prod.mk.inj (Option.some.inj hnext)
    exact ⟨text ++ more, hmore⟩

theorem decodeLoop_spec (h : Tracks whole first self utf8 text) :
    ∃ last utf8' text', self.decodeLoop utf8 = some (last, utf8') ∧
      Tracks whole first last utf8' text' ∧ last.read = whole.length ∧ last.start = self.start := by
  induction hleft : whole.length - self.read using Nat.strong_induction_on
    generalizing self utf8 text with
  | _ left ih =>
    subst hleft
    rw [decodeLoop.eq_def, h.length_eq]
    split
    next hlt =>
      obtain ⟨next, utf8', more, hstep, hmore, hsame⟩ := step_spec h hlt
      obtain ⟨-, hread⟩ := step_advances hstep
      obtain ⟨last, utf8'', text', hlast, htracks, hend, hstart⟩ :=
        ih (whole.length - next.read) (by omega) hmore rfl
      refine ⟨last, utf8'', text', ?_, htracks, hend, hstart.trans hsame⟩
      rw [← hlast]
      split
      · rename_i hnone
        rw [hstep] at hnone
        exact absurd hnone (by simp)
      · rename_i next' utf8' hsome
        rw [hstep] at hsome
        obtain ⟨rfl, rfl⟩ := Prod.mk.inj (Option.some.inj hsome)
        rfl
    next hge => exact ⟨self, utf8, text, rfl, h, le_antisymm h.read_le (not_lt.mp hge), rfl⟩

theorem decode_spec {start : Decoder} (h : Tracks whole first start .ready []) :
    ∃ left, start.decode =
        some (left, (start.start, start.start + (unescape (whole.drop first)).length)) ∧
      window 0 (unescape (whole.drop first)).length left =
        repair mark (unescape (whole.drop first)) := by
  obtain ⟨last, utf8, text, hloop, htracks, hend, hstart⟩ := decodeLoop_spec h
  have hbehind := htracks.behind
  have hrepair := htracks.repair_eq
  rw [hend, List.drop_length, unescape, List.append_nil] at hrepair
  have hlength := congrArg List.length hrepair
  rw [Utf8.length_repair, List.length_append, Utf8.length_repair] at hlength
  have hsplice := @splice_splice_right _ 0 text (repair mark utf8.pending) whole
    (by rw [Utf8.length_repair]; omega)
  rw [Nat.zero_add] at hsplice
  refine ⟨splice 0 (repair mark (unescape (whole.drop first))) whole, ?_, ?_⟩
  · rw [decode, hloop, Option.bind_eq_bind, Option.bind_some, Utf8.finish_spec htracks.holds,
      Option.bind_eq_bind, Option.bind_some]
    · rw [Output.put, htracks.bytes_eq, htracks.written_eq, hsplice, ← hrepair, hstart,
        Utf8.length_repair, ← hlength]
      rfl
    · dsimp only
      rw [htracks.length_eq, htracks.written_eq]
      omega
  · have hwindow := @window_splice _ 0 (repair mark (unescape (whole.drop first))) whole
      (by rw [Utf8.length_repair]; omega)
    rwa [Utf8.length_repair] at hwindow

theorem new_spec {bytes : Bytes} {src : ℕ × ℕ} {dst : ℕ} (h : new bytes src dst = .ok self) :
    dst ≤ src.1 ∧ src.1 ≤ src.2 ∧ src.2 ≤ bytes.length ∧ self.start = dst ∧
      Tracks (window dst (src.2 - dst) bytes) (src.1 - dst) self .ready [] ∧
        (window dst (src.2 - dst) bytes).drop (src.1 - dst) =
          window src.1 (src.2 - src.1) bytes := by
  rw [new] at h
  split at h
  · exact absurd h (by simp)
  · split at h
    · exact absurd h (by simp)
    · obtain rfl := Except.ok.inj h
      rename_i hbounds hcapacity
      refine ⟨by omega, by omega, by omega, rfl, ⟨?_, rfl, ?_, ?_, trivial, rfl⟩, ?_⟩
      · rw [splice_nil]
      · simp [Utf8.pending]
      · rw [length_window (by omega)]
        dsimp only
        omega
      · rw [window, window, List.drop_take, List.drop_drop,
          show dst + (src.1 - dst) = src.1 by omega, show src.2 - dst - (src.1 - dst) =
            src.2 - src.1 by omega]

end Decoder

/-! ## Encoding -/

section Encoding

variable {byte : UInt8} {bytes rest tail : Bytes} {length n : ℕ}

theorem escape_append (bytes rest : Bytes) : escape (bytes ++ rest) = escape bytes ++ escape rest :=
  List.flatMap_append

theorem escape_plain (h : ∀ byte ∈ bytes, Scan.isEscaped byte = false) : escape bytes = bytes := by
  induction bytes with
  | nil => rfl
  | cons byte bytes ih =>
    rw [List.forall_mem_cons] at h
    rw [escape, List.flatMap_cons, h.1, if_neg Bool.false_ne_true, List.singleton_append]
    exact congrArg (byte :: ·) (ih h.2)

theorem escape_cons (h : Scan.isEscaped byte = true) :
    escape (byte :: rest) = Octet.encode byte ++ escape rest := by
  rw [escape, List.flatMap_cons, if_pos h]
  rfl

theorem length_le_escape (bytes : Bytes) : bytes.length ≤ (escape bytes).length := by
  induction bytes with
  | nil => exact le_rfl
  | cons byte bytes ih =>
    rw [escape, List.flatMap_cons, List.length_append, List.length_cons, Nat.add_comm]
    refine Nat.add_le_add ?_ ih
    split
    · exact Nat.le_add_left 1 2
    · exact le_rfl

theorem escape_scan (bytes : Bytes) :
    (Scan.plain bytes).1 ++ (Scan.plain bytes).2 = bytes ∧
      escape (Scan.plain bytes).1 = (Scan.plain bytes).1 ∧
        ∀ byte ∈ (Scan.plain bytes).2.head?, Scan.isEscaped byte = true := by
  rw [Scan.plain, List.splitAt_eq]
  refine ⟨List.take_append_drop _ _, escape_plain fun byte hbyte => ?_, fun byte hbyte => ?_⟩
  · obtain ⟨i, hi, rfl⟩ := List.mem_iff_getElem.mp hbyte
    rw [List.length_take] at hi
    rw [List.getElem_take]
    exact List.not_of_lt_findIdx (lt_of_lt_of_le hi (min_le_left _ _))
  · dsimp only at hbyte
    rw [List.head?_drop] at hbyte
    obtain ⟨hlt, rfl⟩ := List.getElem?_eq_some_iff.mp hbyte
    exact List.findIdx_getElem

theorem escape_suffix (h : (Scan.plain bytes).2 = byte :: tail) :
    bytes = (Scan.plain bytes).1 ++ byte :: tail ∧
      escape bytes = (Scan.plain bytes).1 ++ (Octet.encode byte ++ escape tail) := by
  obtain ⟨hsplit, hplain, hhead⟩ := escape_scan bytes
  rw [h] at hsplit hhead
  refine ⟨hsplit.symm, ?_⟩
  conv_lhs => rw [← hsplit]
  rw [escape_append, hplain, escape_cons (hhead byte rfl)]

theorem escape_of_suffix_nil (h : (Scan.plain bytes).2 = []) :
    (Scan.plain bytes).1 = bytes ∧ escape bytes = bytes := by
  obtain ⟨hsplit, hplain, -⟩ := escape_scan bytes
  rw [h, List.append_nil] at hsplit
  rw [hsplit] at hplain
  exact ⟨hsplit, hplain⟩

namespace Length

theorem measureLoop_iff (h : length ≤ u32Max) : measureLoop length bytes = .ok n ↔
    n + bytes.length = length + (escape bytes).length ∧ n ≤ u32Max := by
  have hmax : u32Max = 4294967295 := rfl
  induction hsize : bytes.length using Nat.strong_induction_on generalizing bytes length with
  | _ size ih =>
    subst hsize
    rw [measureLoop.eq_def]
    split
    · rename_i hsuffix
      rw [(escape_of_suffix_nil hsuffix).2, Except.ok.injEq]
      omega
    · rename_i byte tail hsuffix
      obtain ⟨hbytes, hescape⟩ := escape_suffix hsuffix
      have hlength := congrArg List.length hbytes
      have hcount := congrArg List.length hescape
      have htail := length_le_escape tail
      simp only [List.length_append, List.length_cons, Octet.encode, List.length_nil]
        at hlength hcount
      split
      · rename_i hlong
        simp only [reduceCtorEq, false_iff, not_and]
        omega
      · have hroom : length + 2 ≤ u32Max := by omega
        have hshorter : tail.length < bytes.length := by omega
        refine (ih tail.length hshorter hroom rfl).trans ?_
        omega

theorem measure_iff : measure bytes = .ok n ↔ n = (escape bytes).length ∧ n ≤ u32Max := by
  have hle := length_le_escape bytes
  rw [measure]
  split
  · simp only [reduceCtorEq, false_iff, not_and]
    omega
  · rw [measureLoop_iff (by omega)]
    omega

end Length

namespace Encoder

theorem writeLoop_keep (sink bytes : Bytes) :
    writeLoop keep sink bytes = .ok (sink ++ escape bytes) := by
  induction hsize : bytes.length using Nat.strong_induction_on generalizing bytes sink with
  | _ size ih =>
    subst hsize
    rw [writeLoop.eq_def]
    split
    · rename_i hnil
      subst hnil
      rw [escape, List.flatMap_nil, List.append_nil]
    · dsimp only [keep]
      split
      · rename_i hsuffix
        obtain ⟨hplain, hescape⟩ := escape_of_suffix_nil hsuffix
        rw [hplain, hescape]
      · rename_i byte tail hsuffix
        obtain ⟨hbytes, hescape⟩ := escape_suffix hsuffix
        have hlength := congrArg List.length hbytes
        rw [List.length_append, List.length_cons] at hlength
        have hrec := ih tail.length (by omega) (sink ++ (Scan.plain bytes).1 ++ Octet.encode byte)
          tail rfl
        rw [hescape, ← List.append_assoc, ← List.append_assoc]
        exact hrec

theorem tryWrite_keep (self : Encoder) : self.tryWrite keep [] = .ok (escape self.text) := by
  rw [tryWrite, writeLoop_keep, List.nil_append]

end Encoder

theorem Octet.decode_encode (byte : UInt8) : ∃ high low, Octet.encode byte = [percent, high, low] ∧
    Octet.decode high low = some byte := by
  refine ⟨_, _, rfl, ?_⟩
  revert byte
  have hall : ∀ n < 256, Octet.decode (HEX.getD (UInt8.ofNat n >>> 4).toNat 0)
      (HEX.getD (UInt8.ofNat n &&& 0x0f).toNat 0) = some (UInt8.ofNat n) := by
    decide +kernel
  intro byte
  have hbyte := hall byte.toNat byte.toNat_lt
  rwa [UInt8.ofNat_toNat] at hbyte

theorem unescape_escape (bytes : Bytes) : unescape (escape bytes) = bytes := by
  induction bytes with
  | nil => rw [escape, List.flatMap_nil, unescape]
  | cons byte bytes ih =>
    by_cases hescaped : Scan.isEscaped byte = true
    · obtain ⟨high, low, hencode, hdecode⟩ := Octet.decode_encode byte
      rw [escape_cons hescaped, hencode, List.cons_append, List.cons_append, List.cons_append,
        List.nil_append, unescape, escapeAt, if_pos rfl, hdecode]
      exact congrArg (byte :: ·) ih
    · have hne : byte ≠ percent := by
        rintro rfl
        exact hescaped (by decide)
      rw [← List.singleton_append, escape_append, escape_plain (by simpa using hescaped),
        List.singleton_append, List.singleton_append, unescape_cons_of_ne hne, ih]

end Encoding

/-! ## The codec -/

namespace Encoder

theorem exists_new {text : Bytes} (isText : Valid text) (h : (escape text).length ≤ u32Max) :
    ∃ encoder, new text isText = .ok encoder ∧ encoder.text = text := by
  have hmeasure := Length.measure_iff.mpr ⟨rfl, h⟩
  rw [new]
  split
  · exact ⟨_, rfl, rfl⟩
  · rename_i error herror
    rw [hmeasure] at herror
    exact absurd herror (by simp)

end Encoder

/-- What an encoder emits has the length that was measured, and is decoded as its text. A decoder
keeps its write cursor behind its read cursor and leaves what is unread as it was; it writes valid
UTF-8, in which every decoded byte of a sequence stands where it stood and every other one is
replaced by one mark. -/
theorem percent_codec :
    (∀ text isText, (escape text).length ≤ u32Max →
      ∃ encoder, Encoder.new text isText = .ok encoder ∧ encoder.text = text) ∧
    (∀ encoder : Encoder, ∃ emitted, encoder.tryWrite Encoder.keep [] = .ok emitted ∧
      emitted.length = encoder.length ∧
        ∀ bytes start dst decoder, window start emitted.length bytes = emitted →
          Decoder.new bytes (start, start + emitted.length) dst = .ok decoder →
            ∃ left, decoder.decode = some (left, (dst, dst + encoder.text.length)) ∧
              window 0 encoder.text.length left = encoder.text) ∧
    ∀ bytes src dst decoder, Decoder.new bytes src dst = .ok decoder →
      (∀ state utf8, Decoder.Reaches decoder state utf8 →
        state.written + utf8.pending.length ≤ state.read ∧ state.read ≤ state.bytes.length ∧
          state.bytes.drop state.read = decoder.bytes.drop state.read ∧
            (state.read < state.bytes.length → (state.step utf8).isSome)) ∧
      ∃ decoded left text, decoded = unescape (window src.1 (src.2 - src.1) bytes) ∧
        decoder.decode = some (left, (dst, dst + text.length)) ∧ window 0 text.length left = text ∧
          Valid text ∧ text.length = decoded.length ∧
            ∀ i < decoded.length, (Covered decoded i → text[i]? = decoded[i]?) ∧
              (¬Covered decoded i → text[i]? = some mark) := by
  refine ⟨fun text isText h => Encoder.exists_new isText h, fun encoder => ?_, ?_⟩
  · obtain ⟨hlength, hmax⟩ := Length.measure_iff.mp encoder.measured
    refine ⟨_, encoder.tryWrite_keep, hlength.symm, ?_⟩
    intro bytes start dst decoder hemitted hnew
    obtain ⟨hdst, -, hcapacity, hstart, htracks, hsource⟩ := Decoder.new_spec hnew
    obtain ⟨chars, hchars⟩ := encoder.isText
    have hrepair : repair mark encoder.text = encoder.text := by
      rw [hchars, Utf8.repair_encode]
    obtain ⟨left, hdecode, hleft⟩ := Decoder.decode_spec htracks
    dsimp only at hsource
    rw [Nat.add_sub_cancel_left, hemitted] at hsource
    rw [hsource, unescape_escape, hstart] at hdecode
    rw [hsource, unescape_escape, hrepair] at hleft
    exact ⟨left, hdecode, hleft⟩
  · intro bytes src dst decoder hnew
    obtain ⟨hdst, hsrc, hcapacity, hstart, htracks, hsource⟩ := Decoder.new_spec hnew
    refine ⟨fun state utf8 hreaches => ?_, ?_⟩
    · obtain ⟨text, hstate⟩ := hreaches.tracks htracks
      refine ⟨?_, ?_, ?_, fun hlt => ?_⟩
      · rw [hstate.written_eq]
        exact hstate.behind
      · rw [hstate.length_eq]
        exact hstate.read_le
      · rw [hstate.drop_eq le_rfl, htracks.bytes_eq, splice_nil]
      · obtain ⟨next, utf8', more, hstep, -⟩ := Decoder.step_spec hstate (hstate.length_eq ▸ hlt)
        rw [hstep]
        rfl
    · obtain ⟨left, hdecode, hleft⟩ := Decoder.decode_spec htracks
      rw [hsource, hstart] at hdecode
      rw [hsource] at hleft
      exact ⟨_, left, repair mark _, rfl, by rw [hdecode, Utf8.length_repair],
        by rw [Utf8.length_repair, hleft], Utf8.valid_repair (by decide), Utf8.length_repair,
        fun i hi => Utf8.getElem?_repair hi⟩

/-- `%E2%98%83%FF%C3` in the middle of a window: a snowman, and two bytes of no sequence. -/
theorem percent_codec_repaired : ∃ decoder left text,
    Decoder.new ([0x21, 0x21] ++ escape [0xe2, 0x98, 0x83, 0xff, 0xc3]) (2, 17) 1 = .ok decoder ∧
      decoder.decode = some (left, (1, 1 + text.length)) ∧ Valid text ∧ text.length = 5 := by
  have hnew : Decoder.new ([0x21, 0x21] ++ escape [0xe2, 0x98, 0x83, 0xff, 0xc3]) (2, 17) 1 =
      .ok ⟨0x21 :: escape [0xe2, 0x98, 0x83, 0xff, 0xc3], 1, 1, 0⟩ := by
    decide +kernel
  obtain ⟨-, decoded, left, text, hdecoded, hdecode, -, hvalid, hlength, -⟩ :=
    percent_codec.2.2 _ _ _ _ hnew
  have hsource : window 2 (17 - 2) ([0x21, 0x21] ++ escape [0xe2, 0x98, 0x83, 0xff, 0xc3]) =
      escape [0xe2, 0x98, 0x83, 0xff, 0xc3] := by
    decide +kernel
  dsimp only at hdecoded
  rw [hsource, unescape_escape] at hdecoded
  exact ⟨_, left, text, hnew, hdecode, hvalid, by rw [hlength, hdecoded]; rfl⟩

end Sark.Percent
