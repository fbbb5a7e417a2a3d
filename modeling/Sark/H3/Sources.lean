import Sark.Http.Metadata.Integer

/-!
# Sources in chunks

The bytes of HTTP/3 input arrive in chunks, and readers go over them with a cursor
(`h3/src/sources.rs`): the chunk they are in, the iterator over the chunks behind it, and how many
bytes are left. A span is a copy of a cursor and a length; the cursor may have more bytes left than
the span is long.

* `Cursor.Holds`: a cursor holds an input, however it is cut.
* `Cursor.Holds.prefixed`: a prefixed integer is read as from a slice.
* `Span.Holds.flatten_toList`: the chunks of a span are its bytes.
-/

namespace Sark.H3

open Metadata (IntegerError Continuation PrefixedInt.take PrefixedInt.maxPrefix)

/-- `sources::Form`. -/
inductive Form
  | contiguous (bytes : Bytes)
  | segmented
  deriving DecidableEq, Repr

/-- `sources::Cursor`. The iterator is the chunks it has not yielded. -/
structure Cursor where
  chunks : List Bytes
  current : Bytes
  remaining : ℕ
  deriving DecidableEq, Repr

/-- `sources::Span`. -/
structure Span where
  cursor : Cursor
  len : ℕ
  deriving DecidableEq, Repr

namespace Cursor

/-- `Cursor::new`. -/
def new (chunks : List Bytes) (left : ℕ) : Cursor :=
  ⟨chunks, [], left⟩

/-- The loop of `Cursor::fill`. -/
def fillFrom (current : Bytes) (remaining : ℕ) : List Bytes → Cursor
  | [] =>
    if current.isEmpty ∧ remaining ≠ 0 then ⟨[], current, 0⟩ else ⟨[], current, remaining⟩
  | chunk :: chunks =>
    if current.isEmpty ∧ remaining ≠ 0 then fillFrom chunk remaining chunks
    else ⟨chunk :: chunks, current, remaining⟩

/-- `Cursor::fill`. -/
def fill (self : Cursor) : Cursor :=
  fillFrom self.current self.remaining self.chunks

/-- `Cursor::peek`. -/
def peek (self : Cursor) : Option UInt8 × Cursor :=
  (self.fill.current.head?, self.fill)

/-- A cursor behind some bytes of its chunk. -/
def skip (self : Cursor) (consumed : ℕ) : Cursor :=
  { self with current := self.current.drop consumed, remaining := self.remaining - consumed }

/-- The loop of `Cursor::advance`, and what is left of the amount. -/
def advanceFrom (self : Cursor) (amount : ℕ) : ℕ × Cursor :=
  if amount = 0 then (0, self)
  else
    let self := self.fill
    if _hcurrent : self.current = [] then (amount, self)
    else
      let consumed := min amount self.current.length
      advanceFrom (self.skip consumed) (amount - consumed)
termination_by amount
decreasing_by
  have : 0 < List.length (fill _).current := List.length_pos_iff.mpr _hcurrent
  omega

/-- `Cursor::advance`. -/
def advance (self : Cursor) (amount : ℕ) : ℕ × Cursor :=
  if amount > self.remaining then (0, self)
  else
    let (left, next) := self.advanceFrom amount
    (amount - left, next)

/-- The loop of `Cursor::copy_into`: what is copied into an output of a length. -/
def copyFrom (self : Cursor) (output : ℕ) : Bytes × Cursor :=
  if output = 0 then ([], self)
  else
    let self := self.fill
    if _hcurrent : self.current = [] then ([], self)
    else
      let copied := min output self.current.length
      let (rest, next) := copyFrom (self.skip copied) (output - copied)
      (self.current.take copied ++ rest, next)
termination_by output
decreasing_by
  have : 0 < List.length (fill _).current := List.length_pos_iff.mpr _hcurrent
  omega

/-- `Cursor::copy_into`: the bytes that are copied. -/
def copyInto (self : Cursor) (output : ℕ) : Bytes × Cursor :=
  if output > self.remaining then ([], self) else self.copyFrom output

/-- `Cursor::take`. -/
def take (self : Cursor) (len : ℕ) : Option Span × Cursor :=
  if len > self.remaining then (none, self)
  else
    let (advanced, next) := self.advance len
    if advanced ≠ len then (none, next) else (some ⟨self, len⟩, next)

/-- `Cursor::into_span`. -/
def intoSpan (self : Cursor) (len : ℕ) : Option Span :=
  if len > self.remaining then none else some ⟨self, len⟩

theorem shift_of_more {number next : Continuation} {byte : UInt8}
    (h : number.tryPush byte = .ok (.more next)) : next.shift = number.shift + 7 ∧
      number.shift + 7 < 64 := by
  unfold Continuation.tryPush at h
  dsimp only at h
  split_ifs at h with hchunk hsum hlast hshift
  · exact absurd h (by simp)
  · obtain rfl := Metadata.Push.more.inj (Except.ok.inj h)
    exact ⟨rfl, Nat.not_le.mp hshift⟩

/-- The loop of `Cursor::prefixed`. -/
def prefixedFrom (number : Continuation) (self : Cursor) : Except IntegerError (ℕ × Cursor) :=
  match self.peek with
  | (none, _) => .error .needMore
  | (some byte, next) =>
    match _hpush : number.tryPush byte with
    | .error cause => .error (.overflow cause)
    | .ok (.done value) => .ok (value, (next.advance 1).2)
    | .ok (.more number) => prefixedFrom number (next.advance 1).2
termination_by 64 - number.shift
decreasing_by
  obtain ⟨hshift, hlt⟩ := shift_of_more _hpush
  omega

/-- `Cursor::prefixed`. -/
def prefixed (bits : ℕ) (self : Cursor) : Except IntegerError (ℕ × Cursor) :=
  match self.peek with
  | (none, _) => .error .needMore
  | (some first, next) =>
    let next := (next.advance 1).2
    let low := first.toNat % 2 ^ bits
    if low < PrefixedInt.maxPrefix bits then .ok (low, next)
    else next.prefixedFrom (.new (PrefixedInt.maxPrefix bits))

end Cursor

/-- `sources::Bounded`: the chunks of a span. -/
structure Bounded where
  cursor : Cursor
  deriving DecidableEq, Repr

theorem Cursor.remaining_fillFrom {current : Bytes} {remaining : ℕ} {chunks : List Bytes}
    (h : (fillFrom current remaining chunks).current ≠ []) :
    (fillFrom current remaining chunks).remaining = remaining := by
  induction chunks generalizing current with
  | nil =>
    rw [fillFrom] at h ⊢
    split_ifs at h ⊢ with hempty
    · exact absurd (List.isEmpty_iff.mp hempty.1) h
    · rfl
  | cons chunk chunks ih =>
    rw [fillFrom] at h ⊢
    split_ifs at h ⊢ with hempty
    · exact ih h
    · rfl

theorem Cursor.remaining_fill {self : Cursor} (h : self.fill.current ≠ []) :
    self.fill.remaining = self.remaining :=
  remaining_fillFrom h

namespace Bounded

/-- `Iterator::next`. -/
def next (self : Bounded) : Option (Bytes × Bounded) :=
  if self.cursor.remaining = 0 then none
  else
    let cursor := self.cursor.fill
    if cursor.current = [] then none
    else
      let len := min cursor.remaining cursor.current.length
      some (cursor.current.take len, ⟨cursor.skip len⟩)

theorem remaining_lt {self next : Bounded} {chunk : Bytes} (h : self.next = some (chunk, next)) :
    next.cursor.remaining < self.cursor.remaining := by
  rw [Bounded.next] at h
  dsimp only at h
  split_ifs at h with hremaining hcurrent
  obtain ⟨rfl, rfl⟩ := Prod.mk.inj (Option.some.inj h)
  have hfill := Cursor.remaining_fill hcurrent
  have hlength : 0 < self.cursor.fill.current.length := List.length_pos_iff.mpr hcurrent
  show self.cursor.fill.remaining - min _ _ < _
  omega

/-- All chunks that are left. -/
def toList (self : Bounded) : List Bytes :=
  match _hnext : self.next with
  | none => []
  | some (chunk, next) => chunk :: toList next
termination_by self.cursor.remaining
decreasing_by exact remaining_lt _hnext

end Bounded

namespace Span

/-- `Span::form`. -/
def form (self : Span) : Form :=
  let cursor := self.cursor.fill
  if self.len ≤ cursor.current.length then .contiguous (cursor.current.take self.len)
  else .segmented

/-- `Span::chunks`. -/
def chunks (self : Span) : Bounded :=
  ⟨{ self.cursor with remaining := self.len }⟩

/-- `Source::cursor`, of a view of a span. -/
def reader (self : Span) : Cursor :=
  .new self.chunks.toList self.len

/-- `Span::suffix`. -/
def suffix (self : Span) (offset : ℕ) : Option Span :=
  match Fallible.sub self.len offset with
  | none => none
  | some len =>
    let (advanced, cursor) := self.cursor.advance offset
    if advanced = offset then some ⟨cursor, len⟩ else none

end Span

/-! ## What a cursor holds -/

namespace Cursor

variable {self next : Cursor} {input : Bytes} {amount : ℕ}

/-- The bytes that a cursor stands in front of. -/
def bytes (self : Cursor) : Bytes :=
  self.current ++ self.chunks.flatten

/-- A cursor has not more bytes left than it stands in front of. -/
def Sound (self : Cursor) : Prop :=
  self.remaining ≤ self.bytes.length

/-- A cursor stands in front of an input, all of which is left. -/
structure Holds (cursor : Cursor) (input : Bytes) : Prop where
  bytes_eq : cursor.bytes = input
  remaining_eq : cursor.remaining = input.length

/-- A cursor that has gone some bytes further. -/
structure Moves (cursor : Cursor) (amount : ℕ) (next : Cursor) : Prop where
  bytes_eq : next.bytes = cursor.bytes.drop amount
  remaining_eq : next.remaining = cursor.remaining - amount

theorem Holds.sound (h : self.Holds input) : self.Sound :=
  h.remaining_eq.trans_le (congrArg List.length h.bytes_eq.symm).le

theorem holds_new (chunks : List Bytes) :
    (new chunks chunks.flatten.length).Holds chunks.flatten :=
  ⟨rfl, rfl⟩

theorem Moves.holds (hmoves : self.Moves amount next) (h : self.Holds input) :
    next.Holds (input.drop amount) :=
  ⟨by rw [hmoves.bytes_eq, h.bytes_eq],
    by rw [hmoves.remaining_eq, h.remaining_eq, List.length_drop]⟩

theorem Moves.sound (hmoves : self.Moves amount next) (h : self.Sound) : next.Sound := by
  rw [Sound, hmoves.bytes_eq, hmoves.remaining_eq, List.length_drop]
  exact Nat.sub_le_sub_right h amount

theorem Moves.trans {last : Cursor} {more : ℕ} (hmoves : self.Moves amount next)
    (hlast : next.Moves more last) : self.Moves (amount + more) last :=
  ⟨by rw [hlast.bytes_eq, hmoves.bytes_eq, List.drop_drop],
    by rw [hlast.remaining_eq, hmoves.remaining_eq, Nat.sub_sub]⟩

theorem moves_zero (self : Cursor) : self.Moves 0 self :=
  ⟨rfl, rfl⟩

theorem fillFrom_spec {current : Bytes} {remaining : ℕ} {chunks : List Bytes}
    (hsound : (⟨chunks, current, remaining⟩ : Cursor).Sound) :
    (⟨chunks, current, remaining⟩ : Cursor).Moves 0 (fillFrom current remaining chunks) ∧
      (remaining ≠ 0 → (fillFrom current remaining chunks).current ≠ []) := by
  induction chunks generalizing current with
  | nil =>
    rw [fillFrom]
    split_ifs with hempty
    · have hnil := List.isEmpty_iff.mp hempty.1
      rw [Sound, bytes, hnil] at hsound
      exact absurd (Nat.le_zero.mp hsound) hempty.2
    · refine ⟨moves_zero _, fun hremaining hnil => hempty ⟨?_, hremaining⟩⟩
      exact List.isEmpty_iff.mpr hnil
  | cons chunk chunks ih =>
    rw [fillFrom]
    split_ifs with hempty
    · obtain rfl := List.isEmpty_iff.mp hempty.1
      obtain ⟨hmoves, hcurrent⟩ := ih hsound
      exact ⟨⟨hmoves.bytes_eq, hmoves.remaining_eq⟩, hcurrent⟩
    · refine ⟨moves_zero _, fun hremaining hnil => hempty ⟨?_, hremaining⟩⟩
      exact List.isEmpty_iff.mpr hnil

theorem Sound.moves_fill (h : self.Sound) : self.Moves 0 self.fill :=
  (fillFrom_spec h).1

theorem Sound.current_fill (h : self.Sound) (hremaining : self.remaining ≠ 0) :
    self.fill.current ≠ [] :=
  (fillFrom_spec h).2 hremaining

theorem moves_skip (h : amount ≤ self.current.length) : self.Moves amount (self.skip amount) :=
  ⟨(List.drop_append_of_le_length h).symm, rfl⟩

theorem Sound.moves_chunk (h : self.Sound) (hamount : amount ≤ self.fill.current.length) :
    self.Moves amount (self.fill.skip amount) := by
  have hmoves := h.moves_fill.trans (moves_skip hamount)
  rwa [Nat.zero_add] at hmoves

theorem Sound.take_chunk (h : self.Sound) (hamount : amount ≤ self.fill.current.length) :
    self.fill.current.take amount = self.bytes.take amount := by
  have hbytes : self.fill.bytes = self.bytes := h.moves_fill.bytes_eq
  rw [← hbytes, bytes, List.take_append_of_le_length hamount]

theorem Sound.advanceFrom (h : self.Sound) (hamount : amount ≤ self.remaining) :
    (self.advanceFrom amount).1 = 0 ∧ self.Moves amount (self.advanceFrom amount).2 := by
  induction amount using Nat.strong_induction_on generalizing self with
  | _ amount ih =>
    rw [Cursor.advanceFrom]
    by_cases hzero : amount = 0
    · subst hzero
      exact ⟨rfl, moves_zero self⟩
    · have hcurrent := h.current_fill (by omega)
      have hlength : 0 < self.fill.current.length := List.length_pos_iff.mpr hcurrent
      have hchunk := h.moves_chunk (Nat.min_le_right amount self.fill.current.length)
      rw [if_neg hzero]
      dsimp only
      rw [dif_neg hcurrent]
      obtain ⟨hall, hmoves⟩ := ih (amount - min amount self.fill.current.length) (by omega)
        (hchunk.sound h) (by rw [hchunk.remaining_eq]; omega)
      refine ⟨hall, ?_⟩
      have htotal := hchunk.trans hmoves
      rwa [Nat.add_sub_cancel' (Nat.min_le_left _ _)] at htotal

theorem Sound.advance (h : self.Sound) (hamount : amount ≤ self.remaining) :
    (self.advance amount).1 = amount ∧ self.Moves amount (self.advance amount).2 := by
  obtain ⟨hall, hmoves⟩ := h.advanceFrom hamount
  rw [Cursor.advance, if_neg (Nat.not_lt.mpr hamount)]
  refine ⟨?_, hmoves⟩
  show amount - (self.advanceFrom amount).1 = amount
  rw [hall, Nat.sub_zero]

theorem Sound.copyFrom (h : self.Sound) (hamount : amount ≤ self.remaining) :
    (self.copyFrom amount).1 = self.bytes.take amount ∧
      self.Moves amount (self.copyFrom amount).2 := by
  induction amount using Nat.strong_induction_on generalizing self with
  | _ amount ih =>
    rw [Cursor.copyFrom]
    by_cases hzero : amount = 0
    · subst hzero
      exact ⟨rfl, moves_zero self⟩
    · have hcurrent := h.current_fill (by omega)
      have hlength : 0 < self.fill.current.length := List.length_pos_iff.mpr hcurrent
      have hmin := Nat.min_le_right amount self.fill.current.length
      have hchunk := h.moves_chunk hmin
      rw [if_neg hzero]
      dsimp only
      rw [dif_neg hcurrent]
      obtain ⟨hrest, hmoves⟩ := ih (amount - min amount self.fill.current.length) (by omega)
        (hchunk.sound h) (by rw [hchunk.remaining_eq]; omega)
      have hsum := Nat.add_sub_cancel' (Nat.min_le_left amount self.fill.current.length)
      constructor
      · show self.fill.current.take _ ++ _ = _
        rw [hrest, hchunk.bytes_eq, h.take_chunk hmin, ← List.take_add, hsum]
      · have htotal := hchunk.trans hmoves
        rwa [hsum] at htotal

theorem Sound.copyInto (h : self.Sound) (hamount : amount ≤ self.remaining) :
    (self.copyInto amount).1 = self.bytes.take amount ∧
      self.Moves amount (self.copyInto amount).2 := by
  rw [Cursor.copyInto, if_neg (Nat.not_lt.mpr hamount)]
  exact h.copyFrom hamount

theorem Holds.peek (h : self.Holds input) :
    self.peek.1 = input.head? ∧ self.peek.2.Holds input := by
  have hmoves := h.sound.moves_fill
  refine ⟨?_, hmoves.holds h⟩
  rw [← h.bytes_eq, ← show self.fill.bytes = self.bytes from hmoves.bytes_eq, bytes]
  by_cases hremaining : self.remaining = 0
  · have hnil : self.fill.bytes = [] := by
      rw [show self.fill.bytes = self.bytes from hmoves.bytes_eq, h.bytes_eq]
      exact List.length_eq_zero_iff.mp (h.remaining_eq.symm.trans hremaining)
    obtain ⟨hcurrent, hchunks⟩ := List.append_eq_nil_iff.mp hnil
    rw [hchunks, List.append_nil]
    rfl
  · rw [List.head?_append_of_ne_nil _ (h.sound.current_fill hremaining)]
    rfl

theorem Holds.advance_one {byte : UInt8} {rest : Bytes} (h : self.Holds (byte :: rest)) :
    (self.advance 1).2.Holds rest := by
  have hone : 1 ≤ self.remaining := by
    rw [h.remaining_eq]
    exact Nat.le_add_left 1 rest.length
  exact (h.sound.advance hone).2.holds h

/-- A reader with a cursor answers what the reader of a slice answers, in a form of its own, and goes
as far. -/
inductive Reads {ε α β : Type*} (same : α → β → Prop) :
    Except ε (α × Bytes) → Except ε (β × Cursor) → Prop
  | ok {value : α} {value' : β} {rest : Bytes} {next : Cursor} : same value value' →
      next.Holds rest → Reads same (.ok (value, rest)) (.ok (value', next))
  | error {cause : ε} : Reads same (.error cause) (.error cause)

theorem Reads.mapError {ε ε' α β : Type*} {same : α → β → Prop} {answer : Except ε (α × Bytes)}
    {read : Except ε (β × Cursor)} (h : Reads same answer read) (f : ε → ε') :
    Reads same (answer.mapError f) (read.mapError f) := by
  cases h with
  | ok hsame hnext => exact .ok hsame hnext
  | error => exact .error

theorem Holds.prefixedFrom (h : self.Holds input) (number : Continuation) :
    Reads Eq (number.read input) (self.prefixedFrom number) := by
  induction input generalizing self number with
  | nil =>
    obtain ⟨hbyte, -⟩ := h.peek
    rw [Continuation.read, Cursor.prefixedFrom]
    split
    next => exact .error
    next byte next hpeek =>
      rw [hpeek] at hbyte
      exact absurd hbyte (by simp)
  | cons byte rest ih =>
    obtain ⟨hbyte, hnext⟩ := h.peek
    rw [Cursor.prefixedFrom]
    rcases hpeek : self.peek with ⟨found, next⟩
    rw [hpeek] at hbyte hnext
    obtain rfl : found = some byte := hbyte
    dsimp only
    split
    next cause hcause =>
      rw [Continuation.read, hcause]
      exact .error
    next value hvalue =>
      rw [Continuation.read, hvalue]
      exact .ok rfl hnext.advance_one
    next number' hmore =>
      rw [Continuation.read, hmore]
      exact ih hnext.advance_one number'

theorem Holds.prefixed (h : self.Holds input) (bits : ℕ) :
    Reads Eq (PrefixedInt.take bits input) (self.prefixed bits) := by
  obtain ⟨hbyte, hnext⟩ := h.peek
  rw [Cursor.prefixed]
  rcases hpeek : self.peek with ⟨found, next⟩
  rw [hpeek] at hbyte hnext
  obtain rfl := hbyte
  cases input with
  | nil => exact .error
  | cons byte rest =>
    rw [PrefixedInt.take]
    show Reads Eq _ (if _ then _ else _)
    split
    next => exact .ok rfl hnext.advance_one
    next => exact hnext.advance_one.prefixedFrom _

end Cursor

/-! ## What a span holds -/

namespace Span

variable {self : Span} {input : Bytes}

/-- A span is a length of the bytes that its cursor stands in front of. -/
structure Holds (span : Span) (input : Bytes) : Prop where
  sound : span.cursor.Sound
  len_le : span.len ≤ span.cursor.remaining
  bytes_eq : span.cursor.bytes.take span.len = input

theorem Holds.length_eq (h : self.Holds input) : self.len = input.length := by
  have hle := h.len_le.trans h.sound
  rw [← h.bytes_eq, List.length_take, Nat.min_eq_left hle]

theorem holds_mk {cursor : Cursor} {len : ℕ} (h : cursor.Holds input) (hlen : len ≤ input.length) :
    (⟨cursor, len⟩ : Span).Holds (input.take len) :=
  ⟨h.sound, hlen.trans h.remaining_eq.ge, by rw [h.bytes_eq]⟩

theorem holds_take {cursor : Cursor} (h : cursor.Holds input) (len : ℕ) :
    (len ≤ input.length → ∃ span next, cursor.take len = (some span, next) ∧
      span.Holds (input.take len) ∧ next.Holds (input.drop len)) ∧
      (input.length < len → cursor.take len = (none, cursor)) := by
  constructor
  · intro hlen
    have hremaining : len ≤ cursor.remaining := hlen.trans h.remaining_eq.ge
    obtain ⟨hall, hmoves⟩ := h.sound.advance hremaining
    refine ⟨⟨cursor, len⟩, (cursor.advance len).2, ?_, holds_mk h hlen, hmoves.holds h⟩
    rw [Cursor.take, if_neg (Nat.not_lt.mpr hremaining)]
    dsimp only
    rw [hall, if_neg (not_not.mpr rfl)]
  · intro hlen
    rw [Cursor.take, if_pos (h.remaining_eq.trans_lt hlen)]

theorem Holds.form (h : self.Holds input) {bytes : Bytes} (hform : self.form = .contiguous bytes) :
    bytes = input := by
  rw [Span.form] at hform
  split_ifs at hform with hlen
  obtain rfl := Form.contiguous.inj hform
  rw [h.sound.take_chunk hlen, h.bytes_eq]

theorem Holds.suffix (h : self.Holds input) {offset : ℕ} (hoffset : offset ≤ input.length) :
    ∃ span, self.suffix offset = some span ∧ span.Holds (input.drop offset) := by
  have hlen := h.length_eq
  have hle := h.len_le
  obtain ⟨hall, hmoves⟩ := h.sound.advance (by omega : offset ≤ self.cursor.remaining)
  refine ⟨⟨(self.cursor.advance offset).2, self.len - offset⟩, ?_, hmoves.sound h.sound, ?_, ?_⟩
  · rw [Span.suffix, Fallible.sub_of_le (by omega)]
    dsimp only
    rw [if_pos hall]
  · rw [hmoves.remaining_eq]
    exact Nat.sub_le_sub_right hle offset
  · show (self.cursor.advance offset).2.bytes.take (self.len - offset) = _
    rw [hmoves.bytes_eq, ← List.drop_take, h.bytes_eq]

/-- The chunks that a cursor yields are the bytes it has left. -/
theorem flatten_toList {bounded : Bounded} (h : bounded.cursor.Sound) :
    bounded.toList.flatten = bounded.cursor.bytes.take bounded.cursor.remaining := by
  induction hsize : bounded.cursor.remaining using Nat.strong_induction_on generalizing bounded with
  | _ size ih =>
    subst hsize
    rw [Bounded.toList]
    split
    next hnext =>
      -- Nothing is left.
      rw [Bounded.next] at hnext
      dsimp only at hnext
      split_ifs at hnext with hzero hcurrent
      · rw [hzero]
        rfl
      · exact absurd hcurrent (h.current_fill hzero)
    next chunk next hnext =>
      have hless := Bounded.remaining_lt hnext
      rw [Bounded.next] at hnext
      dsimp only at hnext
      split_ifs at hnext with hzero hcurrent
      obtain ⟨rfl, rfl⟩ := Prod.mk.inj (Option.some.inj hnext)
      have hmin := Nat.min_le_right bounded.cursor.fill.remaining
        bounded.cursor.fill.current.length
      have hmoves := h.moves_chunk hmin
      have hremaining : bounded.cursor.fill.remaining = bounded.cursor.remaining :=
        Cursor.remaining_fill hcurrent
      have hle : min bounded.cursor.fill.remaining bounded.cursor.fill.current.length ≤
          bounded.cursor.remaining := hremaining ▸ Nat.min_le_left _ _
      have hrest : (Bounded.mk (bounded.cursor.fill.skip (min bounded.cursor.fill.remaining
          bounded.cursor.fill.current.length))).toList.flatten = _ :=
        ih _ hless (hmoves.sound h) rfl
      rw [List.flatten_cons, hrest, h.take_chunk hmin, hmoves.bytes_eq, hmoves.remaining_eq,
        ← List.take_add, Nat.add_sub_cancel' hle]

theorem Holds.flatten_chunks (h : self.Holds input) : self.chunks.toList.flatten = input := by
  have hsound : self.chunks.cursor.Sound := h.len_le.trans h.sound
  rw [flatten_toList hsound]
  exact h.bytes_eq

theorem Holds.reader (h : self.Holds input) : self.reader.Holds input := by
  refine ⟨?_, h.length_eq⟩
  show [] ++ self.chunks.toList.flatten = input
  rw [h.flatten_chunks]
  rfl

end Span

/-! ## Sources -/

/-- `sources::Source`: the chunks of some bytes, which may be in one piece. -/
structure Source where
  chunks : List Bytes
  form : Form
  form_eq : ∀ bytes, form = .contiguous bytes → bytes = chunks.flatten

namespace Source

/-- The bytes of a source. -/
def bytes (self : Source) : Bytes :=
  self.chunks.flatten

/-- `Source::cursor`. -/
def cursor (self : Source) : Cursor :=
  .new self.chunks self.bytes.length

theorem holds_cursor (self : Source) : self.cursor.Holds self.bytes :=
  Cursor.holds_new self.chunks

/-- `Source for [u8]`. -/
def ofSlice (bytes : Bytes) : Source where
  chunks := [bytes]
  form := .contiguous bytes
  form_eq found h := by
    rw [← Form.contiguous.inj h, List.flatten_cons, List.flatten_nil, List.append_nil]

/-- A source of which nothing is known but its chunks. -/
def ofChunks (chunks : List Bytes) : Source where
  chunks := chunks
  form := .segmented
  form_eq _ h := absurd h (by simp)

end Source

end Sark.H3
