import Sark.Http.Metadata.Integer

/-!
# Decoder feedback

The instructions that a QPACK decoder owes its peer are kept encoded in a small inline buffer
(`h3/src/qpack/decoder/state.rs`). Insert count increments that follow each other are merged: the
last one is written again in place, with the sum. The capacity of the inline buffer is a parameter.

* `Feedback.Sound`: the buffer is within its capacity, and its tail is the increment it records.
* `Feedback.tryPush_sound`, `Feedback.tryPrepend_sound`: an update never shrinks the buffer.
* `Feedback.ingest_spec`: the growth that an ingestion reports is the growth of the buffer.
-/

namespace Sark

namespace Metadata.PrefixedInt

theorem length_groups_mono {a b : ℕ} (h : a ≤ b) : (groups a).length ≤ (groups b).length := by
  induction b using Nat.strong_induction_on generalizing a with
  | _ b ih =>
    unfold groups
    split
    · next ha =>
      have hb : 128 ≤ b := le_trans ha h
      rw [if_pos hb, List.length_cons, List.length_cons]
      have hlt : b >>> 7 < b := by
        rw [Nat.shiftRight_eq_div_pow]
        omega
      have hle : a >>> 7 ≤ b >>> 7 := by
        rw [Nat.shiftRight_eq_div_pow, Nat.shiftRight_eq_div_pow]
        exact Nat.div_le_div_right h
      exact Nat.succ_le_succ (ih _ hlt hle)
    · split <;> simp

theorem length_emit_mono {bits : ℕ} {pattern : UInt8} {a b : ℕ} (h : a ≤ b) :
    (emit bits pattern a).length ≤ (emit bits pattern b).length := by
  simp only [emit]
  split
  · split <;> simp
  · next ha =>
    have hb : ¬ b < maxPrefix bits := by omega
    rw [if_neg hb, List.length_cons, List.length_cons]
    exact Nat.succ_le_succ (length_groups_mono (by omega))

end Metadata.PrefixedInt

namespace Qpack

open Metadata (PrefixedInt.emit PrefixedInt.length_emit_mono)

/-- `stream::Instruction`. -/
inductive Instruction
  | sectionAcknowledgment (streamId : ℕ)
  | streamCancellation (streamId : ℕ)
  | insertCountIncrement (increment : ℕ)
  deriving DecidableEq, Repr

/-- `Instruction::encode`. -/
def Instruction.encode : Instruction → Bytes
  | .sectionAcknowledgment streamId => PrefixedInt.emit 7 0x80 streamId
  | .streamCancellation streamId => PrefixedInt.emit 6 0x40 streamId
  | .insertCountIncrement increment => PrefixedInt.emit 6 0 increment

/-- `decoder::state::Error`. -/
inductive FeedbackError
  | capacity (len additional limit : ℕ)
  | increment (pending additional : ℕ)
  deriving DecidableEq, Repr

/-- `decoder::state::State`. Without a tail there is nothing to merge with. -/
structure Feedback where
  bytes : Bytes
  tailStart : Option ℕ
  tailIncrement : ℕ
  deriving DecidableEq, Repr

/-- `Push`: where an instruction is written, and what is written. -/
structure Push where
  start : ℕ
  instruction : Instruction
  deriving DecidableEq, Repr

namespace Feedback

/-- `State::new`. -/
def new : Feedback :=
  ⟨[], none, 0⟩

/-- `State::len`. -/
def len (self : Feedback) : ℕ :=
  self.bytes.length

/-- `Push::try_new`. -/
def push (self : Feedback) (inst : Instruction) : Except FeedbackError Push :=
  match self.tailStart, inst with
  | some start, .insertCountIncrement amount =>
    if 2 ^ 64 ≤ amount + self.tailIncrement then .error (.increment self.tailIncrement amount)
    else .ok ⟨start, .insertCountIncrement (amount + self.tailIncrement)⟩
  | _, inst => .ok ⟨self.len, inst⟩

/-- `Push::fits`. -/
def fits (capacity : ℕ) (push : Push) (limit len : ℕ) : Bool :=
  decide (push.start + len ≤ min limit capacity)

/-- `State::can_prepare`. -/
def canPrepare (capacity : ℕ) (self : Feedback) (inst : Instruction) (limit : ℕ) : Bool :=
  match self.push inst with
  | .error _ => false
  | .ok push => fits capacity push limit push.instruction.encode.length

/-- `State::try_push`. -/
def tryPush (capacity : ℕ) (self : Feedback) (inst : Instruction) (limit : ℕ) :
    Except FeedbackError Feedback :=
  match self.push inst with
  | .error error => .error error
  | .ok push =>
    let encoded := push.instruction.encode
    if fits capacity push limit encoded.length then
      let bytes := self.bytes.take push.start ++ encoded
      match push.instruction with
      | .insertCountIncrement amount => .ok ⟨bytes, some push.start, amount⟩
      | _ => .ok ⟨bytes, none, 0⟩
    else .error (.capacity push.start encoded.length (min limit capacity))

/-- `State::try_prepend`. -/
def tryPrepend (capacity : ℕ) (self : Feedback) (first : UInt8) (limit : ℕ) :
    Except FeedbackError Feedback :=
  if self.len + 1 ≤ min limit capacity then
    .ok ⟨first :: self.bytes, self.tailStart.map (· + 1), self.tailIncrement⟩
  else .error (.capacity self.len 1 (min limit capacity))

/-- `State::clear`. -/
def clear (_ : Feedback) : Feedback :=
  new

/-! ## Soundness -/

/-- The buffer is within its capacity, and the tail is the encoding of the increment it records. -/
structure Sound (capacity : ℕ) (feedback : Feedback) : Prop where
  len_le : feedback.len ≤ capacity
  tail : ∀ start, feedback.tailStart = some start →
    start + (Instruction.insertCountIncrement feedback.tailIncrement).encode.length = feedback.len

variable {capacity limit : ℕ} {self next : Feedback} {inst : Instruction}

theorem sound_new : Sound capacity new :=
  ⟨Nat.zero_le _, by simp [new]⟩

theorem Sound.le_of_push (h : Sound capacity self) {push : Push}
    (hpush : self.push inst = .ok push) :
    push.start ≤ self.len ∧ self.len ≤ push.start + push.instruction.encode.length := by
  have hplain : ∀ {inst : Instruction}, push = ⟨self.len, inst⟩ →
      push.start ≤ self.len ∧ self.len ≤ push.start + push.instruction.encode.length := by
    rintro inst rfl
    exact ⟨le_rfl, Nat.le_add_right _ _⟩
  unfold Feedback.push at hpush
  split at hpush
  · next start amount hstart =>
    split at hpush
    · cases hpush
    · cases hpush
      have htail := h.tail start hstart
      simp only [Instruction.encode] at htail ⊢
      have hmono : (PrefixedInt.emit 6 0 self.tailIncrement).length ≤
          (PrefixedInt.emit 6 0 (amount + self.tailIncrement)).length :=
        PrefixedInt.length_emit_mono (Nat.le_add_left _ _)
      exact ⟨by omega, by omega⟩
  · cases hpush
    exact hplain rfl

theorem tryPush_eq_ok (h : self.tryPush capacity inst limit = .ok next) :
    ∃ push, self.push inst = .ok push ∧
      push.start + push.instruction.encode.length ≤ min limit capacity ∧
      (match push.instruction with
        | .insertCountIncrement amount =>
          ⟨self.bytes.take push.start ++ push.instruction.encode, some push.start, amount⟩
        | _ => ⟨self.bytes.take push.start ++ push.instruction.encode, none, 0⟩) = next := by
  unfold Feedback.tryPush at h
  cases hpush : self.push inst with
  | error error => simp [hpush] at h
  | ok push =>
    simp only [hpush] at h
    by_cases hfits : fits capacity push limit push.instruction.encode.length = true
    · rw [if_pos hfits] at h
      refine ⟨push, rfl, by simpa [fits] using hfits, ?_⟩
      cases hinst : push.instruction <;> rw [hinst] at h <;> exact Except.ok.inj h
    · rw [if_neg hfits] at h
      cases h

/-- A push keeps the buffer sound, never shrinks it, and stays within the limit. -/
theorem Sound.tryPush (h : Sound capacity self)
    (hnext : self.tryPush capacity inst limit = .ok next) :
    Sound capacity next ∧ self.len ≤ next.len ∧ next.len ≤ min limit capacity := by
  obtain ⟨push, hpush, hfits, hnext⟩ := tryPush_eq_ok hnext
  obtain ⟨hstart, hle⟩ := h.le_of_push hpush
  have hlen : ((self.bytes.take push.start ++ push.instruction.encode).length) =
      push.start + push.instruction.encode.length := by
    have htake : min push.start self.bytes.length = push.start := Nat.min_eq_left hstart
    rw [List.length_append, List.length_take, htake]
  -- Only an increment leaves a tail, which is what was just written.
  cases hinst : push.instruction with
  | insertCountIncrement amount =>
    rw [hinst] at hnext hfits hle hlen
    cases hnext
    refine ⟨⟨?_, ?_⟩, hle.trans hlen.ge, hlen.le.trans hfits⟩
    · exact hlen.le.trans (hfits.trans (min_le_right _ _))
    · rintro start hsome
      obtain rfl : push.start = start := Option.some.inj hsome
      exact hlen.symm
  | sectionAcknowledgment streamId =>
    rw [hinst] at hnext hfits hle hlen
    cases hnext
    exact ⟨⟨hlen.le.trans (hfits.trans (min_le_right _ _)), by simp⟩, hle.trans hlen.ge,
      hlen.le.trans hfits⟩
  | streamCancellation streamId =>
    rw [hinst] at hnext hfits hle hlen
    cases hnext
    exact ⟨⟨hlen.le.trans (hfits.trans (min_le_right _ _)), by simp⟩, hle.trans hlen.ge,
      hlen.le.trans hfits⟩

theorem Sound.tryPrepend (h : Sound capacity self) {first : UInt8}
    (hnext : self.tryPrepend capacity first limit = .ok next) :
    Sound capacity next ∧ next.len = self.len + 1 := by
  unfold Feedback.tryPrepend at hnext
  split at hnext
  · next hfits =>
    cases hnext
    refine ⟨⟨?_, ?_⟩, rfl⟩
    · exact hfits.trans (min_le_right _ _)
    · rintro start hsome
      obtain ⟨start, hstart, rfl⟩ := Option.map_eq_some_iff.mp hsome
      have htail := h.tail start hstart
      simp only [len, List.length_cons] at htail ⊢
      omega
  · cases hnext

theorem canPrepare_iff : self.canPrepare capacity inst limit = true ↔
    ∃ next, self.tryPush capacity inst limit = .ok next := by
  unfold canPrepare Feedback.tryPush
  cases self.push inst with
  | error error => simp
  | ok push =>
    simp only
    split
    · next hfits =>
      rw [hfits]
      cases push.instruction <;> simp
    · next hfits => simp [hfits]

/-! ## Ingestion -/

/-- `ingress::State::ingest`, as far as the feedback sees it: every insertion that the input
completes is announced, then applied to the table, then committed. `applied` says which of them the
table takes. The ingestion stops where the buffer has no room, and where an announcement or an
insertion fails. It reports the bytes by which the buffer has grown. -/
def ingest (capacity limit : ℕ) : List Bool → Feedback → Option (Feedback × ℕ)
  | [], self => some (self, 0)
  | applied :: rest, self =>
    match self.tryPush capacity (.insertCountIncrement 1) limit with
    | .error _ => some (self, 0)
    | .ok next =>
      if applied then do
        let growth ← Fallible.sub next.len self.len
        let (final, more) ← ingest capacity limit rest next
        some (final, growth + more)
      else some (self, 0)

/-- An ingestion keeps the buffer sound, reports its growth, and grows within the limit only. -/
theorem Sound.ingest (h : Sound capacity self) (limit : ℕ) (applied : List Bool) :
    ∃ final growth, self.ingest capacity limit applied = some (final, growth) ∧
      Sound capacity final ∧ final.len = self.len + growth ∧
      growth ≤ min limit capacity - self.len := by
  induction applied generalizing self with
  | nil => exact ⟨self, 0, rfl, h, rfl, Nat.zero_le _⟩
  | cons applied rest ih =>
    unfold Feedback.ingest
    cases hpush : self.tryPush capacity (.insertCountIncrement 1) limit with
    | error error => exact ⟨self, 0, rfl, h, rfl, Nat.zero_le _⟩
    | ok next =>
      cases applied with
      | false => exact ⟨self, 0, rfl, h, rfl, Nat.zero_le _⟩
      | true =>
        obtain ⟨hnext, hle, hlimit⟩ := h.tryPush hpush
        obtain ⟨final, more, hrest, hfinal, hlen, hmore⟩ := ih hnext
        refine ⟨final, next.len - self.len + more, ?_, hfinal, by omega, by omega⟩
        simp [Fallible.sub_of_le hle, hrest]

end Feedback

end Qpack

end Sark
