import Sark.H3.Qpack.Feedback
import Sark.Library.Runs

/-!
# What the feedback says

A peer reads the feedback of a QPACK decoder as instructions (`h3/src/qpack/stream.rs`). Updates of
the buffer are staged (`h3/src/qpack/decoder/state.rs`): a candidate holds the buffer as it will be,
and the bytes by which it grows, until it is committed.

* `Instruction.takeAll_encode`: what is written is read.
* `Session.run_means`: what the buffer holds after any run.
* `Session.coalescing`: the instructions that were accepted are read in order, with the increments
  that follow each other in one.
-/

namespace Sark.Qpack

open Metadata (IntegerOverflow IntegerError PrefixedInt.take PrefixedInt.emit PrefixedInt.maxPrefix
  PrefixedInt.take_emit)

/-! ## Reading instructions -/

/-- `stream::Error`, as far as reading an instruction is concerned. -/
inductive StreamError
  | integer (bits available : ℕ) (cause : IntegerOverflow)
  | zeroIncrement
  deriving DecidableEq, Repr

namespace Instruction

/-- `Instruction::integer`. -/
def integer (bits : ℕ) (input : Bytes) : Except StreamError (Option (ℕ × Bytes)) :=
  match PrefixedInt.take bits input with
  | .ok result => .ok (some result)
  | .error .needMore => .ok none
  | .error (.overflow cause) => .error (.integer bits input.length cause)

/-- `Instruction::take`: an instruction and what follows it, if it is complete. -/
def take (input : Bytes) : Except StreamError (Option (Instruction × Bytes)) :=
  match input with
  | [] => .ok none
  | first :: _ =>
    if first &&& 0x80 ≠ 0 then do
      match ← integer 7 input with
      | none => .ok none
      | some (id, tail) => .ok (some (.sectionAcknowledgment id, tail))
    else if first &&& 0xc0 = 0x40 then do
      match ← integer 6 input with
      | none => .ok none
      | some (id, tail) => .ok (some (.streamCancellation id, tail))
    else do
      match ← integer 6 input with
      | none => .ok none
      | some (delta, tail) =>
        if delta = 0 then .error .zeroIncrement
        else .ok (some (.insertCountIncrement delta, tail))

/-- What a reader that takes instruction after instruction has read, as long as there are as many as
it has turns: the instructions, and what is left of the input. -/
def takeAll : ℕ → Bytes → Except StreamError (List Instruction × Bytes)
  | 0, input => .ok ([], input)
  | turns + 1, input => do
    match ← take input with
    | none => .ok ([], input)
    | some (inst, tail) => (takeAll turns tail).map fun result => (inst :: result.1, result.2)

/-- The numbers of an instruction are those of a word, and an increment is not zero. -/
def Valid : Instruction → Prop
  | .sectionAcknowledgment id => id < 2 ^ 64
  | .streamCancellation id => id < 2 ^ 64
  | .insertCountIncrement increment => 0 < increment ∧ increment < 2 ^ 64

instance : DecidablePred Valid
  | .sectionAcknowledgment id => inferInstanceAs (Decidable (id < 2 ^ 64))
  | .streamCancellation id => inferInstanceAs (Decidable (id < 2 ^ 64))
  | .insertCountIncrement increment =>
    inferInstanceAs (Decidable (0 < increment ∧ increment < 2 ^ 64))

/-- The increments of the insert count are what is merged. -/
def amount : Instruction → Option ℕ
  | .insertCountIncrement increment => some increment
  | _ => none

/-- The instructions, with the sum in place of increments that follow each other. -/
def coalesce : List Instruction → List Instruction :=
  Runs.coalesce amount .insertCountIncrement

/-- The first byte of an integer is the pattern in front of a value in its low bits. -/
theorem emit_eq_cons {bits high : ℕ} {pattern : UInt8} (value : ℕ)
    (hhigh : pattern.toNat - pattern.toNat % 2 ^ bits = high) :
    ∃ low rest, low ≤ PrefixedInt.maxPrefix bits ∧
      PrefixedInt.emit bits pattern value = UInt8.ofNat (high + low) :: rest := by
  subst hhigh
  rw [PrefixedInt.emit]
  split
  next hsmall => exact ⟨value, [], hsmall.le, rfl⟩
  next => exact ⟨PrefixedInt.maxPrefix bits, _, le_rfl, rfl⟩

theorem integer_emit {bits value : ℕ} (hbits : bits ≤ 8) (hvalue : value < 2 ^ 64) (pattern : UInt8)
    (rest : Bytes) : integer bits (PrefixedInt.emit bits pattern value ++ rest) =
      .ok (some (value, rest)) := by
  rw [integer, PrefixedInt.take_emit hbits hvalue]

theorem take_encode {inst : Instruction} (h : inst.Valid) (rest : Bytes) :
    take (inst.encode ++ rest) = .ok (some (inst, rest)) := by
  have hseven : ∀ low ≤ 127, UInt8.ofNat (128 + low) &&& 0x80 ≠ 0 := by decide +kernel
  have hsix : ∀ low ≤ 63, UInt8.ofNat (64 + low) &&& 0x80 = 0 ∧
      UInt8.ofNat (64 + low) &&& 0xc0 = 0x40 ∧ UInt8.ofNat (0 + low) &&& 0x80 = 0 ∧
      UInt8.ofNat (0 + low) &&& 0xc0 ≠ 0x40 := by decide +kernel
  cases inst with
  | sectionAcknowledgment id =>
    have hread := integer_emit (show 7 ≤ 8 by omega) h 0x80 rest
    obtain ⟨low, tail, hlow, hemit⟩ := @emit_eq_cons 7 128 0x80 id rfl
    rw [hemit, List.cons_append] at hread
    rw [encode, hemit, List.cons_append, take, if_pos (hseven low hlow), hread]
    rfl
  | streamCancellation id =>
    have hread := integer_emit (show 6 ≤ 8 by omega) h 0x40 rest
    obtain ⟨low, tail, hlow, hemit⟩ := @emit_eq_cons 6 64 0x40 id rfl
    obtain ⟨hhigh, hpattern, -⟩ := hsix low hlow
    rw [hemit, List.cons_append] at hread
    rw [encode, hemit, List.cons_append, take, if_neg (not_not.mpr hhigh), if_pos hpattern, hread]
    rfl
  | insertCountIncrement increment =>
    have hread := integer_emit (show 6 ≤ 8 by omega) h.2 0 rest
    obtain ⟨low, tail, hlow, hemit⟩ := @emit_eq_cons 6 0 0 increment rfl
    obtain ⟨-, -, hhigh, hpattern⟩ := hsix low hlow
    rw [hemit, List.cons_append] at hread
    rw [encode, hemit, List.cons_append, take, if_neg (not_not.mpr hhigh), if_neg hpattern, hread]
    exact if_neg h.1.ne'

theorem takeAll_encode {insts : List Instruction} (h : ∀ inst ∈ insts, inst.Valid) (more : ℕ) :
    takeAll (insts.length + more) (insts.flatMap encode) = .ok (insts, []) := by
  induction insts with
  | nil =>
    cases more with
    | zero => rfl
    | succ more => rw [← Nat.add_assoc]; rfl
  | cons inst insts ih =>
    obtain ⟨hinst, hinsts⟩ := List.forall_mem_cons.mp h
    rw [List.flatMap_cons, List.length_cons, Nat.add_right_comm, takeAll, take_encode hinst]
    show (takeAll (insts.length + more) (insts.flatMap encode)).map _ = _
    rw [ih hinsts]
    rfl

end Instruction

/-! ## Staged updates -/

namespace Feedback

/-- `Candidate`. -/
structure Candidate where
  next : Feedback
  growth : ℕ
  deriving DecidableEq, Repr

/-- `State::try_stage`. There is no candidate where the growth would be negative. -/
def tryStage (self : Feedback) (update : Feedback → Except FeedbackError Feedback) :
    Except FeedbackError (Option Candidate) :=
  (update self).map fun next => (Fallible.sub next.len self.len).map (Candidate.mk next)

/-- `State::try_prepare`. -/
def tryPrepare (capacity : ℕ) (self : Feedback) (inst : Instruction) (limit : ℕ) :
    Except FeedbackError (Option Candidate) :=
  self.tryStage fun next => next.tryPush capacity inst limit

/-- `State::try_prefix`. -/
def tryPrefix (capacity : ℕ) (self : Feedback) (first : UInt8) (limit : ℕ) :
    Except FeedbackError (Option Candidate) :=
  self.tryStage fun next => next.tryPrepend capacity first limit

end Feedback

/-- What an owner of the feedback does: it prepares an instruction or a stream type in front and
commits that or drops it, and it clears the buffer. -/
inductive Act
  | push (inst : Subtype Instruction.Valid) (limit : ℕ) (commit : Bool)
  | lead (first : UInt8) (limit : ℕ) (commit : Bool)
  | clear

/-- The feedback, with what was put in front of it and the instructions that it has accepted. -/
structure Session where
  feedback : Feedback
  lead : Bytes
  accepted : List Instruction
  deriving DecidableEq, Repr

namespace Session

open Instruction (coalesce amount)

/-- A new buffer. -/
def new : Session :=
  ⟨.new, [], []⟩

/-- One update. -/
def act (capacity : ℕ) (self : Session) : Act → Session
  | .push inst limit commit =>
    match self.feedback.tryPrepare capacity inst limit with
    | .ok (some candidate) =>
      if commit then ⟨candidate.next, self.lead, self.accepted ++ [inst.val]⟩ else self
    | _ => self
  | .lead first limit commit =>
    match self.feedback.tryPrefix capacity first limit with
    | .ok (some candidate) =>
      if commit then ⟨candidate.next, first :: self.lead, self.accepted⟩ else self
    | _ => self
  | .clear => ⟨self.feedback.clear, [], []⟩

/-- A run of updates. -/
def run (capacity : ℕ) (self : Session) (acts : List Act) : Session :=
  acts.foldl (act capacity) self

/-! ## What the buffer holds -/

/-- The buffer holds what is in front of it and the instructions that were accepted, merged, and its
tail is the last of them, if that is an increment. -/
structure Means (capacity : ℕ) (session : Session) : Prop where
  bytes_eq : session.feedback.bytes =
    session.lead ++ (coalesce session.accepted).flatMap Instruction.encode
  tail : (∃ body n, coalesce session.accepted = body ++ [.insertCountIncrement n] ∧
      session.feedback.tailStart =
        some (session.lead ++ body.flatMap Instruction.encode).length ∧
      session.feedback.tailIncrement = n) ∨
    ((coalesce session.accepted).getLast?.bind amount = none ∧
      session.feedback.tailStart = none)
  valid : ∀ inst ∈ coalesce session.accepted, inst.Valid
  len_le : session.feedback.len ≤ capacity

variable {capacity limit : ℕ} {session : Session} {inst : Instruction}

theorem means_new : Means capacity new :=
  ⟨rfl, .inr ⟨rfl, rfl⟩, by simp [new, coalesce, Runs.coalesce], Nat.zero_le _⟩

theorem Means.sound (h : Means capacity session) : session.feedback.Sound capacity := by
  refine ⟨h.len_le, fun start hstart => ?_⟩
  rcases h.tail with ⟨body, n, hmerged, htail, rfl⟩ | ⟨-, htail⟩
  · obtain rfl := Option.some.inj (htail.symm.trans hstart)
    rw [Feedback.len, h.bytes_eq, hmerged]
    simp only [List.flatMap_append, List.flatMap_singleton, List.length_append]
    omega
  · exact absurd (htail.symm.trans hstart) (by simp)

theorem coalesce_concat (insts : List Instruction) (inst : Instruction) :
    coalesce (insts ++ [inst]) =
      Runs.back amount .insertCountIncrement (coalesce insts) inst := by
  have htotal : ∀ n, amount (.insertCountIncrement n) = some n := fun _ => rfl
  exact Runs.coalesce_concat htotal insts inst

theorem coalesce_increment {insts body : List Instruction} {n : ℕ}
    (h : coalesce insts = body ++ [.insertCountIncrement n]) (m : ℕ) :
    coalesce (insts ++ [.insertCountIncrement m]) = body ++ [.insertCountIncrement (m + n)] := by
  have hamount : ∀ n, amount (.insertCountIncrement n) = some n := fun _ => rfl
  rw [coalesce_concat, h, Runs.back_of_some (hamount n) (hamount m), Nat.add_comm]

/-- What is written, and behind what: the last of the merged instructions. -/
theorem Means.push_ok (h : Means capacity session) (hvalid : inst.Valid) {push : Push}
    (hpush : session.feedback.push inst = .ok push) :
    ∃ body, coalesce (session.accepted ++ [inst]) = body ++ [push.instruction] ∧
      push.start = (session.lead ++ body.flatMap Instruction.encode).length ∧
      session.feedback.bytes.take push.start = session.lead ++ body.flatMap Instruction.encode ∧
      ∀ i ∈ body ++ [push.instruction], i.Valid := by
  -- an instruction that is not merged is written at the end
  have hplain : ((coalesce session.accepted).getLast?.bind amount = none ∨ amount inst = none) →
      push = ⟨session.feedback.len, inst⟩ → ∃ body,
        coalesce (session.accepted ++ [inst]) = body ++ [push.instruction] ∧
        push.start = (session.lead ++ body.flatMap Instruction.encode).length ∧
        session.feedback.bytes.take push.start =
          session.lead ++ body.flatMap Instruction.encode ∧
        ∀ i ∈ body ++ [push.instruction], i.Valid := by
    rintro hnone rfl
    refine ⟨coalesce session.accepted, ?_, ?_, ?_, ?_⟩
    · rw [coalesce_concat, Runs.back_of_none hnone]
    · rw [← h.bytes_eq, Feedback.len]
    · rw [← h.bytes_eq, Feedback.len, List.take_length]
    · exact List.forall_mem_append.mpr ⟨h.valid, List.forall_mem_singleton.mpr hvalid⟩
  rcases h.tail with ⟨body, n, hmerged, htail, hn⟩ | ⟨hlast, htail⟩
  · cases inst with
    | sectionAcknowledgment id =>
      simp only [Feedback.push, htail, Except.ok.injEq] at hpush
      exact hplain (.inr rfl) hpush.symm
    | streamCancellation id =>
      simp only [Feedback.push, htail, Except.ok.injEq] at hpush
      exact hplain (.inr rfl) hpush.symm
    | insertCountIncrement m =>
      simp only [Feedback.push, htail, hn] at hpush
      split_ifs at hpush with hoverflow
      obtain rfl := Except.ok.inj hpush
      have hbytes := h.bytes_eq
      rw [hmerged, List.flatMap_append, ← List.append_assoc] at hbytes
      refine ⟨body, coalesce_increment hmerged m, rfl, ?_, ?_⟩
      · rw [hbytes, List.take_left]
      · have hbody := h.valid
        rw [hmerged] at hbody
        refine List.forall_mem_append.mpr ⟨(List.forall_mem_append.mp hbody).1, ?_⟩
        exact List.forall_mem_singleton.mpr ⟨Nat.add_pos_left hvalid.1 _, by omega⟩
  · have heq : session.feedback.push inst = .ok ⟨session.feedback.len, inst⟩ := by
      simp only [Feedback.push, htail]
    exact hplain (.inl hlast) (Except.ok.inj (hpush.symm.trans heq))

theorem Means.push (h : Means capacity session) (hvalid : inst.Valid) {next : Feedback}
    (hnext : session.feedback.tryPush capacity inst limit = .ok next) :
    Means capacity ⟨next, session.lead, session.accepted ++ [inst]⟩ := by
  have hlen := (h.sound.tryPush hnext).1.len_le
  obtain ⟨push, hpush, -, hnext⟩ := Feedback.tryPush_eq_ok hnext
  obtain ⟨body, hmerged, hstart, htake, hall⟩ := h.push_ok hvalid hpush
  have hbytes : session.feedback.bytes.take push.start ++ push.instruction.encode =
      session.lead ++ (coalesce (session.accepted ++ [inst])).flatMap Instruction.encode := by
    rw [htake, hmerged, List.flatMap_append, List.flatMap_singleton, List.append_assoc]
  rw [← hmerged] at hall
  cases hinst : push.instruction with
  | insertCountIncrement n =>
    rw [hinst] at hnext hmerged hbytes
    subst hnext
    exact ⟨hbytes, .inl ⟨body, n, hmerged, congrArg some hstart, rfl⟩, hall, hlen⟩
  | sectionAcknowledgment id =>
    rw [hinst] at hnext hmerged hbytes
    subst hnext
    refine ⟨hbytes, .inr ⟨?_, rfl⟩, hall, hlen⟩
    show (coalesce (session.accepted ++ [inst])).getLast?.bind amount = none
    rw [hmerged, List.getLast?_concat]
    rfl
  | streamCancellation id =>
    rw [hinst] at hnext hmerged hbytes
    subst hnext
    refine ⟨hbytes, .inr ⟨?_, rfl⟩, hall, hlen⟩
    show (coalesce (session.accepted ++ [inst])).getLast?.bind amount = none
    rw [hmerged, List.getLast?_concat]
    rfl

theorem Means.prepend (h : Means capacity session) {first : UInt8} {next : Feedback}
    (hnext : session.feedback.tryPrepend capacity first limit = .ok next) :
    Means capacity ⟨next, first :: session.lead, session.accepted⟩ := by
  have hlen := (h.sound.tryPrepend hnext).1.len_le
  rw [Feedback.tryPrepend] at hnext
  split_ifs at hnext
  obtain rfl := Except.ok.inj hnext
  refine ⟨?_, ?_, h.valid, hlen⟩
  · show first :: session.feedback.bytes = _
    rw [h.bytes_eq, List.cons_append]
  · rcases h.tail with ⟨body, n, hmerged, htail, hn⟩ | ⟨hlast, htail⟩
    · refine .inl ⟨body, n, hmerged, ?_, hn⟩
      show session.feedback.tailStart.map (· + 1) = _
      rw [htail, List.cons_append, List.length_cons, Option.map_some]
    · refine .inr ⟨hlast, ?_⟩
      show session.feedback.tailStart.map (· + 1) = _
      rw [htail, Option.map_none]

/-- An instruction is accepted exactly if no increment overflows and what is then held has room. -/
theorem Means.canPrepare_iff (h : Means capacity session) (hvalid : inst.Valid) :
    session.feedback.canPrepare capacity inst limit = true ↔
      (∀ i ∈ coalesce (session.accepted ++ [inst]), i.Valid) ∧
        (session.lead ++
          (coalesce (session.accepted ++ [inst])).flatMap Instruction.encode).length ≤
          min limit capacity := by
  cases hpush : session.feedback.push inst with
  | ok push =>
    obtain ⟨body, hmerged, hstart, -, hall⟩ := h.push_ok hvalid hpush
    have hlength : (session.lead ++
        (coalesce (session.accepted ++ [inst])).flatMap Instruction.encode).length =
          push.start + push.instruction.encode.length := by
      rw [hmerged, hstart, List.flatMap_append, List.flatMap_singleton, ← List.append_assoc,
        List.length_append]
    rw [hlength, hmerged]
    simp only [Feedback.canPrepare, hpush, Feedback.fits, decide_eq_true_eq]
    exact ⟨fun hfits => ⟨hall, hfits⟩, fun hfits => hfits.2⟩
  | error error =>
    -- only a sum that overflows is refused before it is written
    simp only [Feedback.canPrepare, hpush, Bool.false_eq_true, false_iff, not_and]
    intro hall
    exfalso
    rcases h.tail with ⟨body, n, hmerged, htail, hn⟩ | ⟨-, htail⟩
    · cases inst with
      | sectionAcknowledgment id => simp [Feedback.push, htail] at hpush
      | streamCancellation id => simp [Feedback.push, htail] at hpush
      | insertCountIncrement m =>
        simp only [Feedback.push, htail, hn] at hpush
        split_ifs at hpush with hoverflow
        rw [coalesce_increment hmerged] at hall
        have hlast := hall _ (List.mem_append_right _ (List.mem_singleton_self _))
        have hsum : m + n < 2 ^ 64 := hlast.2
        omega
    · simp [Feedback.push, htail] at hpush

theorem tryStage_ok {self next : Feedback} {update : Feedback → Except FeedbackError Feedback}
    (h : update self = .ok next) (hle : self.len ≤ next.len) :
    self.tryStage update = .ok (some ⟨next, next.len - self.len⟩) := by
  rw [Feedback.tryStage, h]
  simp only [Except.map, Fallible.sub_of_le hle, Option.map_some]

theorem Means.tryPrepare_ok (h : Means capacity session) {next : Feedback}
    (hnext : session.feedback.tryPush capacity inst limit = .ok next) :
    session.feedback.tryPrepare capacity inst limit =
      .ok (some ⟨next, next.len - session.feedback.len⟩) :=
  tryStage_ok hnext (h.sound.tryPush hnext).2.1

theorem Means.tryPrefix_ok (h : Means capacity session) {first : UInt8} {next : Feedback}
    (hnext : session.feedback.tryPrepend capacity first limit = .ok next) :
    session.feedback.tryPrefix capacity first limit =
      .ok (some ⟨next, next.len - session.feedback.len⟩) :=
  tryStage_ok hnext ((h.sound.tryPrepend hnext).2 ▸ Nat.le_succ _)

theorem Means.act (h : Means capacity session) (act : Act) :
    Means capacity (session.act capacity act) := by
  cases act with
  | push inst limit commit =>
    rw [Session.act]
    cases hpush : session.feedback.tryPush capacity inst limit with
    | error error =>
      simp only [Feedback.tryPrepare, Feedback.tryStage, hpush, Except.map]
      exact h
    | ok next =>
      rw [h.tryPrepare_ok hpush]
      cases commit with
      | false => exact h
      | true => exact h.push inst.property hpush
  | lead first limit commit =>
    rw [Session.act]
    cases hpush : session.feedback.tryPrepend capacity first limit with
    | error error =>
      simp only [Feedback.tryPrefix, Feedback.tryStage, hpush, Except.map]
      exact h
    | ok next =>
      rw [h.tryPrefix_ok hpush]
      cases commit with
      | false => exact h
      | true => exact h.prepend hpush
  | clear => exact means_new

theorem Means.run (h : Means capacity session) (acts : List Act) :
    Means capacity (session.run capacity acts) := by
  induction acts generalizing session with
  | nil => exact h
  | cons act acts ih => exact ih (h.act act)

theorem act_push_of_not {inst : Subtype Instruction.Valid} (commit : Bool)
    (h : ¬session.feedback.canPrepare capacity inst limit = true) :
    session.act capacity (.push inst limit commit) = session := by
  rw [Feedback.canPrepare_iff] at h
  rw [Session.act]
  cases hpush : session.feedback.tryPush capacity inst limit with
  | error error => simp only [Feedback.tryPrepare, Feedback.tryStage, hpush, Except.map]
  | ok next => exact absurd ⟨next, hpush⟩ h

/-- The feedback of a decoder over any run of updates, with any limits, of which some are committed.

Behind the stream types in front, a peer reads the instructions that were accepted, in order, with
one increment in place of every longest run of them. An instruction is accepted exactly if no sum
overflows and what is then held has room within the limit; a refusal leaves the buffer as it is;
whether one can be prepared is told beforehand; and the bytes by which a candidate grows, for an
instruction or a stream type, are those that the buffer has more. -/
theorem coalescing (capacity : ℕ) (acts : List Act) (session : Session)
    (hrun : new.run capacity acts = session) :
    (∃ text, session.feedback.bytes = session.lead ++ text ∧
      ∀ more, Instruction.takeAll ((coalesce session.accepted).length + more) text =
        .ok (coalesce session.accepted, [])) ∧
    (coalesce session.accepted).IsChain (Runs.Apart amount) ∧
    (∀ (inst : Subtype Instruction.Valid) limit,
      (session.feedback.canPrepare capacity inst limit = true ↔
        ∃ candidate, session.feedback.tryPrepare capacity inst limit = .ok (some candidate)) ∧
      (session.feedback.canPrepare capacity inst limit = true ↔
        (∀ i ∈ coalesce (session.accepted ++ [inst.val]), i.Valid) ∧
          (session.lead ++
            (coalesce (session.accepted ++ [inst.val])).flatMap Instruction.encode).length ≤
            min limit capacity) ∧
      (∀ commit, ¬session.feedback.canPrepare capacity inst limit = true →
        session.act capacity (.push inst limit commit) = session) ∧
      ∀ answer, session.feedback.tryPrepare capacity inst limit = .ok answer →
        ∃ candidate, answer = some candidate ∧
          candidate.next.len = session.feedback.len + candidate.growth ∧
          session.act capacity (.push inst limit true) =
            ⟨candidate.next, session.lead, session.accepted ++ [inst.val]⟩) ∧
    ∀ first limit answer, session.feedback.tryPrefix capacity first limit = .ok answer →
      ∃ candidate, answer = some candidate ∧
        candidate.next.len = session.feedback.len + candidate.growth ∧
        session.act capacity (.lead first limit true) =
          ⟨candidate.next, first :: session.lead, session.accepted⟩ := by
  have h : Means capacity session := hrun ▸ means_new.run acts
  refine ⟨⟨_, h.bytes_eq, Instruction.takeAll_encode h.valid⟩, Runs.isChain_coalesce _,
    fun inst limit => ⟨?_, h.canPrepare_iff inst.property, fun commit => act_push_of_not commit,
      fun answer hanswer => ?_⟩, fun first limit answer hanswer => ?_⟩
  · rw [Feedback.canPrepare_iff]
    constructor
    · rintro ⟨next, hnext⟩
      exact ⟨_, h.tryPrepare_ok hnext⟩
    · rintro ⟨candidate, hcandidate⟩
      obtain ⟨next, hnext, -⟩ := Except.map_eq_ok_iff.mp hcandidate
      exact ⟨next, hnext⟩
  · obtain ⟨next, hnext, -⟩ := Except.map_eq_ok_iff.mp hanswer
    have hprepared := h.tryPrepare_ok hnext
    have hle := (h.sound.tryPush hnext).2.1
    obtain rfl := Except.ok.inj (hprepared.symm.trans hanswer)
    refine ⟨_, rfl, (Nat.add_sub_cancel' hle).symm, ?_⟩
    rw [Session.act, hprepared]
    rfl
  · obtain ⟨next, hnext, -⟩ := Except.map_eq_ok_iff.mp hanswer
    have hprepared := h.tryPrefix_ok hnext
    have hle : session.feedback.len ≤ next.len := (h.sound.tryPrepend hnext).2 ▸ Nat.le_succ _
    obtain rfl := Except.ok.inj (hprepared.symm.trans hanswer)
    refine ⟨_, rfl, (Nat.add_sub_cancel' hle).symm, ?_⟩
    rw [Session.act, hprepared]
    rfl

/-- Two increments that are merged across a stream type put in front, behind an acknowledgment. -/
theorem coalescing_merged : ∃ text, ([0x03, 0x84, 0x3f, 0x02] : Bytes) = [0x03] ++ text ∧
    Instruction.takeAll 2 text =
      .ok ([.sectionAcknowledgment 4, .insertCountIncrement 65], []) := by
  obtain ⟨⟨text, hbytes, hread⟩, -⟩ := coalescing 31
    [.push ⟨.sectionAcknowledgment 4, by decide⟩ 31 true,
      .push ⟨.insertCountIncrement 60, by decide⟩ 31 true, .lead 0x03 31 true,
      .push ⟨.insertCountIncrement 5, by decide⟩ 31 true]
    ⟨⟨[0x03, 0x84, 0x3f, 0x02], some 2, 65⟩, [0x03],
      [.sectionAcknowledgment 4, .insertCountIncrement 60, .insertCountIncrement 5]⟩
    (by decide +kernel)
  exact ⟨text, hbytes, hread 0⟩

end Session

end Sark.Qpack
