import Sark.Http.Metadata.Huffman

/-!
# String literals

The cursor that HPACK and QPACK decode a string literal with (`http/src/field/metadata/strings.rs`).
The bytes of a literal may arrive in pieces; a cursor keeps how many are missing, how many were
decoded and, for a Huffman coded literal, the state of its decoder. The decoded bytes go to a sink
that may refuse them.

`Cursor.run` is the decoder without a sink. A sink that does not care how its input is cut receives
exactly what it decodes.

* `Cursor.feedInto_of_run`, `Cursor.feedInto_of_run_refused`, `Cursor.feedInto_of_not_run`: the
  three ways to feed a sink.
* `Cursor.read_append`: reading a literal to its end does not depend on how it is cut.
-/

namespace Sark.Metadata

/-! ## The Huffman decoder without a sink -/

namespace Huffman.Decoder

/-- The bytes that a Huffman coded input decodes to from a state, and the state behind it. -/
def run (self : Decoder) (input : Bytes) : Option (Decoder × Bytes) :=
  Transducer.run step self input

theorem length_byteEntry (state : ℕ) (byte : UInt8) : (byteEntry state byte).output.length ≤ 2 := by
  have hlength (found : Option UInt8) : found.toList.length ≤ 1 := by cases found <;> simp
  rw [byteEntry]
  -- the tables behind the two entries play no part
  generalize decodeEntry state (byte.toNat >>> 4) = high
  generalize decodeEntry high.nextState (byte.toNat % 16) = low
  by_cases hhigh : high.error = true
  · simp only [if_pos hhigh, List.length_nil, Nat.zero_le]
  · have := hlength high.decoded
    have := hlength low.decoded
    simp only [if_neg hhigh, List.length_append]
    omega

theorem length_of_step {self next : Decoder} {byte : UInt8} {output : Bytes}
    (h : self.step byte = some (next, output)) : output.length ≤ 2 := by
  have hlength := length_byteEntry self.state byte
  rw [step] at h
  generalize byteEntry self.state byte = entry at h hlength
  by_cases herror : entry.error = true
  · simp only [if_pos herror, reduceCtorEq] at h
  · simp only [if_neg herror, Option.some.injEq, Prod.mk.injEq] at h
    rw [← h.2]
    exact hlength

theorem length_of_run {self last : Decoder} {input output : Bytes}
    (h : self.run input = some (last, output)) : output.length ≤ 2 * input.length :=
  Transducer.length_of_run (fun _ _ _ _ => length_of_step) h

theorem run_append (self : Decoder) (first second : Bytes) :
    self.run (first ++ second) = (self.run first).bind fun result =>
      (result.1.run second).map fun last => (last.1, result.2 ++ last.2) :=
  Transducer.run_append self first second

end Huffman.Decoder

/-! ## The cursor -/

/-- `strings::Encoding`. -/
inductive Encoding
  | plain
  | huffman
  deriving DecidableEq, Repr

namespace Cursor

/-- `strings::State`. -/
inductive State
  | plain
  | huffman (decoder : Huffman.Decoder)
  deriving DecidableEq, Repr

end Cursor

/-- `strings::Cursor`: a string literal of which `remaining` bytes are missing. -/
structure Cursor where
  remaining : ℕ
  decodedLen : ℕ
  state : Cursor.State
  deriving DecidableEq, Repr

/-- `strings::Progress`. -/
structure Progress where
  consumed : ℕ
  decoded : ℕ
  deriving DecidableEq, Repr

namespace Cursor

/-- `Cursor::new`. -/
def new (len : ℕ) (encoding : Encoding) : Cursor where
  remaining := len
  decodedLen := 0
  state :=
    match encoding with
    | .plain => .plain
    | .huffman => .huffman Huffman.Decoder.new

/-- `Cursor::advance`: the number of decoded bytes is kept in 32 bits. -/
def advance (self : Cursor) (consumed decoded : ℕ) (state : State) : Option (Cursor × Progress) :=
  if 2 ^ 32 ≤ decoded then none
  else if 2 ^ 32 ≤ self.decodedLen + decoded then none
  else some (⟨self.remaining - consumed, self.decodedLen + decoded, state⟩, ⟨consumed, decoded⟩)

/-- `Cursor::feed_count`. -/
def feedCount (self : Cursor) (input : Bytes) : Option (Cursor × Progress) :=
  let payload := input.take self.remaining
  match self.state with
  | .huffman decoder =>
    match decoder.feedCount payload with
    | none => none
    | some (next, decoded) => self.advance payload.length decoded (.huffman next)
  | .plain => self.advance payload.length payload.length .plain

/-- The part of `Cursor::feed_into` that decodes. -/
def State.feedInto {σ ε : Type*} (write : σ → Bytes → Except ε σ) (self : State) (payload : Bytes)
    (sink : σ) : Except (Huffman.DecodeError ε) (State × σ × ℕ) :=
  match self with
  | .huffman decoder =>
    match decoder.feedInto (fun sink byte => write sink [byte]) sink payload with
    | .error cause => .error cause
    | .ok (next, sink, decoded) => .ok (.huffman next, sink, decoded)
  | .plain =>
    match write sink payload with
    | .error cause => .error (.sink cause)
    | .ok sink => .ok (.plain, sink, payload.length)

/-- `Cursor::feed_into`. -/
def feedInto {σ ε : Type*} (write : σ → Bytes → Except ε σ) (self : Cursor) (input : Bytes)
    (sink : σ) : Except (Huffman.DecodeError ε) (Cursor × Progress × σ) :=
  let payload := input.take self.remaining
  match self.state.feedInto write payload sink with
  | .error cause => .error cause
  | .ok (state, sink, decoded) =>
    match self.advance payload.length decoded state with
    | none => .error .invalid
    | some (next, progress) => .ok (next, progress, sink)

/-- `Cursor::finish`: the decoded length, once nothing is missing. -/
def finish (self : Cursor) : Option ℕ :=
  if self.remaining ≠ 0 then none
  else
    match self.state with
    | .huffman decoder => if decoder.finish then some self.decodedLen else none
    | .plain => some self.decodedLen

/-! ## Decoding without a sink -/

/-- What a payload decodes to. -/
def State.run (self : State) (payload : Bytes) : Option (State × Bytes) :=
  match self with
  | .huffman decoder => (decoder.run payload).map fun result => (.huffman result.1, result.2)
  | .plain => some (.plain, payload)

/-- What an input decodes to, and the cursor behind it. -/
def run (self : Cursor) (input : Bytes) : Option (Cursor × Bytes) :=
  let payload := input.take self.remaining
  (self.state.run payload).bind fun decoded =>
    (self.advance payload.length decoded.2.length decoded.1).map fun result =>
      (result.1, decoded.2)

theorem State.length_of_run {self next : State} {payload output : Bytes}
    (h : self.run payload = some (next, output)) : output.length ≤ 2 * payload.length := by
  cases self with
  | plain =>
    obtain ⟨-, rfl⟩ := Prod.mk.inj (Option.some.inj h)
    omega
  | huffman decoder =>
    obtain ⟨⟨decoder', output'⟩, hrun, heq⟩ := Option.map_eq_some_iff.mp h
    obtain ⟨-, rfl⟩ := Prod.mk.inj heq
    exact Huffman.Decoder.length_of_run hrun

theorem State.run_append (self : State) (first second : Bytes) :
    self.run (first ++ second) = (self.run first).bind fun result =>
      (result.1.run second).map fun last => (last.1, result.2 ++ last.2) := by
  cases self with
  | plain => rfl
  | huffman decoder =>
    rw [run, Huffman.Decoder.run_append, run]
    cases decoder.run first with
    | none => rfl
    | some middle => simp [run, Function.comp_def]

theorem advance_eq_some_iff {self next : Cursor} {consumed decoded : ℕ} {state : State}
    {progress : Progress} : self.advance consumed decoded state = some (next, progress) ↔
      self.decodedLen + decoded < 2 ^ 32 ∧ progress = ⟨consumed, decoded⟩ ∧
      next = ⟨self.remaining - consumed, self.decodedLen + decoded, state⟩ := by
  unfold advance
  split
  · simp
    omega
  · split
    · simp
      omega
    · simp only [Option.some.injEq, Prod.mk.injEq, not_le] at *
      constructor
      · rintro ⟨rfl, rfl⟩
        exact ⟨‹_›, rfl, rfl⟩
      · rintro ⟨-, rfl, rfl⟩
        exact ⟨rfl, rfl⟩

theorem run_eq_some_iff {self next : Cursor} {input output : Bytes} :
    self.run input = some (next, output) ↔
      ∃ state, self.state.run (input.take self.remaining) = some (state, output) ∧
        self.decodedLen + output.length < 2 ^ 32 ∧
        next = ⟨self.remaining - input.length, self.decodedLen + output.length, state⟩ := by
  have hmin : self.remaining - min self.remaining input.length = self.remaining - input.length := by
    omega
  simp only [run, Option.bind_eq_some_iff, Option.map_eq_some_iff, Prod.exists, Prod.mk.injEq,
    advance_eq_some_iff, List.length_take, hmin]
  constructor
  · rintro ⟨state, output', hstate, next', progress, ⟨hlt, -, rfl⟩, rfl, rfl⟩
    exact ⟨state, hstate, hlt, rfl⟩
  · rintro ⟨state, hstate, hlt, rfl⟩
    exact ⟨state, output, hstate, _, _, ⟨hlt, rfl, rfl⟩, rfl, rfl⟩

theorem length_of_run {self next : Cursor} {input output : Bytes}
    (h : self.run input = some (next, output)) :
    output.length ≤ 2 * min self.remaining input.length := by
  obtain ⟨state, hstate, -, -⟩ := run_eq_some_iff.mp h
  simpa using State.length_of_run hstate

/-- A run over a concatenation is two runs, as long as the first part belongs to the literal. -/
theorem run_append (self : Cursor) {first : Bytes} (hfirst : first.length ≤ self.remaining)
    (second : Bytes) :
    self.run (first ++ second) = (self.run first).bind fun result =>
      (result.1.run second).map fun last => (last.1, result.2 ++ last.2) := by
  have htake : (first ++ second).take self.remaining =
      first ++ second.take (self.remaining - first.length) := by
    rw [List.take_append, List.take_of_length_le hfirst]
  ext ⟨next, output⟩
  simp only [run_eq_some_iff, Option.bind_eq_some_iff, Option.map_eq_some_iff, Prod.exists,
    Prod.mk.injEq, htake, State.run_append, List.take_of_length_le hfirst]
  constructor
  · rintro ⟨state, ⟨middle, decoded, hmiddle, last, rest, hlast, rfl, rfl⟩, hlt, rfl⟩
    rw [List.length_append] at hlt
    refine ⟨_, decoded, ⟨middle, hmiddle, by omega, rfl⟩, _, rest, ⟨last, hlast, ?_, rfl⟩, ?_, rfl⟩
    · dsimp only
      omega
    · simp only [List.length_append, Cursor.mk.injEq, and_true]
      omega
  · rintro ⟨_, decoded, ⟨middle, hmiddle, hlt, rfl⟩, _, rest, ⟨last, hlast, hlt', rfl⟩, rfl, rfl⟩
    refine ⟨last, ⟨middle, decoded, hmiddle, last, rest, hlast, rfl, rfl⟩, ?_, ?_⟩
    · rw [List.length_append]
      dsimp only at hlt'
      omega
    · simp only [List.length_append, Cursor.mk.injEq, and_true]
      omega

theorem feedCount_eq_map_run (self : Cursor) (input : Bytes) :
    (self.feedCount input).map Prod.fst = (self.run input).map Prod.fst := by
  simp only [feedCount, run, Huffman.Decoder.feedCount, Transducer.count_eq]
  cases self.state with
  | plain => simp [State.run, Function.comp_def]
  | huffman decoder =>
    simp only [State.run, Huffman.Decoder.run]
    cases Transducer.run Huffman.Decoder.step decoder (input.take self.remaining) with
    | none => rfl
    | some result => simp [Function.comp_def]

/-! ## Decoding into a sink -/

section Sink

variable {σ ε : Type*} {write : σ → Bytes → Except ε σ} {valid : σ → Prop}

theorem feedInto_of_run (hlaw : LawfulSink write valid) {self next : Cursor} {sink last : σ}
    (hvalid : valid sink) {input output : Bytes} (hrun : self.run input = some (next, output))
    (hwrite : write sink output = .ok last) :
    ∃ progress, self.feedInto write input sink = .ok (next, progress, last) := by
  obtain ⟨⟨state, output'⟩, hstate, hadvance⟩ := Option.bind_eq_some_iff.mp hrun
  obtain ⟨⟨next', progress⟩, hnext, heq⟩ := Option.map_eq_some_iff.mp hadvance
  obtain ⟨rfl, rfl⟩ := Prod.mk.inj heq
  have hfed : self.state.feedInto write (input.take self.remaining) sink =
      .ok (state, last, output'.length) := by
    unfold State.run at hstate
    unfold State.feedInto
    split at hstate
    next decoder =>
      obtain ⟨⟨decoder', output⟩, hdecoder, heq⟩ := Option.map_eq_some_iff.mp hstate
      obtain ⟨rfl, rfl⟩ := Prod.mk.inj heq
      simp only [Huffman.Decoder.feedInto, Transducer.transduce_of_run hlaw hvalid hdecoder hwrite]
    next =>
      obtain ⟨rfl, rfl⟩ := Prod.mk.inj (Option.some.inj hstate)
      simp only [hwrite]
  exact ⟨progress, by simp only [feedInto, hfed, hnext]⟩

theorem feedInto_of_run_refused (hlaw : LawfulSink write valid) {self next : Cursor} {sink : σ}
    (hvalid : valid sink) {input output : Bytes} {error : ε} (hrun : self.run input = some (next, output))
    (hwrite : write sink output = .error error) :
    ∃ cause, self.feedInto write input sink = .error (.sink cause) := by
  obtain ⟨state, hstate, -, -⟩ := run_eq_some_iff.mp hrun
  unfold State.run at hstate
  simp only [feedInto, State.feedInto]
  split at hstate
  next decoder =>
    obtain ⟨⟨decoder', output⟩, hdecoder, heq⟩ := Option.map_eq_some_iff.mp hstate
    obtain ⟨-, rfl⟩ := Prod.mk.inj heq
    obtain ⟨cause, hfed⟩ := Transducer.transduce_of_run_refused hlaw hvalid hdecoder hwrite
    exact ⟨cause, by simp only [Huffman.Decoder.feedInto, hfed]⟩
  next =>
    obtain ⟨-, rfl⟩ := Prod.mk.inj (Option.some.inj hstate)
    exact ⟨error, by simp only [hwrite]⟩

/-- What cannot be decoded is never taken. -/
theorem feedInto_of_not_run (hlaw : LawfulSink write valid) {self : Cursor} {sink : σ}
    (hvalid : valid sink) {input : Bytes} (hrun : self.run input = none) : ∃ cause, self.feedInto write input sink = .error cause := by
  cases hfed : self.state.feedInto write (input.take self.remaining) sink with
  | error cause => exact ⟨cause, by simp only [feedInto, hfed]⟩
  | ok fed =>
    obtain ⟨state, sink', decoded⟩ := fed
    refine ⟨.invalid, ?_⟩
    -- Something was decoded and taken, so it is the count of decoded bytes that overflows.
    have hadvance : self.advance (input.take self.remaining).length decoded state = none := by
      rw [run, Option.bind_eq_none_iff] at hrun
      unfold State.feedInto at hfed
      unfold State.run at hrun
      split at hfed
      next decoder hself =>
        rw [hself] at hrun
        cases hdecoder : decoder.run (input.take self.remaining) with
        | none =>
          obtain ⟨cause, hcause⟩ := @Transducer.transduce_of_not_run _ _ _ _ _ _
            (fun sink byte => write sink [byte]) _ sink _ hdecoder
          simp only [Huffman.Decoder.feedInto, hcause, reduceCtorEq] at hfed
        | some result =>
          obtain ⟨decoder', output⟩ := result
          cases hwrite : write sink output with
          | error error =>
            obtain ⟨cause, hcause⟩ := Transducer.transduce_of_run_refused hlaw hvalid hdecoder hwrite
            simp only [Huffman.Decoder.feedInto, hcause, reduceCtorEq] at hfed
          | ok next =>
            have htransduce := Transducer.transduce_of_run hlaw hvalid hdecoder hwrite
            simp only [Huffman.Decoder.feedInto, htransduce, Except.ok.injEq, Prod.mk.injEq] at hfed
            obtain ⟨rfl, -, rfl⟩ := hfed
            simpa [hdecoder] using hrun
      next hself =>
        rw [hself] at hrun
        split at hfed
        · contradiction
        · simp only [Except.ok.injEq, Prod.mk.injEq] at hfed
          obtain ⟨rfl, -, rfl⟩ := hfed
          simpa using hrun
    simp only [feedInto, hfed, hadvance]

end Sink

/-! ## Reading a literal to its end -/

/-- The decoded bytes of a literal, and the input behind it. -/
def read (self : Cursor) (input : Bytes) : Option (Bytes × Bytes) :=
  if input.length < self.remaining then none
  else (self.run input).bind fun result =>
    result.1.finish.map fun _ => (result.2, input.drop self.remaining)

theorem read_append {self next : Cursor} {first output : Bytes}
    (hfirst : first.length ≤ self.remaining) (hrun : self.run first = some (next, output))
    (second : Bytes) :
    self.read (first ++ second) =
      (next.read second).map fun result => (output ++ result.1, result.2) := by
  have hremaining : next.remaining = self.remaining - first.length := by
    obtain ⟨state, -, -, rfl⟩ := run_eq_some_iff.mp hrun
    rfl
  have hdrop : (first ++ second).drop self.remaining = second.drop next.remaining := by
    rw [hremaining, List.drop_append, List.drop_of_length_le hfirst, List.nil_append]
  have hlength : (first ++ second).length < self.remaining ↔ second.length < next.remaining := by
    rw [List.length_append]
    omega
  simp only [read, hlength, hdrop, self.run_append hfirst, hrun, Option.bind_some]
  split
  · rfl
  · cases next.run second with
    | none => rfl
    | some last => simp [Function.comp_def]

theorem read_append_of_not_run {self : Cursor} {first : Bytes}
    (hfirst : first.length ≤ self.remaining) (hrun : self.run first = none) (second : Bytes) :
    self.read (first ++ second) = none := by
  simp only [read, self.run_append hfirst, hrun, Option.bind_none, ite_self]

/-! ## Two sinks -/

section Sinks

variable {σ ε ε' : Type*} {write : σ → Bytes → Except ε σ} {write' : σ → Bytes → Except ε' σ}

theorem State.toOption_feedInto_plain (write : σ → Bytes → Except ε σ) (payload : Bytes)
    (sink : σ) : (State.plain.feedInto write payload sink).toOption =
      (write sink payload).toOption.map fun sink => (.plain, sink, payload.length) := by
  rw [State.feedInto]
  cases write sink payload <;> rfl

theorem State.toOption_feedInto_huffman (write : σ → Bytes → Except ε σ)
    (decoder : Huffman.Decoder) (payload : Bytes) (sink : σ) :
    ((State.huffman decoder).feedInto write payload sink).toOption =
      (Transducer.transduce Huffman.Decoder.step (fun sink byte => write sink [byte]) decoder sink
        payload).toOption.map fun result => (.huffman result.1, result.2) := by
  rw [State.feedInto, Huffman.Decoder.feedInto]
  cases Transducer.transduce Huffman.Decoder.step (fun sink byte => write sink [byte]) decoder sink
    payload <;> rfl

theorem toOption_feedInto (write : σ → Bytes → Except ε σ) (self : Cursor) (input : Bytes)
    (sink : σ) : (self.feedInto write input sink).toOption =
      (self.state.feedInto write (input.take self.remaining) sink).toOption.bind fun fed =>
        (self.advance (input.take self.remaining).length fed.2.2 fed.1).map fun result =>
          (result.1, result.2, fed.2.1) := by
  rw [feedInto]
  cases self.state.feedInto write (input.take self.remaining) sink with
  | error cause => rfl
  | ok fed =>
    dsimp only [Except.toOption_ok, Option.bind_some]
    cases self.advance (input.take self.remaining).length fed.2.2 fed.1 <;> rfl

theorem feedInto_toOption
    (h : ∀ sink bytes, (write sink bytes).toOption = (write' sink bytes).toOption) (self : Cursor)
    (input : Bytes) (sink : σ) :
    (self.feedInto write input sink).toOption = (self.feedInto write' input sink).toOption := by
  rw [toOption_feedInto, toOption_feedInto]
  congr 1
  cases self.state with
  | plain => rw [State.toOption_feedInto_plain, State.toOption_feedInto_plain, h]
  | huffman decoder =>
    have hbytes : ∀ sink byte, (write sink [byte]).toOption = (write' sink [byte]).toOption :=
      fun sink byte => h sink [byte]
    rw [State.toOption_feedInto_huffman, State.toOption_feedInto_huffman,
      Transducer.transduce_toOption hbytes]

theorem consumed_of_feedInto {self next : Cursor} {input : Bytes} {sink last : σ}
    {progress : Progress} (h : self.feedInto write input sink = .ok (next, progress, last)) :
    progress.consumed = min self.remaining input.length := by
  have hsome := Except.toOption_eq_some_iff.mpr h
  rw [toOption_feedInto, Option.bind_eq_some_iff] at hsome
  obtain ⟨fed, -, hadvance⟩ := hsome
  obtain ⟨⟨next', progress'⟩, hnext, heq⟩ := Option.map_eq_some_iff.mp hadvance
  obtain ⟨rfl, rfl, rfl⟩ := Prod.mk.inj heq
  obtain ⟨-, rfl, -⟩ := advance_eq_some_iff.mp hnext
  exact List.length_take

end Sinks

end Cursor

/-- What the payload of a string literal stands for. -/
def Encoding.decode (self : Encoding) (payload : Bytes) : Option Bytes :=
  match self with
  | .plain => some payload
  | .huffman => (Huffman.Decoder.new.run payload).bind fun result =>
    if result.1.finish then some result.2 else none

/-- A literal that is short enough for the count of its bytes is its payload, decoded. -/
theorem Cursor.read_new {len : ℕ} (hlen : 2 * len < 2 ^ 32) (encoding : Encoding)
    {input : Bytes} (hinput : len ≤ input.length) :
    (Cursor.new len encoding).read input =
      (encoding.decode (input.take len)).map fun output => (output, input.drop len) := by
  have hadvance {state : Cursor.State} {output : Bytes} (houtput : output.length ≤ 2 * len) :
      (Cursor.new len encoding).advance (input.take len).length output.length state =
        some (⟨0, output.length, state⟩, ⟨len, output.length⟩) := by
    rw [advance_eq_some_iff]
    simp only [new, List.length_take, Nat.min_eq_left hinput, Nat.sub_self, Nat.zero_add, and_self,
      and_true]
    omega
  have htake : (input.take len).length = len := List.length_take_of_le hinput
  rw [read, if_neg (by simpa [new] using hinput), run]
  simp only [show (Cursor.new len encoding).remaining = len from rfl]
  cases encoding with
  | plain =>
    have hstate : (Cursor.new len .plain).state.run (input.take len) =
      some (.plain, input.take len) := rfl
    rw [hstate, Option.bind_some, hadvance (by dsimp only; omega)]
    simp [finish, Encoding.decode]
  | huffman =>
    cases hdecoder : Huffman.Decoder.new.run (input.take len) with
    | none => simp [new, State.run, hdecoder, Encoding.decode]
    | some result =>
      have hstate : (Cursor.new len .huffman).state.run (input.take len) =
          some (.huffman result.1, result.2) := by
        simp [new, State.run, hdecoder]
      have hlength := Huffman.Decoder.length_of_run hdecoder
      rw [hstate, Option.bind_some, hadvance (by dsimp only; omega)]
      simp only [Option.map_some, Option.bind_some, finish, Encoding.decode, hdecoder]
      cases result.1.finish <;> simp

end Sark.Metadata
