import Sark.Http.Metadata.Strings

/-!
# String literals in pieces

A string literal reaches its cursor in whatever pieces the connection delivers. The source changes
the cursor in place, and only once a piece has been decoded and its output taken; `Cursor.feed` and
`Cursor.count` return the cursor that a call leaves behind, refused or not.

* `Cursor.feedInto_eq_feed`, `Cursor.feedCount_eq_count`: what the calls answer.
* `Cursor.decodePieces_eq`: decoding the pieces is decoding the literal.
* `Cursor.pieces_agree`: how a literal is cut makes no difference, counting agrees with writing, and
  a refused piece leaves the cursor as it was.
-/

namespace Sark.Metadata.Cursor

/-! ## Calls that change the cursor -/

/-- `Cursor::advance` with the cursor that it leaves behind. -/
def settle (self : Cursor) (consumed decoded : ℕ) (state : State) : Cursor × Option Progress :=
  if 2 ^ 32 ≤ decoded then (self, none)
  else if 2 ^ 32 ≤ self.decodedLen + decoded then (self, none)
  else
    (⟨self.remaining - consumed, self.decodedLen + decoded, state⟩, some ⟨consumed, decoded⟩)

/-- `Cursor::feed_count` with the cursor that it leaves behind. -/
def count (self : Cursor) (input : Bytes) : Cursor × Option Progress :=
  let payload := input.take self.remaining
  match self.state with
  | .huffman decoder =>
    match decoder.feedCount payload with
    | none => (self, none)
    | some (next, decoded) => self.settle payload.length decoded (.huffman next)
  | .plain => self.settle payload.length payload.length .plain

/-- `Cursor::feed_into` with the cursor that it leaves behind. -/
def feed {σ ε : Type*} (write : σ → Bytes → Except ε σ) (self : Cursor) (input : Bytes) (sink : σ) :
    Cursor × Except (Huffman.DecodeError ε) (Progress × σ) :=
  let payload := input.take self.remaining
  match self.state.feedInto write payload sink with
  | .error cause => (self, .error cause)
  | .ok (state, sink, decoded) =>
    match self.settle payload.length decoded state with
    | (next, none) => (next, .error .invalid)
    | (next, some progress) => (next, .ok (progress, sink))

theorem advance_eq_settle (self : Cursor) (consumed decoded : ℕ) (state : State) :
    self.advance consumed decoded state =
      (self.settle consumed decoded state).2.map
        fun progress => ((self.settle consumed decoded state).1, progress) := by
  unfold advance settle
  split_ifs <;> rfl

theorem settle_of_none {self : Cursor} {consumed decoded : ℕ} {state : State}
    (h : (self.settle consumed decoded state).2 = none) :
    (self.settle consumed decoded state).1 = self := by
  unfold settle at h ⊢
  split_ifs at h ⊢ <;> rfl

theorem feedCount_eq_count (self : Cursor) (input : Bytes) :
    self.feedCount input = (self.count input).2.map fun progress => ((self.count input).1, progress) := by
  unfold feedCount count
  dsimp only
  cases self.state with
  | plain => exact self.advance_eq_settle _ _ _
  | huffman decoder =>
    dsimp only
    cases decoder.feedCount (input.take self.remaining) with
    | none => rfl
    | some result => exact self.advance_eq_settle _ _ _

theorem feedInto_eq_feed {σ ε : Type*} (write : σ → Bytes → Except ε σ) (self : Cursor)
    (input : Bytes) (sink : σ) :
    self.feedInto write input sink = (self.feed write input sink).2.map
      fun result => ((self.feed write input sink).1, result.1, result.2) := by
  unfold feedInto feed
  dsimp only
  cases self.state.feedInto write (input.take self.remaining) sink with
  | error cause => rfl
  | ok result =>
    dsimp only
    rw [advance_eq_settle]
    rcases self.settle (input.take self.remaining).length result.2.2 result.1 with
      ⟨next, ⟨⟩ | progress⟩ <;> rfl

theorem feed_of_error {σ ε : Type*} {write : σ → Bytes → Except ε σ} {self : Cursor}
    {input : Bytes} {sink : σ} {cause : Huffman.DecodeError ε}
    (h : (self.feed write input sink).2 = .error cause) : (self.feed write input sink).1 = self := by
  unfold feed at h ⊢
  dsimp only at h ⊢
  split at h
  next => rfl
  next state sink' decoded hfed =>
    have hsettle := @settle_of_none self (input.take self.remaining).length decoded state
    split at h
    next next hnone =>
      rw [hnone] at hsettle
      exact hsettle rfl
    next => contradiction

theorem count_of_none {self : Cursor} {input : Bytes} (h : (self.count input).2 = none) :
    (self.count input).1 = self := by
  unfold count at h ⊢
  dsimp only at h ⊢
  cases hstate : self.state with
  | plain =>
    rw [hstate] at h
    exact settle_of_none h
  | huffman decoder =>
    rw [hstate] at h
    dsimp only at h ⊢
    cases hcount : decoder.feedCount (input.take self.remaining) with
    | none => rfl
    | some result =>
      rw [hcount] at h
      exact settle_of_none h

/-! ## Collecting what is decoded -/

/-- A sink that takes every byte. -/
def collect (sink bytes : Bytes) : Except Empty Bytes :=
  .ok (sink ++ bytes)

theorem lawfulSink_collect : LawfulSink collect fun _ => True where
  nil := fun sink _ => congrArg Except.ok (List.append_nil sink)
  valid_of_ok := fun _ => trivial
  append_ok := by
    rintro sink next first second ⟨rfl⟩
    exact congrArg Except.ok (List.append_assoc ..).symm
  append_error := by
    intro sink error
    exact error.elim

theorem State.feedInto_collect {self next : State} {payload output : Bytes} (sink : Bytes)
    (h : self.run payload = some (next, output)) :
    self.feedInto collect payload sink = .ok (next, sink ++ output, output.length) := by
  unfold State.run at h
  unfold State.feedInto
  split at h
  next decoder =>
    obtain ⟨⟨decoder', output⟩, hdecoder, heq⟩ := Option.map_eq_some_iff.mp h
    obtain ⟨rfl, rfl⟩ := Prod.mk.inj heq
    have hfed : Transducer.transduce Huffman.Decoder.step (fun sink byte => collect sink [byte])
        decoder sink payload = .ok (decoder', sink ++ output, output.length) :=
      Transducer.transduce_of_run lawfulSink_collect trivial hdecoder rfl
    simp only [Huffman.Decoder.feedInto, hfed]
  next =>
    obtain ⟨rfl, rfl⟩ := Prod.mk.inj (Option.some.inj h)
    rfl

theorem feed_collect_of_run {self next : Cursor} {input output : Bytes} (sink : Bytes)
    (h : self.run input = some (next, output)) :
    self.feed collect input sink =
      (next, .ok (⟨min self.remaining input.length, output.length⟩, sink ++ output)) := by
  obtain ⟨state, hstate, hlength, rfl⟩ := run_eq_some_iff.mp h
  have hmin : self.remaining - min self.remaining input.length = self.remaining - input.length := by
    omega
  simp only [feed, State.feedInto_collect sink hstate, settle, List.length_take, hmin]
  rw [if_neg (by omega), if_neg (by omega)]

theorem feed_collect_of_not_run {self : Cursor} {input : Bytes} (sink : Bytes)
    (h : self.run input = none) :
    self.feed collect input sink = (self, .error .invalid) := by
  have hnone : ∃ cause, self.feedInto collect input sink = .error cause :=
    feedInto_of_not_run lawfulSink_collect trivial h
  obtain ⟨cause, hfed⟩ := hnone
  rw [feedInto_eq_feed] at hfed
  cases hanswer : (self.feed collect input sink).2 with
  | ok result => simp [hanswer, Except.map] at hfed
  | error cause' =>
    refine Prod.ext (feed_of_error hanswer) ?_
    cases cause' with
    | invalid => exact hanswer
    | sink refused => exact refused.elim

theorem count_of_run {self next : Cursor} {input output : Bytes}
    (h : self.run input = some (next, output)) :
    self.count input = (next, some ⟨min self.remaining input.length, output.length⟩) := by
  obtain ⟨state, hstate, hlength, rfl⟩ := run_eq_some_iff.mp h
  have hmin : self.remaining - min self.remaining input.length = self.remaining - input.length := by
    omega
  have hsettle : self.settle (input.take self.remaining).length output.length state =
      (⟨self.remaining - input.length, self.decodedLen + output.length, state⟩,
        some ⟨min self.remaining input.length, output.length⟩) := by
    rw [settle, if_neg (by omega), if_neg (by omega), List.length_take, hmin]
  unfold State.run at hstate
  unfold count
  split at hstate
  next decoder hself =>
    obtain ⟨⟨decoder', output⟩, hdecoder, heq⟩ := Option.map_eq_some_iff.mp hstate
    obtain ⟨rfl, rfl⟩ := Prod.mk.inj heq
    have hcounted : decoder.feedCount (input.take self.remaining) =
        some (decoder', output.length) := by
      rw [Huffman.Decoder.feedCount, Transducer.count_eq]
      exact congrArg (Option.map _) hdecoder
    simp only [hself, hcounted, hsettle]
  next hself =>
    obtain ⟨rfl, rfl⟩ := Prod.mk.inj (Option.some.inj hstate)
    simp only [hself, hsettle]

theorem count_of_not_run {self : Cursor} {input : Bytes} (h : self.run input = none) :
    self.count input = (self, none) := by
  have hcount := self.feedCount_eq_map_run input
  rw [feedCount_eq_count, h, Option.map_none, Option.map_map, Option.map_eq_none_iff] at hcount
  exact Prod.ext (count_of_none hcount) hcount

theorem run_nil {self : Cursor} (hdecoded : self.decodedLen < 2 ^ 32) :
    self.run [] = some (self, []) := by
  rw [run_eq_some_iff, List.take_nil]
  refine ⟨self.state, ?_, hdecoded, rfl⟩
  cases self.state with
  | plain => rfl
  | huffman decoder => rfl

/-- A literal that comes in pieces, up to its end: the bytes it decodes to, and their number. -/
def decodePieces (self : Cursor) (sink : Bytes) :
    List Bytes → Except (Huffman.DecodeError Empty) (Bytes × ℕ)
  | [] =>
    match self.finish with
    | none => .error .invalid
    | some len => .ok (sink, len)
  | piece :: pieces =>
    match self.feed collect piece sink with
    | (_, .error cause) => .error cause
    | (next, .ok (_, sink)) => next.decodePieces sink pieces

theorem decodePieces_eq {self : Cursor} (sink : Bytes) {pieces : List Bytes}
    (hlength : pieces.flatten.length ≤ self.remaining) (hdecoded : self.decodedLen < 2 ^ 32) :
    self.decodePieces sink pieces =
      match (self.run pieces.flatten).bind fun result =>
        result.1.finish.map fun len => (sink ++ result.2, len) with
      | none => .error .invalid
      | some result => .ok result := by
  induction pieces generalizing self sink with
  | nil =>
    rw [decodePieces, List.flatten_nil, run_nil hdecoded]
    cases hfinish : self.finish <;> simp [hfinish]
  | cons piece pieces ih =>
    rw [List.flatten_cons, List.length_append] at hlength
    rw [decodePieces, List.flatten_cons, run_append self (by omega)]
    cases hrun : self.run piece with
    | none =>
      rw [feed_collect_of_not_run sink hrun]
      rfl
    | some result =>
      obtain ⟨next, output⟩ := result
      obtain ⟨state, -, hbound, hnext⟩ := run_eq_some_iff.mp hrun
      rw [feed_collect_of_run sink hrun]
      dsimp only
      rw [ih (sink ++ output) (by rw [hnext]; dsimp only; omega) (by rw [hnext]; exact hbound)]
      cases hrest : next.run pieces.flatten <;> simp [hrest]

/-- String literals in pieces. However a literal is cut, its pieces are decoded to what the literal
is decoded to, or refused as it is; the count of a piece is what is written of it; and a piece that
is refused leaves the cursor as it was, whatever the sink. -/
theorem pieces_agree :
    (∀ (encoding : Encoding) (sink : Bytes) (pieces : List Bytes),
      (Cursor.new pieces.flatten.length encoding).decodePieces sink pieces =
        (Cursor.new pieces.flatten.length encoding).decodePieces sink [pieces.flatten]) ∧
    (∀ (self : Cursor) (piece sink : Bytes),
      (self.count piece).1 = (self.feed collect piece sink).1 ∧
      (self.count piece).2 = (self.feed collect piece sink).2.toOption.map Prod.fst ∧
      ∀ progress last, (self.feed collect piece sink).2 = .ok (progress, last) →
        ∃ written, last = sink ++ written ∧ written.length = progress.decoded) ∧
    (∀ (self : Cursor) (piece : Bytes), (self.count piece).2 = none → (self.count piece).1 = self) ∧
    ∀ {σ ε : Type} (write : σ → Bytes → Except ε σ) (self : Cursor) (piece : Bytes) (sink : σ)
      (cause : Huffman.DecodeError ε), (self.feed write piece sink).2 = .error cause →
        (self.feed write piece sink).1 = self := by
  refine ⟨fun encoding sink pieces => ?_, fun self piece sink => ?_, fun _ _ => count_of_none,
    fun _ _ _ _ _ => feed_of_error⟩
  · have hnew : (Cursor.new pieces.flatten.length encoding).decodedLen < 2 ^ 32 := by
      rw [show (Cursor.new pieces.flatten.length encoding).decodedLen = 0 from rfl]
      omega
    rw [decodePieces_eq sink le_rfl hnew, decodePieces_eq sink (by simp [Cursor.new]) hnew]
    simp only [List.flatten_cons, List.flatten_nil, List.append_nil]
  · cases hrun : self.run piece with
    | none =>
      rw [feed_collect_of_not_run sink hrun, count_of_not_run hrun]
      exact ⟨rfl, rfl, fun _ _ h => by contradiction⟩
    | some result =>
      obtain ⟨next, output⟩ := result
      rw [feed_collect_of_run sink hrun, count_of_run hrun]
      refine ⟨rfl, rfl, fun progress last h => ?_⟩
      obtain ⟨rfl, rfl⟩ := Prod.mk.inj (Except.ok.inj h)
      exact ⟨output, rfl, rfl⟩

/-- A cursor whose count of decoded bytes is exhausted refuses a byte and keeps its place. -/
theorem pieces_agree_exhausted :
    ((⟨1, 2 ^ 32 - 1, .plain⟩ : Cursor).count [0x61]).1 = ⟨1, 2 ^ 32 - 1, .plain⟩ :=
  pieces_agree.2.2.1 ⟨1, 2 ^ 32 - 1, .plain⟩ [0x61] (by decide)

end Sark.Metadata.Cursor
