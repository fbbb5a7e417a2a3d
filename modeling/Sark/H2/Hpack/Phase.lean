import Sark.H2.Hpack.Complete

/-!
# The resumable HPACK decoder

Decoding a header block that arrives in fragments (`h2/src/hpack/decode/phase.rs`, `block.rs`).
Representations that are complete in a fragment go through `Complete`; one that is cut is taken up
by a machine with a phase for each place where a literal can be cut. A literal that is to be indexed
is written into a draft of the table as long as it fits (the staged phases), and into scratch
storage otherwise (the ready phases).
-/

namespace Sark.Hpack

open Metadata Compress

/-- `limit::Integer`: what a prefixed integer is for. -/
inductive Integer
  | indexed
  | literalName (index : Index)
  | dynamicSize
  deriving DecidableEq, Repr

/-- The outcome of `Number::feed`. -/
inductive Fed
  | complete (value : ℕ) (rest : Bytes)
  | pending (number : Continuation)
  deriving DecidableEq, Repr

/-- `Number::feed`. -/
def feedNumber (number : Continuation) : Bytes → Except Error Fed
  | [] => .ok (.pending number)
  | byte :: rest =>
    match number.tryPush byte with
    | .error cause => .error (.badInteger cause)
    | .ok (.done value) => .ok (.complete value rest)
    | .ok (.more next) => feedNumber next rest

/-- `limit::LengthState`. -/
structure LengthState where
  number : Continuation
  encoding : Encoding
  deriving DecidableEq, Repr

/-- `limit::StringState`: a string that is waited for lacks at least one byte. Whether it is
retained is told by its scratch buffer. -/
structure StringState where
  cursor : Cursor
  pending : 0 < cursor.remaining

/-- `phase::Phase`. The scratch buffers stand where they are read. -/
inductive Phase
  | representation (decoder : Decoder)
  | integer (decoder : Decoder) (number : Continuation) (target : Integer)
  | readyNamePrefix (decoder : Decoder) (context : LiteralContext)
  | stagedNamePrefix (stage : NameStage) (core : Core) (context : LiteralContext)
  | readyValuePrefix (decoder : Decoder) (context : NamedContext) (name : Option Bytes)
  | stagedValuePrefix (stage : ValueStage) (core : Core) (context : NamedContext)
  | readyNameLength (decoder : Decoder) (context : LiteralContext) (length : LengthState)
  | stagedNameLength (stage : NameStage) (core : Core) (context : LiteralContext)
      (length : LengthState)
  | readyValueLength (decoder : Decoder) (context : NamedContext) (name : Option Bytes)
      (length : LengthState)
  | stagedValueLength (stage : ValueStage) (core : Core) (context : NamedContext)
      (length : LengthState)
  | readyNameString (decoder : Decoder) (context : LiteralContext) (string : StringState)
      (scratch : Option Bytes)
  | stagedNameString (stage : NameStage) (core : Core) (context : LiteralContext)
      (string : StringState)
  | readyValueString (decoder : Decoder) (context : NamedContext) (name : Option Bytes)
      (string : StringState) (scratch : Option Bytes)
  | stagedValueString (stage : ValueStage) (core : Core) (context : NamedContext)
      (string : StringState)

/-! ## Strings in pieces -/

/-- `Scratch::feed_name` and `Scratch::feed_value` of `Emit`: a buffer that is no longer retained
only counts. -/
def Scratch.feed (limit : Bound) (cursor : Cursor) (scratch : Option Bytes) (payload : Bytes) :
    Except Error (Cursor × Option Bytes) :=
  match scratch with
  | none =>
    match cursor.feedCount payload with
    | none => .error .badString
    | some (cursor, _) => .ok (cursor, none)
  | some _ =>
    match cursor.feedInto (Scratch.write limit.option) payload scratch with
    | .error _ => .error .encoding
    | .ok (cursor, _, scratch) => .ok (cursor, scratch)

/-- `Payload::feed`: the cursor and the draft, or `none` if the draft does not fit any more. -/
def feedStage {σ : Type*} (write : σ → Bytes → Except Overflow σ) (cursor : Cursor) (stage : σ)
    (payload : Bytes) : Except Error (Option (Cursor × σ)) :=
  match cursor.feedInto write payload stage with
  | .error .invalid => .error .encoding
  | .error (.sink _) => .ok none
  | .ok (cursor, _, stage) => .ok (some (cursor, stage))

/-- The first scratch buffer of a string in ready phases: a plain string that will not fit is never
retained. -/
def Scratch.start (limit : Bound) (len : ℕ) : Encoding → Option Bytes
  | .huffman => some []
  | .plain =>
    match limit.admitLen len with
    | .admitted => some []
    | .exceeded => none

namespace Phase

/-- `Phase::ready_name`. -/
def readyName (decoder : Decoder) (context : LiteralContext) (cursor : Cursor)
    (scratch : Option Bytes) : Except Error Phase :=
  if h : 0 < cursor.remaining then .ok (.readyNameString decoder context ⟨cursor, h⟩ scratch)
  else
    match cursor.finish with
    | none => .error .badString
    | some len => .ok (.readyValuePrefix decoder (context.begin len) scratch)

/-- `Phase::ready_value`. -/
def readyValue (decoder : Decoder) (flow : Flow) (context : NamedContext) (name : Option Bytes)
    (cursor : Cursor) (scratch : Option Bytes) : Except Error (Phase × Flow) :=
  if h : 0 < cursor.remaining then
    .ok (.readyValueString decoder context name ⟨cursor, h⟩ scratch, flow)
  else
    match cursor.finish with
    | none => .error .badString
    | some len =>
      let (decoder, flow) := decoder.value flow context name ⟨len, scratch⟩
      .ok (.representation decoder, flow)

/-- `Phase::staged_name`. -/
def stagedName (stage : NameStage) (core : Core) (context : LiteralContext) (cursor : Cursor) :
    Except Error Phase :=
  if h : 0 < cursor.remaining then .ok (.stagedNameString stage core context ⟨cursor, h⟩)
  else
    match cursor.finish with
    | none => .error .badString
    | some _ => do
      let (stage, context) ← nameStaged stage context
      return .stagedValuePrefix stage core context

/-- `Phase::staged_value`. -/
def stagedValue (stage : ValueStage) (core : Core) (flow : Flow) (context : NamedContext)
    (cursor : Cursor) : Except Error (Phase × Flow) :=
  if h : 0 < cursor.remaining then .ok (.stagedValueString stage core context ⟨cursor, h⟩, flow)
  else
    match cursor.finish with
    | none => .error .badString
    | some _ =>
      let (decoder, flow) := valueStaged stage core flow context
      .ok (.representation decoder, flow)

end Phase

/-! ## Representations in pieces -/

namespace Decoder

/-- `Literal::start` with the index zero: a string is to come. -/
def startNamed (self : Decoder) (context : LiteralContext) : Phase :=
  match context.index with
  | .plain | .never => .readyNamePrefix self context
  | .indexed =>
    match self.table.tryBegin with
    | some stage => .stagedNamePrefix stage self.core context
    | none => .readyNamePrefix self context

/-- `Literal::start` with the index of an entry that has the name. -/
def startIndexed (self : Decoder) (context : LiteralContext) (index : ℕ) : Except Error Phase :=
  match context.index with
  | .plain | .never => do
    let decoded ← self.retainName index context.retainLimit
    return .readyValuePrefix self (context.begin decoded.len) decoded.contents
  | .indexed => do
    match ← self.indexed index context.retainLimit with
    | (.ready decoder, decoded) =>
      return .readyValuePrefix decoder (context.begin decoded.len) decoded.contents
    | (.staged stage core, decoded) =>
      return .stagedValuePrefix stage core (context.begin decoded.len)

/-- `Literal::start`: a literal whose name index is known. -/
def startLiteral (self : Decoder) (flow : Flow) (index : ℕ) (kind : Index) : Except Error Phase :=
  let context := self.context flow.budget kind
  if index = 0 then .ok (self.startNamed context) else self.startIndexed context index

/-- `Repr::apply`: the integer of a representation is complete. -/
def apply (self : Decoder) (flow : Flow) (value : ℕ) : Integer → Except Error (Phase × Flow)
  | .indexed => do
    let field ← lookup self.table value
    return (.representation self, flow.field field.name field.value)
  | .literalName index => do
    let phase ← self.startLiteral flow value index
    return (phase, flow)
  | .dynamicSize => do
    let decoder ← self.resize flow.budget value
    return (.representation decoder, flow)

/-- The first step of `Repr::start`: a field ends the size updates. -/
def closeFor (self : Decoder) (flow : Flow) : Integer → Except Error Flow
  | .indexed | .literalName _ => self.core.field flow
  | .dynamicSize => .ok flow

/-- `Repr::start`. -/
def start (self : Decoder) (flow : Flow) (first : UInt8) (bits : ℕ) (target : Integer) :
    Except Error (Phase × Flow) := do
  let flow ← self.closeFor flow target
  let low := first.toNat % 2 ^ bits
  if low < PrefixedInt.maxPrefix bits then self.apply flow low target
  else return (.integer self (Continuation.new (PrefixedInt.maxPrefix bits)) target, flow)

/-- The dispatch of `Phase::decode` on the first byte of a representation. -/
def startByte (self : Decoder) (flow : Flow) (first : UInt8) : Except Error (Phase × Flow) :=
  if 128 ≤ first.toNat then self.start flow first 7 .indexed
  else if 64 ≤ first.toNat then self.start flow first 6 (.literalName .indexed)
  else if 32 ≤ first.toNat then self.start flow first 5 .dynamicSize
  else self.start flow first 4 (.literalName (if 16 ≤ first.toNat then .never else .plain))

/-- `Repr::name_length`. -/
def nameLength (self : Decoder) (context : LiteralContext) (value : ℕ) (encoding : Encoding) :
    Except Error Phase :=
  if maxLiteralLen < value then .error .badString
  else
    let scratch := Scratch.start context.retainLimit value encoding
    if h : 0 < value then
      .ok (.readyNameString self context ⟨Cursor.new value encoding, h⟩ scratch)
    else .ok (.readyValuePrefix self (context.begin 0) scratch)

/-- `Repr::value_length`. -/
def valueLength (self : Decoder) (flow : Flow) (context : NamedContext) (name : Option Bytes)
    (value : ℕ) (encoding : Encoding) : Except Error (Phase × Flow) :=
  if maxLiteralLen < value then .error .badString
  else
    let scratch := Scratch.start context.limit value encoding
    if h : 0 < value then
      .ok (.readyValueString self context name ⟨Cursor.new value encoding, h⟩ scratch, flow)
    else
      let (decoder, flow) := self.value flow context name ⟨0, scratch⟩
      .ok (.representation decoder, flow)

end Decoder

/-- `Repr::<Machine<Name>>::length`. -/
def stagedNameLength (stage : NameStage) (core : Core) (context : LiteralContext) (value : ℕ)
    (encoding : Encoding) : Except Error Phase :=
  if maxLiteralLen < value then .error .badString
  else if h : 0 < value then
    .ok (.stagedNameString stage core context ⟨Cursor.new value encoding, h⟩)
  else do
    let (stage, context) ← nameStaged stage context
    return .stagedValuePrefix stage core context

/-- `Repr::<Machine<Value>>::length`. -/
def stagedValueLength (stage : ValueStage) (core : Core) (flow : Flow) (context : NamedContext)
    (value : ℕ) (encoding : Encoding) : Except Error (Phase × Flow) :=
  if maxLiteralLen < value then .error .badString
  else if h : 0 < value then
    .ok (.stagedValueString stage core context ⟨Cursor.new value encoding, h⟩, flow)
  else
    let (decoder, flow) := valueStaged stage core flow context
    .ok (.representation decoder, flow)

/-- The first byte of a string literal, behind which the four prefix functions of `Repr` go on
differently: it holds the length, or a number has to be read for it. -/
def lengthPrefix (first : UInt8) : ℕ ⊕ LengthState :=
  let value := first.toNat % 128
  if value < 127 then .inl value else .inr ⟨Continuation.new 127, encodingOf first⟩

/-- `Phase::StagedNameString` with a draft that does not fit: what was written of it moves to scratch
storage. -/
def spillName (stage : NameStage) (context : LiteralContext) (cursor : Cursor) : Option Bytes :=
  match context.retainLimit.admitLen cursor.decodedLen with
  | .admitted => some stage.name
  | .exceeded => none

/-- `Phase::StagedValueString` with a draft that does not fit: the name and the value that move to
scratch storage. -/
def spillValue (stage : ValueStage) (context : NamedContext) (cursor : Cursor) :
    Option Bytes × Option Bytes :=
  match context.limit.admitLen cursor.decodedLen with
  | .admitted => (some stage.name, some stage.value)
  | .exceeded => (some [], none)

namespace Phase

/-- The body of the loop of `Phase::decode`, on an input that is not empty: the next phase, and the
input behind what it took. -/
def advance (phase : Phase) (flow : Flow) (first : UInt8) (rest : Bytes) :
    Except Error (Phase × Flow × Bytes) :=
  let input := first :: rest
  match phase with
  | .representation decoder =>
    match Complete.run decoder flow input with
    | .complete decoder flow => .ok (.representation decoder, flow, [])
    | .failed cause => .error cause
    | .needMore first rest decoder flow => do
      let (phase, flow) ← decoder.startByte flow first
      return (phase, flow, rest)
  | .integer decoder number target => do
    match ← feedNumber number input with
    | .pending number => return (.integer decoder number target, flow, [])
    | .complete value rest =>
      let (phase, flow) ← decoder.apply flow value target
      return (phase, flow, rest)
  | .readyNamePrefix decoder context =>
    match lengthPrefix first with
    | .inr length => .ok (.readyNameLength decoder context length, flow, rest)
    | .inl value => do
      let phase ← decoder.nameLength context value (encodingOf first)
      return (phase, flow, rest)
  | .stagedNamePrefix stage core context =>
    match lengthPrefix first with
    | .inr length => .ok (.stagedNameLength stage core context length, flow, rest)
    | .inl value => do
      let phase ← Hpack.stagedNameLength stage core context value (encodingOf first)
      return (phase, flow, rest)
  | .readyValuePrefix decoder context name =>
    match lengthPrefix first with
    | .inr length => .ok (.readyValueLength decoder context name length, flow, rest)
    | .inl value => do
      let (phase, flow) ← decoder.valueLength flow context name value (encodingOf first)
      return (phase, flow, rest)
  | .stagedValuePrefix stage core context =>
    match lengthPrefix first with
    | .inr length => .ok (.stagedValueLength stage core context length, flow, rest)
    | .inl value => do
      let (phase, flow) ← Hpack.stagedValueLength stage core flow context value (encodingOf first)
      return (phase, flow, rest)
  | .readyNameLength decoder context length => do
    match ← feedNumber length.number input with
    | .pending number => return (.readyNameLength decoder context { length with number }, flow, [])
    | .complete value rest =>
      let phase ← decoder.nameLength context value length.encoding
      return (phase, flow, rest)
  | .stagedNameLength stage core context length => do
    match ← feedNumber length.number input with
    | .pending number =>
      return (.stagedNameLength stage core context { length with number }, flow, [])
    | .complete value rest =>
      let phase ← Hpack.stagedNameLength stage core context value length.encoding
      return (phase, flow, rest)
  | .readyValueLength decoder context name length => do
    match ← feedNumber length.number input with
    | .pending number =>
      return (.readyValueLength decoder context name { length with number }, flow, [])
    | .complete value rest =>
      let (phase, flow) ← decoder.valueLength flow context name value length.encoding
      return (phase, flow, rest)
  | .stagedValueLength stage core context length => do
    match ← feedNumber length.number input with
    | .pending number =>
      return (.stagedValueLength stage core context { length with number }, flow, [])
    | .complete value rest =>
      let (phase, flow) ← Hpack.stagedValueLength stage core flow context value length.encoding
      return (phase, flow, rest)
  | .readyNameString decoder context string scratch => do
    let amount := min input.length string.cursor.remaining
    let (cursor, scratch) ←
      Scratch.feed context.retainLimit string.cursor scratch (input.take amount)
    let phase ← readyName decoder context cursor scratch
    return (phase, flow, input.drop amount)
  | .stagedNameString stage core context string => do
    let amount := min input.length string.cursor.remaining
    let bytes := input.take amount
    match ← feedStage NameStage.write string.cursor stage bytes with
    | some (cursor, stage) =>
      let phase ← stagedName stage core context cursor
      return (phase, flow, input.drop amount)
    | none =>
      let scratch := spillName stage context string.cursor
      let (cursor, scratch) ← Scratch.feed context.retainLimit string.cursor scratch bytes
      let phase ← readyName ⟨stage.discard, core⟩ context cursor scratch
      return (phase, flow, input.drop amount)
  | .readyValueString decoder context name string scratch => do
    let amount := min input.length string.cursor.remaining
    let (cursor, scratch) ← Scratch.feed context.limit string.cursor scratch (input.take amount)
    let (phase, flow) ← readyValue decoder flow context name cursor scratch
    return (phase, flow, input.drop amount)
  | .stagedValueString stage core context string => do
    let amount := min input.length string.cursor.remaining
    let bytes := input.take amount
    match ← feedStage ValueStage.write string.cursor stage bytes with
    | some (cursor, stage) =>
      let (phase, flow) ← stagedValue stage core flow context cursor
      return (phase, flow, input.drop amount)
    | none =>
      let (name, scratch) := spillValue stage context string.cursor
      let (cursor, scratch) ← Scratch.feed context.limit string.cursor scratch bytes
      let (phase, flow) ← readyValue ⟨stage.discard, core⟩ flow context name cursor scratch
      return (phase, flow, input.drop amount)

/-! ## The loop -/

theorem length_of_feedNumber {number : Continuation} {input rest : Bytes} {value : ℕ}
    (h : feedNumber number input = .ok (.complete value rest)) : rest.length < input.length := by
  induction input generalizing number with
  | nil => simp [feedNumber] at h
  | cons byte input ih =>
    rw [feedNumber] at h
    split at h
    · contradiction
    · obtain ⟨-, rfl⟩ := Fed.complete.inj (Except.ok.inj h)
      exact Nat.lt_succ_self _
    · exact (ih h).trans (Nat.lt_succ_self _)

theorem length_of_run {decoder next : Decoder} {flow flow' : Flow} {first : UInt8}
    {input rest : Bytes} (h : Complete.run decoder flow input = .needMore first rest next flow') :
    rest.length < input.length := by
  induction hlen : input.length using Nat.strong_induction_on generalizing input decoder flow with
  | _ len ih =>
    cases input with
    | nil => simp [Complete.run] at h
    | cons byte input =>
      rw [Complete.run_cons] at h
      split at h
      · obtain ⟨-, rfl, -, -⟩ := Complete.Outcome.needMore.inj h
        simp at hlen
        omega
      · contradiction
      next kind tail hparse =>
        have hshort := Kind.length_of_parse hparse
        split at h
        · contradiction
        · have := ih tail.length (hlen ▸ hshort) h rfl
          omega

/-- Every round takes some of the input. -/
theorem length_of_advance {phase next : Phase} {flow flow' : Flow} {first : UInt8}
    {rest input : Bytes} (h : advance phase flow first rest = .ok (next, flow', input)) :
    input.length < (first :: rest).length := by
  have hdrop (string : StringState) :
      ((first :: rest).drop (min (first :: rest).length string.cursor.remaining)).length <
        (first :: rest).length := by
    have := string.pending
    rw [List.length_drop, List.length_cons]
    omega
  cases phase with
  | representation decoder =>
    simp only [advance] at h
    split at h
    · obtain ⟨-, -, rfl⟩ := by simpa using h
      simp
    · contradiction
    next hrun =>
      obtain ⟨⟨phase, flow⟩, -, h⟩ := Except.bind_eq_ok_iff.mp h
      obtain ⟨-, -, rfl⟩ := by simpa [pure, Except.pure] using h
      exact length_of_run hrun
  | integer | readyNameLength | stagedNameLength | readyValueLength | stagedValueLength =>
    obtain ⟨fed, hfed, h⟩ := Except.bind_eq_ok_iff.mp h
    cases fed with
    | pending number =>
      obtain ⟨-, -, rfl⟩ := by simpa [pure, Except.pure] using h
      simp
    | complete value tail =>
      obtain ⟨phase, -, h⟩ := Except.bind_eq_ok_iff.mp h
      obtain ⟨-, -, rfl⟩ := by simpa [pure, Except.pure] using h
      exact length_of_feedNumber hfed
  | readyNamePrefix | stagedNamePrefix | readyValuePrefix | stagedValuePrefix =>
    simp only [advance] at h
    split at h
    · obtain ⟨-, -, rfl⟩ := by simpa using h
      exact Nat.lt_succ_self _
    · obtain ⟨phase, -, h⟩ := Except.bind_eq_ok_iff.mp h
      obtain ⟨-, -, rfl⟩ := by simpa [pure, Except.pure] using h
      exact Nat.lt_succ_self _
  | readyNameString | readyValueString =>
    obtain ⟨fed, -, h⟩ := Except.bind_eq_ok_iff.mp h
    obtain ⟨phase, -, h⟩ := Except.bind_eq_ok_iff.mp h
    obtain ⟨-, -, rfl⟩ := by simpa [pure, Except.pure] using h
    exact hdrop _
  | stagedNameString | stagedValueString =>
    obtain ⟨fed, -, h⟩ := Except.bind_eq_ok_iff.mp h
    cases fed with
    | some stored =>
      obtain ⟨phase, -, h⟩ := Except.bind_eq_ok_iff.mp h
      obtain ⟨-, -, rfl⟩ := by simpa [pure, Except.pure] using h
      exact hdrop _
    | none =>
      obtain ⟨fed, -, h⟩ := Except.bind_eq_ok_iff.mp h
      obtain ⟨phase, -, h⟩ := Except.bind_eq_ok_iff.mp h
      obtain ⟨-, -, rfl⟩ := by simpa [pure, Except.pure] using h
      exact hdrop _

/-- `Phase::decode`: the phase behind a fragment. -/
def decode (phase : Phase) (flow : Flow) (input : Bytes) : Except Error (Phase × Flow) :=
  match input with
  | [] => .ok (phase, flow)
  | first :: rest =>
    match _ : advance phase flow first rest with
    | .error cause => .error cause
    | .ok (phase, flow, input) => decode phase flow input
termination_by input.length
decreasing_by exact length_of_advance ‹_›

theorem decode_cons (phase : Phase) (flow : Flow) (first : UInt8) (rest : Bytes) :
    decode phase flow (first :: rest) =
      match advance phase flow first rest with
      | .error cause => .error cause
      | .ok (phase, flow, input) => decode phase flow input := by
  rw [decode]
  split <;> simp_all

/-- `Phase::finish`: a block ends between two representations. -/
def finish : Phase → Except Error Decoder
  | .representation decoder => decoder.finish
  | _ => .error .needMore

end Phase

/-- `block::Block`, with the fields that its sink was given. -/
structure Block where
  phase : Phase
  flow : Flow

namespace Block

/-- `From<Decoder>`. -/
def new (decoder : Decoder) : Block :=
  ⟨.representation decoder, ⟨decoder.budget, []⟩⟩

/-- `Block::decode`. -/
def decode (self : Block) (input : Bytes) : Except Error Block := do
  let (phase, flow) ← self.phase.decode self.flow input
  return ⟨phase, flow⟩

/-- `Block::finish`. -/
def finish (self : Block) : Except Error (Decoder × Admission × List Entry) := do
  let decoder ← self.phase.finish
  return (decoder, self.flow.budget.admission, self.flow.sink)

end Block

end Sark.Hpack
