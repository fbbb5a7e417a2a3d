import Sark.H2.Hpack.Literal
import Sark.Http.H1.Chunk.Trailer

/-!
# Consumers of a header block

The decoder hands the fields of a block to a consumer (`h2/src/hpack/decode/mode`): `Emit` passes on
what the budget admits, `Discard` wants nothing, and `Store` drives a sink that chooses field by
field how it takes a value. The consumer decides which bytes the decoder retains, counts, validates
or hands through, and it may fail.

`Mode` is the interface of a consumer. Its fields state what the interface promises: the facts of a
name are kept, the budget's size updates are left alone, and a value that is handed through is
decoded as it stands.

* `Mode.block`: the one-shot decoder over an arbitrary consumer.
* `emit`, `discard`, `store`: the three consumers of the source.
-/

namespace Sark

namespace Hpack

namespace Modes

open Metadata Compress

/-! ## Values -/

/-- `block::Validation`. -/
inductive Validation
  | valid
  | malformed
  | rejectPush
  deriving DecidableEq, Repr

/-- The states of `block::Value`, which validates a field value byte by byte. -/
inductive Scan
  | empty
  | text
  | whitespace
  | invalid
  deriving DecidableEq, Repr

namespace Scan

/-- `Value::push`. -/
def push (self : Scan) (byte : UInt8) : Scan :=
  if !Http.Chunk.isText byte then .invalid
  else if byte = 0x20 ∨ byte = 0x09 then
    -- whitespace may follow a value's first byte, but must not be it
    match self with
    | .empty | .invalid => .invalid
    | .text | .whitespace => .whitespace
  else
    match self with
    | .invalid => .invalid
    | .empty | .text | .whitespace => .text

/-- `Value::extend`. -/
def extend (self : Scan) (bytes : Bytes) : Scan :=
  bytes.foldl push self

/-- `Value::finish`. -/
def finish : Scan → Validation
  | .empty | .text => .valid
  | .whitespace | .invalid => .malformed

/-- `Value` as a sink: it never refuses a byte. -/
def write (self : Scan) (bytes : Bytes) : Except Empty Scan :=
  .ok (self.extend bytes)

end Scan

/-- `Valued::validation`. -/
def validation (value : Bytes) : Validation :=
  (Scan.empty.extend value).finish

/-- `decode::Failure`: the block is at fault, or the sink. -/
inductive Failure (ε : Type)
  | decode (cause : Error)
  | sink (cause : ε)
  deriving DecidableEq, Repr

end Modes

namespace Encoded

open Metadata Modes

/-- `Encoded::decoded_len`. -/
def decodedLen (self : Encoded) : Except Error Decoded :=
  match self.encoding with
  | .plain => .ok ⟨self.payload.length, none⟩
  | .huffman =>
    match Huffman.Decoder.new.feedCount self.payload with
    | none => .error .badString
    | some (decoder, len) => if decoder.finish then .ok ⟨len, none⟩ else .error .badString

/-- `Encoded::validate`. -/
def validate (self : Encoded) : Except Error (Decoded × Validation) :=
  match (Cursor.new self.payload.length self.encoding).feedInto Scan.write self.payload .empty with
  | .error _ => .error .encoding
  | .ok (cursor, _, scan) =>
    match cursor.finish with
    | none => .error .badString
    | some len => .ok (⟨len, none⟩, scan.finish)

end Encoded

end Hpack

namespace Metadata

/-- What a cursor decodes from a complete literal is what the literal stands for, if the cursor can
finish. -/
theorem Cursor.decode_of_run {encoding : Encoding} {payload output : Bytes} {next : Cursor}
    (h : (Cursor.new payload.length encoding).run payload = some (next, output)) :
    encoding.decode payload = next.finish.map fun _ => output := by
  obtain ⟨state, hstate, -, rfl⟩ := run_eq_some_iff.mp h
  rw [show (Cursor.new payload.length encoding).remaining = payload.length from rfl,
    List.take_length] at hstate
  have hfinish (decodedLen : ℕ) : (Cursor.mk ((Cursor.new payload.length encoding).remaining -
      payload.length) decodedLen state).remaining = 0 := Nat.sub_self _
  rw [finish, if_neg (not_not.mpr (hfinish _))]
  cases encoding with
  | plain =>
    obtain ⟨rfl, rfl⟩ := Prod.mk.inj (Option.some.inj hstate)
    rfl
  | huffman =>
    obtain ⟨⟨decoder, decoded⟩, hrun, heq⟩ := Option.map_eq_some_iff.mp hstate
    obtain ⟨rfl, rfl⟩ := Prod.mk.inj heq
    simp only [Encoding.decode, hrun, Option.bind_some]
    split <;> simp

end Metadata

namespace Hpack

open Metadata in
/-- A literal of admissible length that a cursor cannot decode stands for nothing. -/
theorem Encoded.not_contents_of_run {self : Encoded} (hlen : self.payload.length ≤ maxLiteralLen)
    (h : (Cursor.new self.payload.length self.encoding).run self.payload = none) :
    self.contents = none := by
  have hread := Cursor.read_new (by rw [maxLiteralLen] at hlen; omega) self.encoding
    (le_refl self.payload.length)
  rw [Cursor.read, h, Option.bind_none, ite_self, List.take_length] at hread
  exact Option.map_eq_none_iff.mp hread.symm

namespace Modes

open Metadata Compress

/-! ## The interface of a consumer -/

/-- `mode::Facts`. -/
structure Facts where
  len : ℕ
  index : Index
  deriving DecidableEq, Repr

/-- `mode::NameRoute`. -/
inductive NameRoute
  | retain
  | count
  deriving DecidableEq, Repr

/-- `mode::Route`: what becomes of the bytes of a value. -/
inductive Route (δ : Type)
  | retain
  | count
  | validate
  | direct (proof : δ)
  deriving DecidableEq, Repr

/-- The budget of a block, and its consumer. -/
structure Feed (σ : Type) where
  budget : Budget
  sink : σ

/-- `mode::Kind`, `mode::Active` and `mode::Flow` of a consumer with sink `σ` whose own failures are
`ε`. A sink that comes back with a failure is left out. -/
structure Mode (σ ε : Type) where
  /-- `Flow::Active`: a literal whose name the consumer has seen. -/
  Active : Type
  /-- `Kind::Direct`: the right to hand a value through. -/
  Direct : Type
  name : NameRoute
  route : Active → Route Direct
  facts : Active → Facts
  /-- `Direct::literal`. -/
  literal : Direct → σ → Encoded → Except (Failure ε) (Decoded × σ)
  /-- `Flow::validate`. -/
  validate : σ → Validation → Except ε σ
  /-- `Flow::begin`. -/
  begin : σ → Option Bytes → Facts → Except ε (Active × σ)
  /-- `Flow::field`: a field that comes from a table. -/
  field : Feed σ → Bytes → Bytes → Except ε (Feed σ)
  /-- `Flow::finish`. -/
  finish : Active → Feed σ → Bytes → Value → Except ε (Feed σ)
  facts_of_begin : ∀ {sink span facts' active next},
    begin sink span facts' = .ok (active, next) → facts active = facts'
  resize_of_field : ∀ {feed name value next},
    field feed name value = .ok next → next.budget.resize = feed.budget.resize
  resize_of_finish : ∀ {active feed name value next},
    finish active feed name value = .ok next → next.budget.resize = feed.budget.resize
  contents_of_literal : ∀ {proof sink encoded decoded next},
    literal proof sink encoded = .ok (decoded, next) → encoded.contents.isSome
  not_contents_of_literal : ∀ {proof sink encoded cause},
    encoded.payload.length ≤ maxLiteralLen →
      literal proof sink encoded = .error (.decode cause) → encoded.contents = none

/-! ## Literals -/

/-- `limit::Named`. -/
structure Named (α : Type) where
  retainLimit : Bound
  mode : α
  retention : NameRoute

section Decode

variable {σ ε : Type} (mode : Mode σ ε)

namespace Mode

/-- `Literal::retention`: a consumer that only counts names has none retained. -/
def retention (context : LiteralContext) : Bound :=
  match mode.name with
  | .retain => context.retainLimit
  | .count => Bound.new (some 0)

/-- `limit::Literal::begin`. -/
def beginLiteral (context : LiteralContext) (sink : σ) (span : Option Bytes) (len : ℕ) :
    Except (Failure ε) (Named mode.Active × σ) := do
  let (active, sink) ← (mode.begin sink span ⟨len, context.index⟩).mapError .sink
  return (⟨context.retainLimit, active, if span.isSome then .retain else .count⟩, sink)

/-- `limit::Named::limit`. -/
def limit (context : Named mode.Active) : Bound :=
  context.retainLimit.after (mode.facts context.mode).len

/-- `Encoded::validate` and `Flow::validate` behind it. -/
def validateValue (sink : σ) (value : Encoded) : Except (Failure ε) (Decoded × σ) := do
  let (decoded, verdict) ← value.validate.mapError .decode
  let sink ← (mode.validate sink verdict).mapError .sink
  return (decoded, sink)

/-- The value of a literal in `Complete::read_plain`. -/
def plainValue (context : Named mode.Active) (sink : σ) (value : Encoded) :
    Except (Failure ε) (Decoded × σ) :=
  match mode.route context.mode with
  | .retain => ((value.decodeSpan (mode.limit context).option).mapError .decode).map (·, sink)
  | .count => (value.decodedLen.mapError .decode).map (·, sink)
  | .validate => mode.validateValue sink value
  | .direct proof => mode.literal proof sink value

/-- `Complete::value`: the value of a literal that is kept in scratch storage. -/
def scratchValue (context : Named mode.Active) (sink : σ) (value : Encoded) :
    Except (Failure ε) (Decoded × σ) :=
  match mode.route context.mode with
  | .retain => ((value.decodeInto (mode.limit context).option).mapError .decode).map (·, sink)
  | .count => ((value.decodeInto (some 0)).mapError .decode).map (·, sink)
  | .validate => mode.validateValue sink value
  | .direct proof => mode.literal proof sink value

/-- `Complete::read_plain`. -/
def readPlain (decoder : Decoder) (feed : Feed σ) (index : Index) (name : Name) (value : Encoded) :
    Except (Failure ε) (Decoder × Feed σ) := do
  let context := decoder.context feed.budget index
  let name ← (Complete.plainName decoder (mode.retention context) name).mapError .decode
  let (context, sink) ← mode.beginLiteral context feed.sink name.contents name.len
  let (decoded, sink) ← mode.plainValue context sink value
  let retained := name.contents.bind fun _ => decoded.contents
  let feed ← (mode.finish context.mode ⟨feed.budget, sink⟩ (name.contents.getD [])
    (.new retained decoded.len)).mapError .sink
  return (decoder, feed)

/-- `Literal::<Decoder>::value`: an indexed literal that reaches scratch storage does not fit the
table and empties it. -/
def finishReady (decoder : Decoder) (feed : Feed σ) (context : Named mode.Active)
    (name : Option Bytes) (decoded : Decoded) : Except (Failure ε) (Decoder × Feed σ) := do
  let table :=
    match (mode.facts context.mode).index with
    | .plain | .never => decoder.table
    | .indexed => decoder.table.reject
  let retained :=
    match context.retention with
    | .retain => decoded.contents
    | .count => none
  let feed ← (mode.finish context.mode feed (name.getD [])
    (.new retained decoded.len)).mapError .sink
  return (⟨table, decoder.core⟩, feed)

/-- `Literal::<Machine<Value>>::value`. -/
def finishStaged (stage : ValueStage) (core : Core) (feed : Feed σ) (context : Named mode.Active) :
    Except (Failure ε) (Decoder × Feed σ) := do
  let feed ← (mode.finish context.mode feed stage.name (.retained stage.value)).mapError .sink
  return (⟨stage.commit, core⟩, feed)

/-- The end of `Complete::read_indexed` in scratch storage. -/
def readScratch (decoder : Decoder) (feed : Feed σ) (context : Named mode.Active)
    (name : Option Bytes) (value : Encoded) : Except (Failure ε) (Decoder × Feed σ) := do
  let (decoded, sink) ← mode.scratchValue context feed.sink value
  mode.finishReady decoder ⟨feed.budget, sink⟩ context name decoded

/-- The name of a draft that overflowed, kept for a consumer that retains its value. -/
def spilledName (stage : ValueStage) (context : Named mode.Active) : Option Bytes :=
  match mode.route context.mode with
  | .retain => some stage.name
  | .count | .validate | .direct _ => none

/-- The value of a literal whose place was chosen. -/
def readValue (path : Path) (feed : Feed σ) (context : Named mode.Active) (name : Option Bytes)
    (value : Encoded) : Except (Failure ε) (Decoder × Feed σ) :=
  match path with
  | .ready decoder => mode.readScratch decoder feed context name value
  | .staged stage core => do
    match ← (value.store ValueStage.write stage).mapError .decode with
    | some stage => mode.finishStaged stage core feed context
    | none =>
      mode.readScratch ⟨stage.discard, core⟩ feed context (mode.spilledName stage context) value

/-- `Complete::read_indexed`. -/
def readIndexed (decoder : Decoder) (feed : Feed σ) (name : Name) (value : Encoded) :
    Except (Failure ε) (Decoder × Feed σ) := do
  let context := decoder.context feed.budget .indexed
  let (path, named, name) ←
    (Complete.readName decoder ⟨mode.retention context, context.index⟩ name).mapError .decode
  let (context, sink) ← mode.beginLiteral context feed.sink name named.len
  mode.readValue path ⟨feed.budget, sink⟩ context name value

/-! ## Complete blocks -/

/-- `Core::field`. -/
def openField (decoder : Decoder) (feed : Feed σ) : Except (Failure ε) (Feed σ) := do
  let budget ← (feed.budget.closeResize decoder.core.requiredResize).mapError .decode
  return { feed with budget }

/-- `Complete::indexed`. -/
def indexed (decoder : Decoder) (feed : Feed σ) (index : ℕ) : Except (Failure ε) (Feed σ) := do
  let feed ← openField decoder feed
  let field ← (lookup decoder.table index).mapError .decode
  (mode.field feed field.name field.value).mapError .sink

/-- `Complete::read_literal`. -/
def readLiteral (decoder : Decoder) (feed : Feed σ) (index : Index) (name : Name)
    (value : Encoded) : Except (Failure ε) (Decoder × Feed σ) := do
  let feed ← openField decoder feed
  match index with
  | .plain | .never => mode.readPlain decoder feed index name value
  | .indexed => mode.readIndexed decoder feed name value

/-- One representation: the body of the loop of `Complete::run`. -/
def apply (decoder : Decoder) (feed : Feed σ) : Kind → Except (Failure ε) (Decoder × Feed σ)
  | .indexed index => do
    let feed ← mode.indexed decoder feed index
    return (decoder, feed)
  | .literal index name value => mode.readLiteral decoder feed index name value
  | .resize size => do
    let decoder ← (decoder.resize feed.budget size).mapError .decode
    return (decoder, feed)

/-- `Complete::run`, and the end of `Complete::block`. A representation that is not complete is an
error of the block. -/
def block (decoder : Decoder) (feed : Feed σ) (input : Bytes) :
    Except (Failure ε) (Decoder × Feed σ) :=
  match input with
  | [] => do
    let decoder ← decoder.finish.mapError .decode
    return (decoder, feed)
  | first :: rest =>
    match _ : Kind.parse (first :: rest) with
    | .error cause => .error (.decode cause)
    | .ok (kind, tail) =>
      match mode.apply decoder feed kind with
      | .error cause => .error cause
      | .ok (decoder, feed) => block decoder feed tail
termination_by input.length
decreasing_by exact Kind.length_of_parse ‹_›

theorem block_cons (decoder : Decoder) (feed : Feed σ) (first : UInt8) (rest : Bytes) :
    mode.block decoder feed (first :: rest) =
      ((Kind.parse (first :: rest)).mapError .decode >>= fun parsed =>
        mode.apply decoder feed parsed.1 >>= fun result =>
          mode.block result.1 result.2 parsed.2) := by
  rw [block]
  split
  next hparse => rw [hparse]; rfl
  next hparse =>
    rw [hparse]
    simp only [Except.mapError, bind, Except.bind]
    split
    next happly => rw [happly]
    next happly => rw [happly]

end Mode

end Decode

end Modes

/-! ## Consumers that cannot fail -/

/-- `Value::len`. -/
def Value.len : Value → ℕ
  | .retained value => value.length
  | .counted len => len

@[simp]
theorem Budget.resize_admitField (self : Budget) (name value : ℕ) :
    (self.admitField name value).1.resize = self.resize := by
  unfold admitField
  dsimp only
  split
  · rfl
  · split <;> rfl

@[simp]
theorem Budget.resize_exceed (self : Budget) (name value : ℕ) :
    (self.exceed name value).resize = self.resize :=
  self.resize_admitField name value

theorem Budget.resize_of_admitField {self next : Budget} {name value : ℕ} {verdict : Admission}
    (h : self.admitField name value = (next, verdict)) : next.resize = self.resize := by
  rw [← self.resize_admitField name value, h]

theorem Flow.resize_finish (self : Flow) (len : ℕ) (name : Bytes) (value : Value) :
    (self.finish len name value).budget.resize = self.budget.resize := by
  cases value with
  | counted valueLen => exact self.budget.resize_exceed len valueLen
  | retained value =>
    simp only [finish]
    split
    all_goals exact Budget.resize_of_admitField ‹_›

namespace Modes

open Metadata Compress

/-- `mode::Emit`: the fields that the budget admits are collected. -/
def emit : Mode (List Entry) Empty where
  Active := Facts
  Direct := Empty
  name := .retain
  route _ := .retain
  facts active := active
  literal proof _ _ := proof.elim
  validate sink _ := .ok sink
  begin sink _ facts := .ok (facts, sink)
  field feed name value :=
    let flow := Flow.finish ⟨feed.budget, feed.sink⟩ name.length name (.retained value)
    .ok ⟨flow.budget, flow.sink⟩
  finish active feed name value :=
    let flow := Flow.finish ⟨feed.budget, feed.sink⟩ active.len name value
    .ok ⟨flow.budget, flow.sink⟩
  facts_of_begin h := (Prod.mk.inj (Except.ok.inj h)).1.symm
  resize_of_field := by
    rintro feed name value next ⟨rfl⟩
    exact Flow.resize_finish _ _ _ _
  resize_of_finish := by
    rintro active feed name value next ⟨rfl⟩
    exact Flow.resize_finish _ _ _ _
  contents_of_literal {proof} := proof.elim
  not_contents_of_literal {proof} := proof.elim

/-- `mode::Discard`: names and values are only counted. -/
def discard : Mode Unit Empty where
  Active := Facts
  Direct := Empty
  name := .count
  route _ := .count
  facts active := active
  literal proof _ _ := proof.elim
  validate sink _ := .ok sink
  begin sink _ facts := .ok (facts, sink)
  field feed name value := .ok ⟨(feed.budget.admitField name.length value.length).1, feed.sink⟩
  finish active feed _ value :=
    .ok ⟨(feed.budget.admitField active.len (value.len)).1, feed.sink⟩
  facts_of_begin h := (Prod.mk.inj (Except.ok.inj h)).1.symm
  resize_of_field := by
    rintro feed name value next ⟨rfl⟩
    exact Budget.resize_admitField _ _ _
  resize_of_finish := by
    rintro active feed name value next ⟨rfl⟩
    exact Budget.resize_admitField _ _ _
  contents_of_literal {proof} := proof.elim
  not_contents_of_literal {proof} := proof.elim

/-! ## Consumers with a sink -/

/-- `field::Indexing`. -/
inductive Indexing
  | allowed
  | never
  deriving DecidableEq, Repr

/-- `Index::indexing`. -/
def indexing : Index → Indexing
  | .never => .never
  | .plain | .indexed => .allowed

/-- `sink::Begin`. -/
inductive Begin (ρ δ : Type)
  | skip
  | buffered (rule : ρ)
  | direct (done : δ)
  deriving DecidableEq, Repr

/-- `sink::Indexed`. -/
inductive Indexed (ρ : Type)
  | skip
  | buffered (rule : ρ)
  deriving DecidableEq, Repr

/-- `sink::Direct` and `sink::Store`. A string that is handed to the sink moves its cursor as
decoding it does: it is refused as badly coded only if it is. -/
structure Sink (σ ε : Type) where
  Rule : Type
  Completion : Type
  string : σ → Cursor → Bytes → Except (Failure ε) (Cursor × σ)
  rollback : σ → σ
  validate : σ → Validation → Except ε σ
  begin : σ → Option Bytes → Indexing → Except ε (Begin Rule Completion × σ)
  indexed : σ → Option Bytes → Except ε (Indexed Rule × σ)
  field : σ → Rule → Bytes → Indexing → Bytes → Except ε σ
  direct : σ → Completion → Except ε σ
  run_of_string : ∀ {sink cursor input next last}, string sink cursor input = .ok (next, last) →
    ∃ output, cursor.run input = some (next, output)
  not_run_of_string : ∀ {sink cursor input cause}, input.length ≤ maxLiteralLen →
    string sink cursor input = .error (.decode cause) →
      cursor.run input = none

/-- The states of `mode::store`. -/
inductive State (ρ δ : Type)
  | plainSkip
  | plainBuffered (rule : ρ)
  | plainDirect (done : δ)
  | indexedSkip
  | indexedBuffered (rule : ρ)
  deriving DecidableEq, Repr

/-- `store::Storage`. -/
structure Storage (ρ δ : Type) where
  facts : Facts
  state : State ρ δ

namespace Sink

variable {σ ε : Type} (self : Sink σ ε)

/-- `Encoded::decode_to`. -/
def decodeTo (sink : σ) (encoded : Encoded) : Except (Failure ε) (Decoded × σ) := do
  let (cursor, sink) ←
    self.string sink (Cursor.new encoded.payload.length encoded.encoding) encoded.payload
  match cursor.finish with
  | some len => return (⟨len, none⟩, sink)
  | none => throw (.decode .badString)

/-- `Store::skip`. -/
def skip (feed : Feed σ) (nameLen : ℕ) (value : Bytes) : Except ε (Feed σ) := do
  let sink ← self.validate feed.sink (validation value)
  return ⟨(feed.budget.admitField nameLen value.length).1, sink⟩

/-- `Store::buffered`. -/
def buffered (feed : Feed σ) (rule : self.Rule) (facts : Facts) (name value : Bytes) :
    Except ε (Feed σ) :=
  match feed.budget.admitField facts.len value.length with
  | (budget, .admitted) =>
    (self.field feed.sink rule value (indexing facts.index) name).map (⟨budget, ·⟩)
  | (budget, .exceeded) => .ok ⟨budget, self.rollback feed.sink⟩

/-- `Flow::validate` of `Store`: only a verdict against the value is reported. -/
def validateFlow (sink : σ) : Validation → Except ε σ
  | .valid => .ok sink
  | verdict => self.validate sink verdict

/-- `Flow::begin` of `Store`. -/
def beginFlow (sink : σ) (span : Option Bytes) (facts : Facts) :
    Except ε (Storage self.Rule self.Completion × σ) :=
  match facts.index with
  | .indexed =>
    (self.indexed sink span).map fun
      | (.skip, sink) => (⟨facts, .indexedSkip⟩, sink)
      | (.buffered rule, sink) => (⟨facts, .indexedBuffered rule⟩, sink)
  | .plain | .never =>
    (self.begin sink span (indexing facts.index)).map fun
      | (.skip, sink) => (⟨facts, .plainSkip⟩, sink)
      | (.buffered rule, sink) => (⟨facts, .plainBuffered rule⟩, sink)
      | (.direct done, sink) => (⟨facts, .plainDirect done⟩, sink)

/-- `Flow::field` of `Store`. -/
def fieldFlow (feed : Feed σ) (name value : Bytes) : Except ε (Feed σ) := do
  match ← self.indexed feed.sink (some name) with
  | (.skip, sink) => self.skip ⟨feed.budget, sink⟩ name.length value
  | (.buffered rule, sink) =>
    self.buffered ⟨feed.budget, sink⟩ rule ⟨name.length, .indexed⟩ name value

/-- `Flow::finish` of `Store`. -/
def finishFlow (active : Storage self.Rule self.Completion) (feed : Feed σ) (name : Bytes)
    (value : Value) : Except ε (Feed σ) :=
  match active.state, value with
  | .plainSkip, .retained value | .indexedSkip, .retained value =>
    self.skip feed active.facts.len value
  | .plainSkip, .counted len | .indexedSkip, .counted len =>
    .ok { feed with budget := (feed.budget.admitField active.facts.len len).1 }
  | .plainBuffered rule, .retained value | .indexedBuffered rule, .retained value =>
    self.buffered feed rule active.facts name value
  | .plainBuffered _, .counted len | .indexedBuffered _, .counted len =>
    .ok ⟨feed.budget.exceed active.facts.len len, self.rollback feed.sink⟩
  | .plainDirect done, value =>
    match feed.budget.admitField active.facts.len (value.len) with
    | (budget, .admitted) => (self.direct feed.sink done).map (⟨budget, ·⟩)
    | (budget, .exceeded) => .ok ⟨budget, self.rollback feed.sink⟩

/-! ### What the interface promises -/

theorem contents_of_decodeTo {sink next : σ} {encoded : Encoded} {decoded : Decoded}
    (h : self.decodeTo sink encoded = .ok (decoded, next)) : encoded.contents.isSome := by
  obtain ⟨⟨cursor, sink'⟩, hstring, h⟩ := Except.bind_eq_ok_iff.mp h
  obtain ⟨output, hrun⟩ := self.run_of_string hstring
  rw [Encoded.contents, Cursor.decode_of_run hrun]
  dsimp only at h
  split at h
  next hfinish => simp [hfinish]
  next => contradiction

theorem not_contents_of_decodeTo {sink : σ} {encoded : Encoded} {cause : Error}
    (hlen : encoded.payload.length ≤ maxLiteralLen)
    (h : self.decodeTo sink encoded = .error (.decode cause)) : encoded.contents = none := by
  cases hstring : self.string sink (Cursor.new encoded.payload.length encoded.encoding)
      encoded.payload with
  | error failure =>
    obtain rfl : failure = .decode cause := by
      simpa only [decodeTo, hstring, bind, Except.bind, Except.error.injEq] using h
    exact Encoded.not_contents_of_run hlen (self.not_run_of_string hlen hstring)
  | ok result =>
    have hok : self.string sink (Cursor.new encoded.payload.length encoded.encoding)
        encoded.payload = .ok (result.1, result.2) := hstring
    obtain ⟨output, hrun⟩ := self.run_of_string hok
    rw [Encoded.contents, Cursor.decode_of_run hrun]
    simp only [decodeTo, hstring, bind, Except.bind] at h
    split at h
    next => contradiction
    next hfinish => simp [hfinish]

theorem facts_of_beginFlow {sink next : σ} {span : Option Bytes} {facts : Facts}
    {active : Storage self.Rule self.Completion}
    (h : self.beginFlow sink span facts = .ok (active, next)) : active.facts = facts := by
  unfold beginFlow at h
  split at h
  all_goals
    obtain ⟨⟨answer, sink'⟩, -, heq⟩ := Except.map_eq_ok_iff.mp h
    cases answer <;> exact congrArg Storage.facts (Prod.mk.inj heq).1.symm

theorem resize_of_skip {feed next : Feed σ} {nameLen : ℕ} {value : Bytes}
    (h : self.skip feed nameLen value = .ok next) : next.budget.resize = feed.budget.resize := by
  obtain ⟨sink, -, heq⟩ := Except.bind_eq_ok_iff.mp h
  rw [← Except.ok.inj heq]
  exact feed.budget.resize_admitField _ _

theorem resize_of_buffered {feed next : Feed σ} {rule : self.Rule} {facts : Facts}
    {name value : Bytes} (h : self.buffered feed rule facts name value = .ok next) :
    next.budget.resize = feed.budget.resize := by
  unfold buffered at h
  split at h
  next budget hadmit =>
    obtain ⟨sink, -, rfl⟩ := Except.map_eq_ok_iff.mp h
    exact Budget.resize_of_admitField hadmit
  next budget hadmit =>
    rw [← Except.ok.inj h]
    exact Budget.resize_of_admitField hadmit

theorem resize_of_fieldFlow {feed next : Feed σ} {name value : Bytes}
    (h : self.fieldFlow feed name value = .ok next) :
    next.budget.resize = feed.budget.resize := by
  obtain ⟨⟨answer, sink⟩, -, h⟩ := Except.bind_eq_ok_iff.mp h
  cases answer with
  | skip => exact @resize_of_skip _ _ self ⟨feed.budget, sink⟩ _ _ _ h
  | buffered rule => exact @resize_of_buffered _ _ self ⟨feed.budget, sink⟩ _ _ _ _ _ h

theorem resize_of_finishFlow {active : Storage self.Rule self.Completion} {feed next : Feed σ}
    {name : Bytes} {value : Value} (h : self.finishFlow active feed name value = .ok next) :
    next.budget.resize = feed.budget.resize := by
  unfold finishFlow at h
  split at h
  case h_1 | h_2 => exact self.resize_of_skip h
  case h_3 | h_4 =>
    rw [← Except.ok.inj h]
    exact feed.budget.resize_admitField _ _
  case h_5 | h_6 => exact self.resize_of_buffered h
  case h_7 | h_8 =>
    rw [← Except.ok.inj h]
    exact feed.budget.resize_exceed _ _
  case h_9 =>
    split at h
    next budget hadmit =>
      obtain ⟨sink, -, rfl⟩ := Except.map_eq_ok_iff.mp h
      exact Budget.resize_of_admitField hadmit
    next budget hadmit =>
      rw [← Except.ok.inj h]
      exact Budget.resize_of_admitField hadmit

end Sink

/-- `mode::Store`: the sink decides field by field. -/
def store {σ ε : Type} (sink : Sink σ ε) : Mode σ ε where
  Active := Storage sink.Rule sink.Completion
  Direct := Unit
  name := .retain
  route active :=
    match active.state with
    | .plainSkip => .validate
    | .plainBuffered _ | .indexedSkip | .indexedBuffered _ => .retain
    | .plainDirect _ => .direct ()
  facts active := active.facts
  literal _ := sink.decodeTo
  validate := sink.validateFlow
  begin := sink.beginFlow
  field := sink.fieldFlow
  finish := sink.finishFlow
  facts_of_begin := sink.facts_of_beginFlow
  resize_of_field := sink.resize_of_fieldFlow
  resize_of_finish := sink.resize_of_finishFlow
  contents_of_literal := sink.contents_of_decodeTo
  not_contents_of_literal := sink.not_contents_of_decodeTo

end Modes

namespace Decoder

open Modes

/-- `Decoder::set_max_list`. -/
def setMaxList (self : Decoder) (max : Option ℕ) : Decoder :=
  { self with core := { self.core with maxHeaderListSize := max } }

/-- `Decoder::discard`. -/
def discard (self : Decoder) (input : Bytes) : Except Error Decoder :=
  match Modes.discard.block self ⟨Budget.new none, ()⟩ input with
  | .ok (decoder, _) => .ok decoder
  | .error (.decode cause) => .error cause
  | .error (.sink cause) => cause.elim

/-- `Decoder::decode_to`. -/
def decodeTo {σ ε : Type} (mode : Mode σ ε) (self : Decoder) (input : Bytes) (sink : σ) :
    Except (Failure ε) (Decoder × Admission × σ) := do
  let (decoder, feed) ← mode.block self ⟨self.budget, sink⟩ input
  return (decoder, feed.budget.admission, feed.sink)

end Decoder

end Hpack

end Sark
