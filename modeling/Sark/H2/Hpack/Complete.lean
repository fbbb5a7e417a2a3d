import Sark.H2.Hpack.Statics
import Sark.Http.Metadata.Integer
import Sark.Http.Metadata.Strings

/-!
# The one-shot HPACK decoder

Decoding a header block that is complete in memory (`h2/src/hpack/decode`, with the sink of
`mode::Emit`): representations are parsed one after the other, literals are decoded into the
dynamic table or into scratch buffers, and every field is charged to the header list budget before
it is handed over.

The scratch buffers of the source live in the decoder; they are cleared before every use, so that
here they are values of the literal being decoded. A buffer that outgrows its limit is no longer
retained and only its length goes on being counted: it is `none`. Allocation does not fail.
-/

namespace Sark.Hpack

open Metadata Compress

/-! ## Limits -/

/-- `limit::Admission`. -/
inductive Admission
  | admitted
  | exceeded
  deriving DecidableEq, Repr

/-- `limit::Bound`. -/
structure Bound where
  value : ℕ
  deriving DecidableEq, Repr

namespace Bound

/-- `Bound::UNBOUNDED`. -/
def unbounded : Bound :=
  ⟨2 ^ 64 - 1⟩

/-- `Bound::new`. -/
def new : Option ℕ → Bound
  | some limit => ⟨limit⟩
  | none => unbounded

/-- `Bound::option`. -/
def option (self : Bound) : Option ℕ :=
  if self ≠ unbounded then some self.value else none

/-- `Bound::admit`. -/
def admitLen (self : Bound) (len : ℕ) : Admission :=
  if len ≤ self.value then .admitted else .exceeded

/-- `Bound::after`. -/
def after (self : Bound) (amount : ℕ) : Bound :=
  if self = unbounded then self
  else if self.value ≤ amount then ⟨0⟩
  else ⟨self.value - amount⟩

/-- `Bound::max`. -/
def max (self : Bound) (bounded : ℕ) : Bound :=
  ⟨Nat.max self.value bounded⟩

end Bound

/-- `decode::Error`. The positions inside an invalid string are left out. -/
inductive Error
  | needMore
  | badIndex
  | badInteger (cause : IntegerOverflow)
  | badString
  | encoding
  | dynamic (cause : Table.InsertError)
  | lateResize
  | missingResize (limit : ℕ)
  | resize (actual limit : ℕ)
  deriving DecidableEq, Repr

/-- `limit::Resize`: whether a size update may still stand in the block. -/
inductive Resize
  | leading
  | closed
  deriving DecidableEq, Repr

/-- `limit::Budget`: the header list size a block may use. -/
structure Budget where
  max : Bound
  used : ℕ
  admission : Admission
  resize : Resize
  deriving DecidableEq, Repr

namespace Budget

/-- `Budget::new`. -/
def new (max : Option ℕ) : Budget :=
  ⟨Bound.new max, 0, .admitted, .leading⟩

/-- `Budget::close_resize`: a field ends the size updates, and must not stand before a required
one. -/
def closeResize (self : Budget) (required : Option ℕ) : Except Error Budget :=
  match self.resize, required with
  | .closed, _ => .ok self
  | .leading, some limit => .error (.missingResize limit)
  | .leading, none => .ok { self with resize := .closed }

/-- `Budget::admit_resize`. -/
def admitResize (self : Budget) (actual limit : ℕ) : Except Error Unit :=
  match self.resize with
  | .closed => .error .lateResize
  | .leading => if limit < actual then .error (.resize actual limit) else .ok ()

/-- `Budget::retention`: the room for the name and the value of the next field. -/
def retention (self : Budget) : Bound :=
  (self.max.after self.used).after entryOverhead

/-- `Budget::admit`, in checked 64-bit arithmetic. -/
def admitField (self : Budget) (name value : ℕ) : Budget × Admission :=
  let used := self.used + name + value + entryOverhead
  if 2 ^ 64 ≤ used then ({ self with admission := .exceeded }, .exceeded)
  else
    match self.max.admitLen used with
    | .admitted => ({ self with used := used }, .admitted)
    | .exceeded => ({ self with used := used, admission := .exceeded }, .exceeded)

/-- `Budget::exceed`. -/
def exceed (self : Budget) (name value : ℕ) : Budget :=
  { (self.admitField name value).1 with admission := .exceeded }

end Budget

/-- `mode::Index`: how a literal is to be indexed. -/
inductive Index
  | plain
  | never
  | indexed
  deriving DecidableEq, Repr

/-- What every step of a block hands on: the budget, and the fields that the sink was given. -/
structure Flow where
  budget : Budget
  sink : List Entry
  deriving DecidableEq, Repr

/-- `mode::Value`. -/
inductive Value
  | retained (value : Bytes)
  | counted (len : ℕ)
  deriving DecidableEq, Repr

/-- `Value::new`. -/
def Value.new (value : Option Bytes) (len : ℕ) : Value :=
  match value with
  | some value => .retained value
  | none => .counted len

namespace Flow

/-- `Flow::finish` of `Emit`: a field within the budget is emitted. -/
def finish (self : Flow) (len : ℕ) (name : Bytes) : Value → Flow
  | .counted valueLen => { self with budget := self.budget.exceed len valueLen }
  | .retained value =>
    match self.budget.admitField len value.length with
    | (budget, .admitted) => ⟨budget, self.sink ++ [⟨name, value⟩]⟩
    | (budget, .exceeded) => ⟨budget, self.sink⟩

/-- `Flow::field`: a complete field. -/
def field (self : Flow) (name value : Bytes) : Flow :=
  self.finish name.length name (.retained value)

end Flow

/-! ## The decoder -/

/-- `decoder::Core`, less the scratch buffers. -/
structure Core where
  maxSizeSetting : ℕ
  requiredResize : Option ℕ
  maxHeaderListSize : Option ℕ
  deriving DecidableEq, Repr

/-- `decode::Decoder`. -/
structure Decoder where
  table : Table
  core : Core
  deriving DecidableEq, Repr

/-- `lookup::get`: the static table and behind it the dynamic one. -/
def lookup (table : Table) (index : ℕ) : Except Error Entry :=
  let found :=
    if index ≤ Statics.len then Statics.get index else table.field (index - Statics.len - 1)
  match found with
  | some entry => .ok entry
  | none => .error .badIndex

/-- `Core::field`. -/
def Core.field (self : Core) (flow : Flow) : Except Error Flow := do
  let budget ← flow.budget.closeResize self.requiredResize
  return { flow with budget }

namespace Decoder

/-- `Decoder::budget`. -/
def budget (self : Decoder) : Budget :=
  Budget.new self.core.maxHeaderListSize

/-- `Decoder::resize`. -/
def resize (self : Decoder) (budget : Budget) (size : ℕ) : Except Error Decoder := do
  budget.admitResize size (self.core.requiredResize.getD self.core.maxSizeSetting)
  return ⟨self.table.setLimit size, { self.core with requiredResize := none }⟩

/-- `Decoder::finish`. -/
def finish (self : Decoder) : Except Error Decoder :=
  match self.core.requiredResize with
  | some limit => .error (.missingResize limit)
  | none => .ok self

end Decoder

/-! ## String literals -/

/-- `strings::MAX_LITERAL_LEN`. -/
def maxLiteralLen : ℕ :=
  2 ^ 24

/-- `strings::Encoded`. -/
structure Encoded where
  payload : Bytes
  encoding : Encoding
  deriving DecidableEq, Repr

/-- `strings::Decoded`: the length, and the bytes if they were retained. -/
structure Decoded where
  len : ℕ
  contents : Option Bytes
  deriving DecidableEq, Repr

/-- `From<integer::Error>`. -/
def Error.ofInteger : IntegerError → Error
  | .needMore => .needMore
  | .overflow cause => .badInteger cause

/-- The high bit of a literal's first byte tells its encoding. -/
def encodingOf (first : UInt8) : Encoding :=
  if first.toNat < 128 then .plain else .huffman

namespace Encoded

/-- `Encoded::take`: a literal and what follows it. -/
def take (input : Bytes) : Except Error (Encoded × Bytes) :=
  match input with
  | [] => .error .needMore
  | first :: _ => do
    let (len, tail) ← (PrefixedInt.take 7 input).mapError .ofInteger
    if maxLiteralLen < len then throw .badString
    else if tail.length < len then throw .needMore
    else return (⟨tail.take len, encodingOf first⟩, tail.drop len)

end Encoded

/-- `buffer::Writer::write_slice`: a buffer beyond its limit is no longer retained. -/
def Scratch.write (limit : Option ℕ) (scratch : Option Bytes) (bytes : Bytes) :
    Except Empty (Option Bytes) :=
  match scratch with
  | none => .ok none
  | some written =>
    if limit.any fun limit => limit < (written ++ bytes).length then .ok none
    else .ok (some (written ++ bytes))

namespace Encoded

/-- `source::Encoded::write_to`: a complete Huffman coded string into a sink. -/
def writeTo {σ ε : Type*} (write : σ → Bytes → Except ε σ) (payload : Bytes) (sink : σ) :
    Except (Huffman.DecodeError ε) (σ × ℕ) :=
  match Huffman.Decoder.new.feedInto (fun sink byte => write sink [byte]) sink payload with
  | .error cause => .error cause
  | .ok (decoder, sink, decoded) => if decoder.finish then .ok (sink, decoded) else .error .invalid

/-- `Encoded::decode_into`, a cleared buffer. -/
def decodeInto (self : Encoded) (cap : Option ℕ) : Except Error Decoded :=
  match self.encoding with
  | .huffman =>
    match writeTo (Scratch.write cap) self.payload (some []) with
    | .error _ => .error .encoding
    | .ok (scratch, len) => .ok ⟨len, scratch⟩
  | .plain =>
    match Scratch.write cap (some []) self.payload with
    | .ok scratch => .ok ⟨self.payload.length, scratch⟩

/-- `Encoded::decode_named`: a plain literal is borrowed from the input. -/
def decodeNamed (self : Encoded) (cap : Option ℕ) : Except Error Decoded :=
  match self.encoding with
  | .plain =>
    match (Bound.new cap).admitLen self.payload.length with
    | .admitted => .ok ⟨self.payload.length, some self.payload⟩
    | .exceeded => .ok ⟨self.payload.length, none⟩
  | .huffman => self.decodeInto cap

/-- `Encoded::decode_span`. -/
def decodeSpan (self : Encoded) (cap : Option ℕ) : Except Error Decoded :=
  self.decodeNamed cap

/-- `Payload::store`: a literal into a draft of the table, or `none` if it does not fit. -/
def store {σ : Type*} (write : σ → Bytes → Except Overflow σ) (self : Encoded) (stage : σ) :
    Except Error (Option σ) :=
  match self.encoding with
  | .huffman =>
    match writeTo write self.payload stage with
    | .error .invalid => .error .encoding
    | .error (.sink _) => .ok none
    | .ok (stage, _) => .ok (some stage)
  | .plain =>
    match write stage self.payload with
    | .error _ => .ok none
    | .ok stage => .ok (some stage)

end Encoded

/-! ## Representations -/

/-- `kind::Name`. -/
inductive Name
  | literal (encoded : Encoded)
  | indexed (index : ℕ)
  deriving DecidableEq, Repr

/-- `kind::Kind`. -/
inductive Kind
  | indexed (index : ℕ)
  | literal (index : Index) (name : Name) (value : Encoded)
  | resize (size : ℕ)
  deriving DecidableEq, Repr

/-- The name of a literal: the index zero announces a string. -/
def Name.take (name : ℕ) (input : Bytes) : Except Error (Name × Bytes) :=
  if name = 0 then do
    let (encoded, tail) ← Encoded.take input
    return (.literal encoded, tail)
  else return (.indexed name, input)

namespace Kind

/-- `Kind::literal`: the name and the value of a literal. -/
def parseLiteral (name : ℕ) (index : Index) (input : Bytes) : Except Error (Kind × Bytes) := do
  let (name, tail) ← Name.take name input
  let (value, tail) ← Encoded.take tail
  return (.literal index name value, tail)

/-- `Kind::parse`: the leading bits of a representation tell what it is. -/
def parse (input : Bytes) : Except Error (Kind × Bytes) :=
  match input with
  | [] => .error .needMore
  | first :: _ =>
    if 128 ≤ first.toNat then do
      let (index, tail) ← (PrefixedInt.take 7 input).mapError .ofInteger
      return (.indexed index, tail)
    else if 64 ≤ first.toNat then do
      let (name, tail) ← (PrefixedInt.take 6 input).mapError .ofInteger
      parseLiteral name .indexed tail
    else if 32 ≤ first.toNat then do
      let (size, tail) ← (PrefixedInt.take 5 input).mapError .ofInteger
      return (.resize size, tail)
    else do
      let (name, tail) ← (PrefixedInt.take 4 input).mapError .ofInteger
      parseLiteral name (if 16 ≤ first.toNat then .never else .plain) tail

end Kind

/-! ## Literals -/

/-- `limit::Literal`: a literal whose name is not complete. -/
structure LiteralContext where
  retainLimit : Bound
  index : Index
  deriving DecidableEq, Repr

/-- `limit::Named`: a literal whose name is complete. Its name is retained wherever one is at
hand. -/
structure NamedContext where
  retainLimit : Bound
  len : ℕ
  index : Index
  deriving DecidableEq, Repr

/-- `Named::limit`: the room that the name leaves for the value. -/
def NamedContext.limit (self : NamedContext) : Bound :=
  self.retainLimit.after self.len

/-- `Literal::begin`. -/
def LiteralContext.begin (self : LiteralContext) (len : ℕ) : NamedContext :=
  ⟨self.retainLimit, len, self.index⟩

/-- `literal::Path`: a literal is written into the table, or kept in scratch buffers. -/
inductive Path
  | ready (decoder : Decoder)
  | staged (stage : ValueStage) (core : Core)

namespace Decoder

/-- `Literal::context`: what may enter the table is retained as well. -/
def context (self : Decoder) (budget : Budget) (index : Index) : LiteralContext :=
  let limit := budget.retention
  let limit :=
    match index with
    | .plain | .never => limit
    | .indexed =>
      if entryOverhead ≤ self.table.limit then limit.max (self.table.limit - entryOverhead)
      else limit
  ⟨limit, index⟩

/-- `Literal::retain_name`. -/
def retainName (self : Decoder) (index : ℕ) (limit : Bound) : Except Error Decoded := do
  let field ← lookup self.table index
  match limit.admitLen field.name.length with
  | .admitted => return ⟨field.name.length, some field.name⟩
  | .exceeded => return ⟨field.name.length, none⟩

end Decoder

/-- The two sources of `Machine::copy_name`. -/
def copiedName (stage : NameStage) (index : ℕ) : Except Table.InsertError ValueStage :=
  if index ≤ Statics.len then
    match Statics.get index with
    | none => .error (.index index Statics.len)
    | some field => stage.setName field.name
  else stage.copy (index - Statics.len - 1)

/-- `Machine::copy_name`: the name of an entry as the name of a draft. -/
def copyName (stage : NameStage) (core : Core) (index : ℕ) : Except Error Path :=
  match copiedName stage index with
  | .ok stage => .ok (.staged stage core)
  | .error (.capacity _ _) => .ok (.ready ⟨stage.discard, core⟩)
  | .error (.index _ _) => .error .badIndex
  | .error cause => .error (.dynamic cause)

namespace Decoder

/-- The first step of `Literal::indexed`: a draft that has the name of an entry. -/
def beginIndexed (self : Decoder) (index : ℕ) : Except Error Path :=
  match self.table.tryBegin with
  | some stage => copyName stage self.core index
  | none => .ok (.ready self)

/-- `Literal::indexed`: the name of an entry, in the table if it fits. -/
def indexed (self : Decoder) (index : ℕ) (limit : Bound) : Except Error (Path × Decoded) := do
  match ← self.beginIndexed index with
  | .staged stage core => return (.staged stage core, ⟨stage.name.length, some stage.name⟩)
  | .ready decoder =>
    let decoded ← decoder.retainName index limit
    return (.ready decoder, decoded)

/-- `Literal::<Decoder>::value`: an indexed literal that reaches scratch storage does not fit the
table and empties it. -/
def value (self : Decoder) (flow : Flow) (context : NamedContext) (name : Option Bytes)
    (decoded : Decoded) : Decoder × Flow :=
  let table :=
    match context.index with
    | .plain | .never => self.table
    | .indexed => self.table.reject
  let retained := name.bind fun _ => decoded.contents
  (⟨table, self.core⟩, flow.finish context.len (name.getD []) (.new retained decoded.len))

end Decoder

/-- `Literal::<Machine<Name>>::name`. -/
def nameStaged (stage : NameStage) (context : LiteralContext) :
    Except Error (ValueStage × NamedContext) := do
  let stage ← stage.finish.mapError .dynamic
  return (stage, context.begin stage.name.length)

/-- `Literal::<Machine<Value>>::value`. -/
def valueStaged (stage : ValueStage) (core : Core) (flow : Flow) (context : NamedContext) :
    Decoder × Flow :=
  (⟨stage.commit, core⟩, flow.finish context.len stage.name (.retained stage.value))

/-! ## Complete blocks -/

namespace Complete

/-- `Complete::indexed`. -/
def indexed (decoder : Decoder) (flow : Flow) (index : ℕ) : Except Error Flow := do
  let flow ← decoder.core.field flow
  let field ← lookup decoder.table index
  return flow.field field.name field.value

/-- The name of a literal that is not to be indexed. -/
def plainName (decoder : Decoder) (limit : Bound) : Name → Except Error Decoded
  | .literal encoded => encoded.decodeNamed limit.option
  | .indexed index => decoder.retainName index limit

/-- `Complete::read_plain`. -/
def readPlain (decoder : Decoder) (flow : Flow) (index : Index) (name : Name) (value : Encoded) :
    Except Error (Decoder × Flow) := do
  let context := decoder.context flow.budget index
  let name ← plainName decoder context.retainLimit name
  let context := context.begin name.len
  let value ← value.decodeSpan context.limit.option
  let retained := name.contents.bind fun _ => value.contents
  return (decoder, flow.finish context.len (name.contents.getD []) (.new retained value.len))

/-- A literal name as the name of a draft, or `none` if it does not fit. -/
def storeName (decoder : Decoder) (encoded : Encoded) : Except Error (Option NameStage) :=
  match decoder.table.tryBegin with
  | some stage => encoded.store NameStage.write stage
  | none => .ok none

/-- The first half of `Complete::read_indexed`: where the literal goes, and its name if it is kept
in scratch storage. -/
def readName (decoder : Decoder) (context : LiteralContext) :
    Name → Except Error (Path × NamedContext × Option Bytes)
  | .literal encoded => do
    match ← storeName decoder encoded with
    | some stage =>
      let (stage, context) ← nameStaged stage context
      return (.staged stage decoder.core, context, some stage.name)
    | none =>
      let decoded ← encoded.decodeInto context.retainLimit.option
      return (.ready decoder, context.begin decoded.len, decoded.contents)
  | .indexed index => do
    let (path, decoded) ← decoder.indexed index context.retainLimit
    return (path, context.begin decoded.len, decoded.contents)

/-- `Complete::read_indexed`. -/
def readIndexed (decoder : Decoder) (flow : Flow) (name : Name) (value : Encoded) :
    Except Error (Decoder × Flow) := do
  let (path, context, name) ← readName decoder (decoder.context flow.budget .indexed) name
  match path with
  | .ready decoder =>
    let decoded ← value.decodeInto context.limit.option
    return decoder.value flow context name decoded
  | .staged stage core =>
    match ← value.store ValueStage.write stage with
    | some stage => return valueStaged stage core flow context
    | none =>
      let decoded ← value.decodeInto context.limit.option
      return Decoder.value ⟨stage.discard, core⟩ flow context (some stage.name) decoded

/-- `Complete::read_literal`. -/
def readLiteral (decoder : Decoder) (flow : Flow) (index : Index) (name : Name) (value : Encoded) :
    Except Error (Decoder × Flow) := do
  let flow ← decoder.core.field flow
  match index with
  | .plain | .never => readPlain decoder flow index name value
  | .indexed => readIndexed decoder flow name value

/-- One representation: the body of the loop of `Complete::run`. -/
def apply (decoder : Decoder) (flow : Flow) : Kind → Except Error (Decoder × Flow)
  | .indexed index => do
    let flow ← indexed decoder flow index
    return (decoder, flow)
  | .literal index name value => readLiteral decoder flow index name value
  | .resize size => do
    let decoder ← decoder.resize flow.budget size
    return (decoder, flow)

end Complete

/-! ## Lengths -/

theorem length_of_read {self : Continuation} {input rest : Bytes} {value : ℕ}
    (h : self.read input = .ok (value, rest)) : rest.length < input.length := by
  induction input generalizing self with
  | nil => contradiction
  | cons byte input ih =>
    rw [Continuation.read] at h
    split at h
    · contradiction
    · obtain ⟨-, rfl⟩ := Prod.mk.inj (Except.ok.inj h)
      exact Nat.lt_succ_self _
    · exact (ih h).trans (Nat.lt_succ_self _)

theorem length_of_takeInt {bits : ℕ} {input rest : Bytes} {value : ℕ}
    (h : PrefixedInt.take bits input = .ok (value, rest)) : rest.length < input.length := by
  unfold PrefixedInt.take at h
  split at h
  · contradiction
  · dsimp only at h
    split at h
    · obtain ⟨-, rfl⟩ := Prod.mk.inj (Except.ok.inj h)
      exact Nat.lt_succ_self _
    · exact (length_of_read h).trans (Nat.lt_succ_self _)

theorem length_of_takeEncoded {input rest : Bytes} {encoded : Encoded}
    (h : Encoded.take input = .ok (encoded, rest)) : rest.length < input.length := by
  unfold Encoded.take at h
  split at h
  · contradiction
  · obtain ⟨⟨len, tail⟩, htake, h⟩ := Except.bind_eq_ok_iff.mp h
    dsimp only at h
    have hlength := length_of_takeInt (Except.mapError_eq_ok_iff.mp htake)
    split at h
    · contradiction
    · split at h
      · contradiction
      · obtain ⟨-, rfl⟩ := Prod.mk.inj (Except.ok.inj h)
        rw [List.length_drop]
        omega

theorem Kind.length_of_parseLiteral {name : ℕ} {index : Index} {input rest : Bytes} {kind : Kind}
    (h : parseLiteral name index input = .ok (kind, rest)) : rest.length < input.length := by
  unfold parseLiteral at h
  obtain ⟨⟨name', tail⟩, hname, h⟩ := Except.bind_eq_ok_iff.mp h
  obtain ⟨⟨value, tail'⟩, hvalue, h⟩ := Except.bind_eq_ok_iff.mp h
  obtain ⟨-, rfl⟩ := Prod.mk.inj (Except.ok.inj h)
  refine (length_of_takeEncoded hvalue).trans_le ?_
  unfold Name.take at hname
  split at hname
  · obtain ⟨⟨encoded, tail⟩, htake, h⟩ := Except.bind_eq_ok_iff.mp hname
    obtain ⟨-, rfl⟩ := Prod.mk.inj (Except.ok.inj h)
    exact (length_of_takeEncoded htake).le
  · obtain ⟨-, rfl⟩ := Prod.mk.inj (Except.ok.inj hname)
    exact le_rfl

theorem Kind.length_of_parse {input rest : Bytes} {kind : Kind}
    (h : parse input = .ok (kind, rest)) : rest.length < input.length := by
  have htake {bits value : ℕ} {tail : Bytes}
      (h : (PrefixedInt.take bits input).mapError Error.ofInteger = .ok (value, tail)) :
      tail.length < input.length :=
    length_of_takeInt (Except.mapError_eq_ok_iff.mp h)
  unfold parse at h
  split at h
  · contradiction
  · split_ifs at h
    all_goals obtain ⟨⟨value, tail⟩, hvalue, h⟩ := Except.bind_eq_ok_iff.mp h
    · obtain ⟨-, rfl⟩ := Prod.mk.inj (Except.ok.inj h)
      exact htake hvalue
    · exact (length_of_parseLiteral h).trans (htake hvalue)
    · obtain ⟨-, rfl⟩ := Prod.mk.inj (Except.ok.inj h)
      exact htake hvalue
    all_goals exact (length_of_parseLiteral h).trans (htake hvalue)

namespace Complete

/-- `complete::Outcome`. -/
inductive Outcome
  | complete (decoder : Decoder) (flow : Flow)
  | needMore (first : UInt8) (rest : Bytes) (decoder : Decoder) (flow : Flow)
  | failed (cause : Error)

/-- `Complete::run`: the loop over the representations of a block. It stops in front of one that is
not complete. -/
def run (decoder : Decoder) (flow : Flow) (input : Bytes) : Outcome :=
  match input with
  | [] => .complete decoder flow
  | first :: rest =>
    match _ : Kind.parse (first :: rest) with
    | .error .needMore => .needMore first rest decoder flow
    | .error cause => .failed cause
    | .ok (kind, tail) =>
      match apply decoder flow kind with
      | .error cause => .failed cause
      | .ok (decoder, flow) => run decoder flow tail
termination_by input.length
decreasing_by exact Kind.length_of_parse ‹_›

theorem run_cons (decoder : Decoder) (flow : Flow) (first : UInt8) (rest : Bytes) :
    run decoder flow (first :: rest) =
      match Kind.parse (first :: rest) with
      | .error .needMore => .needMore first rest decoder flow
      | .error cause => .failed cause
      | .ok (kind, tail) =>
        match apply decoder flow kind with
        | .error cause => .failed cause
        | .ok (decoder, flow) => run decoder flow tail := by
  rw [run]
  split <;> simp_all

/-- `Complete::block`. -/
def block (decoder : Decoder) (flow : Flow) (input : Bytes) : Except Error (Decoder × Flow) :=
  match run decoder flow input with
  | .complete decoder flow => do
    let decoder ← decoder.finish
    return (decoder, flow)
  | .needMore _ _ _ _ => .error .needMore
  | .failed cause => .error cause

end Complete

/-- `Decoder::decode_limit`: the decoder behind the block, the verdict on its size, and the fields
that were emitted. -/
def Decoder.decodeLimit (self : Decoder) (input : Bytes) :
    Except Error (Decoder × Admission × List Entry) := do
  let (decoder, flow) ← Complete.block self ⟨self.budget, []⟩ input
  return (decoder, flow.budget.admission, flow.sink)

end Sark.Hpack
