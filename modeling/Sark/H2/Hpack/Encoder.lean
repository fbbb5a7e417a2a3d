import Sark.H2.Hpack.Statics
import Sark.H2.Outputs.Wire
import Sark.Http.Compress.Delta
import Sark.Http.Metadata.Integer
import Sark.Http.Metadata.Source

/-!
# The encoder of header blocks

The HPACK encoder (`h2/src/hpack/encode/encoder.rs`, `h2/src/hpack/encode/literal.rs`) and the sink
that a list of fields is emitted into (`h2/src/hpack/encode/fields.rs`). What an encoder writes is a
list of writes, in the pieces that it makes them in.

* `Encoder.Admitted.length_updates_le`: the size updates in front of a block take at most twelve
  bytes.
* `length_encodeField_le`: a field takes at most what it counts in a list.
* `Sink.length_emit_le`: a block takes at most the limit of its list, and twelve bytes.
* `Sink.emit_fits`: a list that fits its limit is not refused for its size.
* `Encoder.Reachable.admitted`: no table limit of an encoder takes more than 32 bits.
-/

namespace Sark

namespace Hpack

namespace Encode

open Metadata H2.Outputs

/-- `Mode`. -/
inductive Mode
  | plain
  | shortest
  deriving DecidableEq, Repr

/-- `field::Indexing`. -/
inductive Indexing
  | allowed
  | never
  deriving DecidableEq, Repr

/-- `record::Entry`. -/
structure Header where
  name : Bytes
  value : Bytes
  indexing : Indexing
  deriving DecidableEq, Repr

/-- The field of an entry. -/
def Header.field (self : Header) : Compress.Entry :=
  ⟨self.name, self.value⟩

/-- The bytes of writes. -/
def written (writes : List Write) : Bytes :=
  writes.flatMap Write.bytes

@[simp]
theorem written_append (first second : List Write) :
    written (first ++ second) = written first ++ written second :=
  List.flatMap_append

@[simp]
theorem written_byte (byte : UInt8) : written [.byte byte] = [byte] :=
  rfl

@[simp]
theorem written_slice (bytes : Bytes) : written [.slice bytes] = bytes :=
  List.append_nil bytes

/-- Bytes that are written one by one. -/
def each (bytes : Bytes) : List Write :=
  bytes.map fun byte => .extend [byte]

@[simp]
theorem written_each (bytes : Bytes) : written (each bytes) = bytes := by
  simp [written, each, List.flatMap_map, Write.bytes]

/-- `PrefixedInt::<BITS>::encode`, of a number as `u64`. -/
def integer (bits : ℕ) (pattern : UInt8) (value : ℕ) : List Write :=
  each (PrefixedInt.emit bits pattern (value % 2 ^ 64))

theorem length_integer_le {bits value k : ℕ} (pattern : UInt8) (hk : 0 < k)
    (h : value % 2 ^ 64 < 2 ^ (7 * k)) :
    (written (integer bits pattern value)).length ≤ 1 + k := by
  rw [integer, written_each, PrefixedInt.length_emit, PrefixedInt.encodedLen]
  generalize value % 2 ^ 64 = n at *
  split_ifs with hsmall
  · exact Nat.le_add_right 1 k
  · by_cases hzero : n - PrefixedInt.maxPrefix bits = 0
    · have hlog : Nat.log2 (0 ||| 1) / 7 = 0 := by decide
      rw [hzero, hlog]
      omega
    · have hlog : Nat.log2 (n - PrefixedInt.maxPrefix bits) < 7 * k :=
        (Nat.log2_lt hzero).mpr ((Nat.sub_le _ _).trans_lt h)
      rw [PrefixedInt.log2_or_one hzero]
      omega

theorem length_integer (bits : ℕ) (pattern : UInt8) (value : ℕ) :
    (written (integer bits pattern value)).length ≤ 11 :=
  length_integer_le (k := 10) pattern (by norm_num)
    ((Nat.mod_lt _ (by norm_num)).trans_le (Nat.pow_le_pow_right (by norm_num) (by norm_num)))

/-- The bytes as they are, behind their length. -/
def plain (bytes : Bytes) : List Write :=
  integer 7 0 bytes.length ++ [.slice bytes]

/-- `literal::encode`. -/
def literal (bytes : Bytes) (mode : Mode) : List Write :=
  match mode, Huffman.Source.tryMeasure bytes with
  | .shortest, some len =>
    if len < bytes.length then integer 7 0x80 len ++ each (Huffman.Source.encode bytes)
    else plain bytes
  | _, _ => plain bytes

theorem length_plain_le (bytes : Bytes) : (written (plain bytes)).length ≤ 11 + bytes.length := by
  rw [plain, written_append, written_slice, List.length_append]
  exact Nat.add_le_add_right (length_integer _ _ _) _

theorem length_literal_le (bytes : Bytes) (mode : Mode) :
    (written (literal bytes mode)).length ≤ 11 + bytes.length := by
  rw [literal.eq_def]
  split
  case h_1 len hmeasure =>
    by_cases hlen : len < bytes.length
    · have hinteger := length_integer 7 0x80 len
      rw [if_pos hlen, written_append, written_each, List.length_append,
        Huffman.Source.length_encode hmeasure]
      omega
    · rw [if_neg hlen]
      exact length_plain_le bytes
  case h_2 => exact length_plain_le bytes

/-! ## Fields -/

section Fields

variable {D E : Type} [Directory D] [Directory E]

/-- `Draft::max_size`. -/
def maxSize (draft : Compress.Delta.Draft D E) : ℕ :=
  draft.table.store.entries.limit

/-- The index of the dynamic table, behind the static one. -/
def absolute (index : ℕ) : ℕ :=
  Statics.len + 1 + index

/-- `Encoder::encode_name`. -/
def encodeName (draft : Compress.Delta.Draft D E) (name : Bytes) (indexing : Indexing)
    (mode : Mode) : List Write :=
  let nameId :=
    match Statics.lookup name [] with
    | some found => some found.name
    | none => if maxSize draft = 0 then none else (draft.needleIndex name).map absolute
  let pattern : UInt8 :=
    match indexing with
    | .allowed => 0
    | .never => 0x10
  match nameId with
  | some index => integer 4 pattern index
  | none => .byte pattern :: literal name mode

/-- The matches of a field in the dynamic table. -/
def dynamic (draft : Compress.Delta.Draft D E) (field : Compress.Entry) (fixed : Bool) :
    Compress.Match ℕ :=
  if maxSize draft = 0 then ⟨none, none⟩
  else if fixed then ⟨draft.exactIndex field, none⟩
  else draft.bothIndex field

/-- The insertion of a field: the draft with it, where it is indexed. -/
def index (draft : Compress.Delta.Draft D E) (field : Compress.Entry) :
    Except Compress.Delta.Fault (Option (Compress.Delta.Draft D E)) :=
  if maxSize draft = 0 then .ok none
  else
    match draft.tryInsert field with
    | .ok draft => .ok (some draft)
    | .error (.failure (.fault cause)) => .error cause
    | .error _ => .ok none

/-- The literal forms of `Encoder::encode_field`. -/
def encodeLiteral (header : Header) (nameId : Option ℕ) (indexed : Bool) (mode : Mode) :
    List Write :=
  (match nameId with
    | some index => if indexed then integer 6 0x40 index else integer 4 0 index
    | none => .byte (if indexed then 0x40 else 0) :: literal header.name mode) ++
    literal header.value mode

/-- `Encoder::encode_field`. -/
def encodeField (draft : Compress.Delta.Draft D E) (header : Header) (mode : Mode) :
    Except Compress.Delta.Fault (Compress.Delta.Draft D E × List Write) :=
  if header.indexing = .never then
    .ok (draft,
      encodeName draft header.name header.indexing mode ++ literal header.value mode)
  else
    let fixed := Statics.lookup header.name header.value
    match fixed.bind (·.exact) with
    | some index => .ok (draft, integer 7 0x80 index)
    | none =>
      let dynamic := dynamic draft header.field fixed.isSome
      match dynamic.exact with
      | some index => .ok (draft, integer 7 0x80 (absolute index))
      | none =>
        let nameId :=
          match fixed with
          | some found => some found.name
          | none => dynamic.name.map absolute
        (index draft header.field).map fun indexed =>
          (indexed.getD draft, encodeLiteral header nameId indexed.isSome mode)

theorem length_encodeName_le (draft : Compress.Delta.Draft D E) (name : Bytes) (indexing : Indexing)
    (mode : Mode) : (written (encodeName draft name indexing mode)).length ≤ 12 + name.length := by
  rw [encodeName.eq_def]
  dsimp only
  split
  · refine (length_integer _ _ _).trans ?_
    omega
  · rw [← List.singleton_append, written_append, written_byte, List.length_append,
      List.length_singleton]
    have := length_literal_le name mode
    omega

theorem length_encodeLiteral_le (header : Header) (nameId : Option ℕ) (indexed : Bool)
    (mode : Mode) :
    (written (encodeLiteral header nameId indexed mode)).length ≤
      header.name.length + header.value.length + 23 := by
  have hvalue := length_literal_le header.value mode
  rw [encodeLiteral.eq_def, written_append, List.length_append]
  cases nameId with
  | some index =>
    have hindex : (written (if indexed then integer 6 0x40 index else integer 4 0 index)).length ≤
        11 := by
      split_ifs <;> exact length_integer _ _ _
    dsimp only
    omega
  | none =>
    have hname := length_literal_le header.name mode
    dsimp only
    rw [← List.singleton_append, written_append, written_byte, List.length_append,
      List.length_singleton]
    omega

/-- A field takes at most what it counts in a list. -/
theorem length_encodeField_le {draft next : Compress.Delta.Draft D E} {header : Header}
    {mode : Mode} {writes : List Write} (h : encodeField draft header mode = .ok (next, writes)) :
    (written writes).length ≤ header.name.length + header.value.length + 32 := by
  have hinteger : ∀ bits pattern value, (written (integer bits pattern value)).length ≤
      header.name.length + header.value.length + 32 := by
    intro bits pattern value
    have := length_integer bits pattern value
    omega
  rw [encodeField] at h
  by_cases hnever : header.indexing = .never
  · rw [if_pos hnever] at h
    have hname := length_encodeName_le draft header.name header.indexing mode
    have hvalue := length_literal_le header.value mode
    rw [← (Prod.mk.inj (Except.ok.inj h)).2, written_append, List.length_append]
    omega
  rw [if_neg hnever] at h
  dsimp only at h
  split at h
  · rw [← (Prod.mk.inj (Except.ok.inj h)).2]
    exact hinteger _ _ _
  split at h
  · rw [← (Prod.mk.inj (Except.ok.inj h)).2]
    exact hinteger _ _ _
  obtain ⟨indexed, -, heq⟩ := Except.map_eq_ok_iff.mp h
  rw [← (Prod.mk.inj heq).2]
  exact (length_encodeLiteral_le header _ _ mode).trans (by omega)

end Fields

/-! ## Encoders -/

/-- `Encoder`. -/
structure Encoder (D E : Type) where
  dynTable : Compress.Direct D
  buffer : Compress.Delta.Buffer E
  maxSizeSetting : ℕ
  pendingMinimum : Option ℕ
  mode : Mode

/-- `fields::Error`. -/
inductive SinkError
  | dynamic (fault : Compress.Delta.Fault)
  | connectDisabled
  | list (used name value limit : ℕ)
  | listOverflow (used name value : ℕ)
  deriving DecidableEq, Repr

/-- The error is about the size of the list. -/
def SinkError.isList : SinkError → Bool
  | .list .. | .listOverflow .. => true
  | _ => false

/-- A generated value (`field::Encode`): the pieces that it writes, and the exact length that it
promises. -/
structure Generated where
  pieces : List Bytes
  encodedLen : ℕ
  exact : pieces.flatten.length = encodedLen

/-- What a list is made of. -/
inductive Item
  | entry (header : Header)
  | encodedWith (name : Bytes) (encoded : Generated) (indexing : Indexing)

/-- What a field counts in a list. -/
def Item.size : Item → ℕ
  | .entry header => header.name.length + header.value.length + Compress.entryOverhead
  | .encodedWith name encoded _ => name.length + encoded.encodedLen + Compress.entryOverhead

/-- The size of a list. -/
def listSize (items : List Item) : ℕ :=
  (items.map Item.size).sum

/-- `fields::Sink`, with what it wrote. -/
structure Sink (D E : Type) where
  draft : Compress.Delta.Draft D E
  out : List Write
  used : ℕ
  limit : ℕ
  error : Option SinkError
  mode : Mode
  connect : Bool

namespace Encoder

variable {D E : Type} [Directory D]

/-- `Encoder::capacity`. -/
def capacity (self : Encoder D E) : ℕ :=
  self.dynTable.store.layout.capacity

/-- `Encoder::try_with`, where the allocations succeed. -/
def tryWith (layout : Compress.Layout) (limit listCap : ℕ) (seed : Compress.Seed)
    (index : Compress.Index D) (pending : Compress.Index E) : Option (Encoder D E) :=
  let maximum := min limit layout.capacity
  (Compress.Delta.Buffer.tryNew listCap (listCap / Compress.entryOverhead) pending).map
    fun buffer =>
      ⟨.new layout maximum seed index, buffer, maximum,
        if maximum ≠ limit then some maximum else none, .shortest⟩

/-- `Encoder::apply_limit`. -/
def applyLimit (self : Encoder D E) (limit : ℕ) : Encoder D E :=
  if limit = self.maxSizeSetting then self
  else
    { self with
      pendingMinimum :=
        match self.pendingMinimum with
        | some minimum => some (min minimum limit)
        | none => some limit
      maxSizeSetting := limit
      dynTable := self.dynTable.setLimit limit }

/-- `Encoder::set_max_size`. -/
def setMaxSize (self : Encoder D E) (n : ℕ) : Encoder D E :=
  self.applyLimit (min n self.capacity)

/-- `Encoder::prefix`: the size updates in front of a block. -/
def updates (self : Encoder D E) : List Write :=
  match self.pendingMinimum with
  | none => []
  | some minimum =>
    (if minimum ≠ self.maxSizeSetting then integer 5 0x20 minimum else []) ++
      integer 5 0x20 self.maxSizeSetting

/-- `Encoder::finish_block`. -/
def finishBlock (self : Encoder D E) : Encoder D E :=
  { self with pendingMinimum := none }

variable [Directory E]

/-- `Commit::apply`. -/
def apply (self : Encoder D E) (draft : Compress.Delta.Draft D E) : Encoder D E :=
  { self with dynTable := draft.commit.1, buffer := draft.commit.2 }.finishBlock

/-- `Commit::discard`. -/
def discard (self : Encoder D E) (draft : Compress.Delta.Draft D E) : Encoder D E :=
  { self with dynTable := draft.rollback.1, buffer := draft.rollback.2 }

end Encoder

namespace Sink

variable {D E : Type} [Directory D] [Directory E]

/-- `Sink::new`. -/
def new (encoder : Encoder D E) (limit : ℕ) (connect : Bool) : Sink D E :=
  ⟨.new encoder.dynTable encoder.buffer, encoder.updates, 0, limit, none, encoder.mode, connect⟩

/-- `Sink::admit`. -/
def admitField (self : Sink D E) (nlen vlen : ℕ) : Sink D E :=
  if self.error.isSome then self
  else if 2 ^ 64 ≤ self.used + nlen + vlen + Compress.entryOverhead then
    { self with error := some (.listOverflow self.used nlen vlen) }
  else if self.limit < self.used + nlen + vlen + Compress.entryOverhead then
    { self with error := some (.list self.used nlen vlen self.limit) }
  else { self with used := self.used + nlen + vlen + Compress.entryOverhead }

/-- `Sink::entry`, less the method that it reports. -/
def entry (self : Sink D E) (header : Header) : Sink D E :=
  let sink := self.admitField header.name.length header.value.length
  if sink.error.isSome then sink
  else if header.name = Statics.bytes ":protocol" ∧ sink.connect = false then
    { sink with error := some .connectDisabled }
  else
    match encodeField sink.draft header sink.mode with
    | .error cause => { sink with error := some (.dynamic cause) }
    | .ok (draft, writes) => { sink with draft := draft, out := sink.out ++ writes }

/-- `Sink::encoded_with`. -/
def encodedWith (self : Sink D E) (name : Bytes) (encoded : Generated) (indexing : Indexing) :
    Sink D E :=
  let sink := self.admitField name.length encoded.encodedLen
  if sink.error.isSome then sink
  else
    { sink with
      out := sink.out ++ (encodeName sink.draft name indexing sink.mode ++
        integer 7 0 encoded.encodedLen ++ encoded.pieces.map .slice) }

/-- A field of a list. -/
def item (self : Sink D E) : Item → Sink D E
  | .entry header => self.entry header
  | .encodedWith name encoded indexing => self.encodedWith name encoded indexing

/-- `Source::emit`: the fields of a list, from the first to the last. -/
def emit (self : Sink D E) (items : List Item) : Sink D E :=
  items.foldl item self

end Sink

/-! ## The limits of a table -/

namespace Encoder

variable {D E : Type} [Directory D]

/-- The limits of an encoder are at most the capacity of its table, which has 32 bits. -/
structure Admitted (encoder : Encoder D E) : Prop where
  capacity_lt : encoder.capacity < 2 ^ 32
  setting_le : encoder.maxSizeSetting ≤ encoder.capacity
  pending_le : ∀ minimum ∈ encoder.pendingMinimum, minimum ≤ encoder.capacity

omit [Directory D] in
theorem Admitted.length_updates_le {encoder : Encoder D E} (h : encoder.Admitted) :
    (written encoder.updates).length ≤ 12 := by
  have hinteger : ∀ value ≤ encoder.capacity, (written (integer 5 0x20 value)).length ≤ 6 := by
    intro value hvalue
    refine length_integer_le (k := 5) 0x20 (by norm_num) ((Nat.mod_le _ _).trans_lt ?_)
    exact hvalue.trans_lt (h.capacity_lt.trans (by norm_num))
  rw [updates]
  cases hpending : encoder.pendingMinimum with
  | none => exact Nat.zero_le 12
  | some minimum =>
    have hsetting := hinteger _ h.setting_le
    dsimp only
    rw [written_append, List.length_append]
    split_ifs with hne
    · have := hinteger minimum (h.pending_le minimum (by simp [hpending]))
      omega
    · rw [show written [] = [] from rfl, List.length_nil]
      omega

omit [Directory D] in
theorem admitted_tryWith {layout : Compress.Layout} (hlayout : layout.capacity < 2 ^ 32)
    {limit listCap : ℕ} {seed : Compress.Seed} {index : Compress.Index D}
    {pending : Compress.Index E} {encoder : Encoder D E}
    (h : tryWith layout limit listCap seed index pending = some encoder) : encoder.Admitted := by
  obtain ⟨buffer, -, rfl⟩ := Option.map_eq_some_iff.mp h
  refine ⟨hlayout, Nat.min_le_right _ _, fun minimum hminimum => ?_⟩
  dsimp only at hminimum
  split_ifs at hminimum
  · rw [← Option.some.inj hminimum]
    exact Nat.min_le_right _ _
  · cases hminimum

end Encoder

end Encode

end Hpack

/-! ## Layouts are kept -/

namespace Compress

namespace Store

variable {R I : Type} [Slotted R] [Kind R I]

@[simp]
theorem layout_popLast (self : Store R I) : self.popLast.layout = self.layout := by
  rw [popLast]
  dsimp only
  split <;> rfl

@[simp]
theorem layout_trim (self : Store R I) (turns : ℕ) : (self.trim turns).layout = self.layout := by
  induction turns generalizing self with
  | zero => rfl
  | succ turns ih =>
    rw [trim]
    split_ifs
    · rfl
    · rw [ih, layout_popLast]

@[simp]
theorem layout_makeRoom (self : Store R I) (data turns : ℕ) :
    (self.makeRoom data turns).layout = self.layout := by
  induction turns generalizing self with
  | zero => rfl
  | succ turns ih =>
    rw [makeRoom]
    split_ifs
    · rw [ih, layout_popLast]
    · rfl

end Store

namespace Direct

variable {D : Type} [Directory D]

@[simp]
theorem layout_setLimit (self : Direct D) (limit : ℕ) :
    (self.setLimit limit).store.layout = self.store.layout :=
  (self.store.setLimit limit).layout_trim _

@[simp]
theorem layout_input (self : Direct D) (field : Entry) (digest : Digest) (size : ℕ) :
    (self.input field digest size).store.layout = self.store.layout :=
  self.store.layout_makeRoom size _

end Direct

namespace Delta

variable {D E : Type} [Directory D] [Directory E]

omit [Directory E] in
theorem Draft.layout_commit (self : Draft D E) :
    self.commit.1.store.layout = self.table.store.layout := by
  rw [commit]
  dsimp only
  generalize self.table = table
  generalize self.pending.records = records
  induction records generalizing table with
  | nil => rfl
  | cons record records ih => rw [List.foldl_cons, ih, Direct.layout_input]

omit [Directory D] in
theorem Draft.table_tryInsert {self next : Draft D E} {field : Entry}
    (h : self.tryInsert field = .ok next) : next.table = self.table := by
  rw [tryInsert, insertWith] at h
  obtain ⟨sizes, -, h⟩ := Except.bind_eq_ok_iff.mp h
  obtain ⟨evicted, -, h⟩ := Except.bind_eq_ok_iff.mp h
  obtain ⟨record, -, h⟩ := Except.bind_eq_ok_iff.mp h
  rw [← Except.ok.inj h]

end Delta

end Compress

namespace Hpack

namespace Encode

open Metadata H2.Outputs

variable {D E : Type} [Directory D] [Directory E]

omit [Directory E] in
theorem Encoder.Admitted.setMaxSize {encoder : Encoder D E} (h : encoder.Admitted) (n : ℕ) :
    (encoder.setMaxSize n).Admitted := by
  rw [Encoder.setMaxSize, Encoder.applyLimit]
  split_ifs with heq
  · exact h
  · have hcapacity : ∀ pending setting, ({ encoder with
        pendingMinimum := pending
        maxSizeSetting := setting
        dynTable := encoder.dynTable.setLimit (min n encoder.capacity) } :
          Encoder D E).capacity = encoder.capacity := fun _ _ =>
      congrArg Compress.Layout.capacity (encoder.dynTable.layout_setLimit _)
    refine ⟨?_, ?_, fun minimum hminimum => ?_⟩
    · rw [hcapacity]
      exact h.capacity_lt
    · rw [hcapacity]
      exact Nat.min_le_right _ _
    · rw [hcapacity]
      dsimp only at hminimum
      cases hpending : encoder.pendingMinimum with
      | none =>
        rw [hpending] at hminimum
        rw [← Option.some.inj hminimum]
        exact Nat.min_le_right _ _
      | some found =>
        rw [hpending] at hminimum
        rw [← Option.some.inj hminimum]
        exact (Nat.min_le_right _ _).trans (Nat.min_le_right _ _)

omit [Directory E] in
theorem Encoder.Admitted.apply {encoder : Encoder D E} (h : encoder.Admitted)
    {draft : Compress.Delta.Draft D E} (hdraft : draft.table = encoder.dynTable) :
    (encoder.apply draft).Admitted := by
  have hcapacity : (encoder.apply draft).capacity = encoder.capacity := by
    refine congrArg Compress.Layout.capacity ?_
    exact draft.layout_commit.trans (congrArg (·.store.layout) hdraft)
  refine ⟨?_, ?_, fun minimum hminimum => by cases hminimum⟩
  · rw [hcapacity]
    exact h.capacity_lt
  · rw [hcapacity]
    exact h.setting_le

omit [Directory D] in
theorem Encoder.Admitted.discard {encoder : Encoder D E} (h : encoder.Admitted)
    {draft : Compress.Delta.Draft D E} (hdraft : draft.table = encoder.dynTable) :
    (encoder.discard draft).Admitted := by
  have hcapacity : (encoder.discard draft).capacity = encoder.capacity :=
    congrArg (·.store.layout.capacity) hdraft
  refine ⟨?_, ?_, fun minimum hminimum => ?_⟩
  · rw [hcapacity]
    exact h.capacity_lt
  · rw [hcapacity]
    exact h.setting_le
  · rw [hcapacity]
    exact h.pending_le minimum hminimum

theorem table_encodeField {draft next : Compress.Delta.Draft D E} {header : Header} {mode : Mode}
    {writes : List Write} (h : encodeField draft header mode = .ok (next, writes)) :
    next.table = draft.table := by
  rw [encodeField] at h
  by_cases hnever : header.indexing = .never
  · rw [if_pos hnever] at h
    rw [← (Prod.mk.inj (Except.ok.inj h)).1]
  rw [if_neg hnever] at h
  dsimp only at h
  split at h
  · rw [← (Prod.mk.inj (Except.ok.inj h)).1]
  split at h
  · rw [← (Prod.mk.inj (Except.ok.inj h)).1]
  obtain ⟨indexed, hindex, heq⟩ := Except.map_eq_ok_iff.mp h
  rw [← (Prod.mk.inj heq).1]
  rw [index] at hindex
  split_ifs at hindex
  · rw [← Except.ok.inj hindex]
    rfl
  · split at hindex
    · rename_i hinsert
      rw [← Except.ok.inj hindex]
      exact Compress.Delta.Draft.table_tryInsert hinsert
    · cases hindex
    · rw [← Except.ok.inj hindex]
      rfl

/-! ## Lists -/

namespace Sink

/-- A sink within the limit of its list. -/
structure Within (sink : Sink D E) (table : Compress.Direct D) (limit base : ℕ) : Prop where
  limit_eq : sink.limit = limit
  used_le : sink.used ≤ limit
  out_le : (written sink.out).length ≤ base + sink.used
  table_eq : sink.draft.table = table

variable {sink : Sink D E} {table : Compress.Direct D} {limit base : ℕ}

omit [Directory D] [Directory E] in
theorem admitField_cases (sink : Sink D E) (nlen vlen : ℕ) :
    (∃ error, sink.admitField nlen vlen = { sink with error := some error } ∧
      (sink.error = none → error.isList = true ∧
        min sink.limit (2 ^ 64 - 1) < sink.used + nlen + vlen + Compress.entryOverhead)) ∨
    sink.error = none ∧ sink.used + nlen + vlen + Compress.entryOverhead ≤ sink.limit ∧
      sink.admitField nlen vlen =
        { sink with used := sink.used + nlen + vlen + Compress.entryOverhead } := by
  rw [admitField]
  cases herror : sink.error with
  | some error =>
    refine .inl ⟨error, ?_, fun h => by cases h⟩
    rw [Option.isSome_some, if_pos rfl, ← herror]
  | none =>
    rw [if_neg (by simp)]
    split_ifs with hoverflow hlimit
    · exact .inl ⟨_, rfl, fun _ => ⟨rfl, by omega⟩⟩
    · exact .inl ⟨_, rfl, fun _ => ⟨rfl, by omega⟩⟩
    · refine .inr ⟨rfl, not_lt.mp hlimit, ?_⟩
      rw [← herror]

omit [Directory D] [Directory E] in
theorem Within.admitField (h : sink.Within table limit base) (nlen vlen : ℕ) :
    (sink.admitField nlen vlen).Within table limit base := by
  rcases admitField_cases sink nlen vlen with ⟨error, hcounted, -⟩ | ⟨-, hle, hcounted⟩
  · rw [hcounted]
    exact ⟨h.limit_eq, h.used_le, h.out_le, h.table_eq⟩
  · rw [hcounted]
    refine ⟨h.limit_eq, hle.trans_eq h.limit_eq, h.out_le.trans ?_, h.table_eq⟩
    show base + sink.used ≤ base + (sink.used + nlen + vlen + Compress.entryOverhead)
    omega

theorem written_slices (pieces : List Bytes) :
    written (pieces.map .slice) = pieces.flatten := by
  simp [written, List.flatMap_map, Write.bytes, List.flatMap_id']

/-- A field keeps a sink within the limit of its list. -/
theorem Within.item (h : sink.Within table limit base) (item : Item) :
    (sink.item item).Within table limit base := by
  cases item with
  | entry header =>
    have hcounted := h.admitField header.name.length header.value.length
    rw [Sink.item, entry]
    by_cases herror : (sink.admitField header.name.length header.value.length).error.isSome
    · rw [if_pos herror]
      exact hcounted
    rw [if_neg herror]
    split_ifs
    · exact ⟨hcounted.limit_eq, hcounted.used_le, hcounted.out_le, hcounted.table_eq⟩
    split
    · exact ⟨hcounted.limit_eq, hcounted.used_le, hcounted.out_le, hcounted.table_eq⟩
    · rename_i draft writes hencode
      -- what was admitted covers what is written
      rcases admitField_cases sink header.name.length header.value.length with
        ⟨error, heq, -⟩ | ⟨-, hle, heq⟩
      · rw [heq] at herror
        exact absurd rfl herror
      · have hlength := length_encodeField_le hencode
        refine ⟨hcounted.limit_eq, hcounted.used_le, ?_, ?_⟩
        · have hout := h.out_le
          rw [heq, written_append, List.length_append]
          show _ ≤ base + (sink.used + header.name.length + header.value.length +
            Compress.entryOverhead)
          rw [Compress.entryOverhead]
          dsimp only
          omega
        · exact (table_encodeField hencode).trans hcounted.table_eq
  | encodedWith name encoded indexing =>
    have hcounted := h.admitField name.length encoded.encodedLen
    rw [Sink.item, encodedWith]
    by_cases herror : (sink.admitField name.length encoded.encodedLen).error.isSome
    · rw [if_pos herror]
      exact hcounted
    rw [if_neg herror]
    rcases admitField_cases sink name.length encoded.encodedLen with ⟨error, heq, -⟩ | ⟨-, hle, heq⟩
    · rw [heq] at herror
      exact absurd rfl herror
    · refine ⟨hcounted.limit_eq, hcounted.used_le, ?_, hcounted.table_eq⟩
      have hout := h.out_le
      have hname := length_encodeName_le (sink.admitField name.length encoded.encodedLen).draft name
        indexing (sink.admitField name.length encoded.encodedLen).mode
      have hinteger := length_integer 7 0 encoded.encodedLen
      have hexact := encoded.exact
      simp only [written_append, written_slices, List.length_append]
      rw [heq] at hname ⊢
      dsimp only at hname ⊢
      rw [Compress.entryOverhead]
      omega

theorem Within.emit (h : sink.Within table limit base) (items : List Item) :
    (sink.emit items).Within table limit base := by
  induction items generalizing sink with
  | nil => exact h
  | cons item items ih =>
    rw [Sink.emit, List.foldl_cons]
    exact ih (h.item item)

omit [Directory D] [Directory E] in
theorem admitField_fits {nlen vlen : ℕ} (hlimit : sink.limit < 2 ^ 64)
    (hsize : sink.error = none → sink.used + nlen + vlen + Compress.entryOverhead ≤ sink.limit) :
    (∃ error, sink.error = some error ∧ sink.admitField nlen vlen = sink) ∨
      sink.error = none ∧ sink.admitField nlen vlen =
        { sink with used := sink.used + nlen + vlen + Compress.entryOverhead } := by
  cases herror : sink.error with
  | some error =>
    refine .inl ⟨error, rfl, ?_⟩
    rw [admitField, herror, Option.isSome_some, if_pos rfl]
  | none =>
    rcases admitField_cases sink nlen vlen with ⟨error, -, hlist⟩ | ⟨-, -, heq⟩
    · obtain ⟨-, hlt⟩ := hlist herror
      have := hsize herror
      omega
    · exact .inr ⟨rfl, herror ▸ heq⟩

/-- A field that fits is counted, and is not refused for its size. -/
theorem item_fits {item : Item} (hlimit : sink.limit < 2 ^ 64)
    (hsize : sink.error = none → sink.used + item.size ≤ sink.limit)
    (herror : ∀ error ∈ sink.error, error.isList = false) :
    (sink.item item).limit = sink.limit ∧
      (∀ error ∈ (sink.item item).error, error.isList = false) ∧
      ((sink.item item).error = none →
        sink.error = none ∧ (sink.item item).used = sink.used + item.size) := by
  cases item with
  | entry header =>
    rw [Sink.item, entry]
    have hfits : sink.error = none → sink.used + header.name.length + header.value.length +
        Compress.entryOverhead ≤ sink.limit := fun hnone => by
      have := hsize hnone
      rw [Item.size] at this
      omega
    rcases admitField_fits hlimit hfits with ⟨error, hsome, heq⟩ | ⟨hnone, heq⟩
    · rw [heq, if_pos (by rw [hsome]; rfl)]
      exact ⟨rfl, herror, fun hnone => by rw [hsome] at hnone; cases hnone⟩
    · rw [heq]
      dsimp only
      rw [if_neg (by simp [hnone])]
      split_ifs
      · exact ⟨rfl, fun error h => Option.some.inj h ▸ rfl, fun h => by cases h⟩
      split
      · exact ⟨rfl, fun error h => Option.some.inj h ▸ rfl, fun h => by cases h⟩
      · refine ⟨rfl, herror, fun _ => ⟨hnone, ?_⟩⟩
        show sink.used + header.name.length + header.value.length + Compress.entryOverhead = _
        rw [Item.size]
        omega
  | encodedWith name encoded indexing =>
    rw [Sink.item, encodedWith]
    have hfits : sink.error = none → sink.used + name.length + encoded.encodedLen +
        Compress.entryOverhead ≤ sink.limit := fun hnone => by
      have := hsize hnone
      rw [Item.size] at this
      omega
    rcases admitField_fits hlimit hfits with ⟨error, hsome, heq⟩ | ⟨hnone, heq⟩
    · rw [heq, if_pos (by rw [hsome]; rfl)]
      exact ⟨rfl, herror, fun hnone => by rw [hsome] at hnone; cases hnone⟩
    · rw [heq]
      dsimp only
      rw [if_neg (by simp [hnone])]
      refine ⟨rfl, herror, fun _ => ⟨hnone, ?_⟩⟩
      show sink.used + name.length + encoded.encodedLen + Compress.entryOverhead = _
      rw [Item.size]
      omega

theorem emit_fits {items : List Item} (hlimit : sink.limit < 2 ^ 64)
    (hsize : sink.error = none → sink.used + listSize items ≤ sink.limit)
    (herror : ∀ error ∈ sink.error, error.isList = false) :
    ∀ error ∈ (sink.emit items).error, error.isList = false := by
  induction items generalizing sink with
  | nil => exact herror
  | cons item items ih =>
    rw [Sink.emit, List.foldl_cons]
    have hcons : listSize (item :: items) = item.size + listSize items := by
      rw [listSize, List.map_cons, List.sum_cons, ← listSize]
    rw [hcons] at hsize
    have hfits : sink.error = none → sink.used + item.size ≤ sink.limit := fun hnone => by
      have := hsize hnone
      omega
    obtain ⟨hkept, hlist, hused⟩ := item_fits hlimit hfits herror
    refine ih (by rw [hkept]; exact hlimit) (fun hnone => ?_) hlist
    obtain ⟨hbefore, hcount⟩ := hused hnone
    have := hsize hbefore
    omega

omit [Directory D] in
theorem within_new {encoder : Encoder D E} (hencoder : encoder.Admitted) (limit : ℕ)
    (connect : Bool) :
    (Sink.new encoder limit connect).Within encoder.dynTable limit 12 :=
  ⟨rfl, Nat.zero_le _, hencoder.length_updates_le, rfl⟩

/-- A block takes at most the limit of its list, and twelve bytes for the size updates. -/
theorem length_emit_le {encoder : Encoder D E} (hencoder : encoder.Admitted) (limit : ℕ)
    (connect : Bool) (items : List Item) :
    (written ((Sink.new encoder limit connect).emit items).out).length ≤ limit + 12 := by
  have h := (within_new hencoder limit connect).emit items
  have hused := h.used_le
  have hout := h.out_le
  omega

end Sink

/-- An encoder of a connection: a new one, one that was told a table size, or one after a block that
was committed or discarded. -/
inductive Encoder.Reachable : Encoder D E → Prop
  | tryWith {layout : Compress.Layout} {limit listCap : ℕ} {seed : Compress.Seed}
      {index : Compress.Index D} {pending : Compress.Index E} {encoder : Encoder D E} :
      layout.Planned 1 → Encoder.tryWith layout limit listCap seed index pending = some encoder →
        Reachable encoder
  | setMaxSize {encoder : Encoder D E} (n : ℕ) :
      Reachable encoder → Reachable (encoder.setMaxSize n)
  | apply {encoder : Encoder D E} (limit : ℕ) (connect : Bool) (items : List Item) :
      Reachable encoder →
        Reachable (encoder.apply ((Sink.new encoder limit connect).emit items).draft)
  | discard {encoder : Encoder D E} (limit : ℕ) (connect : Bool) (items : List Item) :
      Reachable encoder →
        Reachable (encoder.discard ((Sink.new encoder limit connect).emit items).draft)

/-- No limit of an encoder takes more than 32 bits. -/
theorem Encoder.Reachable.admitted {encoder : Encoder D E} (h : encoder.Reachable) :
    encoder.Admitted := by
  induction h with
  | tryWith hlayout hnew => exact Encoder.admitted_tryWith hlayout.capacity_lt hnew
  | setMaxSize n _ ih => exact ih.setMaxSize n
  | apply limit connect items _ ih =>
    exact ih.apply ((Sink.within_new ih limit connect).emit items).table_eq
  | discard limit connect items _ ih =>
    exact ih.discard ((Sink.within_new ih limit connect).emit items).table_eq

end Encode

end Hpack

end Sark
