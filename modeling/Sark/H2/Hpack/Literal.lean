import Sark.H2.Hpack.Complete

/-!
# What a representation means

The decoder keeps a literal in one of several places and forgets its bytes when they exceed what the
budget could ever admit. None of that shows in the result: a literal charges its field to the
budget, is emitted if the budget admits it, and enters the table if it is to be indexed
(`Decoder.literal`).

* `Flow.finish_of_holds`: a field whose bytes were dropped would not have been emitted.
* `Complete.readLiteral_toOption`: the one-shot decoder on a literal, in terms of the contents of its
  strings.
-/

namespace Sark.Hpack

open Metadata Compress

/-! ## Contents -/

/-- The bytes that a literal string stands for. -/
def Encoded.contents (self : Encoded) : Option Bytes :=
  self.encoding.decode self.payload

/-- The name of a literal. -/
def Name.contents (table : Table) : Name → Option Bytes
  | .literal encoded => encoded.contents
  | .indexed index => (lookup table index).toOption.map Entry.name

/-- A literal with a name and a value: the field is charged and emitted, and inserted if it is to be
indexed. -/
def Decoder.literal (self : Decoder) (flow : Flow) (index : Index) (name value : Bytes) :
    Decoder × Flow :=
  (match index with
    | .plain | .never => self
    | .indexed => ⟨self.table.insert ⟨name, value⟩, self.core⟩,
    flow.field name value)

theorem Encoded.length_of_contents {self : Encoded} {contents : Bytes}
    (h : self.contents = some contents) : contents.length ≤ 2 * self.payload.length := by
  rw [Encoded.contents, Encoding.decode.eq_def] at h
  split at h
  · obtain rfl := Option.some.inj h
    omega
  · obtain ⟨⟨last, output⟩, hrun, heq⟩ := Option.bind_eq_some_iff.mp h
    split at heq
    · obtain rfl := Option.some.inj heq
      exact Huffman.Decoder.length_of_run hrun
    · contradiction

/-! ## Limits -/

namespace Bound

theorem lt_of_after_lt {self : Bound} {amount len : ℕ} (h : (self.after amount).value < len) :
    self.value < amount + len := by
  unfold after at h
  split at h
  · omega
  · split at h <;> dsimp only at h <;> omega

@[simp]
theorem new_option (self : Bound) : new self.option = self := by
  unfold option
  split
  · rfl
  · simp_all [new]

end Bound

theorem Budget.admitField_of_retention_lt {self : Budget} {name value : ℕ}
    (h : self.retention.value < name + value) :
    ∃ budget, self.admitField name value = (budget, .exceeded) ∧ budget.admission = .exceeded := by
  have hmax := Bound.lt_of_after_lt (Bound.lt_of_after_lt h)
  unfold admitField
  dsimp only
  split
  · exact ⟨_, rfl, rfl⟩
  · have hexceeded : self.max.admitLen (self.used + name + value + entryOverhead) = .exceeded := by
      rw [Bound.admitLen, if_neg]
      omega
    rw [hexceeded]
    exact ⟨_, rfl, rfl⟩

namespace Scratch

/-- What a scratch buffer under a limit tells about the bytes written to it. -/
def Holds (limit : Bound) (scratch : Option Bytes) (contents : Bytes) : Prop :=
  match scratch with
  | some written => written = contents
  | none => limit.value < contents.length

/-- A buffer that is still retained has not exceeded its limit. -/
def Valid (limit : Option ℕ) (scratch : Option Bytes) : Prop :=
  ∀ written, scratch = some written → limit.all fun limit => written.length ≤ limit

theorem lawfulSink_write (limit : Option ℕ) : LawfulSink (write limit) (Valid limit) where
  nil := by
    intro scratch hvalid
    cases scratch with
    | none => rfl
    | some written =>
      have hwritten := hvalid written rfl
      cases limit with
      | none => simp [write]
      | some limit =>
        simp only [Option.all_some, decide_eq_true_eq] at hwritten
        simp [write, hwritten]
  valid_of_ok := by
    intro scratch next output hwrite written hnext
    subst hnext
    unfold write at hwrite
    split at hwrite
    · simp at hwrite
    · split at hwrite
      next => simp at hwrite
      next hfits =>
        obtain rfl := Option.some.inj (Except.ok.inj hwrite)
        cases limit with
        | none => rfl
        | some limit => simpa using hfits
  append_ok := by
    intro scratch next first second hwrite
    cases scratch with
    | none =>
      obtain rfl := Except.ok.inj hwrite
      rfl
    | some written =>
      cases limit with
      | none =>
        simp only [write, Option.any_none, Bool.false_eq_true, if_false, Except.ok.injEq] at hwrite
        subst hwrite
        simp [write]
      | some limit =>
        simp only [write, Option.any_some, decide_eq_true_eq, List.length_append] at hwrite ⊢
        split at hwrite
        · obtain rfl := Except.ok.inj hwrite
          rw [if_pos (by omega)]
        · obtain rfl := Except.ok.inj hwrite
          simp [Nat.add_assoc]
  append_error := by
    intro scratch error
    exact error.elim

theorem write_ok (limit : Option ℕ) (scratch : Option Bytes) (bytes : Bytes) :
    ∃ next, write limit scratch bytes = .ok next := by
  unfold write
  split
  · exact ⟨_, rfl⟩
  · split <;> exact ⟨_, rfl⟩

theorem holds_of_write {limit : Bound} {next : Option Bytes} {contents : Bytes}
    (h : write limit.option (some []) contents = .ok next) : Holds limit next contents := by
  simp only [write, List.nil_append] at h
  split at h
  next hlarge =>
    obtain rfl := Except.ok.inj h
    cases hoption : limit.option with
    | none => simp [hoption] at hlarge
    | some bound =>
      have : limit = ⟨bound⟩ := by rw [← limit.new_option, hoption]; rfl
      subst this
      simpa [hoption, Holds] using hlarge
  next =>
    obtain rfl := Except.ok.inj h
    exact rfl

end Scratch

/-- Bytes that were dropped belong to a field that the budget does not admit. The name of a field
whose value was dropped does not matter. -/
theorem Flow.finish_of_holds {flow : Flow} {limit : Bound} {name value : Option Bytes}
    {nameBytes valueBytes : Bytes} (hlimit : flow.budget.retention.value ≤ limit.value)
    (hname : value.isSome → Scratch.Holds limit name nameBytes)
    (hvalue : Scratch.Holds (limit.after nameBytes.length) value valueBytes) :
    flow.finish nameBytes.length (name.getD []) (.new (name.bind fun _ => value) valueBytes.length) =
      flow.field nameBytes valueBytes := by
  -- Without both, the field exceeds the room that was left.
  have hcounted (hroom : limit.value < nameBytes.length + valueBytes.length) :
      flow.finish nameBytes.length (name.getD []) (.counted valueBytes.length) =
        flow.field nameBytes valueBytes := by
    obtain ⟨budget, hadmit, hexceeded⟩ :=
      Budget.admitField_of_retention_lt (hlimit.trans_lt hroom)
    simp only [field, finish, hadmit, Budget.exceed]
    rw [← hexceeded]
  cases value with
  | none =>
    rw [show (name.bind fun _ => (none : Option Bytes)) = none by cases name <;> rfl]
    exact hcounted (Bound.lt_of_after_lt hvalue)
  | some writtenValue =>
    obtain rfl : writtenValue = valueBytes := hvalue
    have hname := hname rfl
    cases name with
    | none => exact hcounted (Nat.lt_add_right _ hname)
    | some written =>
      obtain rfl : written = nameBytes := hname
      rfl

/-- A literal in scratch storage. Only one that the table has no room for gets there if it is to be
indexed. -/
theorem Decoder.value_eq_literal {self : Decoder} {flow : Flow} {context : NamedContext}
    {name : Option Bytes} {decoded : Decoded} {nameBytes valueBytes : Bytes}
    (hlimit : flow.budget.retention.value ≤ context.retainLimit.value)
    (hlen : context.len = nameBytes.length)
    (hname : decoded.contents.isSome → Scratch.Holds context.retainLimit name nameBytes)
    (hdecoded : decoded.len = valueBytes.length)
    (hvalue : Scratch.Holds context.limit decoded.contents valueBytes)
    (hunfit : context.index = .indexed →
      self.table.limit < nameBytes.length + valueBytes.length + entryOverhead) :
    self.value flow context name decoded =
      self.literal flow context.index nameBytes valueBytes := by
  rw [NamedContext.limit, hlen] at hvalue
  simp only [Decoder.value, Decoder.literal, hlen, hdecoded, Flow.finish_of_holds hlimit hname hvalue]
  cases hindex : context.index with
  | plain => rfl
  | never => rfl
  | indexed =>
    have hsize : ¬(Entry.size ⟨nameBytes, valueBytes⟩ ≤ self.table.limit) :=
      not_le.mpr (hunfit hindex)
    simp only [Table.insert, dif_neg hsize]

theorem valueStaged_eq_literal {stage : ValueStage} {core : Core} {flow : Flow}
    {context : NamedContext} (hlen : context.len = stage.name.length) :
    valueStaged stage core flow context =
      Decoder.literal ⟨stage.table, core⟩ flow .indexed stage.name stage.value := by
  simp only [valueStaged, Decoder.literal, hlen, stage.commit_eq_insert]
  rfl

/-! ## Strings of complete literals -/

namespace Encoded

section Sink

variable {σ ε : Type*} {write : σ → Bytes → Except ε σ} {valid : σ → Prop}

theorem writeTo_of_decode (hlaw : LawfulSink write valid) {sink next : σ} (hvalid : valid sink)
    {payload contents : Bytes} (hdecode : Encoding.huffman.decode payload = some contents)
    (hwrite : write sink contents = .ok next) :
    writeTo write payload sink = .ok (next, contents.length) := by
  obtain ⟨⟨last, output⟩, hrun, hfinish⟩ := Option.bind_eq_some_iff.mp hdecode
  split at hfinish
  next htail =>
    obtain rfl := Option.some.inj hfinish
    have hfed := Transducer.transduce_of_run hlaw hvalid hrun hwrite
    simp only [writeTo, Huffman.Decoder.feedInto, hfed, htail, if_true]
  next => contradiction

theorem writeTo_of_decode_refused (hlaw : LawfulSink write valid) {sink : σ} (hvalid : valid sink)
    {payload contents : Bytes} {error : ε}
    (hdecode : Encoding.huffman.decode payload = some contents)
    (hwrite : write sink contents = .error error) :
    ∃ cause, writeTo write payload sink = .error (.sink cause) := by
  obtain ⟨⟨last, output⟩, hrun, hfinish⟩ := Option.bind_eq_some_iff.mp hdecode
  split at hfinish
  next htail =>
    obtain rfl := Option.some.inj hfinish
    obtain ⟨cause, hfed⟩ := Transducer.transduce_of_run_refused hlaw hvalid hrun hwrite
    exact ⟨cause, by simp only [writeTo, Huffman.Decoder.feedInto, hfed]⟩
  next => contradiction

theorem writeTo_of_not_decode (hlaw : LawfulSink write valid) {sink : σ} (hvalid : valid sink)
    {payload : Bytes} (hdecode : Encoding.huffman.decode payload = none) :
    ∃ cause, writeTo write payload sink = .error cause := by
  cases hrun : Huffman.Decoder.new.run payload with
  | none =>
    obtain ⟨cause, hfed⟩ := @Transducer.transduce_of_not_run _ _ _ _ _ _
      (fun sink byte => write sink [byte]) _ sink _ hrun
    exact ⟨cause, by simp only [writeTo, Huffman.Decoder.feedInto, hfed]⟩
  | some result =>
    obtain ⟨last, output⟩ := result
    -- Everything was decoded, so the padding is at fault.
    have htail : last.finish = false := by
      simpa [Encoding.decode, hrun] using hdecode
    cases hwrite : write sink output with
    | error error =>
      obtain ⟨cause, hfed⟩ := Transducer.transduce_of_run_refused hlaw hvalid hrun hwrite
      exact ⟨.sink cause, by simp only [writeTo, Huffman.Decoder.feedInto, hfed]⟩
    | ok next =>
      have hfed := Transducer.transduce_of_run hlaw hvalid hrun hwrite
      exact ⟨.invalid, by simp [writeTo, Huffman.Decoder.feedInto, hfed, htail]⟩

end Sink

theorem decodeInto_of_contents {self : Encoded} {contents : Bytes}
    (h : self.contents = some contents) (limit : Bound) :
    ∃ scratch, self.decodeInto limit.option = .ok ⟨contents.length, scratch⟩ ∧
      Scratch.Holds limit scratch contents := by
  obtain ⟨payload, encoding⟩ := self
  obtain ⟨scratch, hwrite⟩ := Scratch.write_ok limit.option (some []) contents
  refine ⟨scratch, ?_, Scratch.holds_of_write hwrite⟩
  cases encoding with
  | plain =>
    obtain rfl := Option.some.inj h
    simp only [decodeInto, hwrite]
  | huffman =>
    have hvalid : Scratch.Valid limit.option (some []) := by
      rintro written ⟨rfl⟩
      cases limit.option <;> simp
    simp only [decodeInto,
      writeTo_of_decode (Scratch.lawfulSink_write limit.option) hvalid h hwrite]

theorem decodeInto_of_not_contents {self : Encoded} (h : self.contents = none) (limit : Bound) :
    self.decodeInto limit.option = .error .encoding := by
  obtain ⟨payload, encoding⟩ := self
  cases encoding with
  | plain => contradiction
  | huffman =>
    have hvalid : Scratch.Valid limit.option (some []) := by
      rintro written ⟨rfl⟩
      cases limit.option <;> simp
    obtain ⟨cause, herror⟩ :=
      writeTo_of_not_decode (Scratch.lawfulSink_write limit.option) hvalid h
    simp only [decodeInto, herror]

theorem decodeNamed_of_contents {self : Encoded} {contents : Bytes}
    (h : self.contents = some contents) (limit : Bound) :
    ∃ scratch, self.decodeNamed limit.option = .ok ⟨contents.length, scratch⟩ ∧
      Scratch.Holds limit scratch contents := by
  obtain ⟨payload, encoding⟩ := self
  cases encoding with
  | huffman => exact decodeInto_of_contents h limit
  | plain =>
    obtain rfl := Option.some.inj h
    simp only [decodeNamed, Bound.new_option, Bound.admitLen]
    by_cases hlen : payload.length ≤ limit.value
    · rw [if_pos hlen]
      exact ⟨_, rfl, rfl⟩
    · rw [if_neg hlen]
      exact ⟨_, rfl, not_le.mp hlen⟩

theorem decodeNamed_of_not_contents {self : Encoded} (h : self.contents = none) (limit : Bound) :
    self.decodeNamed limit.option = .error .encoding := by
  obtain ⟨payload, encoding⟩ := self
  cases encoding with
  | plain => contradiction
  | huffman => exact decodeInto_of_not_contents h limit

section Stage

variable {σ : Type*} {write : σ → Bytes → Except Overflow σ} {valid : σ → Prop}

theorem store_of_contents (hlaw : LawfulSink write valid) {stage next : σ} (hvalid : valid stage)
    {self : Encoded} {contents : Bytes} (h : self.contents = some contents)
    (hwrite : write stage contents = .ok next) : self.store write stage = .ok (some next) := by
  obtain ⟨payload, encoding⟩ := self
  cases encoding with
  | plain =>
    obtain rfl := Option.some.inj h
    simp only [store, hwrite]
  | huffman => simp only [store, writeTo_of_decode hlaw hvalid h hwrite]

theorem store_of_contents_refused (hlaw : LawfulSink write valid) {stage : σ}
    (hvalid : valid stage) {self : Encoded} {contents : Bytes} {error : Overflow}
    (h : self.contents = some contents) (hwrite : write stage contents = .error error) :
    self.store write stage = .ok none := by
  obtain ⟨payload, encoding⟩ := self
  cases encoding with
  | plain =>
    obtain rfl := Option.some.inj h
    simp only [store, hwrite]
  | huffman =>
    obtain ⟨cause, herror⟩ := writeTo_of_decode_refused hlaw hvalid h hwrite
    simp only [store, herror]

theorem store_of_not_contents (hlaw : LawfulSink write valid) (stage : σ) (hvalid : valid stage)
    {self : Encoded} (h : self.contents = none) :
    self.store write stage = .error .encoding ∨ self.store write stage = .ok none := by
  obtain ⟨payload, encoding⟩ := self
  cases encoding with
  | plain => contradiction
  | huffman =>
    obtain ⟨cause, herror⟩ := writeTo_of_not_decode hlaw hvalid h
    cases cause with
    | invalid => exact Or.inl (by simp only [store, herror])
    | sink cause => exact Or.inr (by simp only [store, herror])

end Stage

end Encoded

/-! ## Names -/

theorem nameStaged_ok {stage : NameStage} (context : LiteralContext)
    (hname : stage.name.length ≤ nameLenMask) :
    ∃ next, nameStaged stage context = .ok (next, context.begin stage.name.length) ∧
      next.table = stage.table ∧ next.name = stage.name ∧ next.value = [] := by
  obtain ⟨next, hfinish, htable, hnext, hvalue⟩ := stage.finish_of_le hname
  refine ⟨next, ?_, htable, hnext, hvalue⟩
  simp only [nameStaged, hfinish, ← hnext]
  rfl

theorem Statics.length_name_le {index : ℕ} {entry : Entry} (h : get index = some entry) :
    entry.name.length ≤ nameLenMask := by
  rw [get, Option.ite_none_left_eq_some] at h
  exact (length_name_of_mem (List.mem_of_getElem? h.2)).trans (by decide)

namespace Decoder

theorem retainName_of_lookup {self : Decoder} {index : ℕ} {field : Entry}
    (h : lookup self.table index = .ok field) (limit : Bound) :
    ∃ scratch, self.retainName index limit = .ok ⟨field.name.length, scratch⟩ ∧
      Scratch.Holds limit scratch field.name := by
  simp only [retainName, h, Bound.admitLen]
  by_cases hlen : field.name.length ≤ limit.value
  · exact ⟨some field.name, by simp [hlen, bind, Except.bind, pure, Except.pure], rfl⟩
  · exact ⟨none, by simp [hlen, bind, Except.bind, pure, Except.pure], not_le.mp hlen⟩

theorem retainName_of_not_lookup {self : Decoder} {index : ℕ} {error : Error}
    (h : lookup self.table index = .error error) (limit : Bound) :
    self.retainName index limit = .error error := by
  simp only [retainName, h]
  rfl

end Decoder

/-- Where a literal with a complete name goes: into a draft, or into scratch storage when the table
has no room for it. -/
inductive Path.Named (decoder : Decoder) (limit : Bound) (name : Bytes) :
    Path → Option Bytes → Prop
  | staged (stage : ValueStage) (scratch : Option Bytes) (htable : stage.table = decoder.table)
      (hname : stage.name = name) (hvalue : stage.value = []) :
      Named decoder limit name (.staged stage decoder.core) scratch
  | ready (scratch : Option Bytes) (hscratch : Scratch.Holds limit scratch name)
      (hunfit : decoder.table.limit < name.length + entryOverhead) :
      Named decoder limit name (.ready decoder) scratch

theorem lookup_eq_ok_iff {table : Table} {index : ℕ} {field : Entry} :
    lookup table index = .ok field ↔
      (if index ≤ Statics.len then Statics.get index else table.field (index - Statics.len - 1)) =
        some field := by
  unfold lookup
  dsimp only
  split <;> simp_all

theorem copyName_of_lookup {stage : NameStage} (core : Core) {index : ℕ} {field : Entry}
    (h : lookup stage.table index = .ok field) :
    (∃ next : ValueStage, copyName stage core index = .ok (.staged next core) ∧
      next.table = stage.table ∧ next.name = field.name ∧ next.value = []) ∨
    (copyName stage core index = .ok (.ready ⟨stage.table, core⟩) ∧
      stage.table.limit < field.name.length + entryOverhead) := by
  rw [lookup_eq_ok_iff] at h
  simp only [copyName, copiedName]
  split at h
  next hstatic =>
    rw [if_pos hstatic, h]
    by_cases hfits : field.name.length + entryOverhead ≤ stage.table.limit
    · obtain ⟨next, hset, hnext⟩ := stage.setName_of_fits (Statics.length_name_le h) hfits
      exact Or.inl ⟨next, by simp only [hset], hnext⟩
    · have hset := stage.setName_of_not_fits (Statics.length_name_le h) hfits
      exact Or.inr ⟨by simp only [hset, NameStage.discard], not_le.mp hfits⟩
  next hdynamic =>
    obtain ⟨next, hcopy, hnext⟩ := stage.copy_of_field h
    exact Or.inl ⟨next, by simp only [if_neg hdynamic, hcopy], hnext⟩

theorem copyName_of_not_lookup {stage : NameStage} {core : Core} {index : ℕ} {error : Error}
    (h : lookup stage.table index = .error error) :
    copyName stage core index = .error .badIndex := by
  have hnone (field : Entry) : lookup stage.table index ≠ .ok field := by simp [h]
  simp only [ne_eq, lookup_eq_ok_iff] at hnone
  simp only [copyName, copiedName]
  split at hnone
  next hstatic =>
    have hget : Statics.get index = none := Option.eq_none_iff_forall_ne_some.mpr hnone
    simp only [if_pos hstatic, hget]
  next hdynamic =>
    have hget : stage.table.field (index - Statics.len - 1) = none :=
      Option.eq_none_iff_forall_ne_some.mpr hnone
    simp only [if_neg hdynamic, stage.copy_of_not_field hget]

namespace Decoder

theorem indexed_of_lookup {self : Decoder} {index : ℕ} {field : Entry}
    (h : lookup self.table index = .ok field) (limit : Bound) :
    ∃ path scratch, self.indexed index limit = .ok (path, ⟨field.name.length, scratch⟩) ∧
      Path.Named self limit field.name path scratch := by
  obtain ⟨scratch, hretain, hholds⟩ := retainName_of_lookup h limit
  -- Both ways to scratch storage end alike.
  have hready (hpath : self.beginIndexed index = .ok (.ready self))
      (hunfit : self.table.limit < field.name.length + entryOverhead) :
      ∃ path scratch, self.indexed index limit = .ok (path, ⟨field.name.length, scratch⟩) ∧
        Path.Named self limit field.name path scratch := by
    refine ⟨.ready self, scratch, ?_, .ready scratch hholds hunfit⟩
    simp only [indexed, hpath, bind, Except.bind, hretain, pure, Except.pure]
  cases hbegin : self.table.tryBegin with
  | none =>
    refine hready (by simp only [beginIndexed, hbegin]) ?_
    exact Nat.lt_add_left _ (Table.tryBegin_eq_none hbegin)
  | some stage =>
    obtain ⟨htable, -⟩ := Table.tryBegin_eq_some hbegin
    have hpath : self.beginIndexed index = copyName stage self.core index := by
      simp only [beginIndexed, hbegin]
    rcases copyName_of_lookup self.core (htable ▸ h) with
      ⟨next, hcopy, hnext, hname, hvalue⟩ | ⟨hcopy, hunfit⟩
    · refine ⟨.staged next self.core, some next.name, ?_, .staged next _ (hnext.trans htable) hname
        hvalue⟩
      simp only [indexed, hpath, hcopy, bind, Except.bind, pure, Except.pure, hname]
    · rw [htable] at hcopy hunfit
      exact hready (hpath.trans hcopy) hunfit

theorem indexed_of_not_lookup {self : Decoder} {index : ℕ} {error : Error}
    (h : lookup self.table index = .error error) (limit : Bound) :
    (self.indexed index limit).toOption = none := by
  simp only [indexed, beginIndexed, Except.toOption_bind]
  cases hbegin : self.table.tryBegin with
  | none =>
    simp [retainName_of_not_lookup h]
  | some stage =>
    obtain ⟨htable, -⟩ := Table.tryBegin_eq_some hbegin
    simp [copyName_of_not_lookup (htable ▸ h)]

theorem retention_le_context (self : Decoder) (budget : Budget) (index : Index) :
    budget.retention.value ≤ (self.context budget index).retainLimit.value := by
  unfold context
  cases index with
  | plain => exact le_rfl
  | never => exact le_rfl
  | indexed =>
    dsimp only
    split
    · exact Nat.le_max_left _ _
    · exact le_rfl

@[simp]
theorem context_index (self : Decoder) (budget : Budget) (index : Index) :
    (self.context budget index).index = index := rfl

end Decoder

/-! ## Literals of complete blocks -/

namespace Complete

theorem plainName_of_contents {decoder : Decoder} {name : Name} {nameBytes : Bytes}
    (h : name.contents decoder.table = some nameBytes) (limit : Bound) :
    ∃ scratch, plainName decoder limit name = .ok ⟨nameBytes.length, scratch⟩ ∧
      Scratch.Holds limit scratch nameBytes := by
  cases name with
  | literal encoded => exact Encoded.decodeNamed_of_contents h limit
  | indexed index =>
    cases hlookup : lookup decoder.table index with
    | error error => simp [Name.contents, hlookup] at h
    | ok field =>
      obtain rfl : field.name = nameBytes := by simpa [Name.contents, hlookup] using h
      exact decoder.retainName_of_lookup hlookup limit

theorem plainName_of_not_contents {decoder : Decoder} {name : Name}
    (h : name.contents decoder.table = none) (limit : Bound) :
    ∃ error, plainName decoder limit name = .error error := by
  cases name with
  | literal encoded => exact ⟨_, Encoded.decodeNamed_of_not_contents h limit⟩
  | indexed index =>
    cases hlookup : lookup decoder.table index with
    | ok field => simp [Name.contents, hlookup] at h
    | error error => exact ⟨_, decoder.retainName_of_not_lookup hlookup limit⟩

theorem readPlain_toOption (decoder : Decoder) (flow : Flow) {index : Index}
    (hindex : index ≠ .indexed) (name : Name) (value : Encoded) :
    (readPlain decoder flow index name value).toOption =
      (name.contents decoder.table).bind fun nameBytes =>
        value.contents.map fun valueBytes => decoder.literal flow index nameBytes valueBytes := by
  have hlimit := decoder.retention_le_context flow.budget index
  generalize hcontext : decoder.context flow.budget index = context at hlimit
  unfold readPlain
  cases hbytes : name.contents decoder.table with
  | none =>
    obtain ⟨error, hplain⟩ := plainName_of_not_contents hbytes context.retainLimit
    simp [hcontext, hplain]
  | some nameBytes =>
    obtain ⟨scratch, hplain, hholds⟩ := plainName_of_contents hbytes context.retainLimit
    rw [Option.bind_some]
    simp only [hcontext, hplain, Except.toOption_bind, Except.toOption_ok, Option.bind_some,
      Encoded.decodeSpan]
    cases hvalue : value.contents with
    | none => simp [Encoded.decodeNamed_of_not_contents hvalue]
    | some valueBytes =>
      obtain ⟨valueScratch, hdecode, hvalueHolds⟩ :=
        Encoded.decodeNamed_of_contents hvalue (context.begin nameBytes.length).limit
      have hfinish := Flow.finish_of_holds hlimit (fun _ => hholds) hvalueHolds
      have hliteral : decoder.literal flow index nameBytes valueBytes =
          (decoder, flow.field nameBytes valueBytes) := by
        unfold Decoder.literal
        cases index with
        | plain => rfl
        | never => rfl
        | indexed => contradiction
      simp only [hdecode, Except.toOption_ok, Option.bind_some, Except.toOption_pure,
        Option.map_some, hliteral]
      rw [← hfinish]
      rfl

/-- Names of literals are bounded where they are taken from the input. -/
def Short (name : Name) : Prop :=
  ∀ encoded, name = .literal encoded → encoded.payload.length ≤ maxLiteralLen

/-- The name of a literal that is to be indexed. -/
theorem readName_of_contents {decoder : Decoder} (context : LiteralContext) {name : Name}
    {nameBytes : Bytes} (hshort : Short name)
    (hname : name.contents decoder.table = some nameBytes) :
    ∃ path scratch, readName decoder context name =
        .ok (path, context.begin nameBytes.length, scratch) ∧
      Path.Named decoder context.retainLimit nameBytes path scratch := by
  cases name with
  | indexed index =>
    cases hlookup : lookup decoder.table index with
    | error error => simp [Name.contents, hlookup] at hname
    | ok field =>
      obtain rfl : field.name = nameBytes := by simpa [Name.contents, hlookup] using hname
      obtain ⟨path, scratch, hindexed, hpath⟩ :=
        decoder.indexed_of_lookup hlookup context.retainLimit
      refine ⟨path, scratch, ?_, hpath⟩
      simp only [readName, hindexed, bind, Except.bind, pure, Except.pure]
  | literal encoded =>
    have hmask : nameBytes.length ≤ nameLenMask := by
      have hlength := Encoded.length_of_contents hname
      have hpayload := hshort encoded rfl
      simp only [nameLenMask, maxLiteralLen] at *
      omega
    obtain ⟨scratch, hdecode, hholds⟩ := Encoded.decodeInto_of_contents hname context.retainLimit
    -- Both ways to scratch storage end alike.
    have hready (hstore : storeName decoder encoded = .ok none)
        (hunfit : decoder.table.limit < nameBytes.length + entryOverhead) :
        ∃ path scratch, readName decoder context (.literal encoded) =
            .ok (path, context.begin nameBytes.length, scratch) ∧
          Path.Named decoder context.retainLimit nameBytes path scratch := by
      refine ⟨.ready decoder, scratch, ?_, .ready scratch hholds hunfit⟩
      simp only [readName, hstore, hdecode, bind, Except.bind, pure, Except.pure]
    cases hbegin : decoder.table.tryBegin with
    | none =>
      refine hready (by simp only [storeName, hbegin]) ?_
      exact Nat.lt_add_left _ (Table.tryBegin_eq_none hbegin)
    | some stage =>
      obtain ⟨htable, hempty⟩ := Table.tryBegin_eq_some hbegin
      cases hwrite : stage.write nameBytes with
      | error error =>
        have hstore := Encoded.store_of_contents_refused NameStage.lawfulSink_write trivial hname
          hwrite
        have hunfit := NameStage.of_write_error hwrite
        rw [htable, hempty, List.nil_append] at hunfit
        exact hready (by simp only [storeName, hbegin, hstore]) hunfit
      | ok next =>
        have hstore := Encoded.store_of_contents NameStage.lawfulSink_write trivial hname hwrite
        obtain ⟨hnext, hnextName⟩ := NameStage.of_write_ok hwrite
        rw [hempty, List.nil_append] at hnextName
        obtain ⟨last, hfinish, hlast, hlastName, hlastValue⟩ :=
          nameStaged_ok context (hnextName ▸ hmask)
        refine ⟨.staged last decoder.core, some last.name, ?_,
          .staged last _ (hlast.trans (hnext.trans htable)) (hlastName.trans hnextName) hlastValue⟩
        simp only [readName, storeName, hbegin, hstore, hfinish, hnextName, bind, Except.bind, pure,
          Except.pure]

theorem readName_of_not_contents {decoder : Decoder} {context : LiteralContext} {name : Name}
    (hname : name.contents decoder.table = none) :
    (readName decoder context name).toOption = none := by
  cases name with
  | indexed index =>
    cases hlookup : lookup decoder.table index with
    | ok field => simp [Name.contents, hlookup] at hname
    | error error =>
      simp only [readName, Except.toOption_bind, decoder.indexed_of_not_lookup hlookup,
        Option.bind_none]
  | literal encoded =>
    have hdecode := Encoded.decodeInto_of_not_contents hname context.retainLimit
    have hstore : storeName decoder encoded = .error .encoding ∨
        storeName decoder encoded = .ok none := by
      unfold storeName
      cases decoder.table.tryBegin with
      | none => exact Or.inr rfl
      | some stage => exact Encoded.store_of_not_contents NameStage.lawfulSink_write stage trivial hname
    rcases hstore with hstore | hstore
    · simp [readName, hstore]
    · simp [readName, hstore, hdecode]

theorem readIndexed_toOption (decoder : Decoder) (flow : Flow) {name : Name} (hshort : Short name)
    (value : Encoded) :
    (readIndexed decoder flow name value).toOption =
      (name.contents decoder.table).bind fun nameBytes =>
        value.contents.map fun valueBytes => decoder.literal flow .indexed nameBytes valueBytes := by
  have hlimit := decoder.retention_le_context flow.budget .indexed
  have hindex := decoder.context_index flow.budget .indexed
  generalize hcontext : decoder.context flow.budget .indexed = context at hlimit hindex
  simp only [readIndexed, hcontext, Except.toOption_bind]
  cases hname : name.contents decoder.table with
  | none => simp [readName_of_not_contents hname]
  | some nameBytes =>
    obtain ⟨path, scratch, hread, hpath⟩ := readName_of_contents context hshort hname
    simp only [hread, Except.toOption_ok, Option.bind_some]
    -- Scratch storage: a literal that the table has no room for.
    have hready {table : Table} (htable : table = decoder.table) (scratch : Option Bytes)
        (hholds : Scratch.Holds context.retainLimit scratch nameBytes)
        (hunfit : ∀ valueBytes, value.contents = some valueBytes →
          decoder.table.limit < nameBytes.length + valueBytes.length + entryOverhead) :
        ((value.decodeInto (context.begin nameBytes.length).limit.option).toOption.bind fun decoded =>
          some (Decoder.value ⟨table, decoder.core⟩ flow (context.begin nameBytes.length) scratch
            decoded)) =
          value.contents.map fun valueBytes =>
            decoder.literal flow .indexed nameBytes valueBytes := by
      subst htable
      cases hvalue : value.contents with
      | none => simp [Encoded.decodeInto_of_not_contents hvalue]
      | some valueBytes =>
        obtain ⟨valueScratch, hdecode, hvalueHolds⟩ :=
          Encoded.decodeInto_of_contents hvalue (context.begin nameBytes.length).limit
        have hliteral := @Decoder.value_eq_literal decoder flow (context.begin nameBytes.length)
          scratch ⟨valueBytes.length, valueScratch⟩ nameBytes valueBytes hlimit rfl
          (fun _ => hholds) rfl hvalueHolds fun _ => hunfit valueBytes hvalue
        rw [show (context.begin nameBytes.length).index = .indexed from hindex] at hliteral
        simp [hdecode, ← hliteral]
    cases hpath with
    | ready _ hholds hunfit =>
      simp only [Except.toOption_bind, Except.toOption_pure]
      exact hready rfl _ hholds fun _ _ => by omega
    | staged stage _ htable hstageName hstageValue =>
      simp only [Except.toOption_bind]
      subst hstageName
      cases hvalue : value.contents with
      | none =>
        rcases Encoded.store_of_not_contents ValueStage.lawfulSink_write stage trivial hvalue with hstore | hstore
        · simp [hstore]
        · simp [hstore, Encoded.decodeInto_of_not_contents hvalue]
      | some valueBytes =>
        cases hwrite : stage.write valueBytes with
        | ok next =>
          have hstore := Encoded.store_of_contents ValueStage.lawfulSink_write trivial hvalue hwrite
          obtain ⟨hnext, hnextName, hnextValue⟩ := ValueStage.of_write_ok hwrite
          rw [hstageValue, List.nil_append] at hnextValue
          have hliteral := @valueStaged_eq_literal next decoder.core flow
            (context.begin stage.name.length) (by rw [hnextName]; rfl)
          rw [hnext, htable, hnextName, hnextValue] at hliteral
          simp [hstore, hliteral]
        | error error =>
          have hstore := Encoded.store_of_contents_refused ValueStage.lawfulSink_write trivial hvalue
            hwrite
          have hunfit := ValueStage.of_write_error hwrite
          rw [hstageValue, List.nil_append, htable] at hunfit
          have hspill := hready htable (some stage.name) rfl fun _ h => by
            obtain rfl := Option.some.inj (hvalue.symm.trans h)
            exact hunfit
          rw [hvalue] at hspill
          simpa only [hstore, Except.toOption_ok, Option.bind_some, Except.toOption_bind,
            Except.toOption_pure, ValueStage.discard] using hspill

end Complete

end Sark.Hpack
