import Sark.H3.Qpack.Literal

/-!
# Field lines

How a QPACK decoder reads a field section (`h3/src/qpack/decoder/lines.rs`, `fields.rs`): the lines
one by one, each an indexed field or a literal, from a slice or from the chunks of the input.

* `Lines.along_turn`: a line is read with a cursor as from a slice.
-/

namespace Sark.Qpack

open H3 (Cursor Span Form Source)

/-! ## Scanned bytes -/

/-- `buffer::Scanner`, and what its scan comes to. -/
structure Scanner (S P : Type) where
  empty : S
  push : S → UInt8 → S
  finish : S → P

/-- `block::Named` or `block::Valued`: bytes, and what was found out about them. -/
structure Scanned (P : Type) where
  span : Bytes
  proof : P
  deriving DecidableEq, Repr

/-- `buffer::Buffer`. -/
structure Buffer (S : Type) where
  bytes : Bytes
  scan : S
  deriving DecidableEq, Repr

namespace Scanner

variable {S P ε : Type} (self : Scanner S P)

/-- `Named::from_span` or `Valued::from_span`. -/
def fromSpan (span : Bytes) : Scanned P :=
  ⟨span, self.finish (span.foldl self.push self.empty)⟩

/-- `Writer::write_slice`, without a limit of its own. -/
def writeBuffer (buffer : Buffer S) (bytes : Bytes) : Except ε (Buffer S) :=
  .ok ⟨buffer.bytes ++ bytes, bytes.foldl self.push buffer.scan⟩

/-- `Value::write_slice`. -/
def writeScan (scan : S) (bytes : Bytes) : Except ε S :=
  .ok (bytes.foldl self.push scan)

end Scanner

namespace Literal

variable {S P ε : Type} (scanner : Scanner S P)

/-- `Literal::decode_name` or `Literal::decode_into`. -/
def decodeInto (self : Literal) (max : ℕ) : Except (DecodeError ε) (Scanned P) :=
  (self.writeTo scanner.writeBuffer max ⟨[], scanner.empty⟩).map fun written =>
    ⟨written.2.bytes, scanner.finish written.2.scan⟩

/-- `Literal::validate`. -/
def validate (self : Literal) (max : ℕ) : Except (DecodeError ε) (ℕ × P) :=
  (self.writeTo scanner.writeScan max scanner.empty).map fun written =>
    (written.1, scanner.finish written.2)

end Literal

/-- `Budget::subtract`. -/
def subtract {ε : Type} (available required : ℕ) : Except (DecodeError ε) ℕ :=
  if required ≤ available then .ok (available - required)
  else .error (.fieldCapacity available required)

/-- A name or a value in full, and what it leaves of a budget: one that stands in one piece is not
copied. -/
def Literal.resolve {S P ε : Type} (scanner : Scanner S P) (self : Literal) (budget : ℕ) :
    Except (DecodeError ε) (Scanned P × ℕ) :=
  match self.access with
  | .raw bytes => (subtract budget bytes.length).map fun left => (scanner.fromSpan bytes, left)
  | .materialize => do
    let scanned ← self.decodeInto scanner budget
    (subtract budget scanned.span.length).map fun left => (scanned, left)

/-! ## The output -/

/-- `field::Indexing`. -/
inductive Indexing
  | allowed
  | never
  deriving DecidableEq, Repr

/-- `fields::Name`. -/
inductive Name (N : Type)
  | known (name : Scanned N)
  | literal (name : Literal)
  deriving DecidableEq, Repr

/-- `complete::Selection`. -/
inductive Selection (C F : Type)
  | skipped (decoder : C)
  | buffered (field : F)

/-- `complete::Decoder`, under any policy: which fields it selects, and what it does with them. -/
structure Consumer (C F N V ε : Type) where
  select : C → Scanned N → Selection C F
  validate : C → V → C
  push : F → Scanned V → Indexing → Except ε C

/-- `fields::FieldOutput`. -/
structure FieldOutput (C K : Type) where
  consumer : C
  remaining : ℕ
  identity : Option K
  deriving DecidableEq, Repr

/-- What fields are scanned, identified and consumed with. -/
structure Handlers (C F K SN N SV V ε : Type) where
  names : Scanner SN N
  values : Scanner SV V
  tryField : K → Bytes → Bytes → Except ε K
  consumer : Consumer C F N V ε

namespace FieldOutput

variable {C F K SN N SV V ε : Type} (handlers : Handlers C F K SN N SV V ε)

/-- `Identity::try_field`, if there is an identity. -/
def identify (identity : Option K) (name value : Bytes) : Except (DecodeError ε) (Option K) :=
  match identity with
  | none => .ok none
  | some identity => ((handlers.tryField identity name value).mapError .output).map some

/-- What the consumer does with a field that it has selected. -/
def consume (selection : Selection C F) (value : Scanned V) (indexing : Indexing) :
    Except (DecodeError ε) C :=
  match selection with
  | .skipped decoder => .ok (handlers.consumer.validate decoder value.proof)
  | .buffered field => (handlers.consumer.push field value indexing).mapError .output

/-- `FieldOutput::push_proven`. -/
def pushProven (self : FieldOutput C K) (name : Scanned N) (value : Scanned V) :
    Except (DecodeError ε) (FieldOutput C K) := do
  let limit ← subtract self.remaining 32
  let limit ← subtract limit name.span.length
  let left ← subtract limit value.span.length
  let identity ← identify handlers self.identity name.span value.span
  let consumer ← consume handlers (handlers.consumer.select self.consumer name) value .allowed
  .ok ⟨consumer, left, identity⟩

/-- A name, and what it leaves of the budget. -/
def resolveName (name : Name N) (budget : ℕ) : Except (DecodeError ε) (Scanned N × ℕ) :=
  match name with
  | .known name => (subtract budget name.span.length).map fun limit => (name, limit)
  | .literal name => name.resolve handlers.names budget

/-- What is done with the value of a field. One that is skipped, and that nothing is identified by,
is only validated. -/
def pushValue (identity : Option K) (selection : Selection C F) (name : Bytes) (value : Literal)
    (indexing : Indexing) (limit : ℕ) : Except (DecodeError ε) (FieldOutput C K) :=
  match selection, identity with
  | .skipped decoder, none => do
    let valid ← value.validate handlers.values limit
    let left ← subtract limit valid.1
    .ok ⟨handlers.consumer.validate decoder valid.2, left, none⟩
  | selection, identity => do
    let resolved ← value.resolve handlers.values limit
    let identity ← identify handlers identity name resolved.1.span
    let consumer ← consume handlers selection resolved.1 indexing
    .ok ⟨consumer, resolved.2, identity⟩

/-- `FieldOutput::push`. -/
def push (self : FieldOutput C K) (name : Name N) (value : Literal) (indexing : Indexing) :
    Except (DecodeError ε) (FieldOutput C K) := do
  let budget ← subtract self.remaining 32
  let named ← resolveName handlers name budget
  pushValue handlers self.identity (handlers.consumer.select self.consumer named.1) named.1.span
    value indexing named.2

end FieldOutput

/-! ## Lines -/

/-- An entry of a table. -/
structure Field (N V : Type) where
  name : Scanned N
  value : Scanned V
  deriving DecidableEq, Repr

/-- `lines::Access`, and the static table. -/
structure Tables (N V ε : Type) where
  static : ℕ → Except (DecodeError ε) (Field N V)
  pre : ℕ → UInt8 → ℕ → Except (DecodeError ε) (Field N V)
  post : ℕ → UInt8 → ℕ → Except (DecodeError ε) (Field N V)

/-- `lines::Sink`. -/
structure LineSink (O N V ε : Type) where
  indexed : O → Scanned N → Scanned V → Except (DecodeError ε) O
  literal : O → Name N → Literal → Indexing → Except (DecodeError ε) O

/-- `inputs::Input`, with the literals of its lines. -/
class LineInput (I : Type) extends Input I where
  literal {ε : Type} : ℕ → I → Except (DecodeError ε) (Literal × I)

instance : LineInput Bytes where
  literal := Literal.take

/-- `Input for Segmented`. -/
instance : LineInput Cursor where
  remaining := Cursor.remaining
  peek := Cursor.peek
  prefixed := fun bits input => (input.prefixed bits).mapError (.ofInteger bits input.remaining)
  literal := Literal.parseCursor

/-- `lines::indexing`. -/
def indexing (first mask : UInt8) : Indexing :=
  if first &&& mask = 0 then .allowed else .never

namespace Lines

variable {I O N V ε : Type} [LineInput I]

/-- A prefixed integer of a line. -/
def prefixed (bits : ℕ) (input : I) : Except (DecodeError ε) (ℕ × I) :=
  (Input.prefixed bits input).mapError .input

/-- An entry of the static table or of the dynamic one. -/
def reference (tables : Tables N V ε) (base : ℕ) (first mask : UInt8) (index : ℕ) :
    Except (DecodeError ε) (Field N V) :=
  if first &&& mask ≠ 0 then tables.static index else tables.pre base first index

/-- One turn of the loop of `Lines::decode`, behind the first byte of a line. -/
def line (tables : Tables N V ε) (sink : LineSink O N V ε) (base : ℕ) (first : UInt8) (input : I)
    (output : O) : Except (DecodeError ε) (O × I) :=
  if first &&& 0x80 ≠ 0 then do
    let index ← prefixed 6 input
    let field ← reference tables base first 0x40 index.1
    (sink.indexed output field.name field.value).map fun output => (output, index.2)
  else if first &&& 0xc0 = 0x40 then do
    let index ← prefixed 4 input
    let value ← LineInput.literal 7 index.2
    let field ← reference tables base first 0x10 index.1
    (sink.literal output (.known field.name) value.1 (indexing first 0x20)).map fun output =>
      (output, value.2)
  else if first &&& 0xf0 = 0x10 then do
    let index ← prefixed 4 input
    let field ← tables.post base first index.1
    (sink.indexed output field.name field.value).map fun output => (output, index.2)
  else if first &&& 0xf0 = 0x00 then do
    let index ← prefixed 3 input
    let value ← LineInput.literal 7 index.2
    let field ← tables.post base first index.1
    (sink.literal output (.known field.name) value.1 (indexing first 0x08)).map fun output =>
      (output, value.2)
  else do
    let name ← LineInput.literal 3 input
    let value ← LineInput.literal 7 name.2
    (sink.literal output (.literal name.1) value.1 (indexing first 0x10)).map fun output =>
      (output, value.2)

/-- The loop of `Lines::decode`, for as many turns as there are bytes. -/
def decodeFrom (tables : Tables N V ε) (sink : LineSink O N V ε) (base : ℕ) (input : I)
    (output : O) : ℕ → Except (DecodeError ε) O
  | 0 =>
    if Input.remaining input = 0 then .ok output
    else .error (.input (.incomplete (Input.remaining input)))
  | turns + 1 =>
    if Input.remaining input = 0 then .ok output
    else
      match Input.peek input with
      | (none, input) => .error (.input (.incomplete (Input.remaining input)))
      | (some first, input) =>
        match line tables sink base first input output with
        | .error error => .error error
        | .ok (output, input) => decodeFrom tables sink base input output turns

/-- `Lines::decode`. -/
def decode (tables : Tables N V ε) (sink : LineSink O N V ε) (base : ℕ) (input : I) (output : O) :
    Except (DecodeError ε) O :=
  decodeFrom tables sink base input output (Input.remaining input)

end Lines

/-! ## Readers that go as far -/

/-- A reader of a slice and one with a cursor that go as far and answer in forms of their own, or
that both fail. -/
inductive Along {ε ε' α β : Type} (same : α → β → Prop) :
    Except ε (α × Bytes) → Except ε' (β × Cursor) → Prop
  | ok {value : α} {value' : β} {rest : Bytes} {next : Cursor} : same value value' →
      next.Holds rest → Along same (.ok (value, rest)) (.ok (value', next))
  | error {cause : ε} {cause' : ε'} : Along same (.error cause) (.error cause')

namespace Along

variable {ε ε' α β γ δ O : Type} {same : α → β → Prop} {same' : γ → δ → Prop}

theorem of_reads {answer : Except ε (α × Bytes)} {read : Except ε (β × Cursor)}
    (h : Cursor.Reads same answer read) : Along same answer read := by
  cases h with
  | ok hsame hnext => exact .ok hsame hnext
  | error => exact .error

theorem bind {answer : Except ε (α × Bytes)} {read : Except ε' (β × Cursor)}
    (h : Along same answer read) {f : α × Bytes → Except ε (γ × Bytes)}
    {g : β × Cursor → Except ε' (δ × Cursor)}
    (hnext : ∀ {value value' rest next}, same value value' → next.Holds rest →
      Along same' (f (value, rest)) (g (value', next))) :
    Along same' (answer >>= f) (read >>= g) := by
  cases h with
  | ok hsame hholds => exact hnext hsame hholds
  | error => exact .error

theorem bind_same (step : Except ε γ) {f : γ → Except ε (α × Bytes)}
    {g : γ → Except ε (β × Cursor)} (h : ∀ value, Along same (f value) (g value)) :
    Along same (step >>= f) (step >>= g) := by
  cases step with
  | ok value => exact h value
  | error cause => exact .error

theorem output {written written' : Except ε O} {valid : O → Prop} {rest : Bytes} {next : Cursor}
    (h : written.toOption = written'.toOption)
    (hvalid : ∀ output, written = .ok output → valid output)
    (hnext : next.Holds rest) :
    Along (fun output output' => output = output' ∧ valid output)
      (written.map fun output => (output, rest)) (written'.map fun output => (output, next)) := by
  cases written with
  | error cause =>
    cases written' with
    | error cause' => exact .error
    | ok output => exact absurd h.symm (by simp [Except.toOption])
  | ok output =>
    cases written' with
    | error cause' => exact absurd h (by simp [Except.toOption])
    | ok output' => exact .ok ⟨Option.some.inj h, hvalid output rfl⟩ hnext

end Along

/-- The same name, known or literal. -/
inductive Name.Same {N : Type} : Name N → Name N → Prop
  | known (name : Scanned N) : Name.Same (.known name) (.known name)
  | literal {name name' : Literal} : name.Same name' → Name.Same (.literal name) (.literal name')

/-- A sink that takes literals by what they denote, as long as it is valid. -/
structure LineSink.Agrees {O N V ε : Type} (sink : LineSink O N V ε) (valid : O → Prop) : Prop where
  indexed_valid : ∀ {output name value next}, valid output →
    sink.indexed output name value = .ok next → valid next
  literal_valid : ∀ {output name value indexing next}, valid output →
    sink.literal output name value indexing = .ok next → valid next
  literal_eq : ∀ {output name name' value value'} (indexing), valid output → Name.Same name name' →
    Literal.Same value value' →
      (sink.literal output name value indexing).toOption =
        (sink.literal output name' value' indexing).toOption

namespace Lines

variable {O N V ε : Type} {input : Bytes} {cursor : Cursor}

theorem reads_inputPrefixed (h : cursor.Holds input) (bits : ℕ) :
    Cursor.Reads Eq (Input.prefixed bits input) (Input.prefixed bits cursor) := by
  show Cursor.Reads Eq ((Metadata.PrefixedInt.take bits input).mapError _)
    ((cursor.prefixed bits).mapError _)
  rw [h.remaining_eq]
  exact (h.prefixed bits).mapError _

theorem along_prefixed (h : cursor.Holds input) (bits : ℕ) :
    Along Eq (prefixed bits input : Except (DecodeError ε) _)
      (prefixed bits cursor : Except (DecodeError ε) _) :=
  .of_reads ((reads_inputPrefixed h bits).mapError _)

theorem along_literal (h : cursor.Holds input) (bits : ℕ) :
    Along Literal.Same (LineInput.literal bits input : Except (DecodeError ε) _)
      (LineInput.literal bits cursor : Except (DecodeError ε) _) :=
  .of_reads (Literal.reads_parseCursor h bits)

variable {tables : Tables N V ε} {sink : LineSink O N V ε} {valid : O → Prop} {output : O}

theorem along_line (hsink : sink.Agrees valid) (hvalid : valid output) (h : cursor.Holds input)
    (base : ℕ) (first : UInt8) :
    Along (fun output output' => output = output' ∧ valid output)
      (line tables sink base first input output) (line tables sink base first cursor output) := by
  rw [line, line]
  split_ifs
  · refine (along_prefixed h 6).bind ?_
    rintro index _ rest next rfl hnext
    exact .bind_same _ fun field =>
      .output rfl (fun _ => hsink.indexed_valid hvalid) hnext
  · refine (along_prefixed h 4).bind ?_
    rintro index _ rest next rfl hnext
    refine (along_literal hnext 7).bind fun hvalue hlast => ?_
    exact .bind_same _ fun field =>
      .output (hsink.literal_eq _ hvalid (.known field.name) hvalue)
        (fun _ => hsink.literal_valid hvalid) hlast
  · refine (along_prefixed h 4).bind ?_
    rintro index _ rest next rfl hnext
    exact .bind_same _ fun field =>
      .output rfl (fun _ => hsink.indexed_valid hvalid) hnext
  · refine (along_prefixed h 3).bind ?_
    rintro index _ rest next rfl hnext
    refine (along_literal hnext 7).bind fun hvalue hlast => ?_
    exact .bind_same _ fun field =>
      .output (hsink.literal_eq _ hvalid (.known field.name) hvalue)
        (fun _ => hsink.literal_valid hvalid) hlast
  · refine (along_literal h 3).bind fun hname hnext => ?_
    refine (along_literal hnext 7).bind fun hvalue hlast => ?_
    exact .output (hsink.literal_eq _ hvalid (.literal hname) hvalue)
      (fun _ => hsink.literal_valid hvalid) hlast

theorem decodeFrom_toOption (hsink : sink.Agrees valid) (hvalid : valid output)
    (h : cursor.Holds input) (base turns : ℕ) :
    (decodeFrom tables sink base input output turns).toOption =
      (decodeFrom tables sink base cursor output turns).toOption := by
  have hremaining : ∀ {input : Bytes} {cursor : Cursor}, cursor.Holds input →
      Input.remaining cursor = Input.remaining input := fun h => h.remaining_eq
  induction turns generalizing input cursor output with
  | zero => rw [decodeFrom, decodeFrom, hremaining h]
  | succ turns ih =>
    rw [decodeFrom, decodeFrom, hremaining h]
    split_ifs with hempty
    · rfl
    · obtain ⟨hbyte, hnext⟩ := h.peek
      have hinput : Input.peek input = (input.head?, input) := rfl
      have hcursor : Input.peek cursor = cursor.peek := rfl
      rw [hinput, hcursor]
      rcases hpeek : cursor.peek with ⟨found, next⟩
      rw [hpeek] at hbyte hnext
      obtain rfl : found = input.head? := hbyte
      cases input.head? with
      | none => rfl
      | some first =>
        have hline := @along_line O N V ε input next tables sink valid output hsink hvalid hnext
          base first
        dsimp only
        generalize line tables sink base first input output = answer at hline
        generalize line tables sink base first next output = read at hline
        rcases hline with ⟨⟨rfl, houtput⟩, hlast⟩ | _
        · exact ih houtput hlast
        · rfl

end Lines

/-! ## What fields come to -/

/-- What a literal decodes to, whatever the limit. -/
def Literal.decoded (encoding : Metadata.Encoding) (bytes : Bytes) : Option Bytes :=
  ((Metadata.Cursor.new bytes.length encoding).run bytes).bind fun result =>
    result.1.finish.map fun _ => result.2

namespace Literal

variable {S P ε : Type} {scanner : Scanner S P} {literal : Literal} {encoding : Metadata.Encoding}
  {bytes : Bytes} {max : ℕ}

theorem lawfulSink_writeBuffer :
    LawfulSink (scanner.writeBuffer : Buffer S → Bytes → Except ε (Buffer S)) fun _ => True where
  nil buffer _ := by rw [Scanner.writeBuffer, List.append_nil, List.foldl_nil]
  valid_of_ok _ := trivial
  append_ok := by
    rintro buffer next first second ⟨rfl⟩
    simp only [Scanner.writeBuffer, List.append_assoc, List.foldl_append]
  append_error := by
    rintro buffer error first second ⟨⟩

theorem lawfulSink_writeScan :
    LawfulSink (scanner.writeScan : S → Bytes → Except ε S) fun _ => True where
  nil scan _ := rfl
  valid_of_ok _ := trivial
  append_ok := by
    rintro scan next first second ⟨rfl⟩
    simp only [Scanner.writeScan, List.foldl_append]
  append_error := by
    rintro scan error first second ⟨⟩

theorem toOption_tryWrite {σ : Type} {write : σ → Bytes → Except ε σ} {sink : σ} {output : Bytes}
    {next : σ} (h : write sink output = .ok next) :
    ((⟨sink, 0⟩ : Limited σ).tryWrite write max output).toOption =
      if output.length ≤ max then some ⟨next, output.length⟩ else none := by
  rw [Limited.tryWrite, Except.toOption_mapError, Limited.write, h, Nat.zero_add]
  by_cases hlimit : output.length ≤ max
  · rw [if_neg (Nat.not_lt.mpr hlimit), if_pos hlimit]
    rfl
  · rw [if_pos (Nat.not_le.mp hlimit), if_neg hlimit]
    rfl

theorem toOption_decodeInto (h : literal.Denotes encoding bytes) :
    (literal.decodeInto scanner max : Except (DecodeError ε) _).toOption =
      (decoded encoding bytes).bind fun output =>
        if output.length ≤ max then some (scanner.fromSpan output) else none := by
  rw [decodeInto, Except.toOption_map, toOption_writeTo lawfulSink_writeBuffer h trivial, decoded]
  cases (Metadata.Cursor.new bytes.length encoding).run bytes with
  | none => rfl
  | some result =>
    obtain ⟨string, output⟩ := result
    rw [Option.bind_some, Option.bind_some, toOption_tryWrite rfl]
    cases string.finish <;> by_cases hlimit : output.length ≤ max <;>
      simp [hlimit, Scanner.fromSpan]

theorem finish_of_run {next : Metadata.Cursor} {output : Bytes} {len : ℕ}
    (hrun : (Metadata.Cursor.new bytes.length encoding).run bytes = some (next, output))
    (hfinish : next.finish = some len) : len = output.length := by
  obtain ⟨state, -, -, rfl⟩ := Metadata.Cursor.run_eq_some_iff.mp hrun
  have hall : 0 + output.length = output.length := Nat.zero_add _
  rw [Metadata.Cursor.finish] at hfinish
  split_ifs at hfinish
  split at hfinish
  next =>
    split_ifs at hfinish
    exact (Option.some.inj hfinish).symm.trans hall
  next => exact (Option.some.inj hfinish).symm.trans hall

theorem toOption_validate (h : literal.Denotes encoding bytes) :
    (literal.validate scanner max : Except (DecodeError ε) _).toOption =
      (decoded encoding bytes).bind fun output =>
        if output.length ≤ max then some (output.length, (scanner.fromSpan output).proof)
        else none := by
  rw [validate, Except.toOption_map, toOption_writeTo lawfulSink_writeScan h trivial, decoded]
  cases hrun : (Metadata.Cursor.new bytes.length encoding).run bytes with
  | none => rfl
  | some result =>
    obtain ⟨string, output⟩ := result
    rw [Option.bind_some, Option.bind_some, toOption_tryWrite rfl]
    cases hfinish : string.finish with
    | none => by_cases hlimit : output.length ≤ max <;> simp [hlimit]
    | some len =>
      obtain rfl := finish_of_run hrun hfinish
      by_cases hlimit : output.length ≤ max <;> simp [hlimit, Scanner.fromSpan]

/-- A plain literal is decoded, unless the number of its bytes is not one of 32 bits. -/
theorem decoded_plain (bytes : Bytes) :
    decoded .plain bytes = if bytes.length < 2 ^ 32 then some bytes else none := by
  rw [decoded]
  cases hrun : (Metadata.Cursor.new bytes.length .plain).run bytes with
  | none =>
    rw [Option.bind_none]
    by_cases hlength : bytes.length < 2 ^ 32
    · have hfits : 0 + (bytes.take bytes.length).length < 2 ^ 32 := by
        rw [List.take_length, Nat.zero_add]
        exact hlength
      have hsome : (Metadata.Cursor.new bytes.length .plain).run bytes = some _ :=
        Metadata.Cursor.run_eq_some_iff.mpr
          ⟨.plain, rfl, hfits, rfl⟩
      exact absurd (hrun.symm.trans hsome) (by simp)
    · rw [if_neg hlength]
  | some result =>
    obtain ⟨next, output⟩ := result
    obtain ⟨state, hstate, hlt, rfl⟩ := Metadata.Cursor.run_eq_some_iff.mp hrun
    have htake : bytes.take (Metadata.Cursor.new bytes.length .plain).remaining = bytes :=
      List.take_length
    rw [htake] at hstate
    obtain ⟨rfl, rfl⟩ := Prod.mk.inj (Option.some.inj hstate)
    have hlength : bytes.length < 2 ^ 32 := by
      rw [Metadata.Cursor.new, Nat.zero_add] at hlt
      exact hlt
    rw [if_pos hlength]
    simp [Metadata.Cursor.finish, Metadata.Cursor.new]

/-- A name or a value of less than 2^32 bytes, whether it stands in one piece or not. -/
theorem toOption_resolve (h : literal.Denotes encoding bytes) {budget : ℕ}
    (hbudget : budget < 2 ^ 32) :
    (literal.resolve scanner budget : Except (DecodeError ε) _).toOption =
      (decoded encoding bytes).bind fun output =>
        if output.length ≤ budget then some (scanner.fromSpan output, budget - output.length)
        else none := by
  rw [resolve]
  split
  next raw hraw =>
    -- Only a plain literal is accessed as it is.
    have hplain : encoding = .plain := by
      rw [access, h.encoding_eq] at hraw
      cases encoding with
      | plain => rfl
      | huffman => exact absurd hraw (by simp)
    obtain rfl := h.access_eq raw hraw
    subst hplain
    rw [Except.toOption_map, decoded_plain, subtract]
    by_cases hlimit : raw.length ≤ budget
    · rw [if_pos hlimit, if_pos (hlimit.trans_lt hbudget), Option.bind_some, if_pos hlimit]
      rfl
    · rw [if_neg hlimit]
      by_cases hlength : raw.length < 2 ^ 32
      · rw [if_pos hlength, Option.bind_some, if_neg hlimit]
        rfl
      · rw [if_neg hlength]
        rfl
  next =>
    rw [Except.toOption_bind, toOption_decodeInto h, Option.bind_assoc]
    refine Option.bind_congr fun output _ => ?_
    by_cases hlimit : output.length ≤ budget <;> simp [hlimit, subtract, Scanner.fromSpan]

end Literal

namespace FieldOutput

variable {C F K SN N SV V ε : Type} {handlers : Handlers C F K SN N SV V ε}

theorem subtract_eq_ok_iff {available required left : ℕ} :
    (subtract available required : Except (DecodeError ε) ℕ) = .ok left ↔
      required ≤ available ∧ available - required = left := by
  rw [subtract]
  split_ifs with h
  · simp [h]
  · simp [h]

theorem resolve_le {S P : Type} {scanner : Scanner S P} {literal : Literal} {budget : ℕ}
    {resolved : Scanned P × ℕ}
    (h : (literal.resolve scanner budget : Except (DecodeError ε) _) = .ok resolved) :
    resolved.2 ≤ budget := by
  rw [Literal.resolve] at h
  split at h
  next =>
    obtain ⟨left, hleft, rfl⟩ := Except.map_eq_ok_iff.mp h
    obtain ⟨-, rfl⟩ := subtract_eq_ok_iff.mp hleft
    exact Nat.sub_le _ _
  next =>
    obtain ⟨scanned, -, hrest⟩ := Except.bind_eq_ok_iff.mp h
    obtain ⟨left, hleft, rfl⟩ := Except.map_eq_ok_iff.mp hrest
    obtain ⟨-, rfl⟩ := subtract_eq_ok_iff.mp hleft
    exact Nat.sub_le _ _

theorem resolveName_le {name : Name N} {budget : ℕ} {named : Scanned N × ℕ}
    (h : resolveName handlers name budget = .ok named) : named.2 ≤ budget := by
  cases name with
  | known name =>
    obtain ⟨left, hleft, rfl⟩ := Except.map_eq_ok_iff.mp h
    obtain ⟨-, rfl⟩ := subtract_eq_ok_iff.mp hleft
    exact Nat.sub_le _ _
  | literal name => exact resolve_le h

theorem resolve_same {S P : Type} {scanner : Scanner S P} {literal literal' : Literal} {budget : ℕ}
    (h : literal.Same literal') (hbudget : budget < 2 ^ 32) :
    (literal.resolve scanner budget : Except (DecodeError ε) _).toOption =
      (literal'.resolve scanner budget : Except (DecodeError ε) _).toOption := by
  obtain ⟨encoding, bytes, hdenotes, hdenotes'⟩ := h
  rw [Literal.toOption_resolve hdenotes hbudget, Literal.toOption_resolve hdenotes' hbudget]

theorem resolveName_same {name name' : Name N} {budget : ℕ} (h : Name.Same name name')
    (hbudget : budget < 2 ^ 32) :
    (resolveName handlers name budget).toOption = (resolveName handlers name' budget).toOption := by
  cases h with
  | known name => rfl
  | literal hname => exact resolve_same hname hbudget

theorem pushValue_same {identity : Option K} {selection : Selection C F} {name : Bytes}
    {value value' : Literal} {indexing : Indexing} {limit : ℕ} (h : value.Same value')
    (hlimit : limit < 2 ^ 32) :
    (pushValue handlers identity selection name value indexing limit).toOption =
      (pushValue handlers identity selection name value' indexing limit).toOption := by
  have hresolved := @resolve_same ε SV V handlers.values value value' limit h hlimit
  rw [pushValue.eq_def, pushValue.eq_def]
  split
  next =>
    obtain ⟨encoding, bytes, hdenotes, hdenotes'⟩ := h
    simp only [Except.toOption_bind, Literal.toOption_validate hdenotes,
      Literal.toOption_validate hdenotes']
  next => simp only [Except.toOption_bind, hresolved]

theorem push_same {output : FieldOutput C K} {name name' : Name N} {value value' : Literal}
    (indexing : Indexing) (hremaining : output.remaining < 2 ^ 32 + 32)
    (hname : Name.Same name name')
    (hvalue : value.Same value') :
    (output.push handlers name value indexing).toOption =
      (output.push handlers name' value' indexing).toOption := by
  rw [push, push, Except.toOption_bind, Except.toOption_bind]
  refine Option.bind_congr fun budget hbudget => ?_
  obtain ⟨-, rfl⟩ := subtract_eq_ok_iff.mp (Except.toOption_eq_some_iff.mp hbudget)
  rw [Except.toOption_bind, Except.toOption_bind, resolveName_same hname (by omega)]
  refine Option.bind_congr fun named hnamed => ?_
  have hle := resolveName_le (Except.toOption_eq_some_iff.mp hnamed)
  exact pushValue_same hvalue (by omega)

theorem remaining_of_pushProven {output next : FieldOutput C K} {name : Scanned N}
    {value : Scanned V} (h : output.pushProven handlers name value = .ok next) :
    next.remaining ≤ output.remaining := by
  simp only [pushProven, Except.bind_eq_ok_iff, subtract_eq_ok_iff] at h
  obtain ⟨_, ⟨-, rfl⟩, _, ⟨-, rfl⟩, _, ⟨-, rfl⟩, _, -, _, -, hnext⟩ := h
  obtain rfl := Except.ok.inj hnext
  dsimp only
  omega

theorem remaining_of_pushValue {identity : Option K} {selection : Selection C F} {name : Bytes}
    {value : Literal} {indexing : Indexing} {limit : ℕ} {next : FieldOutput C K}
    (h : pushValue handlers identity selection name value indexing limit = .ok next) :
    next.remaining ≤ limit := by
  rw [pushValue.eq_def] at h
  split at h
  next =>
    simp only [Except.bind_eq_ok_iff, subtract_eq_ok_iff] at h
    obtain ⟨_, -, _, ⟨-, rfl⟩, hnext⟩ := h
    obtain rfl := Except.ok.inj hnext
    exact Nat.sub_le _ _
  next =>
    simp only [Except.bind_eq_ok_iff] at h
    obtain ⟨resolved, hresolved, _, -, _, -, hnext⟩ := h
    obtain rfl := Except.ok.inj hnext
    exact resolve_le hresolved

theorem remaining_of_push {output next : FieldOutput C K} {name : Name N} {value : Literal}
    {indexing : Indexing} (h : output.push handlers name value indexing = .ok next) :
    next.remaining ≤ output.remaining := by
  simp only [push, Except.bind_eq_ok_iff, subtract_eq_ok_iff] at h
  obtain ⟨_, ⟨-, rfl⟩, named, hnamed, hnext⟩ := h
  have hle := resolveName_le hnamed
  have hless := remaining_of_pushValue hnext
  omega

/-- `Sink for Fields`. -/
def sink (handlers : Handlers C F K SN N SV V ε) : LineSink (FieldOutput C K) N V ε :=
  ⟨pushProven handlers, push handlers⟩

/-- The output takes literals by what they denote, unless its limit admits one of 2^32 bytes. -/
theorem agrees_sink : (sink handlers).Agrees fun output => output.remaining < 2 ^ 32 + 32 where
  indexed_valid hvalid h := (remaining_of_pushProven h).trans_lt hvalid
  literal_valid hvalid h := (remaining_of_push h).trans_lt hvalid
  literal_eq indexing hvalid hname hvalue := push_same indexing hvalid hname hvalue

end FieldOutput

end Sark.Qpack
