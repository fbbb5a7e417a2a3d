import Sark.H3.Qpack.Lines
import Sark.H3.Frame.Integer

/-!
# Field sections

How a QPACK decoder reads a field section from a source (`h3/src/qpack/decoder/mod.rs`): the prefix
and the lines, from a slice where the source is in one piece and from its chunks where it is not.

* `Prepared.along_parse`: the prefix is read with a cursor as from a slice.
* `decodeSection_toOption`: a section comes to the same in either form, under a limit.
* `segmentation_invisible`: however an input is cut, it is read as one piece is.
* `segmentation_visible`: without the limit, a section with a name of 2^32 bytes is not.
-/

namespace Sark.Qpack

open H3 (Cursor Span Form Source VarInt ParseError Settings)
open Metadata (PrefixedInt.take)

/-! ## Sections -/

/-- `decoder::Prepared`. -/
inductive Ready
  | readyContiguous (plan : DecodePlan Bytes)
  | readySegmented (plan : DecodePlan Cursor)
  | blocked (required : Reference)

/-- What was prepared from a slice, or with a cursor. -/
def Ready.ofPrepared {I : Type} (ready : DecodePlan I → Ready) : Prepared I → Ready
  | .ready plan => ready plan
  | .blocked required => .blocked required

/-- `Decoder::prepare`. -/
def prepare (source : Source) (inserts max : ℕ) (retained : Option Reference) :
    Except InputError Ready × Option Reference :=
  match source.form with
  | .contiguous bytes =>
    let (prepared, retained) := Prepared.parse bytes inserts max retained
    (prepared.map (.ofPrepared .readyContiguous), retained)
  | .segmented =>
    let (prepared, retained) := Prepared.parse source.cursor inserts max retained
    (prepared.map (.ofPrepared .readySegmented), retained)

section Tables

variable {N V ε : Type}

/-- `lines::Static`: there is no dynamic table. -/
def Tables.ofStatic (static : ℕ → Except (DecodeError ε) (Field N V)) : Tables N V ε where
  static := static
  pre _ byte index := .error (.dynamicDisabled byte index)
  post _ byte index := .error (.dynamicDisabled byte index)

end Tables

/-- `decoder::Message`. -/
inductive Message (R : Type)
  | ready (head : R)
  | blocked (required : Reference)
  deriving DecidableEq, Repr

section Decode

variable {C F K SN N SV V ε R I : Type}

/-- `Decoder::decode_plan`. -/
def decodePlan [LineInput I] (handlers : Handlers C F K SN N SV V ε)
    (tables : Requirement → Tables N V ε) (finish : C → Except ε R) (output : FieldOutput C K)
    (plan : DecodePlan I) : Except (DecodeError ε) R := do
  let output ← Lines.decode (tables plan.requirement) (FieldOutput.sink handlers) plan.base
    plan.input output
  (finish output.consumer).mapError .output

/-- `Decoder::decode_head`. -/
def decodeHead (handlers : Handlers C F K SN N SV V ε) (tables : Requirement → Tables N V ε)
    (finish : C → Except ε R) (output : FieldOutput C K) :
    Ready → Except (DecodeError ε) (Message R)
  | .readyContiguous plan => (decodePlan handlers tables finish output plan).map .ready
  | .readySegmented plan => (decodePlan handlers tables finish output plan).map .ready
  | .blocked required => .ok (.blocked required)

/-- A section that is prepared and decoded, and the requirement that is retained. -/
def decodeSection (handlers : Handlers C F K SN N SV V ε) (tables : Requirement → Tables N V ε)
    (finish : C → Except ε R) (output : FieldOutput C K) (inserts max : ℕ)
    (retained : Option Reference) (source : Source) :
    Except (DecodeError ε) (Message R) × Option Reference :=
  let (prepared, retained) := prepare source inserts max retained
  (prepared.mapError .input >>= decodeHead handlers tables finish output, retained)

end Decode

/-! ## Agreement -/

/-- What is prepared from a slice and with a cursor: the same, with the rest of the same input. -/
inductive Prepared.Along {ε : Type} :
    Except ε (Prepared Bytes) → Except ε (Prepared Cursor) → Prop
  | ready {input : Bytes} {cursor : Cursor} {requirement : Requirement} {base : ℕ} :
      cursor.Holds input →
        Along (.ok (.ready ⟨input, requirement, base⟩)) (.ok (.ready ⟨cursor, requirement, base⟩))
  | blocked {required : Reference} : Along (.ok (.blocked required)) (.ok (.blocked required))
  | error {cause : ε} : Along (.error cause) (.error cause)

namespace Prepared

variable {input : Bytes} {cursor : Cursor}

theorem along_plan (h : cursor.Holds input) (requirement : Requirement) (delta : ℕ)
    (sign : DeltaSign) :
    Along (plan input requirement delta sign) (plan cursor requirement delta sign) := by
  rw [plan, plan]
  cases base requirement.count delta sign with
  | ok base => exact .ready h
  | error cause => exact .error

/-- The prefix of a section is read with a cursor as from a slice. -/
theorem along_parse (h : cursor.Holds input) (inserts max : ℕ) (retained : Option Reference) :
    Along (parse input inserts max retained).1 (parse cursor inserts max retained).1 ∧
      (parse input inserts max retained).2 = (parse cursor inserts max retained).2 := by
  have hencoded := Lines.reads_inputPrefixed h 8
  rw [parse, parse]
  generalize Input.prefixed 8 input = answer at hencoded
  generalize Input.prefixed 8 cursor = read at hencoded
  rcases hencoded with ⟨rfl, hnext⟩ | _
  next encoded rest next =>
    dsimp only
    split
    next => exact ⟨.error, rfl⟩
    next requirement hrequirement =>
      obtain ⟨hbyte, hpeeked⟩ := hnext.peek
      have hremaining : Input.remaining next = Input.remaining rest := hnext.remaining_eq
      have hinput : Input.peek rest = (rest.head?, rest) := rfl
      have hcursor : Input.peek next = next.peek := rfl
      rw [hremaining, hinput, hcursor]
      rcases hpeek : next.peek with ⟨found, last⟩
      rw [hpeek] at hbyte hpeeked
      obtain rfl : found = rest.head? := hbyte
      cases rest.head? with
      | none => exact ⟨.error, rfl⟩
      | some byte =>
        have hdelta := Lines.reads_inputPrefixed hpeeked 7
        dsimp only
        generalize Input.prefixed 7 rest = answer at hdelta
        generalize Input.prefixed 7 last = read at hdelta
        rcases hdelta with ⟨rfl, hlines⟩ | _
        · dsimp only
          cases requirement with
          | static => exact ⟨along_plan hlines _ _ _, rfl⟩
          | dynamic required =>
            dsimp only
            by_cases hreceived : required.isReceived inserts = true
            · rw [if_pos hreceived, if_pos hreceived]
              exact ⟨along_plan hlines _ _ _, rfl⟩
            · rw [if_neg hreceived, if_neg hreceived]
              exact ⟨.blocked, rfl⟩
        · exact ⟨.error, rfl⟩
  · exact ⟨.error, rfl⟩

end Prepared

section Decode

variable {C F K SN N SV V ε R : Type} {handlers : Handlers C F K SN N SV V ε}
  {tables : Requirement → Tables N V ε} {finish : C → Except ε R} {output : FieldOutput C K}

theorem decodePlan_toOption (hlimit : output.remaining < 2 ^ 32 + 32) {input : Bytes}
    {cursor : Cursor} (h : cursor.Holds input) (requirement : Requirement) (base : ℕ) :
    (decodePlan handlers tables finish output ⟨input, requirement, base⟩).toOption =
      (decodePlan handlers tables finish output ⟨cursor, requirement, base⟩).toOption := by
  have hremaining : Input.remaining cursor = Input.remaining input := h.remaining_eq
  rw [decodePlan, decodePlan, Except.toOption_bind, Except.toOption_bind, Lines.decode,
    Lines.decode, hremaining]
  dsimp only
  rw [Lines.decodeFrom_toOption FieldOutput.agrees_sink hlimit h]

/-- A section comes to what its bytes come to as a slice. -/
theorem decodeSection_toOption (hlimit : output.remaining < 2 ^ 32 + 32) (inserts max : ℕ)
    (retained : Option Reference) (source : Source) :
    (decodeSection handlers tables finish output inserts max retained source).1.toOption =
        (decodeSection handlers tables finish output inserts max retained
          (.ofSlice source.bytes)).1.toOption ∧
      (decodeSection handlers tables finish output inserts max retained source).2 =
        (decodeSection handlers tables finish output inserts max retained
          (.ofSlice source.bytes)).2 := by
  have hslice : prepare (.ofSlice source.bytes) inserts max retained =
      ((Prepared.parse source.bytes inserts max retained).1.map (.ofPrepared .readyContiguous),
        (Prepared.parse source.bytes inserts max retained).2) := rfl
  rw [decodeSection, decodeSection, hslice, prepare]
  cases hform : source.form with
  | contiguous bytes =>
    obtain rfl := source.form_eq bytes hform
    exact ⟨rfl, rfl⟩
  | segmented =>
    obtain ⟨hready, hretained⟩ :=
      Prepared.along_parse source.holds_cursor inserts max retained
    dsimp only
    generalize (Prepared.parse source.bytes inserts max retained).1 = answer at hready
    generalize (Prepared.parse source.cursor inserts max retained).1 = read at hready
    refine ⟨?_, hretained.symm⟩
    rcases hready with ⟨hlines⟩ | _ | _
    next input cursor requirement base =>
      have hplan := @decodePlan_toOption C F K SN N SV V ε R handlers tables finish output hlimit
        input cursor hlines requirement base
      show ((decodePlan handlers tables finish output ⟨cursor, requirement, base⟩).map
          Message.ready).toOption =
        ((decodePlan handlers tables finish output ⟨input, requirement, base⟩).map
          Message.ready).toOption
      rw [Except.toOption_map, Except.toOption_map, hplan]
    · rfl
    · rfl

end Decode

/-! ## Pieces of a bounded length -/

section Within

open H3 (Cursor.fillFrom Cursor.prefixedFrom)

/-- All pieces in front of a cursor are shorter than a bound. -/
def Within (bound : ℕ) (cursor : Cursor) : Prop :=
  cursor.current.length < bound ∧ ∀ chunk ∈ cursor.chunks, chunk.length < bound

variable {bound : ℕ} {cursor : Cursor}

theorem within_new {chunks : List Bytes} {left : ℕ} (hbound : 0 < bound)
    (h : ∀ chunk ∈ chunks, chunk.length < bound) : Within bound (.new chunks left) :=
  ⟨hbound, h⟩

theorem within_fill (h : Within bound cursor) : Within bound cursor.fill := by
  obtain ⟨chunks, current, remaining⟩ := cursor
  show Within bound (Cursor.fillFrom current remaining chunks)
  induction chunks generalizing current with
  | nil =>
    rw [Cursor.fillFrom]
    split_ifs
    · exact h
    · exact h
  | cons chunk chunks ih =>
    rw [Cursor.fillFrom]
    split_ifs
    · exact ih chunk ⟨h.2 chunk List.mem_cons_self, fun later hlater =>
        h.2 later (List.mem_cons_of_mem chunk hlater)⟩
    · exact h

theorem within_skip (h : Within bound cursor) (consumed : ℕ) :
    Within bound (cursor.skip consumed) := by
  refine ⟨lt_of_le_of_lt ?_ h.1, h.2⟩
  show (cursor.current.drop consumed).length ≤ cursor.current.length
  rw [List.length_drop]
  exact Nat.sub_le _ _

theorem within_advance (h : Within bound cursor) (amount : ℕ) :
    Within bound (cursor.advance amount).2 := by
  have hfrom : Within bound (cursor.advanceFrom amount).2 := by
    induction amount using Nat.strong_induction_on generalizing cursor with
    | _ amount ih =>
      rw [Cursor.advanceFrom]
      by_cases hzero : amount = 0
      · rw [if_pos hzero]
        exact h
      · rw [if_neg hzero]
        dsimp only
        by_cases hcurrent : cursor.fill.current = []
        · rw [dif_pos hcurrent]
          exact within_fill h
        · rw [dif_neg hcurrent]
          have hlength := List.length_pos_iff.mpr hcurrent
          exact ih _ (by omega) (within_skip (within_fill h) _)
  rw [Cursor.advance]
  split_ifs
  · exact h
  · exact hfrom

theorem within_peek (h : Within bound cursor) : Within bound cursor.peek.2 :=
  within_fill h

theorem within_prefixedFrom (h : Within bound cursor) {number : Metadata.Continuation} {value : ℕ}
    {next : Cursor} (hread : Cursor.prefixedFrom number cursor = .ok (value, next)) :
    Within bound next := by
  induction hsize : 64 - number.shift using Nat.strong_induction_on generalizing number cursor with
  | _ size ih =>
    subst hsize
    have hpeek := within_peek h
    rw [Cursor.prefixedFrom] at hread
    split at hread
    next => exact absurd hread (by simp)
    next byte filled hfilled =>
      rw [hfilled] at hpeek
      split at hread
      next => exact absurd hread (by simp)
      next =>
        obtain ⟨-, rfl⟩ := Prod.mk.inj (Except.ok.inj hread)
        exact within_advance hpeek 1
      next more hmore =>
        obtain ⟨hshift, hlt⟩ := Cursor.shift_of_more hmore
        exact ih _ (by omega) (within_advance hpeek 1) hread rfl

theorem within_prefixed (h : Within bound cursor) {bits value : ℕ} {next : Cursor}
    (hread : cursor.prefixed bits = .ok (value, next)) : Within bound next := by
  have hpeek := within_peek h
  rw [Cursor.prefixed] at hread
  split at hread
  next => exact absurd hread (by simp)
  next first filled hfilled =>
    rw [hfilled] at hpeek
    dsimp only at hread
    split_ifs at hread
    · obtain ⟨-, rfl⟩ := Prod.mk.inj (Except.ok.inj hread)
      exact within_advance hpeek 1
    · exact within_prefixedFrom (within_advance hpeek 1) hread

theorem within_inputPrefixed (h : Within bound cursor) {bits value : ℕ} {next : Cursor}
    (hread : Input.prefixed bits cursor = .ok (value, next)) : Within bound next :=
  within_prefixed h (Except.mapError_eq_ok_iff.mp hread)

theorem within_parse (h : Within bound cursor) {inserts max : ℕ} {retained : Option Reference}
    {plan : DecodePlan Cursor}
    (hparse : (Prepared.parse cursor inserts max retained).1 = .ok (.ready plan)) :
    Within bound plan.input := by
  rw [Prepared.parse] at hparse
  split at hparse
  next => exact absurd hparse (by simp)
  next encoded behind hencoded =>
    have hbehind := within_inputPrefixed h hencoded
    split at hparse
    next => exact absurd hparse (by simp)
    next requirement hrequirement =>
      have hpeek := within_peek hbehind
      dsimp only at hparse
      split at hparse
      next => exact absurd hparse (by simp)
      next byte filled hfilled =>
        rw [show behind.peek = (some byte, filled) from hfilled] at hpeek
        split at hparse
        next => exact absurd hparse (by simp)
        next delta last hdelta =>
          have hlast := within_inputPrefixed hpeek hdelta
          cases requirement with
          | static =>
            obtain ⟨base, -, hplan⟩ := Except.map_eq_ok_iff.mp hparse
            obtain rfl := Prepared.ready.inj hplan
            exact hlast
          | dynamic required =>
            dsimp only at hparse
            split at hparse
            next =>
              obtain ⟨base, -, hplan⟩ := Except.map_eq_ok_iff.mp hparse
              obtain rfl := Prepared.ready.inj hplan
              exact hlast
            next => exact absurd (Except.ok.inj hparse) (by simp)

/-- A plain literal that is longer than any piece in front of it has to be copied. -/
theorem access_of_within {ε : Type} (h : Within bound cursor) {bits : ℕ} {literal : Literal}
    {next : Cursor}
    (hread : (Literal.parseCursor bits cursor : Except (DecodeError ε) _) = .ok (literal, next))
    (hlen : bound ≤ literal.encodedLen) : literal.access = .materialize := by
  have hpeek := within_peek h
  rw [Literal.parseCursor] at hread
  dsimp only at hread
  split at hread
  next => exact absurd hread (by simp)
  next first filled hfilled =>
    rw [hfilled] at hpeek
    split at hread
    next => exact absurd hread (by simp)
    next len behind hlength =>
      have hbehind := within_prefixed hpeek hlength
      split at hread
      next => exact absurd hread (by simp)
      next span last htake =>
        obtain ⟨rfl, -⟩ := Prod.mk.inj (Except.ok.inj hread)
        have hspan : span = ⟨behind, span.len⟩ := by
          rw [Cursor.take] at htake
          dsimp only at htake
          split_ifs at htake
          · exact absurd (Prod.mk.inj htake).1 (by simp)
          · exact absurd (Prod.mk.inj htake).1 (by simp)
          · rw [← Option.some.inj (Prod.mk.inj htake).1]
        have hform : span.form = .segmented := by
          rw [hspan, Span.form]
          exact if_neg (Nat.not_le.mpr ((within_fill hbehind).1.trans_le hlen))
        rw [Literal.access]
        dsimp only
        rw [hform]
        split <;> rfl

end Within

/-! ## What a reader of chunks is -/

/-- Readers with a cursor do what the readers of a slice do, with the same errors. -/
structure CursorReads (V E ε : Type) [VarInt V E] (cursor : Cursor) (input : Bytes) : Prop where
  integer : ∀ bits, Cursor.Reads Eq (PrefixedInt.take bits input) (cursor.prefixed bits)
  literal : ∀ bits, Cursor.Reads Literal.Same
    (Literal.take bits input : Except (DecodeError ε) _) (Literal.parseCursor bits cursor)
  varint : Cursor.Reads Eq (H3.decodeVarint input : Except (ParseError V E) _)
    (H3.decodeVarintCursor cursor)
  span : ∀ len ≤ input.length, ∃ span next, cursor.take len = (some span, next) ∧
    span.Holds (input.take len) ∧ next.Holds (input.drop len)
  span_short : ∀ len, input.length < len → cursor.take len = (none, cursor)

/-- A span is read as the slice of its bytes. -/
structure SpanReads (V E : Type) [VarInt V E] [DecidableEq V] (span : Span) (input : Bytes) :
    Prop where
  chunks : span.chunks.toList.flatten = input
  form : ∀ bytes, span.form = .contiguous bytes → bytes = input
  suffix : ∀ offset ≤ input.length, ∃ rest, span.suffix offset = some rest ∧
    rest.Holds (input.drop offset)
  settings : (Settings.fromView span : Except (ParseError V E) (Settings V)) =
    Settings.decode input

/-- Literals that denote the same decode to the same, and are validated to the same. -/
structure LiteralReads (ε : Type) (literal literal' : Literal) : Prop where
  decode : ∀ {S P : Type} (scanner : Scanner S P) max,
    (literal.decodeInto scanner max : Except (DecodeError ε) _).toOption =
      (literal'.decodeInto scanner max : Except (DecodeError ε) _).toOption
  validate : ∀ {S P : Type} (scanner : Scanner S P) max,
    (literal.validate scanner max : Except (DecodeError ε) _).toOption =
      (literal'.validate scanner max : Except (DecodeError ε) _).toOption

theorem literalReads {ε : Type} {literal literal' : Literal} (h : literal.Same literal') :
    LiteralReads ε literal literal' := by
  obtain ⟨encoding, bytes, hdenotes, hdenotes'⟩ := h
  refine ⟨fun scanner max => ?_, fun scanner max => ?_⟩
  · rw [Literal.toOption_decodeInto hdenotes, Literal.toOption_decodeInto hdenotes']
  · rw [Literal.toOption_validate hdenotes, Literal.toOption_validate hdenotes']

theorem cursorReads {V E : Type} (ε : Type) [VarInt V E] (hlaw : VarInt.LawfulDecode V E)
    {cursor : Cursor} {input : Bytes} (h : cursor.Holds input) :
    CursorReads V E ε cursor input where
  integer := h.prefixed
  literal := Literal.reads_parseCursor h
  varint := h.decodeVarint hlaw
  span len := (Span.holds_take h len).1
  span_short len := (Span.holds_take h len).2

theorem spanReads {V E : Type} [VarInt V E] [DecidableEq V] (hlaw : VarInt.LawfulDecode V E)
    {span : Span} {input : Bytes} (h : span.Holds input) : SpanReads V E span input where
  chunks := h.flatten_chunks
  form _ := h.form
  suffix _ := h.suffix
  settings := Settings.fromView_eq hlaw h

/-! ## A name of 2^32 bytes -/

/-- A scanner that finds nothing out. -/
def Scanner.trivial : Scanner Unit Unit :=
  ⟨(), fun _ _ => (), fun _ => ()⟩

/-- Handlers that count fields. -/
def counting : Handlers ℕ ℕ Unit Unit Unit Unit Unit Unit where
  names := .trivial
  values := .trivial
  tryField identity _ _ := .ok identity
  consumer :=
    { select := fun count _ => .buffered count
      validate := fun count _ => count
      push := fun count _ _ => .ok (count + 1) }

/-- A section of one field, whose name is cut in two. -/
def cutName (half : ℕ) : List Bytes :=
  [[0, 0, 0x27, 0xf9, 0xff, 0xff, 0xff, 0x0f], List.replicate half 97, List.replicate half 97, [0]]

/-- How many fields a section has, under a limit. -/
def countFields (limit : ℕ) (source : Source) : Except (DecodeError Unit) (Message ℕ) :=
  (decodeSection counting (fun _ => .ofStatic fun index => .error (.staticReference index)) .ok
    ⟨0, limit, none⟩ 0 0 none source).1

section Cut

variable {half : ℕ}

theorem flatten_cutName : (cutName half).flatten =
    [0, 0, 0x27, 0xf9, 0xff, 0xff, 0xff, 0x0f] ++ (List.replicate (half + half) 97 ++ [0]) := by
  rw [List.replicate_add]
  simp only [cutName, List.flatten_cons, List.flatten_nil, List.append_nil, List.append_assoc]

theorem parse_cutName :
    Prepared.parse (cutName half).flatten 0 0 none =
      (.ok (.ready ⟨(cutName half).flatten.drop 2, .static, 0⟩), none) := by
  rw [flatten_cutName]
  rfl

theorem take_length (tail : Bytes) :
    PrefixedInt.take 3 ([0x27, 0xf9, 0xff, 0xff, 0xff, 0x0f] ++ tail) = .ok (2 ^ 32, tail) :=
  rfl

theorem take_cutName (hhalf : half + half = 2 ^ 32) :
    (Literal.take 3 ((cutName half).flatten.drop 2) : Except (DecodeError Unit) _) =
      .ok (⟨.borrowed (List.replicate (half + half) 97), .plain⟩, [0]) := by
  have hdrop : (cutName half).flatten.drop 2 =
      [0x27, 0xf9, 0xff, 0xff, 0xff, 0x0f] ++ (List.replicate (half + half) 97 ++ [0]) := by
    rw [flatten_cutName]
    rfl
  have hfits : 2 ^ 32 ≤ (List.replicate (half + half) (97 : UInt8) ++ [0]).length := by
    rw [List.length_append, List.length_replicate, hhalf]
    exact Nat.le_add_right _ _
  have hhead : ([0x27, 0xf9, 0xff, 0xff, 0xff, 0x0f] ++
      (List.replicate (half + half) (97 : UInt8) ++ [0])).head? = some 0x27 := rfl
  rw [hdrop, Literal.take, take_length, hhead]
  dsimp only
  rw [if_pos hfits, ← hhalf, List.take_left' List.length_replicate,
    List.drop_left' List.length_replicate]
  rfl

theorem countFields_eq (limit : ℕ) (source : Source) :
    countFields limit source =
      (prepare source 0 0 none).1.mapError .input >>=
        decodeHead counting (fun _ => .ofStatic fun index => .error (.staticReference index)) .ok
          ⟨0, limit, none⟩ :=
  rfl

theorem push_counting {name : Bytes} (hname : name.length ≤ 2 ^ 33 - 32) (indexing : Indexing) :
    FieldOutput.push counting ⟨0, 2 ^ 33, none⟩ (.literal ⟨.borrowed name, .plain⟩)
        ⟨.borrowed [], .plain⟩ indexing =
      .ok ⟨1, 2 ^ 33 - 32 - name.length, none⟩ := by
  have hbudget : (subtract (2 ^ 33) 32 : Except (DecodeError Unit) ℕ) = .ok (2 ^ 33 - 32) := rfl
  have hresolve : FieldOutput.resolveName counting (.literal ⟨.borrowed name, .plain⟩)
      (2 ^ 33 - 32) = .ok (Scanner.trivial.fromSpan name, 2 ^ 33 - 32 - name.length) := by
    show (subtract _ name.length).map _ = _
    rw [subtract, if_pos hname]
    rfl
  rw [FieldOutput.push, hbudget]
  show FieldOutput.resolveName _ _ _ >>= _ = _
  rw [hresolve]
  rfl

theorem decodeFrom_nil (tables : Tables Unit Unit Unit) (output : FieldOutput ℕ Unit)
    (turns : ℕ) :
    Lines.decodeFrom tables (FieldOutput.sink counting) 0 ([] : Bytes) output turns =
      .ok output := by
  cases turns with
  | zero => rfl
  | succ turns => rfl

theorem line_cutName (hhalf : half + half = 2 ^ 32) (tables : Tables Unit Unit Unit) :
    Lines.line tables (FieldOutput.sink counting) 0 0x27 ((cutName half).flatten.drop 2)
        ⟨0, 2 ^ 33, none⟩ =
      .ok (⟨1, 2 ^ 33 - 32 - (List.replicate (half + half) (97 : UInt8)).length, none⟩, []) := by
  have hlength : (List.replicate (half + half) (97 : UInt8)).length ≤ 2 ^ 33 - 32 := by
    rw [List.length_replicate, hhalf]
    decide
  have hpush := push_counting hlength (indexing 0x27 0x10)
  show (Literal.take 3 ((cutName half).flatten.drop 2) >>= _) = _
  rw [take_cutName hhalf]
  exact congrArg (Except.map fun output => (output, ([] : Bytes))) hpush

theorem countFields_slice (hhalf : half + half = 2 ^ 32) :
    countFields (2 ^ 33) (.ofSlice (cutName half).flatten) = .ok (.ready 1) := by
  have hprepared : (prepare (.ofSlice (cutName half).flatten) 0 0 none).1 =
      .ok (.readyContiguous ⟨(cutName half).flatten.drop 2, .static, 0⟩) := by
    show ((Prepared.parse (cutName half).flatten 0 0 none).1.map _) = _
    rw [parse_cutName]
    rfl
  have hcons : (cutName half).flatten.drop 2 = 0x27 :: (cutName half).flatten.drop 3 := by
    rw [flatten_cutName]
    rfl
  have hdecode : ∀ tables : Tables Unit Unit Unit,
      Lines.decode tables (FieldOutput.sink counting) 0 ((cutName half).flatten.drop 2)
        ⟨0, 2 ^ 33, none⟩ =
      .ok ⟨1, 2 ^ 33 - 32 - (List.replicate (half + half) (97 : UInt8)).length, none⟩ := by
    intro tables
    have hremaining : Input.remaining ((cutName half).flatten.drop 2) =
        ((cutName half).flatten.drop 3).length + 1 := congrArg List.length hcons
    have hpeek : Input.peek ((cutName half).flatten.drop 2) =
        (some 0x27, (cutName half).flatten.drop 2) := by
      rw [hcons]
      rfl
    rw [Lines.decode, hremaining, Lines.decodeFrom, hremaining, if_neg (Nat.succ_ne_zero _), hpeek]
    dsimp only
    rw [line_cutName hhalf]
    exact decodeFrom_nil _ _ _
  rw [countFields_eq, hprepared]
  show ((Lines.decode _ _ _ _ _ >>= _).map _) = _
  rw [hdecode]
  rfl

theorem push_cutName {name value : Literal} {bytes : Bytes} {output : FieldOutput ℕ Unit}
    (hname : name.Denotes .plain bytes) (haccess : name.access = .materialize)
    (hlength : 2 ^ 32 ≤ bytes.length) (indexing : Indexing) :
    (FieldOutput.push counting output (.literal name) value indexing).toOption = none := by
  have hresolve : ∀ budget,
      (FieldOutput.resolveName counting (.literal name) budget).toOption = none := by
    intro budget
    show (name.resolve Scanner.trivial budget : Except (DecodeError Unit) _).toOption = none
    rw [Literal.resolve, haccess]
    dsimp only
    rw [Except.toOption_bind, Literal.toOption_decodeInto hname, Literal.decoded_plain,
      if_neg (Nat.not_lt.mpr hlength)]
    rfl
  rw [FieldOutput.push, Except.toOption_bind]
  cases (subtract output.remaining 32 : Except (DecodeError Unit) ℕ).toOption with
  | none => rfl
  | some budget =>
    rw [Option.bind_some, Except.toOption_bind, hresolve]
    rfl

theorem toOption_line_cutName (hhalf : half + half = 2 ^ 32) (tables : Tables Unit Unit Unit)
    {cursor : Cursor} (h : cursor.Holds ((cutName half).flatten.drop 2))
    (hwithin : Within (2 ^ 32) cursor) (output : FieldOutput ℕ Unit) :
    (Lines.line tables (FieldOutput.sink counting) 0 0x27 cursor output).toOption = none := by
  have hread := @Literal.reads_parseCursor Unit cursor _ h 3
  have haccess := @access_of_within (2 ^ 32) cursor Unit hwithin 3
  rw [take_cutName hhalf] at hread
  show (Literal.parseCursor 3 cursor >>= _).toOption = none
  generalize (Literal.parseCursor 3 cursor : Except (DecodeError Unit) _) = read at hread haccess
  rcases hread with ⟨⟨encoding, bytes, hdenotes, hdenotes'⟩, hnext⟩
  next name next =>
    obtain rfl : bytes = List.replicate (half + half) 97 :=
      hdenotes.pieces_eq.symm.trans (List.append_nil _)
    obtain rfl : Metadata.Encoding.plain = encoding := hdenotes.encoding_eq
    have hlength : 2 ^ 32 ≤ (List.replicate (half + half) (97 : UInt8)).length := by
      rw [List.length_replicate, hhalf]
    have hcopied := haccess rfl (hlength.trans hdenotes'.encodedLen_eq.ge)
    show (LineInput.literal 7 next >>= _).toOption = none
    rw [Except.toOption_bind]
    cases (LineInput.literal 7 next : Except (DecodeError Unit) _).toOption with
    | none => rfl
    | some value =>
      show ((FieldOutput.push counting output (.literal name) value.1 _).map _).toOption = none
      rw [Except.toOption_map, push_cutName hdenotes' hcopied hlength]
      rfl

theorem countFields_chunks (hhalf : half + half = 2 ^ 32) :
    (countFields (2 ^ 33) (.ofChunks (cutName half))).toOption = none := by
  have hholds : (Source.ofChunks (cutName half)).cursor.Holds (cutName half).flatten :=
    Source.holds_cursor _
  have hwithin : Within (2 ^ 32) (Source.ofChunks (cutName half)).cursor := by
    have hless : (List.replicate half (97 : UInt8)).length < 2 ^ 32 := by
      rw [List.length_replicate]
      omega
    refine within_new (by decide) (List.forall_mem_cons.mpr ⟨by decide, ?_⟩)
    exact List.forall_mem_cons.mpr ⟨hless, List.forall_mem_cons.mpr ⟨hless,
      List.forall_mem_singleton.mpr (by decide)⟩⟩
  have hready := (Prepared.along_parse hholds 0 0 none).1
  have hinput := @within_parse (2 ^ 32) _ hwithin 0 0 none
  rw [parse_cutName] at hready
  have hprepared : (prepare (.ofChunks (cutName half)) 0 0 none).1 =
      (Prepared.parse (Source.ofChunks (cutName half)).cursor 0 0 none).1.map
        (.ofPrepared .readySegmented) := rfl
  rw [countFields_eq, hprepared]
  generalize (Prepared.parse (Source.ofChunks (cutName half)).cursor 0 0 none).1 = read
    at hready hinput
  rcases hready with ⟨hlines⟩
  next cursor =>
    have hbelow : Within (2 ^ 32) cursor := hinput rfl
    have hcons : (cutName half).flatten.drop 2 = 0x27 :: (cutName half).flatten.drop 3 := by
      rw [flatten_cutName]
      rfl
    have hremaining : Input.remaining cursor = ((cutName half).flatten.drop 3).length + 1 :=
      hlines.remaining_eq.trans (congrArg List.length hcons)
    have hdecode : ∀ tables : Tables Unit Unit Unit,
        (Lines.decode tables (FieldOutput.sink counting) 0 cursor ⟨0, 2 ^ 33, none⟩).toOption =
          none := by
      intro tables
      obtain ⟨hbyte, hnext⟩ := hlines.peek
      have hfilled := within_peek hbelow
      have hpeek : Input.peek cursor = cursor.peek := rfl
      rw [Lines.decode, hremaining, Lines.decodeFrom, hremaining, if_neg (Nat.succ_ne_zero _),
        hpeek]
      rw [hcons] at hbyte
      rcases hfound : cursor.peek with ⟨found, next⟩
      rw [hfound] at hbyte hnext hfilled
      obtain rfl : found = some 0x27 := hbyte
      have hline := toOption_line_cutName hhalf tables hnext hfilled ⟨0, 2 ^ 33, none⟩
      dsimp only
      generalize Lines.line tables (FieldOutput.sink counting) 0 0x27 next ⟨0, 2 ^ 33, none⟩ = read
        at hline
      cases read with
      | error cause => rfl
      | ok found => exact absurd hline (by simp [Except.toOption])
    show ((Lines.decode _ _ _ _ _ >>= _).map _).toOption = none
    rw [Except.toOption_map, Except.toOption_bind, hdecode]
    rfl

/-- A section with a name of 2^32 bytes is decoded from a slice, and is refused from its chunks. -/
theorem segmentation_visible :
    countFields (2 ^ 33) (.ofSlice (cutName (2 ^ 31)).flatten) = .ok (.ready 1) ∧
      (countFields (2 ^ 33) (.ofChunks (cutName (2 ^ 31)))).toOption = none :=
  ⟨countFields_slice (by norm_num), countFields_chunks (by norm_num)⟩

end Cut

/-! ## Main result -/

section Main

variable {U E C F K SN N SV V ε R : Type} [VarInt U E] [DecidableEq U]

/-- However an input is cut, the readers with a cursor read it as the readers of a slice do, spans
are slices, and a literal decodes to what it decodes to in one piece. A section comes to the same
whether it is in one piece or not, as long as its limit is less than the 2^32 bytes that a literal
may have, and the 32 bytes of a field. -/
theorem segmentation_invisible (hlaw : VarInt.LawfulDecode U E)
    (handlers : Handlers C F K SN N SV V ε) (tables : Requirement → Tables N V ε)
    (finish : C → Except ε R) :
    (∀ chunks : List Bytes, (Cursor.new chunks chunks.flatten.length).Holds chunks.flatten) ∧
    (∀ cursor input, cursor.Holds input → CursorReads U E ε cursor input) ∧
    (∀ span input, span.Holds input → SpanReads U E span input) ∧
    (∀ literal literal', literal.Same literal' → LiteralReads ε literal literal') ∧
    ∀ output : FieldOutput C K, output.remaining < 2 ^ 32 + 32 → ∀ inserts max retained source,
      (decodeSection handlers tables finish output inserts max retained source).1.toOption =
          (decodeSection handlers tables finish output inserts max retained
            (.ofSlice source.bytes)).1.toOption ∧
        (decodeSection handlers tables finish output inserts max retained source).2 =
          (decodeSection handlers tables finish output inserts max retained
            (.ofSlice source.bytes)).2 :=
  ⟨Cursor.holds_new, fun _ _ h => cursorReads ε hlaw h, fun _ _ h => spanReads hlaw h,
    fun _ _ h => literalReads h,
    fun _ hlimit inserts max retained source =>
      decodeSection_toOption hlimit inserts max retained source⟩

/-- A section in three chunks, and an empty one, under the laws of QUIC's integers. -/
theorem segmentation_invisible_three :
    (40 : ℕ) < 2 ^ 32 + 32 ∧ countFields 40 (.ofSlice [0, 0, 0x20, 1, 97]) = .ok (.ready 1) ∧
      (countFields 40 (.ofChunks [[0], [], [0, 0x20, 1], [97]])).toOption =
        (countFields 40 (.ofSlice [0, 0, 0x20, 1, 97])).toOption :=
  ⟨by norm_num, rfl,
    ((segmentation_invisible H3.Integer.lawful.toLawfulDecode counting
      (fun _ => .ofStatic fun index => .error (.staticReference index)) .ok).2.2.2.2
        ⟨0, 40, none⟩ (by norm_num) 0 0 none (.ofChunks [[0], [], [0, 0x20, 1], [97]])).1⟩

end Main

end Sark.Qpack
