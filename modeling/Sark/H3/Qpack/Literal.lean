import Sark.H3.Sources
import Sark.H3.Qpack.Dynamics
import Sark.Http.Metadata.Pieces

/-!
# String literals of a field section

The literals of a QPACK field section (`h3/src/qpack/literal/`). A literal is a piece of a slice, a
piece of the dynamic table, or a span of the input, which may be in several chunks; it is decoded
into a sink, up to a limit.

* `Literal.reads_parseCursor`: a literal is found with a cursor as in a slice.
* `Literal.writeTo_eq`: what is written of a literal is a matter of its bytes.
-/

namespace Sark.Qpack

open Metadata (Encoding PrefixedInt.take)
open H3 (Cursor Span Form)

/-! ## Errors -/

/-- `decoder::Error`, with the errors of what fields are written to. -/
inductive DecodeError (ε : Type)
  | input (cause : InputError)
  | staticReference (index : ℕ)
  | dynamicDisabled (byte : UInt8) (index : ℕ)
  | dynamicReference (cause : Dynamics.ReferenceError)
  | fieldCapacity (available required : ℕ)
  | literalLength (encoded available : ℕ)
  | literalCapacity (written additional maximum : ℕ)
  | literalEncoding
  | literalDecodeInput (expected actual : ℕ)
  | output (cause : ε)
  deriving DecidableEq, Repr

/-! ## Sinks with a limit -/

/-- `sink::Error`. -/
inductive LimitError (ε : Type)
  | limit (written additional maximum : ℕ)
  | output (cause : ε)
  deriving DecidableEq, Repr

/-- `sink::Limited`: a sink, and what was written to it. -/
structure Limited (σ : Type) where
  output : σ
  written : ℕ
  deriving DecidableEq, Repr

/-- `Limited::write_slice`; a byte is written as a slice of one. -/
def Limited.write {σ ε : Type} (write : σ → Bytes → Except ε σ) (max : ℕ) (self : Limited σ)
    (bytes : Bytes) : Except (LimitError ε) (Limited σ) :=
  if max < self.written + bytes.length then .error (.limit self.written bytes.length max)
  else
    match write self.output bytes with
    | .error cause => .error (.output cause)
    | .ok output => .ok ⟨output, self.written + bytes.length⟩

/-! ## Literals -/

/-- `literal::LiteralBytes`. -/
inductive LiteralBytes
  | borrowed (bytes : Bytes)
  | split (first second : Bytes)
  | cursor (span : Span)
  deriving DecidableEq, Repr

/-- `literal::Literal`. -/
structure Literal where
  bytes : LiteralBytes
  encoding : Encoding
  deriving DecidableEq, Repr

/-- `literal::Access`. -/
inductive Access
  | raw (bytes : Bytes)
  | materialize
  deriving DecidableEq, Repr

/-- `Prefix::HUFFMAN_BIT`, in front of a prefix of some bits. -/
def huffmanBit (bits : ℕ) : UInt8 :=
  UInt8.ofNat (2 ^ bits)

/-- The encoding that the first byte of a literal says. -/
def encodingOf (bits : ℕ) (first : UInt8) : Encoding :=
  if first &&& huffmanBit bits = 0 then .plain else .huffman

namespace Literal

variable {ε : Type}

/-- `Literal::take`. -/
def take (bits : ℕ) (input : Bytes) : Except (DecodeError ε) (Literal × Bytes) :=
  match input.head? with
  | none => .error (.input (.incomplete input.length))
  | some first =>
    match PrefixedInt.take bits input with
    | .error error => .error (.input (.ofInteger bits input.length error))
    | .ok (len, tail) =>
      if len ≤ tail.length then
        .ok (⟨.borrowed (tail.take len), encodingOf bits first⟩, tail.drop len)
      else .error (.literalLength len tail.length)

/-- `Literal::parse_cursor`. -/
def parseCursor (bits : ℕ) (input : Cursor) : Except (DecodeError ε) (Literal × Cursor) :=
  let before := input.remaining
  match input.peek with
  | (none, _) => .error (.input (.incomplete before))
  | (some first, input) =>
    match input.prefixed bits with
    | .error error => .error (.input (.ofInteger bits before error))
    | .ok (len, input) =>
      let left := input.remaining
      match input.take len with
      | (none, _) => .error (.literalLength len left)
      | (some span, input) => .ok (⟨.cursor span, encodingOf bits first⟩, input)

/-- `Literal::encoded_len`. -/
def encodedLen (self : Literal) : ℕ :=
  match self.bytes with
  | .borrowed bytes => bytes.length
  | .split first second => first.length + second.length
  | .cursor span => span.len

/-- The pieces of `Literal::try_for_each`. -/
def pieces (self : Literal) : List Bytes :=
  match self.bytes with
  | .borrowed bytes => [bytes]
  | .split first second => [first, second]
  | .cursor span => span.chunks.toList

/-- `Literal::access`. -/
def access (self : Literal) : Access :=
  match self.encoding with
  | .huffman => .materialize
  | .plain =>
    match self.bytes with
    | .borrowed bytes => .raw bytes
    | .split first second => .raw (first ++ second)
    | .cursor span =>
      match span.form with
      | .contiguous bytes => .raw bytes
      | .segmented => .materialize

section Write

variable {σ : Type} (write : σ → Bytes → Except ε σ) (max : ℕ)

/-- The loop of `Literal::write_to`. -/
def feedPieces (string : Metadata.Cursor) (limited : Limited σ) :
    List Bytes → Except (DecodeError ε) (Metadata.Cursor × Limited σ)
  | [] => .ok (string, limited)
  | piece :: pieces =>
    match string.feedInto (Limited.write write max) piece limited with
    | .error .invalid => .error .literalEncoding
    | .error (.sink (.limit written additional maximum)) =>
      .error (.literalCapacity written additional maximum)
    | .error (.sink (.output cause)) => .error (.output cause)
    | .ok (string, progress, limited) =>
      if progress.consumed ≠ piece.length then
        .error (.literalDecodeInput piece.length progress.consumed)
      else feedPieces string limited pieces

/-- `Literal::write_to`. -/
def writeTo (self : Literal) (sink : σ) : Except (DecodeError ε) (ℕ × σ) :=
  match feedPieces write max (.new self.encodedLen self.encoding) ⟨sink, 0⟩ self.pieces with
  | .error error => .error error
  | .ok (string, limited) =>
    match string.finish with
    | none => .error .literalEncoding
    | some len => .ok (len, limited.output)

end Write

/-! ## What a literal denotes -/

/-- The bytes of a literal, and how they are encoded. -/
structure Denotes (literal : Literal) (encoding : Encoding) (bytes : Bytes) : Prop where
  encoding_eq : literal.encoding = encoding
  pieces_eq : literal.pieces.flatten = bytes
  encodedLen_eq : literal.encodedLen = bytes.length
  access_eq : ∀ raw, literal.access = .raw raw → raw = bytes

theorem denotes_borrowed (encoding : Encoding) (bytes : Bytes) :
    Denotes ⟨.borrowed bytes, encoding⟩ encoding bytes := by
  refine ⟨rfl, List.append_nil bytes, rfl, fun raw hraw => ?_⟩
  cases encoding with
  | huffman => exact absurd hraw (by simp [access])
  | plain => exact (Access.raw.inj hraw).symm

theorem denotes_cursor (encoding : Encoding) {span : Span} {bytes : Bytes}
    (h : span.Holds bytes) : Denotes ⟨.cursor span, encoding⟩ encoding bytes := by
  refine ⟨rfl, h.flatten_chunks, h.length_eq, fun raw hraw => ?_⟩
  cases encoding with
  | huffman => exact absurd hraw (by simp [access])
  | plain =>
    rw [access] at hraw
    dsimp only at hraw
    split at hraw
    next found hform =>
      obtain rfl := Access.raw.inj hraw
      exact h.form hform
    next => exact absurd hraw (by simp)

/-- Two literals that denote the same. -/
def Same (first second : Literal) : Prop :=
  ∃ encoding bytes, first.Denotes encoding bytes ∧ second.Denotes encoding bytes

theorem reads_parseCursor {cursor : Cursor} {input : Bytes} (h : cursor.Holds input) (bits : ℕ) :
    Cursor.Reads Same (take bits input : Except (DecodeError ε) _) (parseCursor bits cursor) := by
  obtain ⟨hbyte, hnext⟩ := h.peek
  rw [take, parseCursor, h.remaining_eq]
  rcases hpeek : cursor.peek with ⟨found, next⟩
  rw [hpeek] at hbyte hnext
  obtain rfl : found = input.head? := hbyte
  cases input with
  | nil => exact .error
  | cons first rest =>
    have hlen := hnext.prefixed bits
    dsimp only [List.head?_cons] at hnext ⊢
    generalize PrefixedInt.take bits (first :: rest) = answer at hlen
    generalize next.prefixed bits = read at hlen
    rcases hlen with ⟨rfl, hbehind⟩ | _
    next len tail next' =>
      obtain ⟨hfits, hshort⟩ := Span.holds_take hbehind len
      dsimp only
      by_cases hle : len ≤ tail.length
      · obtain ⟨span, last, htake, hspan, hlast⟩ := hfits hle
        rw [if_pos hle, htake]
        exact .ok ⟨_, _, denotes_borrowed _ _, denotes_cursor _ hspan⟩ hlast
      · rw [if_neg hle, hshort (Nat.not_le.mp hle), hbehind.remaining_eq]
        exact .error
    · exact .error

end Literal

/-! ## What is written of a literal -/

section Write

variable {σ ε : Type} {write : σ → Bytes → Except ε σ} {valid : σ → Prop} {max : ℕ}

/-- A limited sink, whatever the error. -/
def Limited.tryWrite (write : σ → Bytes → Except ε σ) (max : ℕ) (self : Limited σ)
    (bytes : Bytes) : Except Unit (Limited σ) :=
  (self.write write max bytes).mapError fun _ => ()

theorem Limited.tryWrite_eq_ok_iff {limited next : Limited σ} {bytes : Bytes} :
    limited.tryWrite write max bytes = .ok next ↔
      limited.written + bytes.length ≤ max ∧ write limited.output bytes = .ok next.output ∧
        next.written = limited.written + bytes.length := by
  rw [tryWrite, Except.mapError_eq_ok_iff, Limited.write]
  by_cases hlimit : max < limited.written + bytes.length
  · rw [if_pos hlimit]
    exact iff_of_false (by simp) fun h => absurd h.1 (Nat.not_le.mpr hlimit)
  · rw [if_neg hlimit]
    cases hwrite : write limited.output bytes with
    | error cause => simp
    | ok output =>
      constructor
      · intro h
        obtain rfl := Except.ok.inj h
        exact ⟨Nat.not_lt.mp hlimit, rfl, rfl⟩
      · rintro ⟨-, houtput, hwritten⟩
        obtain rfl := Except.ok.inj houtput
        rw [← hwritten]

theorem Limited.tryWrite_eq_error_iff {limited : Limited σ} {bytes : Bytes} :
    limited.tryWrite write max bytes = .error () ↔
      ∀ next, limited.tryWrite write max bytes ≠ .ok next := by
  cases limited.tryWrite write max bytes with
  | error cause => simp
  | ok next => simp

theorem Limited.lawfulSink (hlaw : LawfulSink write valid) :
    LawfulSink (Limited.tryWrite write max) fun limited =>
      valid limited.output ∧ limited.written ≤ max where
  nil limited hvalid :=
    tryWrite_eq_ok_iff.mpr ⟨hvalid.2, hlaw.nil _ hvalid.1, rfl⟩
  valid_of_ok h := by
    obtain ⟨hle, hwrite, hwritten⟩ := tryWrite_eq_ok_iff.mp h
    exact ⟨hlaw.valid_of_ok hwrite, hwritten.trans_le hle⟩
  append_ok := by
    intro limited next first second h
    obtain ⟨hle, hwrite, hwritten⟩ := tryWrite_eq_ok_iff.mp h
    have happend := hlaw.append_ok second hwrite
    have hiff : ∀ last, limited.tryWrite write max (first ++ second) = .ok last ↔
        next.tryWrite write max second = .ok last := by
      intro last
      rw [tryWrite_eq_ok_iff, tryWrite_eq_ok_iff, happend, hwritten, List.length_append,
        Nat.add_assoc]
    cases hlast : next.tryWrite write max second with
    | ok last => exact (hiff last).mpr hlast
    | error cause =>
      refine tryWrite_eq_error_iff.mpr fun last hok => ?_
      exact absurd (hlast.symm.trans ((hiff last).mp hok)) (by simp)
  append_error := by
    intro limited error first second h
    refine ⟨(), tryWrite_eq_error_iff.mpr fun last hok => ?_⟩
    obtain ⟨hle, hwrite, -⟩ := tryWrite_eq_ok_iff.mp hok
    rw [List.length_append] at hle
    cases hfirst : write limited.output first with
    | error cause =>
      obtain ⟨error', herror⟩ := hlaw.append_error second hfirst
      exact absurd (hwrite.symm.trans herror) (by simp)
    | ok output =>
      have hok' : limited.tryWrite write max first = .ok ⟨output, limited.written + first.length⟩ :=
        tryWrite_eq_ok_iff.mpr ⟨by omega, hfirst, rfl⟩
      exact absurd (hok'.symm.trans h) (by simp)

theorem Literal.toOption_feedPieces_cons (string : Metadata.Cursor) (limited : Limited σ)
    (piece : Bytes) (pieces : List Bytes) :
    (feedPieces write max string limited (piece :: pieces)).toOption =
      (string.feedInto (Limited.tryWrite write max) piece limited).toOption.bind fun fed =>
        if fed.2.1.consumed ≠ piece.length then none
        else (feedPieces write max fed.1 fed.2.2 pieces).toOption := by
  have herase : ∀ limited bytes, (Limited.write write max limited bytes).toOption =
      (Limited.tryWrite write max limited bytes).toOption := fun limited bytes =>
    (Except.toOption_mapError _ _).symm
  rw [← Metadata.Cursor.feedInto_toOption herase, feedPieces]
  split
  next hfed => rw [hfed]; rfl
  next hfed => rw [hfed]; rfl
  next hfed => rw [hfed]; rfl
  next next progress last hfed =>
    rw [hfed, Except.toOption_ok, Option.bind_some]
    split_ifs <;> rfl

/-- Feeding the pieces of a literal is decoding all of it and writing the result. -/
theorem Literal.toOption_feedPieces (hlaw : LawfulSink write valid) {string : Metadata.Cursor}
    {limited : Limited σ} {pieces : List Bytes} (hvalid : valid limited.output)
    (hwritten : limited.written ≤ max) (hlength : pieces.flatten.length ≤ string.remaining)
    (hdecoded : string.decodedLen < 2 ^ 32) :
    (feedPieces write max string limited pieces).toOption =
      (string.run pieces.flatten).bind fun result =>
        (limited.tryWrite write max result.2).toOption.map fun last => (result.1, last) := by
  have hlimit := @Limited.lawfulSink σ ε write valid max hlaw
  induction pieces generalizing string limited with
  | nil =>
    rw [List.flatten_nil, Metadata.Cursor.run_nil hdecoded, Option.bind_some,
      hlimit.nil limited ⟨hvalid, hwritten⟩]
    rfl
  | cons piece pieces ih =>
    rw [List.flatten_cons, List.length_append] at hlength
    rw [List.flatten_cons, Metadata.Cursor.run_append string (by omega), toOption_feedPieces_cons]
    cases hrun : string.run piece with
    | none =>
      obtain ⟨cause, hcause⟩ :=
        Metadata.Cursor.feedInto_of_not_run hlimit ⟨hvalid, hwritten⟩ hrun
      rw [hcause]
      rfl
    | some result =>
      obtain ⟨next, output⟩ := result
      rw [Option.bind_some]
      cases hwrite : limited.tryWrite write max output with
      | error error =>
        obtain ⟨cause, hcause⟩ :=
          Metadata.Cursor.feedInto_of_run_refused hlimit ⟨hvalid, hwritten⟩ hrun hwrite
        rw [hcause]
        dsimp only
        cases next.run pieces.flatten with
        | none => rfl
        | some last =>
          obtain ⟨error', herror⟩ := hlimit.append_error last.2 hwrite
          rw [Option.map_some, Option.bind_some, herror]
          rfl
      | ok written =>
        obtain ⟨progress, hfed⟩ :=
          Metadata.Cursor.feedInto_of_run hlimit ⟨hvalid, hwritten⟩ hrun hwrite
        have hconsumed := Metadata.Cursor.consumed_of_feedInto hfed
        rw [Nat.min_eq_right (by omega)] at hconsumed
        obtain ⟨hvalid', hwritten'⟩ := hlimit.valid_of_ok hwrite
        obtain ⟨state, -, hdecoded', rfl⟩ := Metadata.Cursor.run_eq_some_iff.mp hrun
        rw [hfed, Except.toOption_ok, Option.bind_some, if_neg (not_not.mpr hconsumed),
          ih hvalid' hwritten' (by dsimp only; omega) hdecoded']
        dsimp only
        cases Metadata.Cursor.run _ pieces.flatten with
        | none => rfl
        | some last =>
          rw [Option.map_some, Option.bind_some, Option.bind_some, hlimit.append_ok last.2 hwrite]

theorem Literal.toOption_writeTo (hlaw : LawfulSink write valid) {literal : Literal}
    {encoding : Encoding} {bytes : Bytes} (h : literal.Denotes encoding bytes) {sink : σ}
    (hvalid : valid sink) :
    (literal.writeTo write max sink).toOption =
      ((Metadata.Cursor.new bytes.length encoding).run bytes).bind fun result =>
        ((⟨sink, 0⟩ : Limited σ).tryWrite write max result.2).toOption.bind fun last =>
          result.1.finish.map fun len => (len, last.output) := by
  have hdecoded : (Metadata.Cursor.new bytes.length encoding).decodedLen < 2 ^ 32 :=
    Nat.two_pow_pos 32
  have hfed := @toOption_feedPieces σ ε write valid max hlaw
    (Metadata.Cursor.new bytes.length encoding) ⟨sink, 0⟩ literal.pieces hvalid (Nat.zero_le max)
    (by rw [h.pieces_eq]; exact le_rfl) hdecoded
  rw [h.pieces_eq] at hfed
  have hwrite : (literal.writeTo write max sink).toOption =
      (feedPieces write max (.new bytes.length encoding) ⟨sink, 0⟩ literal.pieces).toOption.bind
        fun fed => fed.1.finish.map fun len => (len, fed.2.output) := by
    rw [writeTo, h.encodedLen_eq, h.encoding_eq]
    cases feedPieces write max (.new bytes.length encoding) ⟨sink, 0⟩ literal.pieces with
    | error error => rfl
    | ok fed =>
      obtain ⟨string, limited⟩ := fed
      dsimp only [Except.toOption_ok, Option.bind_some]
      cases string.finish <;> rfl
  rw [hwrite, hfed, Option.bind_assoc]
  refine Option.bind_congr fun result _ => ?_
  rw [Option.bind_map]
  rfl

end Write

end Sark.Qpack
