import Sark.H3.Frame.Decode
import Sark.H3.Frame.Integer

/-!
# Streams of frames

A receive stream delivers its bytes bit by bit. Between deliveries the decoder is called with what
is there, and what it consumes is dropped. This file says what the reads of such a stream come to:
its fragments are gathered into frames, and these are the frames that the one-shot parser finds in
the whole stream.

* `Stream.Tracks.step`: what is done, what is begun and what is left are always the frames of the
  stream.
* `Stream.Tracks.finish`: a stream that is all delivered is read to its end.
* `frames_streamed`: a stream of complete frames is read as those, however it is delivered.
* `written_streamed`: frames that are written are what is read of their bytes.
-/

namespace Sark.H3.Frame

variable {V E : Type} [VarInt V E]

/-! ## Gathering fragments -/

/-- A fragment behind another one of the same frame. -/
def Content.join : Content V → Content V → Option (Content V)
  | .data first, .data second => some (.data (first ++ second))
  | .unknown kind, .unknown kind' => if kind = kind' then some (.unknown kind) else none
  | _, _ => none

/-- Frames and how many bytes they took, and a part of a frame that is not complete. -/
structure Gathered (V : Type) where
  done : List (Content V × ℕ)
  part : Option (Content V × ℕ)

namespace Gathered

/-- No frames. -/
def empty : Gathered V :=
  ⟨[], none⟩

/-- A frame that is complete, or a part of one of which there is more. -/
def close (self : Gathered V) (more : Bool) (content : Content V) (size : ℕ) : Gathered V :=
  if more then ⟨self.done, some (content, size)⟩ else ⟨self.done ++ [(content, size)], none⟩

/-- What is read next. A fragment that is not of the frame that was begun is a frame of its own. -/
def push (self : Gathered V) (content : Content V) (size : ℕ) (more : Bool) : Gathered V :=
  match self.part with
  | none => self.close more content size
  | some (part, len) =>
    match part.join content with
    | some whole => self.close more whole (len + size)
    | none => (⟨self.done ++ [(part, len)], none⟩ : Gathered V).close more content size

end Gathered

/-! ## Streams -/

/-- A receive stream: its decoder, the bytes that were delivered and not consumed, the bytes that
were not delivered, and what was read. -/
structure Stream (V : Type) where
  decoder : Decoder V
  buffer : Bytes
  ahead : Bytes
  gathered : Gathered V

namespace Stream

/-- A stream of which nothing was delivered. -/
def start (wire : Bytes) : Stream V :=
  ⟨.default, [], wire, .empty⟩

/-- More bytes are delivered. -/
def deliver (self : Stream V) (n : ℕ) : Stream V :=
  { self with buffer := self.buffer ++ self.ahead.take n, ahead := self.ahead.drop n }

/-- A read is taken, and what it consumes is dropped. -/
def take (self : Stream V) (read : Read V) : Stream V where
  decoder := read.next
  buffer := self.buffer.drop read.consumed
  ahead := self.ahead
  gathered :=
    self.gathered.push (read.frame.content self.buffer) read.consumed read.next.pending.isSome

variable [DecidableEq V]

/-- A step of a stream: a delivery, or a call of the decoder with the bytes that are there, in
whatever pieces they are. -/
inductive Step (limit : ℕ) : Stream V → Stream V → Prop
  | deliver (stream : Stream V) (n : ℕ) : Step limit stream (stream.deliver n)
  | decode {stream : Stream V} {source : Source} {read : Read V} :
      source.bytes = stream.buffer →
        (stream.decoder.decode source limit : Except (ParseError V E) _) = .ok read →
          Step limit stream (stream.take read)

end Stream

/-- The frames that the one-shot parser finds, one behind the other, up to the end of the input. -/
inductive Parses (limit : ℕ) [DecidableEq V] : Bytes → List (Content V × ℕ) → Prop
  | nil : Parses limit [] []
  | cons {wire : Bytes} {frame : Payload V} {n : ℕ} {frames : List (Content V × ℕ)} :
      (Payload.parse wire limit : Except (ParseError V E) _) = .ok (frame, n) →
        Parses limit (wire.drop n) frames → Parses limit wire ((frame.content, n) :: frames)

section Fragments

variable [DecidableEq V] {kind : V} {done : List (Content V × ℕ)} {bytes : Bytes} {size : ℕ}

theorem Content.join_ofFragment (kind : V) (first second : Bytes) :
    (Content.ofFragment kind first).join (Content.ofFragment kind second) =
      some (Content.ofFragment kind (first ++ second)) := by
  by_cases hdata : kind = typeData
  · simp only [ofFragment, if_pos hdata, join]
  · simp only [ofFragment, if_neg hdata, join, if_true]

theorem Decoder.content_fragment (kind : V) (len head : ℕ) (input : Bytes) :
    (Decoder.fragment kind len head input.length).frame.content input =
      .ofFragment kind ((input.drop head).take (min len (input.length - head))) := by
  have hslice : (input.take (head + min len (input.length - head))).drop head =
      (input.drop head).take (min len (input.length - head)) := by
    rw [List.drop_take, Nat.add_sub_cancel_left]
  rw [Decoder.fragment, Content.ofFragment]
  dsimp only
  by_cases hdata : kind = typeData
  · rw [if_pos hdata, if_pos hdata, ← hslice]
    rfl
  · rw [if_neg hdata, if_neg hdata]
    rfl

/-- What was gathered takes fragments of a kind, behind some bytes of a frame. -/
def Gathered.Takes (self : Gathered V) (kind : V) (done : List (Content V × ℕ)) (bytes : Bytes)
    (size : ℕ) : Prop :=
  ∀ more found n, self.push (.ofFragment kind found) n more =
    (⟨done, none⟩ : Gathered V).close more (.ofFragment kind (bytes ++ found)) (size + n)

theorem Gathered.takes_none : (⟨done, none⟩ : Gathered V).Takes kind done [] 0 := by
  intro more found n
  rw [Nat.zero_add]
  rfl

theorem Gathered.takes_some :
    (⟨done, some (.ofFragment kind bytes, size)⟩ : Gathered V).Takes kind done bytes size := by
  intro more found n
  rw [Gathered.push]
  dsimp only
  rw [Content.join_ofFragment]
  rfl

end Fragments

/-! ## What a stream keeps to -/

namespace Stream

variable [DecidableEq V] {limit : ℕ} {frames : List (Content V × ℕ)}

/-- The frames of a stream are those that are done, the one that is begun, and those that the
one-shot parser finds in what is left. -/
inductive Tracks (limit : ℕ) (frames : List (Content V × ℕ)) : Stream V → Prop
  | idle {buffer ahead : Bytes} {done later : List (Content V × ℕ)} :
      Parses limit (buffer ++ ahead) later → frames = done ++ later →
        Tracks limit frames ⟨.default, buffer, ahead, ⟨done, none⟩⟩
  | within {pending : Pending V} {buffer ahead payload wire bytes : Bytes} {size : ℕ}
      {done later : List (Content V × ℕ)} :
      buffer ++ ahead = payload ++ wire → payload.length = pending.remaining →
        Parses limit wire later →
          frames = done ++
            (.ofFragment pending.kind (bytes ++ payload), size + payload.length) :: later →
            Tracks limit frames ⟨⟨some pending⟩, buffer, ahead,
              ⟨done, some (.ofFragment pending.kind bytes, size)⟩⟩

theorem tracks_start {wire : Bytes} (h : Parses limit wire frames) :
    Tracks limit frames (start wire) :=
  .idle h rfl

theorem fragment_rest {buffer ahead lead payload wire : Bytes}
    (hrest : buffer ++ ahead = lead ++ (payload ++ wire)) (hlead : lead.length ≤ buffer.length) :
    (buffer.drop lead.length).take (min payload.length (buffer.length - lead.length)) =
        payload.take (min payload.length (buffer.length - lead.length)) ∧
      buffer.drop (lead.length + min payload.length (buffer.length - lead.length)) ++ ahead =
        payload.drop (min payload.length (buffer.length - lead.length)) ++ wire := by
  have hbehind : buffer.drop lead.length ++ ahead = payload ++ wire := by
    rw [← List.drop_append_of_le_length hlead, hrest, List.drop_left]
  have hbuffer : min payload.length (buffer.length - lead.length) ≤
      (buffer.drop lead.length).length := by
    rw [List.length_drop]
    exact Nat.min_le_right _ _
  have hpayload := Nat.min_le_left payload.length (buffer.length - lead.length)
  constructor
  · rw [← List.take_append_of_le_length hbuffer, hbehind, List.take_append_of_le_length hpayload]
  · rw [← List.drop_drop, ← List.drop_append_of_le_length hbuffer, hbehind,
      List.drop_append_of_le_length hpayload]

/-- A fragment keeps a stream to its frames. -/
theorem tracks_fragment {decoder : Decoder V} {buffer ahead lead payload wire bytes : Bytes}
    {gathered : Gathered V} {kind : V} {done later : List (Content V × ℕ)} {size len head : ℕ}
    (htakes : gathered.Takes kind done bytes size)
    (hrest : buffer ++ ahead = lead ++ (payload ++ wire)) (hlead : lead.length ≤ buffer.length)
    (hhead : lead.length = head) (hlen : payload.length = len) (hlater : Parses limit wire later)
    (hframes : frames = done ++
      (.ofFragment kind (bytes ++ payload), size + (head + len)) :: later) :
    Tracks limit frames ((⟨decoder, buffer, ahead, gathered⟩ : Stream V).take
      (Decoder.fragment kind len head buffer.length)) := by
  subst hhead hlen
  obtain ⟨htaken, hleft⟩ := fragment_rest hrest hlead
  have hcontent := Decoder.content_fragment kind payload.length lead.length buffer
  rw [htaken] at hcontent
  rw [take]
  dsimp only
  rw [hcontent, htakes]
  have hconsumed : (Decoder.fragment kind payload.length lead.length buffer.length).consumed =
      lead.length + min payload.length (buffer.length - lead.length) := rfl
  rw [hconsumed]
  have hnext : (Decoder.fragment kind payload.length lead.length buffer.length).next =
      ⟨if h : 0 < payload.length - min payload.length (buffer.length - lead.length) then
        some ⟨kind, payload.length - min payload.length (buffer.length - lead.length), h⟩
      else none⟩ := rfl
  rw [hnext]
  by_cases hmore : 0 < payload.length - min payload.length (buffer.length - lead.length)
  · -- A part of the payload is not there.
    rw [dif_pos hmore]
    refine .within hleft ?_ hlater ?_
    · rw [List.length_drop]
    · rw [hframes, List.append_assoc, List.take_append_drop, List.length_drop]
      congr 3
      omega
  · -- The frame is complete.
    have hall : min payload.length (buffer.length - lead.length) = payload.length := by omega
    rw [dif_neg hmore]
    rw [hall, List.drop_length, List.nil_append] at hleft
    rw [hall, List.take_length]
    refine .idle (hleft.symm ▸ hlater) ?_
    rw [hframes, List.append_assoc]
    rfl

theorem Tracks.deliver {stream : Stream V} (h : Tracks limit frames stream) (n : ℕ) :
    Tracks limit frames (stream.deliver n) := by
  have hrest : ∀ buffer ahead : Bytes,
      buffer ++ ahead.take n ++ ahead.drop n = buffer ++ ahead := fun buffer ahead => by
    rw [List.append_assoc, List.take_append_drop]
  rcases h with ⟨hlater, hframes⟩ | ⟨hpayload, hlength, hlater, hframes⟩
  · exact .idle ((hrest _ _).symm ▸ hlater) hframes
  · exact .within ((hrest _ _).trans hpayload) hlength hlater hframes

/-- What a decoder answers that has nothing left of a frame: the stream goes on with it, or it
waits. -/
theorem tracks_idle (hlaw : VarInt.Lawful V E) {source : Source} {ahead : Bytes}
    {done later : List (Content V × ℕ)} (hlater : Parses limit (source.bytes ++ ahead) later)
    (hframes : frames = done ++ later) :
    (∃ read : Read V, Decoder.default.decode source limit = .ok read ∧
        Tracks limit frames
          ((⟨.default, source.bytes, ahead, ⟨done, none⟩⟩ : Stream V).take read)) ∨
      (ahead = [] → later = []) ∧ ∃ cause : ParseError V E,
        Decoder.default.decode source limit = .error cause ∧ Waits cause := by
  generalize hrest : source.bytes ++ ahead = rest at hlater
  rcases hlater with _ | ⟨hparse, hlater⟩
  · -- Nothing is left.
    obtain ⟨hbytes, -⟩ := List.append_eq_nil_iff.mp hrest
    refine .inr ⟨fun _ => rfl, .varInt (VarInt.underflow V 0 1), ?_, .inr ⟨0, 1, rfl⟩⟩
    refine Decoder.decode_of_error hlaw.toLawfulDecode ?_
    rw [hbytes, Decoder.opening, decodeVarint, hlaw.decode_nil]
  next frame n later =>
    rw [← hrest] at hparse hlater
    rcases Decoder.decode_lead hlaw hparse with ⟨hmore, hwait⟩ | ⟨hle, htold⟩ | hfragment
    · exact .inr ⟨fun hahead => absurd hahead hmore, hwait⟩
    · -- The frame is all there.
      left
      obtain ⟨read, hread, hpair⟩ := Except.map_eq_ok_iff.mp htold
      obtain ⟨hcontent, hrest⟩ := Prod.mk.inj hpair
      obtain ⟨hconsumed, hnext⟩ := Prod.mk.inj hrest
      refine ⟨read, hread, ?_⟩
      rw [List.drop_append_of_le_length hle] at hlater
      rw [take, hconsumed, hnext, hcontent]
      refine .idle hlater ?_
      rw [hframes, List.append_assoc]
      rfl
    · -- A fragment of the frame is read.
      left
      obtain ⟨kind, len, head, hn, hhead, hread, hcontent⟩ := hfragment
      refine ⟨_, hread, ?_⟩
      obtain ⟨-, -, -, -, -, hstop, -⟩ := Payload.parse_eq_ok_iff.mp hparse
      have hlead : (source.bytes.take head).length = head := List.length_take_of_le hhead
      have hpayload : (((source.bytes ++ ahead).drop head).take len).length = len := by
        rw [List.length_take_of_le]
        rw [List.length_drop]
        omega
      have hwhole : source.bytes ++ ahead = source.bytes.take head ++
          (((source.bytes ++ ahead).drop head).take len ++ (source.bytes ++ ahead).drop n) := by
        rw [hn, ← List.drop_drop, List.take_append_drop, ← List.take_append_of_le_length hhead,
          List.take_append_drop]
      refine tracks_fragment Gathered.takes_none hwhole (hlead.trans_le hhead) hlead hpayload
        hlater ?_
      rw [hframes, hcontent, hn, Nat.zero_add]
      rfl

theorem tracks_within {pending : Pending V} {source : Source} {ahead payload wire bytes : Bytes}
    {size : ℕ} {done later : List (Content V × ℕ)}
    (hrest : source.bytes ++ ahead = payload ++ wire) (hlength : payload.length = pending.remaining)
    (hlater : Parses limit wire later)
    (hframes : frames = done ++
      (.ofFragment pending.kind (bytes ++ payload), size + payload.length) :: later) :
    (∃ read : Read V, (⟨some pending⟩ : Decoder V).decode source limit = .ok read ∧
        Tracks limit frames ((⟨⟨some pending⟩, source.bytes, ahead,
          ⟨done, some (.ofFragment pending.kind bytes, size)⟩⟩ : Stream V).take read)) ∨
      ahead ≠ [] ∧ ∃ cause : ParseError V E,
        (⟨some pending⟩ : Decoder V).decode source limit = .error cause ∧ Waits cause := by
  rw [Decoder.decode_of_pending]
  by_cases hempty : source.bytes.length = 0
  · rw [if_pos hempty]
    refine .inr ⟨?_, .needMore, rfl, .inl rfl⟩
    rintro rfl
    have hpos := pending.pos
    have hall := congrArg List.length hrest
    rw [List.append_nil, List.length_append] at hall
    omega
  · rw [if_neg hempty]
    have hlead : source.bytes ++ ahead = [] ++ (payload ++ wire) := hrest
    refine .inl ⟨_, rfl, tracks_fragment Gathered.takes_some hlead (Nat.zero_le _) rfl hlength
      hlater ?_⟩
    rw [hframes, hlength, Nat.zero_add]

/-- A stream that is read to its end. -/
structure Finished (frames : List (Content V × ℕ)) (stream : Stream V) : Prop where
  decoder_eq : stream.decoder = .default
  buffer_eq : stream.buffer = []
  ahead_eq : stream.ahead = []
  gathered_eq : stream.gathered = ⟨frames, none⟩

theorem Parses.eq_nil {wire : Bytes} (h : Parses limit wire ([] : List (Content V × ℕ))) :
    wire = [] := by
  generalize hframes : ([] : List (Content V × ℕ)) = found at h
  rcases h with _ | _
  · rfl
  · exact absurd hframes (by simp)

/-- What a decoder answers to the bytes that are there: the stream goes on with it, or has to wait,
for bytes that are not delivered if it is not finished. -/
theorem Tracks.answer (hlaw : VarInt.Lawful V E) {stream : Stream V}
    (h : Tracks limit frames stream) {source : Source} (hsource : source.bytes = stream.buffer) :
    (∃ read : Read V, stream.decoder.decode source limit = .ok read ∧
        Tracks limit frames (stream.take read)) ∨
      (stream.ahead = [] → stream.Finished frames) ∧ ∃ cause : ParseError V E,
        stream.decoder.decode source limit = .error cause ∧ Waits cause := by
  rcases h with ⟨hlater, hframes⟩ | ⟨hrest, hlength, hlater, hframes⟩
  next buffer ahead done later =>
    obtain rfl : source.bytes = buffer := hsource
    rcases tracks_idle hlaw hlater hframes with hread | ⟨hnil, hwait⟩
    · exact .inl hread
    · refine .inr ⟨fun hahead => ?_, hwait⟩
      obtain rfl : ahead = [] := hahead
      obtain rfl := hnil rfl
      rw [List.append_nil] at hlater hframes
      exact ⟨rfl, Parses.eq_nil hlater, rfl, by rw [hframes]⟩
  next pending buffer ahead payload wire bytes size done later =>
    obtain rfl : source.bytes = buffer := hsource
    rcases tracks_within hrest hlength hlater hframes with hread | ⟨hmore, hwait⟩
    · exact .inl hread
    · exact .inr ⟨fun hahead => absurd hahead hmore, hwait⟩

theorem Tracks.step (hlaw : VarInt.Lawful V E) {stream next : Stream V}
    (h : Tracks limit frames stream) (hstep : Step limit stream next) :
    Tracks limit frames next := by
  rcases hstep with n | ⟨hsource, hread⟩
  · exact h.deliver n
  · rcases h.answer hlaw hsource with ⟨read, hok, htracks⟩ | ⟨-, cause, herror, -⟩
    · obtain rfl := Except.ok.inj (hok.symm.trans hread)
      exact htracks
    · exact absurd (hread.symm.trans herror) (by simp)

theorem Tracks.run (hlaw : VarInt.Lawful V E) {stream next : Stream V}
    (h : Tracks limit frames stream) (hrun : Relation.ReflTransGen (Step limit) stream next) :
    Tracks limit frames next := by
  induction hrun with
  | refl => exact h
  | tail _ hstep ih => exact ih.step hlaw hstep

theorem Tracks.done_isPrefix {stream : Stream V} (h : Tracks limit frames stream) :
    stream.gathered.done <+: frames := by
  rcases h with ⟨-, hframes⟩ | ⟨-, -, -, hframes⟩
  · exact ⟨_, hframes.symm⟩
  · exact ⟨_, hframes.symm⟩

/-- A stream that is all delivered is finished when the decoder is called often enough. -/
theorem Tracks.finish (hlaw : VarInt.Lawful V E) {stream : Stream V}
    (h : Tracks limit frames stream) (hahead : stream.ahead = []) :
    ∃ last, Relation.ReflTransGen (Step limit) stream last ∧ last.Finished frames := by
  induction hsize : stream.buffer.length using Nat.strong_induction_on generalizing stream with
  | _ size ih =>
    subst hsize
    have hslice : (Source.ofSlice stream.buffer).bytes = stream.buffer := by
      show [stream.buffer].flatten = stream.buffer
      rw [List.flatten_cons, List.flatten_nil, List.append_nil]
    rcases h.answer hlaw hslice with ⟨read, hread, htracks⟩ | ⟨hfinished, -⟩
    · obtain ⟨hpos, hle⟩ := Decoder.consumed_le hlaw hread
      rw [hslice] at hle
      have hshorter : (stream.take read).buffer.length < stream.buffer.length := by
        show (stream.buffer.drop read.consumed).length < _
        rw [List.length_drop]
        omega
      obtain ⟨last, hrun, hlast⟩ := ih _ hshorter htracks hahead rfl
      exact ⟨last, .head (.decode hslice hread) hrun, hlast⟩
    · exact ⟨stream, .refl, hfinished hahead⟩

end Stream

/-! ## Main results -/

section Main

variable [DecidableEq V]

/-- A complete frame, and what the one-shot parser finds in it. -/
def Complete (limit : ℕ) (wire : Bytes) (found : Content V × ℕ) : Prop :=
  ∃ frame : Payload V, (Payload.parse wire limit : Except (ParseError V E) _) =
    .ok (frame, wire.length) ∧ found = (frame.content, wire.length)

theorem parses_flatten (hlaw : VarInt.LawfulDecode V E) {limit : ℕ} {wires : List Bytes}
    {frames : List (Content V × ℕ)} (h : List.Forall₂ (Complete limit) wires frames) :
    Parses limit wires.flatten frames := by
  induction h with
  | nil => exact .nil
  | cons hframe _ ih =>
    obtain ⟨frame, hparse, rfl⟩ := hframe
    rw [List.flatten_cons]
    refine .cons (Payload.parse_append hlaw hparse _) ?_
    rw [List.drop_left]
    exact ih

/-- A stream of complete frames within a limit is read as those frames, however it is delivered:
what is done is the beginning of what the one-shot parser finds, fragments joined, with the same
sizes; the decoder never fails, and waits only for bytes that are not delivered; and from every
state the stream can be read to its end. No read consumes more than there is, reserved kinds and
malformed integers are rejected as the one-shot parser rejects them, and settings are read back as
they were written. -/
theorem frames_streamed (hlaw : VarInt.Lawful V E) :
    (∀ limit wires frames, List.Forall₂ (Complete (V := V) limit) wires frames →
      Parses limit wires.flatten frames ∧ ∀ stream,
        Relation.ReflTransGen (Stream.Step limit) (Stream.start wires.flatten) stream →
          stream.gathered.done <+: frames ∧
          (∀ source, source.bytes = stream.buffer →
            (∃ read : Read V, stream.decoder.decode source limit = .ok read) ∨
              (stream.ahead = [] → stream.Finished frames) ∧ ∃ cause : ParseError V E,
                stream.decoder.decode source limit = .error cause ∧ Waits cause) ∧
          ∃ last, Relation.ReflTransGen (Stream.Step limit) stream last ∧ last.Finished frames) ∧
    (∀ (self : Decoder V) source limit read, self.decode source limit = .ok read →
      0 < read.consumed ∧ read.consumed ≤ source.bytes.length) ∧
    (∀ source limit (header : Header V), Header.parse source.bytes = .ok header →
      Reserved header.kind →
        Decoder.default.decode source limit = .error (.reservedFrame header.kind) ∧
          Payload.parse source.bytes limit = .error (.reservedFrame header.kind)) ∧
    (∀ source limit (header : Header V) len stop, Header.parse source.bytes = .ok header →
      ¬Reserved header.kind → bound limit header.headerLen header.length = .ok (len, stop) →
        Whole header.kind →
          (Decoder.default.decode source limit : Except (ParseError V E) _).map
              (Read.told source.bytes) =
            (Payload.parse source.bytes limit).map fun parsed =>
              (parsed.1.content, parsed.2, Decoder.default)) ∧
    (∀ source limit (header : Header V) len stop, Header.parse source.bytes = .ok header →
      OfInteger header.kind → bound limit header.headerLen header.length = .ok (len, stop) →
        stop ≤ source.bytes.length →
          (∀ value : V, (VarInt.decode ((source.bytes.drop header.headerLen).take len) :
              Except E (V × ℕ)) ≠
            .ok (value, ((source.bytes.drop header.headerLen).take len).length)) →
            ∃ cause : ParseError V E, Decoder.default.decode source limit = .error cause ∧
              Payload.parse source.bytes limit = .error cause) ∧
    ∀ settings : Settings V, Settings.decode settings.encode = .ok settings ∧
      settings.encode.length = settings.encodedLen := by
  refine ⟨fun limit wires frames hframes => ?_, fun _ _ _ _ h => Decoder.consumed_le hlaw h,
    fun _ _ _ hheader hreserved =>
      Decoder.reserved_rejected hlaw.toLawfulDecode hheader hreserved,
    fun _ _ _ _ _ hheader hreserved hbound hwhole =>
      Decoder.decode_eq_parse hlaw hheader hreserved hbound hwhole,
    fun _ _ _ _ _ hheader hinteger hbound hstop hmalformed =>
      Decoder.malformed_rejected hlaw hheader hinteger hbound hstop hmalformed,
    fun settings => ⟨Settings.decode_encode hlaw settings, Settings.length_encode hlaw settings⟩⟩
  have hparses := parses_flatten hlaw.toLawfulDecode hframes
  refine ⟨hparses, fun stream hrun => ?_⟩
  have htracks := (Stream.tracks_start hparses).run hlaw hrun
  refine ⟨htracks.done_isPrefix, fun source hsource => ?_, ?_⟩
  · exact (htracks.answer hlaw hsource).imp_left fun ⟨read, hread, _⟩ => ⟨read, hread⟩
  · -- What is left is delivered at once.
    have hdelivered : (stream.deliver stream.ahead.length).ahead = [] := List.drop_length
    obtain ⟨last, hlast, hfinished⟩ :=
      (htracks.deliver stream.ahead.length).finish hlaw hdelivered
    exact ⟨last, .head (.deliver stream stream.ahead.length) hlast, hfinished⟩

/-- A frame of data and an empty one of a kind that is not known. -/
theorem frames_streamed_two :
    ∃ last : Stream (Fin (2 ^ 62)),
      Relation.ReflTransGen (Stream.Step 10) (Stream.start [0, 1, 97, 0x21, 0]) last ∧
        last.Finished [(.data [97], 3), (.unknown 0x21, 2)] :=
  (((frames_streamed Integer.lawful).1 10 [[0, 1, 97], [0x21, 0]]
    [(.data [97], 3), (.unknown 0x21, 2)]
    (.cons ⟨.data [97], rfl, rfl⟩ (.cons ⟨.unknown 0x21 [], rfl, rfl⟩ .nil))).2 _ .refl).2.2

/-- A frame within a limit as it is written, and what a stream of it holds. -/
def Written (limit : ℕ) (wire : Bytes) (found : Content V × ℕ) : Prop :=
  ∃ (kind : V) (payload : Bytes) (frame : Payload V), ¬Reserved kind ∧ payload.length ≤ limit ∧
    (Payload.encode kind payload : Except (ParseError V E) _) = .ok wire ∧
    (Payload.ofKind kind payload : Except (ParseError V E) _) = .ok frame ∧
      found = (frame.content, wire.length)

/-- Frames that are written one behind the other are what is read of the stream, however it is
delivered: what is done is the beginning of them, and from every state all of them can be read. -/
theorem written_streamed (hlaw : VarInt.Lawful V E) {limit : ℕ} {wires : List Bytes}
    {frames : List (Content V × ℕ)} (h : List.Forall₂ (Written limit) wires frames)
    {stream : Stream V}
    (hrun : Relation.ReflTransGen (Stream.Step limit) (Stream.start wires.flatten) stream) :
    stream.gathered.done <+: frames ∧
      ∃ last, Relation.ReflTransGen (Stream.Step limit) stream last ∧ last.Finished frames := by
  have hcomplete : List.Forall₂ (Complete limit) wires frames := by
    refine h.imp fun wire found hwritten => ?_
    obtain ⟨kind, payload, frame, hkind, hlimit, hencode, hframe, hfound⟩ := hwritten
    exact ⟨frame, Payload.parse_encode hlaw hkind hlimit hencode hframe, hfound⟩
  have htracks :=
    (Stream.tracks_start (parses_flatten hlaw.toLawfulDecode hcomplete)).run hlaw hrun
  have hdelivered : (stream.deliver stream.ahead.length).ahead = [] := List.drop_length
  obtain ⟨last, hlast, hfinished⟩ := (htracks.deliver stream.ahead.length).finish hlaw hdelivered
  exact ⟨htracks.done_isPrefix, last, .head (.deliver stream stream.ahead.length) hlast, hfinished⟩

/-- A frame of data in front of an empty one of a kind that is not known. -/
theorem written_streamed_two : ∃ last : Stream (Fin (2 ^ 62)),
    Relation.ReflTransGen (Stream.Step 10) (Stream.start [0, 1, 97, 0x21, 0]) last ∧
      last.Finished [(.data [97], 3), (.unknown 0x21, 2)] := by
  have hwritten : List.Forall₂ (Written 10) [[0, 1, 97], [0x21, 0]]
      [((.data [97], 3) : Content (Fin (2 ^ 62)) × ℕ), (.unknown 0x21, 2)] :=
    .cons ⟨0, [97], .data [97], by decide, by decide, rfl, rfl, rfl⟩
      (.cons ⟨0x21, [], .unknown 0x21 [], by decide, by decide, rfl, rfl, rfl⟩ .nil)
  exact (written_streamed Integer.lawful hwritten .refl).2

end Main

end Sark.H3.Frame
