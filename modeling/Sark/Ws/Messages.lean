import Sark.Ws.Frames
import Sark.Ws.Inbound

/-!
# Messages

A connection reads the frames of its peer from bytes that arrive in any pieces. What the frames come
to is said without the connection: fragments make up a message, with control frames anywhere between
them.

* `Session.messages_assembled`: what is received does not depend on how the bytes arrive.
* `Session.sent_received`: messages are received as they were sent, however they were fragmented.
* `Session.run_fits`: whatever bytes arrive, messages stay within the limit and text is valid.
-/

namespace Sark.Ws

open Utf8 (Valid validateFrom_eq_ok_iff)

/-! ## Sessions -/

/-- A connection: the bytes that are not read and those that did not arrive, and what it was
given. -/
structure Session where
  inbound : Inbound
  buffer : Bytes
  ahead : Bytes
  done : List Event

/-- Bytes arrive, or the loop of `drive_source` asks for a frame and finds none, or commits one. -/
inductive Session.Step (peer : Peer) (limit : ℕ) : Session → Session → Prop
  | arrive (self : Session) (n : ℕ) :
      Step peer limit self
        { self with buffer := self.buffer ++ self.ahead.take n, ahead := self.ahead.drop n }
  | wait {self : Session} {inbound : Inbound} :
      self.inbound.decode peer self.buffer limit = .ok (inbound, none) →
        Step peer limit self { self with inbound }
  | read {self : Session} {inbound next : Inbound} {admission : Admission} {event : Option Event} :
      self.inbound.decode peer self.buffer limit = .ok (inbound, some admission) →
        inbound.finish admission (admission.payload self.buffer) = .ok (next, event) →
          Step peer limit self
            { self with
              inbound := next
              buffer := self.buffer.drop admission.head.payloadEnd
              done := self.done ++ event.toList }

/-! ## Messages -/

/-- A message of which fragments were received. -/
abbrev Part := Option (Kind × Bytes)

/-- A frame of data behind the fragments of its message. -/
def Part.join (part : Part) (frame : Frame) : Part :=
  match part with
  | none =>
    if frame.plan.opcode = 0x1 then some (.text, frame.payload)
    else if frame.plan.opcode = 0x2 then some (.binary, frame.payload)
    else none
  | some (kind, data) =>
    if frame.plan.opcode = 0x0 then some (kind, data ++ frame.payload) else none

/-- What a frame comes to, and the fragments behind it. -/
inductive Takes (max : ℕ) (frame : Frame) : Part → Part → Option Event → Prop
  | control {part : Part} {event : Event} :
      (frame.plan.opcode = 0x9 ∧ event = .ping frame.payload ∨
        frame.plan.opcode = 0xa ∧ event = .pong frame.payload) →
        frame.plan.fin = true → frame.payload.length ≤ maxControlPayload →
          Takes max frame part part (some event)
  | data {part : Part} {kind : Kind} {data : Bytes} : part.join frame = some (kind, data) →
      data.length ≤ max → (frame.plan.fin = true → kind = .text → Valid data) →
        Takes max frame part (if frame.plan.fin then none else some (kind, data))
          (if frame.plan.fin then some (.message kind data) else none)

/-- What the frames of a peer come to, one behind the other. -/
inductive Assembles (peer : Peer) (limit max : ℕ) : Part → List Frame → List Event → Prop
  | nil {part : Part} : Assembles peer limit max part [] []
  | cons {part next : Part} {frame : Frame} {frames : List Frame} {event : Option Event}
      {events : List Event} : frame.mask.isSome = peer.masks → frame.payload.length ≤ limit →
        Takes max frame part next event → Assembles peer limit max next frames events →
          Assembles peer limit max part (frame :: frames) (event.toList ++ events)

/-- The buffer that holds the fragments of a message. -/
def Part.fragments (part : Part) (max : ℕ) : Fragments :=
  ⟨part.map Prod.fst, (part.map Prod.snd).getD [], max⟩

/-- The head that the header of a frame is parsed as. -/
def Frame.head (self : Frame) : Head :=
  let start := headWidth self.payload.length + maskWidth self.mask.isSome
  ⟨self.plan.fin, self.plan.opcode, self.mask, start, start + self.payload.length⟩

section Frames

variable {peer : Peer} {limit max : ℕ} {frame : Frame} {part next : Part} {event : Option Event}
  {self : Inbound} {buffer ahead rest : Bytes}

@[simp]
theorem Frame.payloadLen_head : frame.head.payloadLen = frame.payload.length :=
  Nat.add_sub_cancel_left ..

theorem Frame.length_written_eq : frame.written.length = frame.head.payloadEnd := by
  rw [length_written, frame.plan.wireLen_eq, frame.plan.head_eq, ← frame.length_eq,
    ← frame.isSome_eq]
  rfl

/-- The payload of a frame is what its sender masked. -/
theorem Frame.payload_written (kind : Content) (rest : Bytes) :
    (Admission.mk frame.head kind frame.mask).payload (frame.written ++ rest) = frame.payload := by
  have hcopy : ∀ key : Key, key.copy frame.payload = masked key 0 frame.payload := by
    simp [Key.copy, masked]
  have hstart : frame.head.start = frame.header.length := by
    rw [header_eq, length_headerBytes, ← frame.length_eq]
    rfl
  rw [Admission.payload, payloadLen_head, hstart, written, List.append_assoc, List.drop_left]
  cases hmask : frame.mask with
  | none => exact List.take_left
  | some key =>
    have hlength : (key.copy frame.payload).length = frame.payload.length := List.length_mapIdx
    dsimp only [Option.elim]
    rw [← hlength, List.take_left, hcopy, masked_masked]

/-- What the buffer does with a frame of data. -/
theorem Part.push {kind : Kind} {data : Bytes} (hjoin : part.join frame = some (kind, data))
    (hdata : data.length ≤ max) (hmax : max ≤ usizeMax)
    (hvalid : frame.plan.fin = true → kind = .text → Valid data) :
    frame.plan.opcode ≤ 0x2 ∧ ∃ joining,
      (part.fragments max).admitFrame frame.plan.opcode frame.plan.fin frame.payload.length =
          .ok joining ∧
        (part.fragments max).prepare frame.payload joining = .ok () ∧
        (part.fragments max).commit frame.payload joining =
          (Part.fragments (if frame.plan.fin then none else some (kind, data)) max,
            if frame.plan.fin then some (.message kind data) else none) := by
  have htext : frame.plan.fin = true → kind = .text → TextError.check data 0 = .ok () :=
    fun hfin htext => by
      rw [check_eq, (validateFrom_eq_ok_iff 0 data).mpr (hvalid hfin htext)]
      rfl
  rcases part with _ | ⟨opened, front⟩
  · obtain ⟨hopcode, rfl⟩ : frame.plan.opcode = kind.code ∧ frame.payload = data := by
      rw [Part.join] at hjoin
      split_ifs at hjoin with hcode hcode <;>
        obtain ⟨rfl, rfl⟩ := Prod.mk.inj (Option.some.inj hjoin) <;> exact ⟨hcode, rfl⟩
    have hstart : (Part.fragments none max).start kind frame.plan.fin frame.payload.length =
        .ok (if frame.plan.fin then .whole kind frame.payload.length else .begin kind) :=
      if_neg (not_lt.mpr hdata)
    rw [hopcode]
    refine ⟨by cases kind <;> decide, if frame.plan.fin then .whole kind frame.payload.length
      else .begin kind, ?_, ?_, ?_⟩
    · cases kind <;> exact hstart
    · cases hfin : frame.plan.fin <;> cases kind <;> first | rfl | exact htext hfin rfl
    · cases frame.plan.fin <;> rfl
  · rw [Part.join, Option.ite_none_right_eq_some] at hjoin
    obtain ⟨hopcode, hjoined⟩ := hjoin
    obtain ⟨rfl, rfl⟩ := Prod.mk.inj (Option.some.inj hjoined)
    rw [List.length_append] at hdata
    rw [hopcode]
    have hfits : ¬(usizeMax < front.length + frame.payload.length ∨
        max < front.length + frame.payload.length) := by omega
    refine ⟨by decide, if frame.plan.fin then .joined opened (front.length + frame.payload.length)
      else .next, if_neg hfits, ?_, ?_⟩
    · cases hfin : frame.plan.fin <;> cases opened <;>
        first | rfl | exact (validatePair_eq_check ..).trans (htext hfin rfl)
    · cases frame.plan.fin <;> rfl

/-- A frame that may come next passes its check, and is committed to what it comes to. -/
theorem Takes.check (h : Takes max frame part next event) (hmax : max ≤ usizeMax)
    (hmask : frame.mask.isSome = peer.masks) : frame.plan.opcode ≤ 0x0f ∧
      ∃ kind, check peer (part.fragments max) frame.head = .ok (kind, frame.mask) ∧
        ∀ stop, Inbound.finish ⟨part.fragments max, stop⟩ ⟨frame.head, kind, frame.mask⟩
          frame.payload = .ok (⟨next.fragments max, none⟩, event) := by
  have hcheck : ∀ {kind}, content (part.fragments max) frame.head = .ok kind →
      Ws.check peer (part.fragments max) frame.head = .ok (kind, frame.mask) := by
    intro kind hkind
    have hwitness : peer.witness frame.head.mask = .ok frame.mask := if_pos hmask
    rw [Ws.check, hwitness, hkind]
    rfl
  have hlength : ¬frame.payload.length ≠ frame.head.payloadLen :=
    not_not.mpr Frame.payloadLen_head.symm
  cases h with
  | control hopcode hfin hshort =>
    have hcontrol : ∀ kind, Ws.control frame.head kind = .ok kind := fun kind =>
      if_neg (by rw [Frame.payloadLen_head]; simpa [Frame.head, hfin] using hshort)
    obtain ⟨hcode, rfl⟩ | ⟨hcode, rfl⟩ := hopcode
    · refine ⟨by rw [hcode]; decide, .ping, hcheck ?_, fun _ => if_neg hlength⟩
      rw [content, show frame.head.opcode = 0x9 from hcode]
      exact hcontrol .ping
    · refine ⟨by rw [hcode]; decide, .pong, hcheck ?_, fun _ => if_neg hlength⟩
      rw [content, show frame.head.opcode = 0xa from hcode]
      exact hcontrol .pong
  | data hjoin hle hvalid =>
    obtain ⟨hopcode, joining, hjoining, hprepare, hcommit⟩ := Part.push hjoin hle hmax hvalid
    refine ⟨UInt8.le_trans hopcode (by decide), .data joining, hcheck ?_, fun stop => ?_⟩
    · rw [content, Frame.payloadLen_head]
      refine (if_pos hopcode).trans ?_
      rw [show (part.fragments max).admitFrame frame.head.opcode frame.head.fin
        frame.payload.length = .ok joining from hjoining]
      rfl
    · rw [Inbound.finish, if_neg hlength]
      dsimp only
      rw [hprepare, hcommit]

/-- A frame is admitted when all of it has arrived, and waited for until then. -/
theorem Inbound.decode_spec {kind : Content} (hopcode : frame.plan.opcode ≤ 0x0f)
    (hcheck : check peer self.fragments frame.head = .ok (kind, frame.mask))
    (hlimit : frame.payload.length ≤ limit) (hsize : (frame.written ++ rest).length ≤ isizeMax)
    (hsplit : buffer ++ ahead = frame.written ++ rest)
    (hpending : self.pendingEnd = none ∨ self.pendingEnd = some frame.head.payloadEnd) :
    ∃ stop, (stop = none ∨ stop = some frame.head.payloadEnd) ∧
      self.decode peer buffer limit = .ok (⟨self.fragments, stop⟩,
        if buffer.length < frame.head.payloadEnd then none
        else some ⟨frame.head, kind, frame.mask⟩) := by
  have hend := @Frame.length_written_eq frame
  have hbuffer := congrArg List.length hsplit
  have hbytes := frame.header_eq
  rw [← frame.length_eq] at hbytes
  have hheader : frame.header <+: frame.written ++ rest := by
    rw [Frame.written, List.append_assoc]
    exact List.prefix_append _ _
  have hlead : buffer <+: frame.written ++ rest := hsplit ▸ List.prefix_append buffer ahead
  have hwritten : frame.written.length = frame.header.length + frame.payload.length := by
    rw [hbytes, length_headerBytes, hend]
    rfl
  rw [List.length_append, List.length_append] at hbuffer
  rw [List.length_append] at hsize
  have hlimits : isizeMax ≤ usizeMax := by decide
  by_cases hwait : self.pendingEnd.any (buffer.length < ·) = true
  · obtain hnone | hsome := hpending
    · simp [hnone] at hwait
    · refine ⟨self.pendingEnd, .inr hsome, ?_⟩
      rw [decode, if_pos hwait, if_pos (by simpa [hsome] using hwait)]
  rw [decode, if_neg hwait]
  by_cases hcomplete : frame.header.length ≤ buffer.length
  · obtain ⟨tail, htail⟩ := List.prefix_of_prefix_length_le hheader hlead hcomplete
    have hparse := @Head.parse_header buffer tail 0 usizeMax frame.payload.length frame.plan.fin
      frame.plan.opcode frame.mask (by omega) hopcode (by omega) (by omega)
      (by rw [List.drop_zero, ← hbytes, htail])
    rw [Nat.zero_add] at hparse
    refine ⟨some frame.head.payloadEnd, .inr rfl, ?_⟩
    rw [show Head.parse buffer 0 usizeMax = .ok (some frame.head) from hparse]
    dsimp only
    rw [hcheck]
    dsimp only
    rw [Frame.payloadLen_head, if_neg (not_lt.mpr hlimit), if_neg]
    rcases hpending with hnone | hsome <;> simp [*]
  · -- a pending end is known from the header
    have hnone : self.pendingEnd = none := by
      refine hpending.resolve_right fun hsome => hwait ?_
      rw [hsome]
      exact decide_eq_true (by omega)
    have hshort : buffer <+: frame.header :=
      List.prefix_of_prefix_length_le hlead hheader (by omega)
    have hparse := @Head.parse_short buffer 0 usizeMax frame.payload.length frame.plan.fin
      frame.plan.opcode frame.mask (by omega) hopcode (by omega) (Nat.zero_le _) (by omega)
      (by rwa [List.drop_zero, ← hbytes])
      (by rw [List.drop_zero, ← hbytes]; rintro rfl; exact hcomplete le_rfl)
    refine ⟨none, .inl rfl, ?_⟩
    rw [hparse]
    dsimp only
    rw [hnone, if_pos (by omega)]
    cases self
    simp_all

end Frames

/-! ## Runs -/

namespace Session

variable {peer : Peer} {limit max : ℕ} {events : List Event} {self next : Session}

/-- Where a session is among the frames of its peer. -/
def Tracks (peer : Peer) (limit max : ℕ) (events : List Event) (self : Session) : Prop :=
  ∃ part frames rest, Assembles peer limit max part frames rest ∧ self.done ++ rest = events ∧
    self.buffer ++ self.ahead = frames.flatMap Frame.written ∧
    (self.buffer ++ self.ahead).length ≤ isizeMax ∧
    self.inbound.fragments = part.fragments max ∧
    (self.inbound.pendingEnd = none ∨
      self.inbound.pendingEnd = frames.head?.map (·.head.payloadEnd))

/-- The next frame is waited for, or it is read and committed. -/
theorem Tracks.answer (h : self.Tracks peer limit max events) (hmax : max ≤ usizeMax) :
    (∃ inbound, self.inbound.decode peer self.buffer limit = .ok (inbound, none) ∧
      Tracks peer limit max events { self with inbound } ∧
      (self.ahead = [] → self.buffer = [] ∧ self.done = events)) ∨
    ∃ inbound admission final event,
      self.inbound.decode peer self.buffer limit = .ok (inbound, some admission) ∧
        inbound.finish admission (admission.payload self.buffer) = .ok (final, event) ∧
        (self.buffer.drop admission.head.payloadEnd).length < self.buffer.length ∧
        Tracks peer limit max events
          { self with
            inbound := final
            buffer := self.buffer.drop admission.head.payloadEnd
            done := self.done ++ event.toList } := by
  obtain ⟨part, frames, rest, hframes, hdone, hsplit, hsize, hfragments, hpending⟩ := h
  cases hframes with
  | nil =>
    have hnone : self.inbound.pendingEnd = none := by simpa using hpending
    obtain ⟨hbuffer, hahead⟩ := List.append_eq_nil_iff.mp hsplit
    refine .inl ⟨self.inbound, ?_, ⟨part, [], [], .nil, hdone, hsplit, hsize, hfragments,
      hpending⟩, fun _ => ⟨hbuffer, by simpa using hdone⟩⟩
    rw [hbuffer, Inbound.decode, hnone]
    rfl
  | @cons _ following frame frames event later hmask hlimit htakes hlater =>
    obtain ⟨hopcode, kind, hcheck, hfinish⟩ := htakes.check hmax hmask
    rw [List.flatMap_cons] at hsplit
    obtain ⟨stop, hstop, hdecode⟩ := Inbound.decode_spec hopcode (hfragments ▸ hcheck) hlimit
      (hsplit ▸ hsize) hsplit hpending
    have hend := @Frame.length_written_eq frame
    have hlength := congrArg List.length hsplit
    rw [List.length_append, List.length_append] at hlength
    by_cases hshort : self.buffer.length < frame.head.payloadEnd
    · rw [if_pos hshort] at hdecode
      refine .inl ⟨_, hdecode, ⟨part, frame :: frames, _, .cons hmask hlimit htakes hlater, hdone,
        by rw [List.flatMap_cons, hsplit], hsize, hfragments, hstop⟩, fun hahead => ?_⟩
      rw [hahead, List.length_nil] at hlength
      omega
    · rw [if_neg hshort] at hdecode
      obtain ⟨tail, htail⟩ : frame.written <+: self.buffer :=
        List.prefix_of_prefix_length_le (List.prefix_append _ _)
          (hsplit ▸ List.prefix_append self.buffer self.ahead) (by omega)
      have hdrop : self.buffer.drop frame.head.payloadEnd = tail := by
        rw [← hend, ← htail, List.drop_left]
      refine .inr ⟨_, _, ⟨following.fragments max, none⟩, event, hdecode, ?_, ?_, following, frames,
        later, hlater, ?_, ?_, ?_, rfl, .inl rfl⟩
      · rw [hfragments, ← htail, Frame.payload_written]
        exact hfinish stop
      · have hpos : 0 < frame.head.payloadEnd := by
          rw [← hend, Frame.length_written, frame.plan.wireLen_eq, frame.plan.head_eq, headWidth]
          split_ifs <;> omega
        dsimp only
        rw [List.length_drop]
        omega
      · rw [List.append_assoc, hdone]
      · dsimp only
        rw [hdrop]
        rw [← htail, List.append_assoc] at hsplit
        exact List.append_cancel_left hsplit
      · dsimp only
        rw [List.length_append, List.length_drop]
        rw [List.length_append] at hsize
        omega

/-- A step keeps a session to the frames of its peer. -/
theorem Tracks.step (h : self.Tracks peer limit max events) (hmax : max ≤ usizeMax)
    (hstep : Step peer limit self next) : next.Tracks peer limit max events := by
  cases hstep with
  | arrive n =>
    obtain ⟨part, frames, rest, hframes, hdone, hsplit, hsize, hinbound⟩ := h
    have harrive : self.buffer ++ self.ahead.take n ++ self.ahead.drop n =
        self.buffer ++ self.ahead := by
      rw [List.append_assoc, List.take_append_drop]
    exact ⟨part, frames, rest, hframes, hdone, harrive ▸ hsplit, harrive ▸ hsize, hinbound⟩
  | wait hdecode =>
    rcases h.answer hmax with ⟨inbound, hok, htracks, -⟩ | ⟨_, _, _, _, hok, -⟩ <;>
      cases hdecode.symm.trans hok
    exact htracks
  | read hdecode hfinish =>
    rcases h.answer hmax with ⟨_, hok, -⟩ | ⟨_, _, _, _, hok, hcommit, -, htracks⟩ <;>
      cases hdecode.symm.trans hok
    cases hfinish.symm.trans hcommit
    exact htracks

/-- A session whose bytes have all arrived reads all frames. -/
theorem Tracks.finish (h : self.Tracks peer limit max events) (hmax : max ≤ usizeMax)
    (hahead : self.ahead = []) : ∃ last, Relation.ReflTransGen (Step peer limit) self last ∧
      last.ahead = [] ∧ last.buffer = [] ∧ last.done = events := by
  induction hsize : self.buffer.length using Nat.strong_induction_on generalizing self with
  | _ size ih =>
    subst hsize
    rcases h.answer hmax with ⟨_, -, -, hend⟩ | ⟨_, _, _, _, hdecode, hcommit, hlt, htracks⟩
    · exact ⟨self, .refl, hahead, hend hahead⟩
    · obtain ⟨last, hrun, hlast⟩ := ih _ hlt htracks hahead rfl
      exact ⟨last, .head (.read hdecode hcommit) hrun, hlast⟩

theorem Tracks.done_isPrefix (h : self.Tracks peer limit max events) : self.done <+: events := by
  obtain ⟨-, -, rest, -, hdone, -⟩ := h
  exact ⟨rest, hdone⟩

/-- From every state, all frames can be read. -/
theorem Tracks.read_all (h : self.Tracks peer limit max events) (hmax : max ≤ usizeMax) :
    ∃ last, Relation.ReflTransGen (Step peer limit) self last ∧
      last.ahead = [] ∧ last.buffer = [] ∧ last.done = events := by
  have harrived := h.step hmax (.arrive self self.ahead.length)
  obtain ⟨last, hlast, hend⟩ := harrived.finish hmax List.drop_length
  exact ⟨last, .head (.arrive self self.ahead.length) hlast, hend⟩

/-- A run keeps a session to the frames of its peer. -/
theorem tracks_run (hmax : max ≤ usizeMax) {frames : List Frame}
    (h : Assembles peer limit max none frames events)
    (hsize : (frames.flatMap Frame.written).length ≤ isizeMax)
    (hrun : Relation.ReflTransGen (Step peer limit)
      ⟨.new max, [], frames.flatMap Frame.written, []⟩ self) :
    self.Tracks peer limit max events := by
  induction hrun with
  | refl => exact ⟨none, frames, events, h, rfl, rfl, hsize, rfl, .inl rfl⟩
  | tail _ hstep ih => exact ih.step hmax hstep

/-- Whatever the frames of a peer come to, the connection is given just that, however their bytes
arrive: what it was given is the beginning of it, no frame is refused, and from every state the rest
can be read. -/
theorem messages_assembled (hmax : max ≤ usizeMax) {frames : List Frame}
    (h : Assembles peer limit max none frames events)
    (hsize : (frames.flatMap Frame.written).length ≤ isizeMax)
    (hrun : Relation.ReflTransGen (Step peer limit)
      ⟨.new max, [], frames.flatMap Frame.written, []⟩ self) :
    self.done <+: events ∧
    ((∃ inbound, self.inbound.decode peer self.buffer limit = .ok (inbound, none)) ∨
      ∃ inbound admission next,
        self.inbound.decode peer self.buffer limit = .ok (inbound, some admission) ∧
          inbound.finish admission (admission.payload self.buffer) = .ok next) ∧
    ∃ last, Relation.ReflTransGen (Step peer limit) self last ∧
      last.ahead = [] ∧ last.buffer = [] ∧ last.done = events := by
  have htracks := tracks_run hmax h hsize hrun
  refine ⟨htracks.done_isPrefix, ?_, htracks.read_all hmax⟩
  exact (htracks.answer hmax).imp (fun ⟨inbound, hok, _⟩ => ⟨inbound, hok⟩)
    fun ⟨inbound, admission, _, _, hok, hcommit, _⟩ => ⟨inbound, admission, _, hok, hcommit⟩

/-- A ping between the fragments of a message. -/
theorem messages_assembled_two : ∃ last,
    Relation.ReflTransGen (Step .server 8)
      ⟨.new 8, [], [0x02, 1, 5, 0x89, 0, 0x80, 1, 6], []⟩ last ∧
      last.done = [.ping [], .message .binary [5, 6]] := by
  have hlast : Assembles .server 8 8 (some (.binary, [5])) [.server 0 [6]]
      [.message .binary [5, 6]] :=
    .cons rfl (by decide) (@Takes.data 8 (.server 0 [6]) (some (.binary, [5])) .binary [5, 6] rfl
      (by decide) nofun) .nil
  have hping : Assembles .server 8 8 (some (.binary, [5])) [.server 9 [], .server 0 [6]]
      [.ping [], .message .binary [5, 6]] :=
    .cons rfl (by decide) (.control (.inl ⟨rfl, rfl⟩) rfl (by decide)) hlast
  have hfirst : Assembles .server 8 8 none
      [⟨⟨0x2, false, 1, false, 3, 2, rfl, rfl⟩, [5], none, rfl, rfl⟩, .server 9 [], .server 0 [6]]
      [.ping [], .message .binary [5, 6]] :=
    .cons rfl (by decide) (@Takes.data 8 _ none .binary [5] rfl (by decide) nofun) hping
  obtain ⟨-, -, last, hrun, -, -, hdone⟩ :=
    messages_assembled (by decide) hfirst (by decide) .refl
  exact ⟨last, hrun, hdone⟩

end Session

/-! ## Messages that are sent -/

/-- The frames that `Frames` makes of a message come to the message, whatever their masks are. -/
theorem Frames.assembles {limit max : ℕ} {kind : Kind} {lead : Bytes} {part : Part}
    {frames : Frames} {later : List Frame} {events : List Event} (h : frames.done = false)
    (hjoin : ∀ frame : Frame, frame.plan.opcode = frames.opcode →
      part.join frame = some (kind, lead ++ frame.payload))
    (hlimit : frames.chunk ≤ limit) (hmax : (lead ++ frames.data).length ≤ max)
    (htext : kind = .text → Valid (lead ++ frames.data))
    (hlater : Assembles .client limit max none later events) (mask : ℕ → Key) :
    Assembles .client limit max part
      ((frames.collect.mapIdx fun i frame => frame.bind (mask i)) ++ later)
      (.message kind (lead ++ frames.data) :: events) := by
  induction hsize : frames.data.length using Nat.strong_induction_on
    generalizing frames part lead mask with
  | _ size ih =>
    subst hsize
    rw [Frames.collect, dif_pos h, List.mapIdx_cons, List.cons_append]
    rcases le_or_gt frames.data.length frames.chunk with hshort | hlong
    · obtain ⟨hpayload, hopcode, hfin, -, hdone⟩ := advance_of_short h hshort
      have hrest : (frames.advance h).2.collect = [] := by
        rw [collect, dif_neg (by rw [hdone]; decide)]
      have hframe : part.join ((frames.advance h).1.bind (mask 0)) =
          some (kind, lead ++ frames.data) := hpayload ▸ hjoin _ hopcode
      have htakes := Takes.data hframe hmax fun _ => htext
      rw [show ((frames.advance h).1.bind (mask 0)).plan.fin = true from hfin] at htakes
      rw [hrest, List.mapIdx_nil, List.nil_append]
      exact .cons rfl (le_of_eq_of_le (congrArg List.length hpayload) (hshort.trans hlimit)) htakes
        hlater
    · obtain ⟨hpayload, hopcode, hfin, -, hdata, hopcode', hdone, hchunk, -, -⟩ :=
        advance_of_long h hlong
      have hpos := frames.chunk_pos
      have hlength := congrArg List.length hpayload
      rw [List.length_take, min_eq_left hlong.le] at hlength
      have hframe : part.join ((frames.advance h).1.bind (mask 0)) =
          some (kind, lead ++ frames.data.take frames.chunk) := hpayload ▸ hjoin _ hopcode
      have hwhole : lead ++ frames.data.take frames.chunk ++ (frames.advance h).2.data =
          lead ++ frames.data := by
        rw [hdata, List.append_assoc, List.take_append_drop]
      have hle : (lead ++ frames.data.take frames.chunk).length ≤ max := by
        rw [← hwhole, List.length_append] at hmax
        omega
      have htakes := Takes.data hframe hle
        (by simp [show ((frames.advance h).1.bind (mask 0)).plan.fin = false from hfin])
      rw [show ((frames.advance h).1.bind (mask 0)).plan.fin = false from hfin] at htakes
      have hlater := ih _ (by rw [hdata, List.length_drop]; omega) hdone
        (fun frame hopcode =>
          show Part.join (some (kind, lead ++ frames.data.take frames.chunk)) frame =
            some (kind, lead ++ frames.data.take frames.chunk ++ frame.payload) from
              if_pos (hopcode.trans hopcode')) (hchunk ▸ hlimit) (hwhole ▸ hmax)
        (hwhole ▸ htext) (fun i => mask (i + 1)) rfl
      rw [hwhole] at hlater
      exact .cons rfl (le_of_eq_of_le hlength hlimit) htakes hlater

/-- The frames of a message within the limits, and what they come to. -/
def Sent (limit max : ℕ) (sent : List Frame) (event : Event) : Prop :=
  ∃ (kind : Kind) (data : Bytes) (chunk : ℕ) (hchunk : 0 < chunk) (frames : Frames)
    (mask : ℕ → Key), Frames.new kind.code data chunk hchunk = .ok frames ∧ chunk ≤ limit ∧
      data.length ≤ max ∧ (kind = .text → Valid data) ∧
      sent = frames.collect.mapIdx (fun i frame => frame.bind (mask i)) ∧
      event = .message kind data

/-- What a connection may be given, whatever its peer sends. -/
def Event.Fits (max : ℕ) : Event → Prop
  | .message kind data => data.length ≤ max ∧ (kind = .text → Valid data)
  | .close payload _ reason => payload.length ≤ maxControlPayload ∧ Valid reason
  | .ping payload | .pong payload => payload.length ≤ maxControlPayload

/-- A buffer within its limit, that is empty between messages. -/
structure Fragments.Sound (max : ℕ) (self : Fragments) : Prop where
  maxPayload : self.maxPayload = max
  bounded : self.payload.length ≤ max
  idle : self.opcode = none → self.payload = []

section Arbitrary

variable {peer : Peer} {limit max : ℕ}

theorem valid_of_check {data : Bytes} {base : ℕ} (h : TextError.check data base = .ok ()) :
    Valid data := by
  rw [check_eq] at h
  exact (validateFrom_eq_ok_iff base data).mp (Except.mapError_eq_ok_iff.mp h)

/-- What is admitted keeps the buffer within its limit, and makes messages that are. -/
theorem Fragments.Sound.push {self : Fragments} (h : self.Sound max) {opcode : UInt8} {fin : Bool}
    {data : Bytes} {joining : Joining}
    (hjoining : self.admitFrame opcode fin data.length = .ok joining)
    (hprepare : self.prepare data joining = .ok ()) :
    (self.commit data joining).1.Sound max ∧
      ∀ event ∈ (self.commit data joining).2, event.Fits max := by
  obtain ⟨hmax, hbounded, hidle⟩ := h
  have hstart : ∀ kind, self.start kind fin data.length = .ok joining →
      (self.commit data joining).1.Sound max ∧
        ∀ event ∈ (self.commit data joining).2, event.Fits max := by
    intro kind hstart
    rw [start] at hstart
    split_ifs at hstart with hopen hlarge hfin <;> cases hstart
    · refine ⟨⟨hmax, hbounded, hidle⟩, fun event hevent => ?_⟩
      cases hevent
      refine ⟨by omega, fun htext => ?_⟩
      subst htext
      exact valid_of_check hprepare
    · refine ⟨⟨hmax, ?_, nofun⟩, nofun⟩
      dsimp only [commit]
      rw [hidle (by simpa using hopen), List.nil_append]
      omega
  rw [admitFrame] at hjoining
  split at hjoining
  · exact hstart .text hjoining
  split at hjoining
  · exact hstart .binary hjoining
  split at hjoining
  swap
  · cases hjoining
  split at hjoining
  · cases hjoining
  next kind hkind =>
    dsimp only at hjoining
    split_ifs at hjoining with hlarge hfin <;> cases hjoining
    · refine ⟨⟨hmax, Nat.zero_le _, fun _ => rfl⟩, fun event hevent => ?_⟩
      cases hevent
      refine ⟨by rw [List.length_append]; omega, fun htext => ?_⟩
      subst htext
      exact valid_of_check ((validatePair_eq_check ..).symm.trans hprepare)
    · refine ⟨⟨hmax, ?_, fun hnone => ?_⟩, nofun⟩
      · dsimp only [commit]
        rw [List.length_append]
        omega
      · cases hkind.symm.trans hnone

/-- What is admitted passed its check. -/
theorem Inbound.of_decode {self inbound : Inbound} {bytes : Bytes} {admission : Option Admission}
    (h : self.decode peer bytes limit = .ok (inbound, admission)) :
    inbound.fragments = self.fragments ∧ ∀ admitted ∈ admission,
      content self.fragments admitted.head = .ok admitted.kind := by
  rw [decode] at h
  split_ifs at h
  · cases h
    exact ⟨rfl, nofun⟩
  split at h
  · cases h
  · split at h <;> cases h
    exact ⟨rfl, nofun⟩
  next head hparse =>
    split at h
    · cases h
    next kind mask hcheck =>
      rw [check] at hcheck
      obtain ⟨witness, -, hcheck⟩ := Except.bind_eq_ok_iff.mp hcheck
      obtain ⟨found, hfound, hpair⟩ := Except.bind_eq_ok_iff.mp hcheck
      obtain ⟨rfl, rfl⟩ := Prod.mk.inj (Except.ok.inj hpair)
      split_ifs at h <;> cases h
      · exact ⟨rfl, nofun⟩
      · exact ⟨rfl, fun admitted hadmitted => by cases hadmitted; exact hfound⟩

theorem of_control {head : Head} {kind found : Content} (h : control head kind = .ok found) :
    kind = found ∧ head.payloadLen ≤ maxControlPayload := by
  rw [control] at h
  split_ifs at h with hshort
  exact ⟨Except.ok.inj h, by omega⟩

theorem decodeClose_fits {data : Bytes} {event : Event} (h : decodeClose data = .ok event)
    (hshort : data.length ≤ maxControlPayload) : event.Fits max := by
  rw [decodeClose.eq_def] at h
  split at h
  · cases h
    exact ⟨hshort, [], rfl⟩
  · cases h
  · dsimp only at h
    split_ifs at h
    split at h <;> cases h
    exact ⟨hshort, valid_of_check ‹_›⟩

/-- What is committed keeps the buffer within its limit, and gives what may be given. -/
theorem Inbound.finish_sound {self next : Inbound} (h : self.fragments.Sound max)
    {admission : Admission} {data : Bytes} {event : Option Event}
    (hcontent : content self.fragments admission.head = .ok admission.kind)
    (hfinish : self.finish admission data = .ok (next, event)) :
    next.fragments.Sound max ∧ ∀ given ∈ event, given.Fits max := by
  rw [finish] at hfinish
  split_ifs at hfinish with hlength
  rw [not_not] at hlength
  rw [content] at hcontent
  split_ifs at hcontent
  · obtain ⟨joining, hjoining, hkind⟩ :=
      Except.map_eq_ok_iff.mp (Except.mapError_eq_ok_iff.mp hcontent)
    rw [← hkind] at hfinish
    dsimp only at hfinish
    split at hfinish <;> cases hfinish
    exact h.push (hlength ▸ hjoining) ‹_›
  all_goals
    obtain ⟨hkind, hshort⟩ := of_control hcontent
    rw [← hkind] at hfinish
    dsimp only at hfinish
  · obtain ⟨close, hclose, hnext⟩ := Except.map_eq_ok_iff.mp hfinish
    cases hnext
    exact ⟨h, fun given hgiven => by cases hgiven; exact decodeClose_fits hclose (hlength ▸ hshort)⟩
  all_goals
    cases hfinish
    exact ⟨h, fun given hgiven => by cases hgiven; exact hlength.trans_le hshort⟩

/-- Whatever bytes arrive, and however they do: messages are within the limit and text is valid,
control frames are short, and the buffer of fragments stays within the limit. -/
theorem Session.run_fits (peer : Peer) (limit max : ℕ) (wire : Bytes) {session : Session}
    (hrun : Relation.ReflTransGen (Step peer limit) ⟨.new max, [], wire, []⟩ session) :
    session.inbound.fragments.Sound max ∧ ∀ event ∈ session.done, event.Fits max := by
  induction hrun with
  | refl => exact ⟨⟨rfl, Nat.zero_le _, fun _ => rfl⟩, by simp⟩
  | tail _ hstep ih =>
    obtain ⟨hsound, hdone⟩ := ih
    cases hstep with
    | arrive n => exact ⟨hsound, hdone⟩
    | wait hdecode => exact ⟨(Inbound.of_decode hdecode).1 ▸ hsound, hdone⟩
    | read hdecode hfinish =>
      obtain ⟨hfragments, hcontent⟩ := Inbound.of_decode hdecode
      obtain ⟨hnext, hevent⟩ := Inbound.finish_sound (hfragments ▸ hsound)
        (hfragments ▸ hcontent _ rfl) hfinish
      refine ⟨hnext, fun event hmem => ?_⟩
      rcases List.mem_append.mp hmem with hmem | hmem
      · exact hdone event hmem
      · exact hevent event (Option.mem_toList.mp hmem)

/-- A ping that arrives at once. -/
theorem Session.run_fits_ping : ∃ session : Session, session.done = [.ping [7]] ∧
    session.inbound.fragments.Sound 8 ∧ ∀ event ∈ session.done, event.Fits 8 := by
  have hread : Step .server 8 ⟨.new 8, [0x89, 1, 7], [], []⟩ ⟨.new 8, [], [], [.ping [7]]⟩ :=
    @Step.read .server 8 ⟨.new 8, [0x89, 1, 7], [], []⟩ _ _
      ⟨⟨true, 0x9, none, 2, 3⟩, .ping, none⟩ (some (.ping [7])) rfl rfl
  exact ⟨_, rfl, run_fits .server 8 8 [0x89, 1, 7] (.tail (.single (.arrive _ 3)) hread)⟩

end Arbitrary

end Sark.Ws
