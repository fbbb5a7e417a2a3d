import Sark.H2.Conn.Registry
import Sark.Http.Metadata.Content
import Sark.Library.Fallible

/-!
# The messages that a stream receives

A peer sends a message on a stream as header sections and DATA frames. A section comes in one
HEADERS frame or in a chain that CONTINUATION frames end; interim responses come before the head,
and END_STREAM stands on the head, on a DATA frame or on the trailers. The record of the stream
keeps the content accounting, which the header path opens, the DATA path lowers and the trailers
path checks for the last time.

What happens elsewhere enters as part of a step: whether the receive windows hold a DATA frame,
whether a section passed its validation, and whether the connection still keeps its events.

* `StreamState.directional`: the transitions of a stream, for either side.
* `Inbound.complete`: what an admitted header section does to the record of its stream.
* `Stream.step`: every frame of the peer on one stream, and what this end does to the record.
-/

namespace Sark.H2

open Metadata (Content ContentError Framing Method Response)

/-! ## Stream states -/

/-- `Boundary`. -/
inductive Boundary
  | more
  | end
  deriving DecidableEq, Repr

/-- `stream::Event`. -/
inductive StreamEvent
  | headers (boundary : Boundary)
  | data (boundary : Boundary)
  deriving DecidableEq, Repr

/-- The boundary of an event. -/
def StreamEvent.boundary : StreamEvent → Boundary
  | .headers boundary | .data boundary => boundary

/-- `stream::Error`. -/
inductive StreamError
  | protocol
  | streamClosed
  deriving DecidableEq, Repr

namespace StreamState

/-- `State::directional`. -/
def directional (self : StreamState) (event : StreamEvent) (reserved ended active : StreamState) :
    Except StreamError StreamState :=
  let pair : Except StreamError (StreamState × StreamState) :=
    match self, event with
    | .idle, .headers _ | .open, _ => .ok (.open, ended)
    | state, .headers _ =>
      if state = reserved ∨ state = active then .ok (active, .closed)
      else if state = ended ∨ state = .closed then .error .streamClosed
      else .error .protocol
    | state, .data _ =>
      if state = active then .ok (active, .closed)
      else if state = ended ∨ state = .closed then .error .streamClosed
      else .error .protocol
  pair.map fun (more, last) =>
    match event.boundary with
    | .more => more
    | .end => last

/-- `State::send`. -/
def send (self : StreamState) (event : StreamEvent) : Except StreamError StreamState :=
  self.directional event .reservedLocal .halfClosedLocal .halfClosedRemote

/-- `State::recv`. -/
def recv (self : StreamState) (event : StreamEvent) : Except StreamError StreamState :=
  self.directional event .reservedRemote .halfClosedRemote .halfClosedLocal

/-- `Sending::apply`. -/
def applySending (self : StreamState) : Boundary → StreamState
  | .more =>
    match self with
    | .idle => .open
    | .reservedLocal => .halfClosedRemote
    | current => current
  | .end =>
    match self with
    | .reservedLocal | .halfClosedRemote | .closed => .closed
    | _ => .halfClosedLocal

theorem recv_headers {state : StreamState}
    (h : state = .idle ∨ state = .open ∨ state = .halfClosedLocal ∨ state = .reservedRemote)
    (boundary : Boundary) :
    ∃ next, state.recv (.headers boundary) = .ok next ∧
      (boundary = .more → next = .open ∨ next = .halfClosedLocal) ∧
      (boundary = .end → next = .halfClosedRemote ∨ next = .closed) := by
  rcases h with rfl | rfl | rfl | rfl <;> cases boundary <;>
    simp [recv, directional, StreamEvent.boundary, Except.map]

theorem recv_data {state : StreamState}
    (h : state = .open ∨ state = .halfClosedLocal) (boundary : Boundary) :
    ∃ next, state.recv (.data boundary) = .ok next ∧
      (boundary = .more → next = .open ∨ next = .halfClosedLocal) ∧
      (boundary = .end → next = .halfClosedRemote ∨ next = .closed) := by
  rcases h with rfl | rfl <;> cases boundary <;>
    simp [recv, directional, StreamEvent.boundary, Except.map]

end StreamState

/-! ## Errors -/

/-- `numbers::ErrorCode`, as far as a received message meets it. -/
inductive ErrorCode
  | protocolError
  | flowControl
  | streamClosed
  deriving DecidableEq, Repr

/-- `From<ContentError> for ErrorCode`. -/
def ErrorCode.ofContent : ContentError → ErrorCode
  | .forbiddenLength _ | .nonemptyLength _ | .exceeded _ _ | .incomplete _ | .trailers =>
    .protocolError

/-- The errors of a connection that a frame of a message can raise. An unreachable branch of the
source is one of its own. -/
inductive ConnError
  | transition (error : StreamError)
  | idle
  | padding
  | continuation
  | receive
  | unreachable
  deriving DecidableEq, Repr

/-! ## Sections and frames -/

/-- `Final`: a header section at the end of its validation, with its framing values. -/
inductive Final
  | request (framing : Framing)
  | response (framing : Framing)
  | other
  | rejected (response : Option Response)
  deriving DecidableEq, Repr

namespace Final

/-- `Prepared::response`. -/
def response? : Final → Option Response
  | .response framing => framing.status.map Response.ofStatus
  | .rejected phase => phase
  | .request _ | .other => none

/-- `Final::framing`, of a request or a response. -/
def framing? : Final → Option Framing
  | .request framing | .response framing => some framing
  | .other | .rejected _ => none

/-- `Prepared::validation` rejects the section. -/
def isRejected : Final → Bool
  | .rejected _ => true
  | _ => false

/-- `Prepared::method`. -/
def method (self : Final) : Option Method :=
  self.framing?.bind Framing.method

/-- The section is an interim response. -/
def isInterim (self : Final) : Bool :=
  self.response? == some .informational

/-- `Prepared::content`. -/
def content (self : Final) (method : Method) : Except ErrorCode (Content × ℕ) :=
  match self.framing? with
  | none => .error .protocolError
  | some framing => (framing.content method).mapError ErrorCode.ofContent

end Final

/-- The payload of a DATA frame: its length, and the pad length if it is padded. -/
structure Payload where
  length : ℕ
  padding : Option ℕ
  deriving DecidableEq, Repr

/-- `unpadded`: the number of bytes of content. -/
def Payload.unpadded (self : Payload) : Except ConnError ℕ :=
  match self.padding with
  | none => .ok self.length
  | some pad => if self.length < pad + 1 then .error .padding else .ok (self.length - (pad + 1))

/-- `Pair::receive_data`: what the receive windows say about a DATA frame. -/
inductive Receive
  | admitted
  | stalledStream
  | stalledConnection
  deriving DecidableEq, Repr

/-! ## The record of a stream -/

/-- `Active`, with the fields of the content accounting. -/
structure Inbound extends Active where
  method : Option Method
  content : Content
  remaining : ℕ
  deriving DecidableEq, Repr

/-- `store::Action`, with the record that is kept: what becomes of the record. -/
inductive Disposition
  | keep (record : Inbound)
  | remove
  | reset (error : ErrorCode)
  deriving DecidableEq, Repr

/-- `if queued && end { queue_end }`. -/
def Inbound.queueEnd (self : Inbound) (queued : Bool) (boundary : Boundary) :
    Except ConnError Inbound :=
  if queued = true ∧ boundary = .end then
    match self.touch .queueEnd with
    | some active => .ok { self with toActive := active }
    | none => .error .unreachable
  else .ok self

/-- `complete_head`. -/
def Inbound.completeHead (self : Inbound) : Inbound :=
  match self.touch .completeHead with
  | some active => { self with toActive := active }
  | none => self

/-- What `complete` and `apply` end with: the record is written, and removed if its stream is
closed. -/
def Inbound.commit (self : Inbound) (boundary : Boundary) (queued : Bool) :
    Except ConnError Disposition :=
  match self.queueEnd queued boundary with
  | .error error => .error error
  | .ok record => .ok (if record.state = .closed then .remove else .keep record)

/-- The content accounting that `complete` goes on with. -/
def Inbound.account (self : Inbound) (final : Final) (boundary : Boundary) (part : Section) :
    Except ErrorCode (Content × ℕ) :=
  match part with
  | .trailing =>
    match self.content.trailers self.remaining with
    | .ok () => .ok (self.content, self.remaining)
    | .error error => .error (.ofContent error)
  | .initial =>
    if final.isInterim then .ok (self.content, self.remaining)
    else
      match final.content (self.method.getD .other) with
      | .error error => .error error
      | .ok (content, remaining) =>
        match content.receive remaining 0 (boundary == .end) with
        | .ok next => .ok (content, next)
        | .error error => .error (.ofContent error)

/-- `complete`. -/
def Inbound.complete (endpoint : Endpoint) (self : Inbound) (final : Final) (boundary : Boundary)
    (part : Section) (queued : Bool) : Except ConnError Disposition :=
  if final.isRejected = true ∨ final.isInterim = true ∧ boundary = .end then
    .ok (.reset .protocolError)
  else
    match self.state.recv (.headers boundary) with
    | .error .protocol => .error (.transition .protocol)
    | .error .streamClosed => .ok (.reset .streamClosed)
    | .ok next =>
      match self.account final boundary part with
      | .error error => .ok (.reset error)
      | .ok (content, remaining) =>
        let method := if endpoint = .server ∧ part = .initial then final.method else self.method
        let record : Inbound := ⟨⟨next, self.peer, self.sendWindow⟩, method, content, remaining⟩
        let record := if final.isInterim then record else record.completeHead
        record.commit boundary queued

/-- `apply`: a DATA frame on an active stream, with the number of its content bytes. -/
def Inbound.apply (self : Inbound) (len : ℕ) (boundary : Boundary) (receive : Receive)
    (queued : Bool) : Except ConnError Disposition :=
  match self.state.recv (.data boundary) with
  | .error .protocol => .error (.transition .protocol)
  | .error .streamClosed => .ok (.reset .streamClosed)
  | .ok next =>
    if self.section = .initial then .ok (.reset .protocolError)
    else
      match self.content.receive self.remaining len (boundary == .end) with
      | .error error => .ok (.reset (.ofContent error))
      | .ok remaining =>
        match receive with
        | .stalledConnection => .error .receive
        | .stalledStream => .ok (.reset .flowControl)
        | .admitted =>
          let record : Inbound :=
            ⟨⟨next, self.peer, self.sendWindow⟩, self.method, self.content, remaining⟩
          record.commit boundary queued

/-- `Lifecycle::new`: the record of a stream whose first section comes in a chain. -/
def Inbound.new (window : Window) : Inbound :=
  ⟨⟨.idle, .initial, window⟩, none, .unbounded, 0⟩

/-- `Opening::Open` and `Lifecycle::open_remote`: the record of a stream whose first section came
in one frame. -/
def Inbound.openRemote (window : Window) (final : Final) (boundary : Boundary) (queued : Bool) :
    Except ErrorCode Inbound :=
  if final.isRejected then .error .protocolError
  else
    match final.content .other with
    | .error error => .error error
    | .ok (content, remaining) =>
      match content.receive remaining 0 (boundary == .end) with
      | .error error => .error (.ofContent error)
      | .ok next =>
        let state :=
          match boundary with
          | .end => .halfClosedRemote
          | .more => .open
        let peer := if queued = true ∧ boundary = .end then .end else .trailing
        .ok ⟨⟨state, peer, window⟩, final.method, content, next⟩

/-- What this end does to the record while a message comes in: it sends a section or a DATA frame,
opens a duplex session, or gives back what it holds. -/
inductive Local
  | headers (boundary : Boundary)
  | data (boundary : Boundary)
  | holdDuplex
  | release (notice : Notice)
  deriving DecidableEq, Repr

/-- The active record after a local action, which leaves it as it is where it is refused. -/
def Local.apply (self : Local) (active : Active) : Active :=
  match self with
  | .headers boundary =>
    match active.state.send (.headers boundary) with
    | .ok _ => ⟨active.state.applySending boundary, active.peer, active.sendWindow⟩
    | .error _ => active
  | .data boundary =>
    match active.state.send (.data boundary) with
    | .ok next => ⟨next, active.peer, active.sendWindow⟩
    | .error _ => active
  | .holdDuplex =>
    match (RecordState.active active).holdDuplex with
    | some (.active held) => held
    | _ => active
  | .release notice =>
    match (RecordState.active active).release notice with
    | some (some (.active left)) => left
    | _ => active

theorem Active.act_ended {self : Active} (h : self.state = .halfClosedRemote) (act : Local) :
    (act.apply self).state = .halfClosedRemote ∨ (act.apply self).state = .closed := by
  obtain ⟨state, peer, window⟩ := self
  cases h
  cases act with
  | headers boundary =>
    cases boundary <;>
      simp [Local.apply, StreamState.send, StreamState.directional, StreamEvent.boundary,
        StreamState.applySending, Except.map]
  | data boundary =>
    cases boundary <;>
      simp [Local.apply, StreamState.send, StreamState.directional, StreamEvent.boundary,
        Except.map]
  | holdDuplex => cases peer <;> exact .inl rfl
  | release notice => cases peer <;> cases notice <;> exact .inl rfl

/-! ## Streams -/

/-- `headers::Pending`: a chain that waits for its last frame. `Action::Reset` is `error`. -/
structure Pending where
  boundary : Boundary
  «section» : Section
  error : Option ErrorCode
  deriving DecidableEq, Repr

/-- `event::Event`: what the application is told. -/
inductive Notification
  | headers (final : Final) (boundary : Boundary) (part : Section)
  | data (len : ℕ) (boundary : Boundary)
  deriving DecidableEq, Repr

/-- Where a stream stands. An idle stream is one that the peer may open. -/
inductive Status
  | idle
  | live (record : Inbound)
  | closed
  | reset (error : ErrorCode)
  | failed (error : ConnError)
  deriving DecidableEq, Repr

/-- One stream of a connection, with the events pushed for it. -/
structure Stream where
  status : Status
  pending : Option Pending
  events : List Notification
  deriving DecidableEq, Repr

/-- A step on a stream: a frame of the peer, or a local action. -/
inductive Step
  | headers (final : Final) (boundary : Boundary) (queued : Bool)
  | chain (boundary : Boundary)
  | finish (final : Final) (queued : Bool)
  | data (payload : Payload) (boundary : Boundary) (receive : Receive) (queued : Bool)
  | act (act : Local)
  deriving DecidableEq, Repr

/-- The step is a frame of the peer. -/
def Step.isFrame : Step → Bool
  | .act _ => false
  | _ => true

namespace Stream

/-- A connection error ends everything. -/
def fail (self : Stream) (error : ConnError) : Stream :=
  { self with status := .failed error, pending := none }

/-- The stream after a frame that pushes `events` if it is accepted. -/
def settle (self : Stream) (result : Except ConnError Disposition) (events : List Notification) :
    Stream :=
  match result with
  | .error error => self.fail error
  | .ok (.reset error) => { self with status := .reset error, pending := none }
  | .ok .remove => ⟨.closed, none, self.events ++ events⟩
  | .ok (.keep record) => ⟨.live record, none, self.events ++ events⟩

/-- `handle` with END_HEADERS set. -/
def headers (endpoint : Endpoint) (window : Window) (self : Stream) (final : Final)
    (boundary : Boundary) (queued : Bool) : Stream :=
  match self.status with
  | .live record =>
    if record.section = .trailing ∧ boundary = .more then
      { self with status := .reset .protocolError }
    else
      self.settle (record.complete endpoint final boundary record.section queued)
        [.headers final boundary record.section]
  | .idle =>
    match endpoint with
    | .client => self.fail .idle
    | .server =>
      match Inbound.openRemote window final boundary queued with
      | .error error => { self with status := .reset error }
      | .ok record =>
        ⟨.live record, none, self.events ++ [.headers final boundary .initial]⟩
  | .closed => { self with status := .reset .streamClosed }
  | .reset _ | .failed _ => self

/-- `handle` without END_HEADERS. -/
def chain (endpoint : Endpoint) (window : Window) (self : Stream) (boundary : Boundary) : Stream :=
  match self.status with
  | .live record =>
    let error :=
      if record.section = .trailing ∧ boundary = .more then some .protocolError else none
    { self with pending := some ⟨boundary, record.section, error⟩ }
  | .idle =>
    match endpoint with
    | .client => self.fail .idle
    | .server =>
      { self with status := .live (.new window), pending := some ⟨boundary, .initial, none⟩ }
  | .closed | .reset _ =>
    { self with pending := some ⟨boundary, .initial, some .streamClosed⟩ }
  | .failed _ => self

/-- `chain::run` at the last CONTINUATION frame of `pending`. -/
def finish (endpoint : Endpoint) (self : Stream) (pending : Pending) (final : Final)
    (queued : Bool) : Stream :=
  match self.status, pending.error with
  | .live _, some error => { self with status := .reset error, pending := none }
  | .live record, none =>
    self.settle (record.complete endpoint final pending.boundary pending.section queued)
      [.headers final pending.boundary pending.section]
  | .closed, some error => { self with status := .reset error, pending := none }
  | .idle, _ => self.fail .idle
  | .closed, none | .reset _, _ | .failed _, _ => { self with pending := none }

/-- `data::apply`. -/
def data (self : Stream) (payload : Payload) (boundary : Boundary) (receive : Receive)
    (queued : Bool) : Stream :=
  match payload.unpadded with
  | .error error => self.fail error
  | .ok len =>
    match self.status with
    | .live record =>
      self.settle (record.apply len boundary receive queued) [.data len boundary]
    | .idle => self.fail .idle
    | .closed => { self with status := .reset .streamClosed }
    | .reset _ | .failed _ => self

/-- A local action. A record whose two sides have ended is removed. -/
def act (self : Stream) (act : Local) : Stream :=
  match self.status with
  | .live record =>
    let active := act.apply record.toActive
    if active.state = .closed then { self with status := .closed }
    else { self with status := .live { record with toActive := active } }
  | _ => self

/-- One step. Between the frames of a chain no other frame may come. -/
def step (endpoint : Endpoint) (window : Window) (self : Stream) : Step → Stream
  | .headers final boundary queued =>
    match self.pending with
    | none => self.headers endpoint window final boundary queued
    | some _ => self.fail .continuation
  | .chain boundary =>
    match self.pending with
    | none => self.chain endpoint window boundary
    | some _ => self.fail .continuation
  | .finish final queued =>
    match self.pending with
    | none => self.fail .continuation
    | some pending => self.finish endpoint pending final queued
  | .data payload boundary receive queued =>
    match self.pending with
    | none => self.data payload boundary receive queued
    | some _ => self.fail .continuation
  | .act act => self.act act

/-- A run. -/
def run (endpoint : Endpoint) (window : Window) (self : Stream) (steps : List Step) : Stream :=
  steps.foldl (step endpoint window) self

end Stream

end Sark.H2
