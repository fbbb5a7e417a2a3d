import Sark.Ws.Frame
import Sark.Ws.Mask
import Sark.Ws.Text

/-!
# Incoming frames

What a connection does with a frame of its peer (`ws/src/inbound`, `ws/src/fragment`). The frame is
admitted by its header, and read once it is complete; fragments are joined in a buffer, and text is
validated when its message is complete.

An admission borrows the state in the source and is prepared before it is committed. Here both are
one function, which leaves the state as it is when it fails.
-/

namespace Sark.Ws

/-- `fragment::Kind`. -/
inductive Kind
  | text
  | binary
  deriving DecidableEq, Repr

/-- The opcode of a kind. -/
def Kind.code : Kind → UInt8
  | .text => 0x1
  | .binary => 0x2

/-- `fragment::Error`. -/
inductive FragmentError
  | unexpectedNonContinuation
  | unexpectedContinuation
  | payloadTooLarge
  deriving DecidableEq, Repr

/-- `inbound::Fault`, less the failures of allocations. A mask is told by whether there is one. -/
inductive Fault
  | frame (cause : Frame.Error)
  | mask (expected actual : Bool)
  | opcode (actual : UInt8)
  | control (fin : Bool) (length : ℕ)
  | fragment (cause : FragmentError)
  | payload (expected actual : ℕ)
  | closeLength (actual required : ℕ)
  | closeCode (actual : ℕ)
  | text (cause : TextError)
  | closeText (cause : TextError)
  | changed (expected actual : ℕ)
  deriving DecidableEq, Repr

/-- What a connection is given: `fragment::Message` and `inbound::Event`, and a pong. Whether a
message was joined is not told apart. -/
inductive Event
  | message (kind : Kind) (data : Bytes)
  | close (payload : Bytes) (code : Option ℕ) (reason : Bytes)
  | ping (payload : Bytes)
  | pong (payload : Bytes)
  deriving DecidableEq, Repr

/-! ## Fragments -/

/-- `fragment::Admission`, with the cases of `Complete` and `Partial`. -/
inductive Joining
  | whole (kind : Kind) (len : ℕ)
  | joined (kind : Kind) (len : ℕ)
  | begin (kind : Kind)
  | next
  deriving DecidableEq, Repr

/-- `fragment::Buffer`. -/
structure Fragments where
  opcode : Option Kind
  payload : Bytes
  maxPayload : ℕ
  deriving DecidableEq, Repr

namespace Fragments

/-- `Buffer::start`. -/
def start (self : Fragments) (opcode : Kind) (fin : Bool) (len : ℕ) :
    Except FragmentError Joining :=
  if self.opcode.isSome then .error .unexpectedNonContinuation
  else if self.maxPayload < len then .error .payloadTooLarge
  else .ok (if fin then .whole opcode len else .begin opcode)

/-- `Buffer::admit`. -/
def admitFrame (self : Fragments) (opcode : UInt8) (fin : Bool) (len : ℕ) :
    Except FragmentError Joining :=
  if opcode = 0x1 then self.start .text fin len
  else if opcode = 0x2 then self.start .binary fin len
  else if opcode = 0x0 then
    match self.opcode with
    | none => .error .unexpectedContinuation
    | some kind =>
      let total := self.payload.length + len
      if usizeMax < total ∨ self.maxPayload < total then .error .payloadTooLarge
      else .ok (if fin then .joined kind total else .next)
  else .error .unexpectedNonContinuation

/-- `Buffer::prepare`. -/
def prepare (self : Fragments) (data : Bytes) : Joining → Except TextError Unit
  | .whole .text _ => TextError.check data 0
  | .joined .text _ => validatePair self.payload data
  | _ => .ok ()

/-- `Prepared::commit`. -/
def commit (self : Fragments) (data : Bytes) : Joining → Fragments × Option Event
  | .whole kind _ => (self, some (.message kind data))
  | .joined kind _ =>
    ({ self with opcode := none, payload := [] }, some (.message kind (self.payload ++ data)))
  | .begin kind => ({ self with opcode := some kind, payload := self.payload ++ data }, none)
  | .next => ({ self with payload := self.payload ++ data }, none)

end Fragments

/-! ## Admission -/

/-- The role of the peer; frames of a client are masked. -/
inductive Peer
  | client
  | server
  deriving DecidableEq, Repr

/-- `Peer::MASK`. -/
def Peer.masks : Peer → Bool
  | .client => true
  | .server => false

/-- `Peer::witness`. -/
def Peer.witness (self : Peer) (mask : Option Key) : Except Fault (Option Key) :=
  if mask.isSome = self.masks then .ok mask else .error (.mask self.masks mask.isSome)

/-- `valid::Kind`. -/
inductive Content
  | data (joining : Joining)
  | close
  | ping
  | pong
  deriving DecidableEq, Repr

/-- `valid::control`. -/
def control (head : Head) (kind : Content) : Except Fault Content :=
  if head.fin = false ∨ maxControlPayload < head.payloadLen then
    .error (.control head.fin head.payloadLen)
  else .ok kind

/-- The kind that `valid::check` finds. -/
def content (parts : Fragments) (head : Head) : Except Fault Content :=
  if head.opcode ≤ 0x2 then
    ((parts.admitFrame head.opcode head.fin head.payloadLen).map .data).mapError .fragment
  else if head.opcode = 0x8 then control head .close
  else if head.opcode = 0x9 then control head .ping
  else if head.opcode = 0xa then control head .pong
  else .error (.opcode head.opcode)

/-- `valid::check`. -/
def check (peer : Peer) (parts : Fragments) (head : Head) :
    Except Fault (Content × Option Key) := do
  let witness ← peer.witness head.mask
  let kind ← content parts head
  return (kind, witness)

/-- `valid::decode`. -/
def decodeClose : Bytes → Except Fault Event
  | [] => .ok (.close [] none [])
  | [_] => .error (.closeLength 1 2)
  | high :: low :: text =>
    let code := BigEndian.ofBytes [high, low]
    if (1000 ≤ code ∧ code ≤ 1003) ∨ (1007 ≤ code ∧ code ≤ 1014) ∨ (3000 ≤ code ∧ code ≤ 4999) then
      match TextError.check text 0 with
      | .error cause => .error (.closeText cause)
      | .ok () => .ok (.close (high :: low :: text) (some code) text)
    else .error (.closeCode code)

/-- `inbound::Admission`. -/
structure Admission where
  head : Head
  kind : Content
  mask : Option Key
  deriving DecidableEq, Repr

/-- The payload of a frame, with the mask taken off. -/
def Admission.payload (self : Admission) (bytes : Bytes) : Bytes :=
  let data := (bytes.drop self.head.start).take self.head.payloadLen
  self.mask.elim data (masked · 0 data)

/-- `inbound::Inbound`. -/
structure Inbound where
  fragments : Fragments
  pendingEnd : Option ℕ
  deriving DecidableEq, Repr

namespace Inbound

/-- `Inbound::new`. -/
def new (max : ℕ) : Inbound :=
  ⟨⟨none, [], max⟩, none⟩

/-- `Inbound::decode`. -/
def decode (peer : Peer) (self : Inbound) (bytes : Bytes) (max : ℕ) :
    Except Fault (Inbound × Option Admission) :=
  if self.pendingEnd.any (bytes.length < ·) then .ok (self, none)
  else
    match Head.parse bytes 0 usizeMax with
    | .error cause => .error (.frame cause)
    | .ok none =>
      match self.pendingEnd with
      | some stop => .error (.changed stop bytes.length)
      | none => .ok (self, none)
    | .ok (some head) =>
      match check peer self.fragments head with
      | .error cause => .error cause
      | .ok (kind, mask) =>
        if max < head.payloadLen then .error (.frame (.payload head.payloadLen max))
        else if self.pendingEnd.any (· ≠ head.payloadEnd) then
          .error (.changed (self.pendingEnd.getD 0) head.payloadEnd)
        else
          .ok ({ self with pendingEnd := some head.payloadEnd },
            if bytes.length < head.payloadEnd then none else some ⟨head, kind, mask⟩)

/-- `Admission::prepare`, and what is left and delivered when the frame is committed. -/
def finish (self : Inbound) (admission : Admission) (data : Bytes) :
    Except Fault (Inbound × Option Event) :=
  if data.length ≠ admission.head.payloadLen then
    .error (.payload admission.head.payloadLen data.length)
  else
    match admission.kind with
    | .data joining =>
      match self.fragments.prepare data joining with
      | .error cause => .error (.text cause)
      | .ok () =>
        .ok (⟨(self.fragments.commit data joining).1, none⟩, (self.fragments.commit data joining).2)
    | .close => (decodeClose data).map fun close => (⟨self.fragments, none⟩, some close)
    | .ping => .ok (⟨self.fragments, none⟩, some (.ping data))
    | .pong => .ok (⟨self.fragments, none⟩, some (.pong data))

end Inbound

end Sark.Ws
