import Sark.H2.Flow.Receive
import Sark.H2.Outputs.Wire

/-!
# Reception of DATA frames

A DATA frame of the peer (`h2/src/conn/machine/decoder/data.rs`). Whatever becomes of the frame, its
payload counts against the window of the connection, with its padding; the window of the stream is
charged only if the frame is delivered. What may be refused for a while comes first: a free event,
room for the payload, and room for the frames that answer.

* `Reception.data_outcome`: a frame changes nothing, fails the connection, or is charged.
* `Reception.Reachable.sound`: every window keeps to what it was at first.
* `Reception.data_charged`: a frame that is consumed is charged to the connection once.
* `Reception.windows_conserved`: what a window has left, and what is pending of it.
-/

open Sark.H2.Frame

namespace Sark.H2

open Flow Outputs

/-- `Active`, with the fields that a DATA frame reads. -/
structure Recipient extends Inbound where
  half : Half
  deriving DecidableEq, Repr

/-- A record of the index. A record that waits for its reset is not active. -/
inductive Entry
  | active (record : Recipient)
  | resetting
  deriving DecidableEq, Repr

/-- `conn::Error`, the errors of a DATA frame. The errors of the output are `ε`, those of the
retention of a payload `ρ`. An unreachable branch of the source is one of its own. -/
inductive DataError (ε ρ : Type)
  | stream
  | input
  | padding (actual required : ℕ)
  | idle (id : StreamId)
  | transition (id : StreamId) (error : StreamError)
  | receive (error : ReceiveError)
  | eventFull (used limit : ℕ)
  | full (error : ε)
  | retain (error : ρ)
  | unreachable
  deriving DecidableEq, Repr

/-- The errors that `Frame::reject` raises: the frame is consumed. -/
def DataError.isRejection {ε ρ : Type} : DataError ε ρ → Bool
  | .idle _ | .transition .. | .receive _ => true
  | _ => false

/-- What the application is told. -/
inductive Delivery (ω : Type)
  | reset (id : StreamId) (error : ErrorCode)
  | data (id : StreamId) (content : Bytes) (boundary : Boundary)
  | other (event : ω)
  deriving DecidableEq, Repr

/-- What becomes of a frame that is no error. -/
inductive Reading
  | waits
  | consumed
  deriving DecidableEq, Repr

/-- `Flags::PADDED`. -/
def padded : UInt8 :=
  0x8

/-- `Header::try_stream`. -/
def tryStream (header : Header) : Option StreamId :=
  if h : 0 < header.streamId.raw then some ⟨header.streamId.raw, h, header.streamId.le⟩ else none

/-- The boundary that the flags of a frame set. -/
def boundaryOf (header : Header) : Boundary :=
  if header.flags &&& endStream = 0 then .more else .end

/-! ## The frames that answer -/

/-- `Id::CONNECTION`. -/
def connection : Id :=
  ⟨0, Nat.zero_le _⟩

/-- `Nonzero::get`. -/
def StreamId.get (self : StreamId) : Id :=
  ⟨self.raw, self.le⟩

/-- `ErrorCode::wire`. -/
def ErrorCode.code : ErrorCode → ℕ
  | .protocolError => 0x1
  | .flowControl => 0x3
  | .streamClosed => 0x5

/-- `WindowUpdate::wire_bytes`, if there is an increment. -/
def updateBytes (id : Id) (bump : Option Increment) : Bytes :=
  match bump with
  | none => []
  | some bump =>
    (⟨⟨4, by norm_num⟩, .windowUpdate, 0, id⟩ : Header).wireBytes ++
      BigEndian.toBytes 4 bump.value

/-- `RstStream::wire_bytes`, if there is an error. -/
def resetBytes (id : Id) (error : Option ErrorCode) : Bytes :=
  match error with
  | none => []
  | some error =>
    (⟨⟨4, by norm_num⟩, .rstStream, 0, id⟩ : Header).wireBytes ++ BigEndian.toBytes 4 error.code

/-- The bytes of `data_control`. -/
def controlBytes (id : StreamId) (connUp streamUp : Option Increment) (reset : Option ErrorCode) :
    Bytes :=
  updateBytes connection connUp ++ (updateBytes id.get streamUp ++ resetBytes id.get reset)

/-- `Outbound::data_control`. -/
def dataControl {σ ε : Type} [Span σ ε] (outbound : σ) (id : StreamId)
    (connUp streamUp : Option Increment) (reset : Option ErrorCode) : Except ε σ :=
  let bytes := controlBytes id connUp streamUp reset
  if bytes = [] then .ok outbound else Span.tryAppend outbound bytes

/-! ## The connection -/

/-- The parts of a connection that a DATA frame reads and changes. -/
structure Reception (σ ω : Type) where
  endpoint : Endpoint
  history : History
  half : Half
  target : ℕ
  initialWindow : ℕ
  entries : StreamId → Option Entry
  keeps : Bool
  outbound : σ
  events : List (Delivery ω)
  eventCapacity : ℕ
  input : Bytes

namespace Reception

variable {σ ω ε ρ : Type} [Span σ ε]

/-- What a frame makes of a connection. -/
abbrev Result (σ ω ε ρ : Type) :=
  Reception σ ω × Except (DataError ε ρ) Reading

/-- `Target::low`. -/
def connLow (self : Reception σ ω) : ℕ :=
  if self.target / 2 = 0 then 1 else self.target / 2

/-- The threshold of a stream. -/
def streamLow (self : Reception σ ω) : ℕ :=
  max (self.initialWindow / 2) 1

/-- The input behind a frame. -/
def behind (self : Reception σ ω) (header : Header) : Bytes :=
  self.input.drop (headerLen + header.length.value)

/-- `Source::unpadded`: where the content starts, and its length. -/
def unpadded (self : Reception σ ω) (header : Header) : Except (DataError ε ρ) (ℕ × ℕ) :=
  let len := header.length.value
  if header.flags &&& padded = 0 then .ok (headerLen, len)
  else if len = 0 then .error (.padding 0 1)
  else
    match self.input[headerLen]? with
    | none => .error .input
    | some byte =>
      let required := byte.toNat + 1
      if required > len then .error (.padding len required)
      else .ok (headerLen + 1, len - required)

/-- `Events::full`. -/
def eventFull (self : Reception σ ω) : Result σ ω ε ρ :=
  (self, .error (.eventFull self.events.length self.eventCapacity))

/-- `Frame::reject`. -/
def reject (self : Reception σ ω) (header : Header) (error : DataError ε ρ) : Result σ ω ε ρ :=
  ({ self with input := self.behind header }, .error error)

/-- `apply`, for a stream that is over. -/
def discard (self : Reception σ ω) (header : Header) (id : StreamId) : Result σ ω ε ρ :=
  match self.half.receive self.connLow header.length .enabled with
  | .error error => self.reject header (.receive error)
  | .ok credit =>
    match dataControl self.outbound id credit.bump none (some .streamClosed) with
    | .error error => (self, .error (.full error))
    | .ok outbound =>
      ({ self with half := self.half.commit credit, outbound, input := self.behind header },
        .ok .consumed)

/-- The end of `apply` where an active stream is reset. -/
def retire (self : Reception σ ω) (header : Header) (id : StreamId) (credit : Credit)
    (error : ErrorCode) : Result σ ω ε ρ :=
  if self.eventCapacity ≤ self.events.length then self.eventFull
  else
    match dataControl self.outbound id credit.bump none (some error) with
    | .error error => (self, .error (.full error))
    | .ok outbound =>
      ({ self with
          half := self.half.commit credit
          outbound
          input := self.behind header
          entries := Function.update self.entries id none
          events := self.events ++ [.reset id error] },
        .ok .consumed)

/-- `apply`, for a frame that its stream does not admit. -/
def violate (self : Reception σ ω) (header : Header) (id : StreamId) (error : ErrorCode) :
    Result σ ω ε ρ :=
  match self.half.receive self.connLow header.length .enabled with
  | .error error => self.reject header (.receive error)
  | .ok credit => self.retire header id credit error

/-- The end of `apply` where a frame is delivered. -/
def deliver (self : Reception σ ω) (header : Header) (id : StreamId) (content : Bytes)
    (record : Inbound) (half : Half) (credit own : Credit) (retained : Option ρ) :
    Result σ ω ε ρ :=
  let boundary := boundaryOf header
  if self.eventCapacity ≤ self.events.length then self.eventFull
  else
    match retained with
    | some error => (self, .error (.retain error))
    | none =>
      match dataControl self.outbound id credit.bump own.bump none with
      | .error error => (self, .error (.full error))
      | .ok outbound =>
        match record.queueEnd self.keeps boundary with
        | .error _ => (self, .error .unreachable)
        | .ok record =>
          let entry :=
            if record.state = .closed then none else some (.active ⟨record, half.commit own⟩)
          ({ self with
              half := self.half.commit credit
              outbound
              input := self.behind header
              entries := Function.update self.entries id entry
              events := self.events ++ [.data id content boundary] },
            .ok .consumed)

/-- `apply`, for a frame that its stream admits. -/
def admitted (self : Reception σ ω) (header : Header) (id : StreamId) (content : Bytes)
    (record : Inbound) (half : Half) (retained : Option ρ) : Result σ ω ε ρ :=
  let refill :=
    match boundaryOf header with
    | .more => Refill.enabled
    | .end => Refill.disabled
  match receivePair self.half half self.connLow self.streamLow header.length refill with
  | .error error => self.reject header (.receive error)
  | .ok (credit, .error _) => self.retire header id credit .flowControl
  | .ok (credit, .ok own) => self.deliver header id content record half credit own retained

/-- `apply`, for an active stream, with the content of the frame. -/
def active (self : Reception σ ω) (header : Header) (id : StreamId) (content : Bytes)
    (record : Recipient) (retained : Option ρ) : Result σ ω ε ρ :=
  let boundary := boundaryOf header
  match record.state.recv (.data boundary) with
  | .error .protocol => self.reject header (.transition id .protocol)
  | .error .streamClosed => self.violate header id .streamClosed
  | .ok next =>
    if record.section = .initial then self.violate header id .protocolError
    else
      match record.content.receive record.remaining content.length (boundary == .end) with
      | .error error => self.violate header id (.ofContent error)
      | .ok remaining =>
        self.admitted header id content
          ⟨⟨next, record.peer, record.sendWindow⟩, record.method, record.content, remaining⟩
          record.half retained

/-- `apply`, and the wait for the whole frame in front of it. `retained` is the error of the
retention of the payload. -/
def data (self : Reception σ ω) (header : Header) (retained : Option ρ) : Result σ ω ε ρ :=
  if self.input.length < headerLen + header.length.value then (self, .ok .waits)
  else
    match tryStream header with
    | none => (self, .error .stream)
    | some id =>
      match self.unpadded header with
      | .error error => (self, .error error)
      | .ok (start, len) =>
        match self.entries id with
        | some (.active record) =>
          self.active header id ((self.input.drop start).take len) record retained
        | some .resetting => self.discard header id
        | none =>
          match self.history.classify self.endpoint id with
          | .idle => self.reject header (.idle id)
          | .closed => self.discard header id

/-! ## What a frame does -/

/-- What a frame that is consumed does to the records, and what is sent for its stream. -/
inductive Change (self : Reception σ ω) (header : Header) (id : StreamId) :
    (StreamId → Option Entry) → Option Increment → Option ErrorCode → Prop
  | past :
      (∀ record, self.entries id ≠ some (.active record)) →
        Change self header id self.entries none (some .streamClosed)
  | retired (error : ErrorCode) :
      Change self header id (Function.update self.entries id none) none (some error)
  | delivered {record : Recipient} {own : Credit} (refill : Refill) (entry : Option Entry) :
      self.entries id = some (.active record) →
      record.half.receive self.streamLow header.length refill = .ok own →
      (∀ next, entry = some (.active next) → next.half = record.half.commit own) →
        Change self header id (Function.update self.entries id entry) own.bump none

/-- What a frame does to a connection. -/
inductive Outcome (self : Reception σ ω) (header : Header) : Result σ ω ε ρ → Prop
  | waits : Outcome self header (self, .ok .waits)
  | refused {error : DataError ε ρ} :
      error.isRejection = false → Outcome self header (self, .error error)
  | rejected {error : DataError ε ρ} :
      error.isRejection = true → Outcome self header (self.reject header error)
  | consumed {id : StreamId} {credit : Credit} {entries : StreamId → Option Entry}
      {streamUp : Option Increment} {reset : Option ErrorCode} {outbound : σ}
      (events : List (Delivery ω)) :
      tryStream header = some id →
      self.half.receive self.connLow header.length .enabled = .ok credit →
      Change self header id entries streamUp reset →
      dataControl self.outbound id credit.bump streamUp reset = .ok outbound →
        Outcome self header
          ({ self with
              half := self.half.commit credit
              outbound
              input := self.behind header
              entries
              events },
            .ok .consumed)

section Outcomes

variable {self : Reception σ ω} {header : Header} {id : StreamId}

theorem discard_outcome (hid : tryStream header = some id)
    (hactive : ∀ record, self.entries id ≠ some (.active record)) :
    self.Outcome header (self.discard header id : Result σ ω ε ρ) := by
  rw [discard]
  cases hreceive : self.half.receive self.connLow header.length .enabled with
  | error error => exact .rejected rfl
  | ok credit =>
    dsimp only
    cases hcontrol : dataControl self.outbound id credit.bump none (some .streamClosed) with
    | error error => exact .refused rfl
    | ok outbound =>
      have hchange : self.Change header id self.entries none (some .streamClosed) := .past hactive
      exact .consumed self.events hid hreceive hchange hcontrol

theorem retire_outcome (hid : tryStream header = some id) {credit : Credit}
    (hreceive : self.half.receive self.connLow header.length .enabled = .ok credit)
    (error : ErrorCode) :
    self.Outcome header (self.retire header id credit error : Result σ ω ε ρ) := by
  rw [retire]
  by_cases hfull : self.eventCapacity ≤ self.events.length
  · rw [if_pos hfull]
    exact .refused rfl
  · rw [if_neg hfull]
    cases hcontrol : dataControl self.outbound id credit.bump none (some error) with
    | error error => exact .refused rfl
    | ok outbound =>
      have hchange : self.Change header id (Function.update self.entries id none) none
          (some error) := .retired error
      exact .consumed _ hid hreceive hchange hcontrol

theorem violate_outcome (hid : tryStream header = some id) (error : ErrorCode) :
    self.Outcome header (self.violate header id error : Result σ ω ε ρ) := by
  rw [violate]
  cases hreceive : self.half.receive self.connLow header.length .enabled with
  | error error => exact .rejected rfl
  | ok credit => exact retire_outcome hid hreceive error

theorem deliver_outcome (hid : tryStream header = some id) {before : Recipient}
    (hentry : self.entries id = some (.active before)) {credit own : Credit}
    (hreceive : self.half.receive self.connLow header.length .enabled = .ok credit)
    (refill : Refill)
    (hown : before.half.receive self.streamLow header.length refill = .ok own)
    (content : Bytes) (record : Inbound) (retained : Option ρ) :
    self.Outcome header
      (self.deliver header id content record before.half credit own retained :
        Result σ ω ε ρ) := by
  rw [deliver.eq_def]
  dsimp only
  by_cases hfull : self.eventCapacity ≤ self.events.length
  · rw [if_pos hfull]
    exact .refused rfl
  rw [if_neg hfull]
  cases retained with
  | some error => exact .refused rfl
  | none =>
    dsimp only
    cases hcontrol : dataControl self.outbound id credit.bump own.bump none with
    | error error => exact .refused rfl
    | ok outbound =>
      dsimp only
      cases record.queueEnd self.keeps (boundaryOf header) with
      | error error => exact .refused rfl
      | ok record =>
        refine .consumed _ hid hreceive (.delivered refill _ hentry hown ?_) hcontrol
        intro next hnext
        split_ifs at hnext
        rw [← Entry.active.inj (Option.some.inj hnext)]

theorem admitted_outcome (hid : tryStream header = some id) {before : Recipient}
    (hentry : self.entries id = some (.active before)) (content : Bytes) (record : Inbound)
    (retained : Option ρ) :
    self.Outcome header
      (self.admitted header id content record before.half retained : Result σ ω ε ρ) := by
  rw [admitted, receivePair]
  cases hreceive : self.half.receive self.connLow header.length .enabled with
  | error error => exact .rejected rfl
  | ok credit =>
    rw [Except.map]
    split
    · next heq => cases heq
    · next heq =>
      obtain ⟨rfl, -⟩ := Prod.mk.inj (Except.ok.inj heq)
      exact retire_outcome hid hreceive .flowControl
    · next heq =>
      obtain ⟨rfl, hown⟩ := Prod.mk.inj (Except.ok.inj heq)
      exact deliver_outcome hid hentry hreceive _ hown content record retained

theorem active_outcome (hid : tryStream header = some id) {record : Recipient}
    (hentry : self.entries id = some (.active record)) (content : Bytes) (retained : Option ρ) :
    self.Outcome header (self.active header id content record retained : Result σ ω ε ρ) := by
  rw [active]
  cases record.state.recv (.data (boundaryOf header)) with
  | error error =>
    cases error with
    | protocol => exact .rejected rfl
    | streamClosed => exact violate_outcome hid _
  | ok next =>
    dsimp only
    by_cases hsection : record.section = .initial
    · rw [if_pos hsection]
      exact violate_outcome hid _
    rw [if_neg hsection]
    cases record.content.receive record.remaining content.length (boundaryOf header == .end) with
    | error error => exact violate_outcome hid _
    | ok remaining => exact admitted_outcome hid hentry content _ retained

theorem data_outcome (self : Reception σ ω) (header : Header) (retained : Option ρ) :
    self.Outcome header (self.data header retained : Result σ ω ε ρ) := by
  rw [data]
  by_cases hwaits : self.input.length < headerLen + header.length.value
  · rw [if_pos hwaits]
    exact .waits
  rw [if_neg hwaits]
  cases hid : tryStream header with
  | none => exact .refused rfl
  | some id =>
    dsimp only
    cases hunpadded : (self.unpadded header : Except (DataError ε ρ) (ℕ × ℕ)) with
    | error error =>
      refine .refused ?_
      rw [unpadded] at hunpadded
      dsimp only at hunpadded
      split_ifs at hunpadded
      · rw [← Except.error.inj hunpadded]
        rfl
      · split at hunpadded
        · rw [← Except.error.inj hunpadded]
          rfl
        · split_ifs at hunpadded
          rw [← Except.error.inj hunpadded]
          rfl
    | ok content =>
      dsimp only
      cases hentry : self.entries id with
      | none =>
        dsimp only
        cases self.history.classify self.endpoint id with
        | idle => exact .rejected rfl
        | closed => exact discard_outcome hid (by simp [hentry])
      | some entry =>
        cases entry with
        | active record => exact active_outcome hid hentry _ retained
        | resetting => exact discard_outcome hid (by simp [hentry])

end Outcomes

/-! ## What the windows keep to -/

/-- A connection that a peer and an application can bring about. A record is new, or its window is
as a DATA frame left it: nothing else changes the windows. -/
inductive Reachable (ρ : Type) : Reception σ ω → Prop
  | start (endpoint : Endpoint) {target initial : ℕ} (keeps : Bool) (outbound : σ)
      (eventCapacity : ℕ) :
      target ≤ 0x7fffffff → initial ≤ 0x7fffffff →
        Reachable ρ
          { endpoint
            history := .new endpoint
            half := .fresh (max target 65535)
            target
            initialWindow := initial
            entries := fun _ => none
            keeps
            outbound
            events := []
            eventCapacity
            input := [] }
  | data {conn : Reception σ ω} (header : Header) (retained : Option ρ) :
      Reachable ρ conn → Reachable ρ (conn.data header retained).1
  | other {conn : Reception σ ω} (history : History) {entries : StreamId → Option Entry}
      (keeps : Bool) (outbound : σ) (events : List (Delivery ω)) (input : Bytes) :
      Reachable ρ conn →
      (∀ id record, entries id = some (.active record) →
        record.half = .fresh conn.initialWindow ∨
          ∃ before, conn.entries id = some (.active before) ∧ record.half = before.half) →
        Reachable ρ { conn with history, entries, keeps, outbound, events, input }

/-- What is left of a window and what is pending are what there was at first. What is pending of the
connection stays below the threshold. -/
structure Sound (conn : Reception σ ω) : Prop where
  half : conn.half.Holds (max conn.target 65535)
  pending : conn.half.pending < conn.connLow
  entries : ∀ id record, conn.entries id = some (.active record) →
    record.half.Holds conn.initialWindow
  initial : conn.initialWindow ≤ 0x7fffffff

section Soundness

variable {conn : Reception σ ω} {header : Header}

theorem connLow_pos (conn : Reception σ ω) : 0 < conn.connLow := by
  rw [connLow]
  split_ifs with hzero
  · exact Nat.one_pos
  · exact Nat.pos_of_ne_zero hzero

theorem holds_commit {half : Half} {initial : ℕ} (h : half.Holds initial) {limit : ℕ}
    {amount : Length} {refill : Refill} {credit : Credit}
    (hcredit : half.receive limit amount refill = .ok credit) :
    (half.commit credit).Holds initial ∧
      half.Charged (half.commit credit) amount.value credit.given := by
  rcases Half.receive_cases h limit amount refill with ⟨-, herror⟩ | ⟨other, -, hok, hrest⟩
  · rw [herror] at hcredit
    cases hcredit
  · rw [hok] at hcredit
    rw [← Except.ok.inj hcredit]
    exact hrest

theorem Sound.outcome (h : conn.Sound) {result : Result σ ω ε ρ}
    (hresult : conn.Outcome header result) : result.1.Sound := by
  cases hresult with
  | waits | refused _ => exact h
  | rejected _ => exact ⟨h.half, h.pending, h.entries, h.initial⟩
  | consumed events hid hcredit hchange hcontrol =>
    have hpending := Half.pending_commit_lt hcredit h.pending
    refine ⟨(holds_commit h.half hcredit).1, hpending, ?_, h.initial⟩
    intro id record hrecord
    dsimp only at hrecord ⊢
    cases hchange with
    | past _ => exact h.entries id record hrecord
    | retired error =>
      rw [Function.update_apply] at hrecord
      split_ifs at hrecord
      exact h.entries id record hrecord
    | delivered refill entry hentry hown hnext =>
      rw [Function.update_apply] at hrecord
      split_ifs at hrecord
      · rw [hnext record hrecord]
        exact (holds_commit (h.entries _ _ hentry) hown).1
      · exact h.entries id record hrecord

theorem Reachable.sound (h : Reachable ρ conn) : conn.Sound := by
  induction h with
  | start endpoint keeps outbound eventCapacity htarget hinitial =>
    refine ⟨Half.holds_fresh (max_le htarget (by norm_num)), ?_, fun _ _ h => (nomatch h),
      hinitial⟩
    exact connLow_pos _
  | data header retained _ ih => exact ih.outcome (data_outcome _ header retained)
  | other history keeps outbound events input _ hentries ih =>
    refine ⟨ih.half, ih.pending, ?_, ih.initial⟩
    intro id record hrecord
    rcases hentries id record hrecord with hfresh | ⟨before, hbefore, hsame⟩
    · rw [hfresh]
      exact Half.holds_fresh ih.initial
    · rw [hsame]
      exact ih.entries id before hbefore

end Soundness

/-! ## Whole frames -/

/-- A frame is charged to the connection: the window is less by the whole payload, which is pending
until it is given back, and what is given back is announced. -/
def Charges (conn next : Reception σ ω) (header : Header) : Prop :=
  ∃ id bump streamUp reset, tryStream header = some id ∧
    conn.half.Charged next.half header.length.value ((bump.map Increment.value).getD 0) ∧
    Span.bytes next.outbound = Span.bytes conn.outbound ++ controlBytes id bump streamUp reset

section Frames

variable {conn next : Reception σ ω} {header : Header} {retained : Option ρ}
  {result : Except (DataError ε ρ) Reading}

theorem bytes_dataControl [LawfulSpan σ] {outbound sent : σ} {id : StreamId}
    {connUp streamUp : Option Increment} {reset : Option ErrorCode}
    (h : dataControl outbound id connUp streamUp reset = .ok sent) :
    Span.bytes sent = Span.bytes outbound ++ controlBytes id connUp streamUp reset := by
  rw [dataControl] at h
  split_ifs at h with hempty
  · rw [hempty, List.append_nil, Except.ok.inj h]
  · exact LawfulSpan.bytes_of_ok h

/-- A frame that is consumed without an error is charged to the connection once, with its padding,
and everything that was charged is pending or given back. A frame that fails the connection is
consumed and changes nothing else, and any other refusal changes nothing at all. -/
theorem data_charged [LawfulSpan σ] (hconn : Reachable ρ conn)
    (h : conn.data header retained = (next, result)) :
    next.half.Holds (max conn.target 65535) ∧ next.half.pending < conn.connLow ∧
    (result = .ok .consumed → next.input = conn.behind header ∧ conn.Charges next header) ∧
    (∀ error, result = .error error → error.isRejection = true →
      next = { conn with input := conn.behind header }) ∧
    (result ≠ .ok .consumed → (∀ error, result = .error error → error.isRejection = false) →
      next = conn) := by
  have hsound := hconn.sound
  have houtcome := data_outcome conn header retained
  have hnext := hsound.outcome houtcome
  rw [h] at houtcome hnext
  cases houtcome with
  | waits =>
    exact ⟨hnext.half, hnext.pending, fun heq => (nomatch heq), fun _ heq => (nomatch heq),
      fun _ _ => rfl⟩
  | refused herror =>
    refine ⟨hnext.half, hnext.pending, fun heq => (nomatch heq), ?_, fun _ _ => rfl⟩
    intro error heq hrejection
    rw [Except.error.inj heq, hrejection] at herror
    cases herror
  | rejected herror =>
    refine ⟨hnext.half, hnext.pending, fun heq => (nomatch heq), fun _ _ _ => rfl, ?_⟩
    intro _ hno
    have hrejection := hno _ rfl
    rw [herror] at hrejection
    cases hrejection
  | consumed events hid hcredit hchange hcontrol =>
    refine ⟨hnext.half, hnext.pending, fun _ => ⟨rfl, ?_⟩, fun _ heq => (nomatch heq),
      fun hne => absurd rfl hne⟩
    exact ⟨_, _, _, _, hid, (holds_commit hsound.half hcredit).2, bytes_dataControl hcontrol⟩

end Frames

/-! ## Frames of one byte -/

/-- A DATA frame of one byte, on the first stream of a client. -/
def oneByte : Header :=
  ⟨⟨1, by norm_num⟩, .data, 0, ⟨1, by norm_num [maxId]⟩⟩

/-- A server with a frame of one byte in its input. -/
def reading (target initial : ℕ) (entries : StreamId → Option Entry) : Reception Slot Unit where
  endpoint := .server
  history := .new .server
  half := .fresh (max target 65535)
  target
  initialWindow := initial
  entries
  keeps := true
  outbound := ⟨[], 64⟩
  events := []
  eventCapacity := 4
  input := oneByte.wireBytes ++ [7]

theorem reachable_reading {target initial : ℕ} (htarget : target ≤ 0x7fffffff)
    (hinitial : initial ≤ 0x7fffffff) {entries : StreamId → Option Entry}
    (hentries : ∀ id record, entries id = some (.active record) →
      record.half = .fresh initial) :
    Reachable Unit (reading target initial entries) :=
  .other (.new .server) true (⟨[], 64⟩ : Slot) [] _
    (.start .server true (⟨[], 64⟩ : Slot) 4 htarget hinitial)
    fun id record h => .inl (hentries id record h)

/-- The record of an open stream behind its head. -/
def opened (initial : ℕ) : Recipient :=
  ⟨⟨⟨.open, .trailing, ⟨65535, 65535⟩⟩, none, .unbounded, 0⟩, .fresh initial⟩

/-- A frame of an open stream. -/
theorem data_charged_one :
    ∃ (conn next : Reception Slot Unit), Reachable Unit conn ∧
      conn.data oneByte (none : Option Unit) = (next, .ok .consumed) ∧
      next.half.window.value = 65534 ∧ conn.Charges next oneByte := by
  have hconn : Reachable Unit (reading 65535 65535 fun _ => some (.active (opened 65535))) :=
    reachable_reading (by norm_num) (by norm_num)
      fun id record h => by rw [← Entry.active.inj (Option.some.inj h), opened]
  obtain ⟨next, hdata⟩ : ∃ next, (reading 65535 65535 fun _ => some (.active (opened 65535))).data
      oneByte (none : Option Unit) = (next, .ok .consumed) := ⟨_, rfl⟩
  obtain ⟨-, -, hcharges, -⟩ := data_charged hconn hdata
  refine ⟨_, next, hconn, hdata, ?_, (hcharges rfl).2⟩
  rw [← (Prod.mk.inj hdata).1]
  rfl

/-- A frame of an idle stream is consumed, and is not charged. -/
theorem idle_not_charged :
    ∃ (conn next : Reception Slot Unit) (id : StreamId), Reachable Unit conn ∧
      conn.data oneByte (none : Option Unit) = (next, .error (.idle id)) ∧
      next.input = conn.behind oneByte ∧ conn.input ≠ [] ∧ ¬ conn.Charges next oneByte := by
  refine ⟨reading 65535 65535 fun _ => none, _, .firstClient,
    reachable_reading (by norm_num) (by norm_num) fun _ _ h => (nomatch h), rfl, rfl,
    by simp [reading], ?_⟩
  rintro ⟨id, bump, streamUp, reset, -, hcharged, hbytes⟩
  have hbytes : controlBytes id bump streamUp reset = [] := hbytes.symm
  have hvalue := hcharged.value
  cases bump with
  | none =>
    -- nothing was given back, so that the window would have to be less
    exact absurd hvalue (by decide)
  | some bump =>
    have hlength := congrArg List.length hbytes
    simp [controlBytes, updateBytes, headerLen] at hlength

end Reception

end Sark.H2
