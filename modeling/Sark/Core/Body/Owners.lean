import Sark.Core.Body.Ingress

/-!
# The owners of body credit

The credit of a request body is held by the stream that builds its value, by the ready value that
waits for admission, by the buffer that retains its input, by the rejection of a failed completion,
or by a release that has not been settled (`core/src/body/flow.rs`, `core/src/body/stream.rs`,
`core/src/body/buffered`). Builders, retained storage and segments are the application's and the
transport's, and enter as parameters. The recording of committed mutations is left out.
-/

namespace Sark.Body

/-- `body::Step`: what one cooperative construction turn leaves, with the credit it releases. -/
inductive Step (B Out E : Type*) where
  | needInput (build : B) (released : Amount)
  | pending (build : B) (released : Amount)
  | ready (output : Out) (released : Amount)
  | failed (build : B) (error : E) (released : Amount)

/-- `body::Transfer`. -/
inductive Transfer (B E : Type*) where
  | accepted (build : B)
  | rejected (build : B) (error : E)

/-- `body::Build` and `body::Push`: a cooperative request builder that takes segments. -/
structure Builder (B Out E R Seg : Type*) where
  finishInput : B → ℕ → B
  step : B → ℕ → Step B Out E
  push : B → Seg → Transfer B R

/-- A segment and its length. -/
class Segment (Seg : Type*) where
  len : Seg → ℕ

/-- `input::Parts`: segments whose dimensions are carried by their owner, or checked on transfer. -/
structure Parts (Seg : Type*) where
  exact : Bool
  dimensions : Amount
  segments : List Seg

/-- `buffered::Store`: retained storage becomes the source of a body of some length. -/
structure Store (S Src : Type*) where
  finish : Option S → Src
  len : Src → ℕ

/-! ## Construction -/

/-- `flow::Flow`: linear request construction whose ready payload replaces its builder. -/
inductive Flow (B Out : Type*) where
  | building (build : B)
  | ready (output : Out)

/-- `flow::Push`. -/
inductive FlowPush (B Out R : Type*) where
  | accepted (flow : Flow B Out)
  | failed (flow : Flow B Out) (error : Error)
  | rejected (flow : Flow B Out) (error : R)

/-- `flow::Error`. -/
inductive FlowError (E : Type*) where
  | lengthMismatch
  | credit (error : CreditError)
  | build (error : E)
  | release (build : E) (error : CreditError)

namespace Flow

variable {B Out E R Seg : Type*} [Segment Seg]

/-- The loop of `Flow::try_parts` over the segments, with the bytes and chunks seen. -/
def partsLoop (machine : Machine) (builder : Builder B Out E R Seg) (count exact : Bool)
    (bytes chunks : ℕ) : B → ℕ → ℕ → List Seg → FlowPush B Out R
  | build, seen, tally, [] =>
    if !exact && (seen ≠ bytes || count && tally ≠ chunks) then
      .failed (.building build) .segmentMismatch
    else .accepted (.building build)
  | build, seen, tally, part :: parts =>
    if !exact && Segment.len part = 0 then
      partsLoop machine builder count exact bytes chunks build seen tally parts
    else if !exact && (machine.usizeMax < seen + Segment.len part ||
        bytes < seen + Segment.len part) then
      .failed (.building build) .segmentMismatch
    else if !exact && count && (machine.countMax < tally + 1 || chunks < tally + 1) then
      .failed (.building build) .segmentMismatch
    else
      let seen := if exact then seen else seen + Segment.len part
      let tally := if !exact && count then tally + 1 else tally
      match builder.push build part with
      | .accepted build => partsLoop machine builder count exact bytes chunks build seen tally parts
      | .rejected build error => .rejected (.building build) error

/-- `Flow::try_parts`. -/
def tryParts (machine : Machine) (builder : Builder B Out E R Seg) (count : Bool) (build : B)
    (parts : Parts Seg) (bytes chunks : ℕ) : FlowPush B Out R :=
  if parts.exact && (parts.dimensions.bytes ≠ bytes || count && parts.dimensions.chunks ≠ chunks)
  then .failed (.building build) .segmentMismatch
  else partsLoop machine builder count parts.exact bytes chunks build 0 0 parts.segments

/-- `Flow::try_push`: reserves the credit, then hands the segments to the builder. -/
def tryPush (machine : Machine) (builder : Builder B Out E R Seg) (self : Flow B Out) (turn : Turn)
    (parts : Parts Seg) (bytes chunks : ℕ) (requestMax connectionMax : Limits) :
    FlowPush B Out R × Turn :=
  match self with
  | .ready output => (.failed (.ready output) .inputFinished, turn)
  | .building build =>
    match turn.state.track.tryAdvance machine bytes with
    | .error error => (.failed (.building build) error, turn)
    | .ok next =>
      match turn.ledger.tryCommit machine turn.state.credit ⟨bytes, chunks⟩ requestMax
          connectionMax with
      | .error error => (.failed (.building build) (.credit error), turn)
      | .ok change =>
        let reserved := turn.commit change
        match tryParts machine builder true build parts bytes chunks with
        -- the track advances only when every segment was taken, the credit stays in any case
        | .accepted flow =>
          (.accepted flow,
            { reserved with state := { reserved.state with track := turn.state.track.advance next } })
        | .failed flow error => (.failed flow error, reserved)
        | .rejected flow error => (.rejected flow error, reserved)

/-- `Flow::try_end_with`. -/
def tryEndWith (builder : Builder B Out E R Seg) (self : Flow B Out) (state : Ingress)
    (finish : Except Error (ℕ × Ingress)) : Transfer (Flow B Out) Error × Ingress :=
  match self with
  | .ready output => (.rejected (.ready output) .inputFinished, state)
  | .building build =>
    match finish with
    | .error error => (.rejected (.building build) error, state)
    | .ok (len, state) => (.accepted (.building (builder.finishInput build len)), state)

/-- `Flow::try_finish`. -/
def tryFinish (builder : Builder B Out E R Seg) (self : Flow B Out) (state : Ingress) :
    Transfer (Flow B Out) Error × Ingress :=
  self.tryEndWith builder state state.tryEnd

/-- `Flow::try_complete`. -/
def tryComplete (builder : Builder B Out E R Seg) (self : Flow B Out) (state : Ingress) :
    Transfer (Flow B Out) Error × Ingress :=
  self.tryEndWith builder state
    (if state.isFinished then .ok (state.track.len, state) else state.tryEnd)

/-- `Flow::try_exact`. -/
def tryExact (machine : Machine) (builder : Builder B Out E R Seg) (self : Flow B Out)
    (state : Ingress) (len : ℕ) : Transfer (Flow B Out) Error × Ingress :=
  match state.tryExact machine len with
  | .error error => (.rejected self error, state)
  | .ok state => self.tryFinish builder state

end Flow

/-! ## Streams and ready values -/

/-- `stream::Stream`: an incremental builder and the accounting state of its input. -/
structure Stream (B Out : Type*) where
  state : Ingress
  flow : Flow B Out

/-- `flow::Ready`: completed output with its finished input and unsettled credit. -/
structure Ready (Out : Type*) where
  state : Ingress
  output : Out

/-- `stream::Drive`. -/
inductive Drive (B Out E : Type*) where
  | needInput (stream : Stream B Out)
  | pending (stream : Stream B Out)
  | ready (ready : Ready Out)
  | failed (stream : Stream B Out) (error : FlowError E)
  | rejected (stream : Stream B Out) (error : Error)

/-- `stream::Push`, without the input owners it returns. -/
inductive StreamPush (B Out R : Type*) where
  | accepted (stream : Stream B Out)
  | discarded (stream : Stream B Out)
  | refused (stream : Stream B Out) (error : Error)
  | failed (stream : Stream B Out) (error : Error)
  | rejected (stream : Stream B Out) (error : R)

/-- `credit::Release`: credit detached from its input. -/
structure Release where
  amount : Amount

/-- `credit::Discard`. -/
inductive Discard where
  | applied
  | rejected (release : Release) (error : CreditError)

/-- `stream::Admission`. -/
inductive Admission (Out : Type*) where
  | accepted (output : Out)
  | rejected (ready : Ready Out) (error : Error)

/-- `Release::try_discard`. -/
def Release.tryDiscard (self : Release) (ledger : Amount) : Discard × Amount :=
  match ledger.tryDrain self.amount with
  | .error error => (.rejected self error, ledger)
  | .ok change => (.applied, change.connection)

namespace Ready

variable {B Out E : Type*}

/-- `Ready::try_new`. -/
def tryNew (state : Ingress) (output : Out) : Drive B Out E :=
  match state.track.phase with
  | .end => .ready ⟨state, output⟩
  | .more => .rejected ⟨state, .ready output⟩ .inputIncomplete

/-- `Ready::try_admit`. -/
def tryAdmit (self : Ready Out) (ledger : Amount) : Admission Out × Amount :=
  match (Turn.mk self.state ledger).tryDrain with
  | .error error => (.rejected self (.credit error), ledger)
  | .ok turn => (.accepted self.output, turn.ledger)

/-- `Ready::into_release`. -/
def intoRelease (self : Ready Out) : Release := ⟨self.state.credit⟩

end Ready

namespace Stream

variable {B Out E R Seg D : Type*} [Segment Seg]

/-- `Stream::start` and `Stream::ended`: finished input is announced to the builder. -/
def new (builder : Builder B Out E R Seg) (start : Start) (build : B) : Stream B Out :=
  let state := Ingress.new start
  match start with
  | .open _ => ⟨state, .building build⟩
  | .finished _ => ⟨state, .building (builder.finishInput build state.track.len)⟩

/-- `Stream::into_release`. -/
def intoRelease (self : Stream B Out) : Release := ⟨self.state.credit⟩

/-- `Stream::try_discard`: counts input that is not retained. -/
def tryDiscard (machine : Machine) (builder : Builder B Out E R Seg) (self : Stream B Out)
    (bytes : ℕ) (boundary : Boundary) : Transfer (Stream B Out) Error :=
  if self.state.track.retention ≠ .discarded then .rejected self .segmentMismatch
  else
    match self.state.track.tryAdvance machine bytes with
    | .error error => .rejected self error
    | .ok next =>
      let state := { self.state with track := self.state.track.advance next }
      match boundary with
      | .more => .accepted { self with state }
      | .end =>
        match self.flow.tryFinish builder state with
        | (.accepted flow, state) => .accepted ⟨state, flow⟩
        | (.rejected flow error, state) => .rejected ⟨state, flow⟩ error

/-- `Stream::try_push`. -/
def tryPush (machine : Machine) (builder : Builder B Out E R Seg) (self : Stream B Out)
    (ledger : Amount) (data : D) (bytes chunks : ℕ) (boundary : Boundary)
    (requestMax connectionMax : Limits) (parts : D → Parts Seg) : StreamPush B Out R × Amount :=
  match self.state.track.retention with
  | .discarded =>
    match self.state.track.tryAdvance machine bytes with
    | .error error => (.refused self error, ledger)
    | .ok next =>
      let state := { self.state with track := self.state.track.advance next }
      match boundary with
      | .more => (.discarded { self with state }, ledger)
      | .end =>
        match self.flow.tryFinish builder state with
        | (.accepted flow, state) => (.discarded ⟨state, flow⟩, ledger)
        | (.rejected flow error, state) => (.refused ⟨state, flow⟩ error, ledger)
  | .retained =>
    match self.flow.tryPush machine builder ⟨self.state, ledger⟩ (parts data) bytes chunks
        requestMax connectionMax with
    | (.accepted flow, turn) =>
      match boundary with
      | .more => (.accepted ⟨turn.state, flow⟩, turn.ledger)
      | .end =>
        match flow.tryFinish builder turn.state with
        | (.accepted flow, state) => (.accepted ⟨state, flow⟩, turn.ledger)
        | (.rejected flow error, state) => (.failed ⟨state, flow⟩ error, turn.ledger)
    | (.failed flow error, turn) => (.failed ⟨turn.state, flow⟩ error, turn.ledger)
    | (.rejected flow error, turn) => (.rejected ⟨turn.state, flow⟩ error, turn.ledger)

/-- `Stream::try_finish`. -/
def tryFinish (builder : Builder B Out E R Seg) (self : Stream B Out) :
    Transfer (Stream B Out) Error :=
  match self.flow.tryFinish builder self.state with
  | (.accepted flow, state) => .accepted ⟨state, flow⟩
  | (.rejected flow error, state) => .rejected ⟨state, flow⟩ error

/-- `Stream::try_exact`. -/
def tryExact (machine : Machine) (builder : Builder B Out E R Seg) (self : Stream B Out)
    (len : ℕ) : Transfer (Stream B Out) Error :=
  match self.flow.tryExact machine builder self.state len with
  | (.accepted flow, state) => .accepted ⟨state, flow⟩
  | (.rejected flow error, state) => .rejected ⟨state, flow⟩ error

/-- `Flow::try_drive`: one construction turn, whose released credit is returned first. -/
def tryDrive (builder : Builder B Out E R Seg) (self : Stream B Out) (ledger : Amount)
    (budget : ℕ) : Drive B Out E × Amount :=
  match self.flow with
  | .ready output => (Ready.tryNew self.state output, ledger)
  | .building build =>
    match builder.step build budget with
    | .needInput build released =>
      match (Turn.mk self.state ledger).tryRelease released with
      | .ok turn =>
        if turn.state.isFinished then
          (.failed ⟨turn.state, .building build⟩ .lengthMismatch, turn.ledger)
        else (.needInput ⟨turn.state, .building build⟩, turn.ledger)
      | .error error => (.failed ⟨self.state, .building build⟩ (.credit error), ledger)
    | .pending build released =>
      match (Turn.mk self.state ledger).tryRelease released with
      | .ok turn => (.pending ⟨turn.state, .building build⟩, turn.ledger)
      | .error error => (.failed ⟨self.state, .building build⟩ (.credit error), ledger)
    | .ready output released =>
      match (Turn.mk self.state ledger).tryRelease released with
      | .ok turn => (Ready.tryNew turn.state output, turn.ledger)
      | .error error => (.failed ⟨self.state, .ready output⟩ (.credit error), ledger)
    | .failed build error released =>
      match (Turn.mk self.state ledger).tryRelease released with
      | .ok turn => (.failed ⟨turn.state, .building build⟩ (.build error), turn.ledger)
      | .error release =>
        (.failed ⟨self.state, .building build⟩ (.release error release), ledger)

end Stream

/-! ## Buffers -/

/-- `buffered::State`: logical body state and its retained transport storage. -/
structure Buffered (S : Type*) where
  state : Ingress
  storage : Option S

/-- `buffered::Retain`. -/
inductive Retain (S E : Type*) where
  | accepted (storage : Option S)
  | rejected (storage : Option S) (error : E)

/-- `buffered::Push`, without the input owners it returns. -/
inductive BufferedPush (E : Type*) where
  | accepted
  | discarded
  | body (error : Error)
  | retain (error : E)

/-- `buffered::Rejected`: a failed completion with its source, phase and unreleased credit. -/
inductive Rejected (S Src : Type*) where
  | admission (state : Buffered S) (error : Error)
  | storage (track : Track Finished) (source : Src) (error : Error) (release : Release)
  | credit (source : Src) (len : ℕ) (release : Release) (error : Error)

namespace Buffered

variable {B Out E R Seg S Src D Q : Type*} [Segment Seg]

/-- `State::start` and `State::ended`. -/
def new (start : Start) : Buffered S := ⟨.new start, none⟩

/-- `State::into_release`. -/
def intoRelease (self : Buffered S) : Release := ⟨self.state.credit⟩

/-- `State::try_push`: the credit is committed only when the input was retained. -/
def tryPush (machine : Machine) (self : Buffered S) (ledger : Amount) (data : D)
    (bytes chunks : ℕ) (requestMax connectionMax : Limits) (retain : Option S → D → Retain S Q) :
    BufferedPush Q × Buffered S × Amount :=
  match self.state.track.tryAdvance machine bytes with
  | .error error => (.body error, self, ledger)
  | .ok next =>
    match self.state.track.retention with
    | .discarded =>
      (.discarded, { self with state.track := self.state.track.advance next }, ledger)
    | .retained =>
      match ledger.tryCommit machine self.state.credit ⟨bytes, chunks⟩ requestMax connectionMax with
      | .error error => (.body (.credit error), self, ledger)
      | .ok change =>
        match retain self.storage data with
        | .accepted storage =>
          (.accepted, ⟨⟨self.state.track.advance next, change.request⟩, storage⟩, change.connection)
        | .rejected storage error => (.retain error, { self with storage }, ledger)

/-- `State::try_exact`. -/
def tryExact (machine : Machine) (self : Buffered S) (len : ℕ) : Transfer (Buffered S) Error :=
  match self.state.tryExact machine len with
  | .error error => .rejected self error
  | .ok state =>
    match state.tryEnd with
    | .error error => .rejected { self with state } error
    | .ok (_, state) => .accepted { self with state }

/-- `Body::try_new`: whether the source holds what the track counted. -/
def isValid (store : Store S Src) (track : Track Finished) (source : Src) : Bool :=
  match track.retention with
  | .discarded => store.len source = 0
  | .retained => store.len source = track.len

/-- `State::try_finish`: completes the body and returns its credit. -/
def tryFinish (store : Store S Src) (self : Buffered S) (ledger : Amount) :
    Except (Rejected S Src) (Src × ℕ) × Amount :=
  match self.state.track.tryComplete with
  | .error error => (.error (.admission self error), ledger)
  | .ok track =>
    let release : Release := ⟨self.state.credit⟩
    let source := store.finish self.storage
    if isValid store track source then
      match ledger.tryDrain release.amount with
      | .error error => (.error (.credit source track.len release (.credit error)), ledger)
      | .ok change => (.ok (source, track.len), change.connection)
    else (.error (.storage track source .segmentMismatch release), ledger)

/-- The transfer of the retained storage into a builder. -/
def tryMove (machine : Machine) (builder : Builder B Out E R Seg) (self : Buffered S) (build : B)
    (parts : S → Parts Seg) : FlowPush B Out R :=
  match self.storage with
  | some storage =>
    Flow.tryParts machine builder false build (parts storage) self.state.track.len 0
  | none =>
    if self.state.track.retention = .retained ∧ self.state.track.len ≠ 0 then
      .failed (.building build) .segmentMismatch
    else .accepted (.building build)

/-- `State::try_stream`: retained input moves into a builder, with its credit. -/
def tryStream (machine : Machine) (builder : Builder B Out E R Seg) (self : Buffered S) (build : B)
    (boundary : Boundary) (parts : S → Parts Seg) : FlowPush B Out R × Ingress :=
  match boundary with
  | .more => (self.tryMove machine builder build parts, self.state)
  | .end =>
    match self.tryMove machine builder build parts with
    | .accepted flow =>
      match flow.tryComplete builder self.state with
      | (.accepted flow, state) => (.accepted flow, state)
      | (.rejected flow error, state) => (.failed flow error, state)
    | failed => (failed, self.state)

end Buffered

namespace Rejected

variable {S Src : Type*}

/-- The credit that a rejection holds. -/
def held : Rejected S Src → Amount
  | .admission state _ => state.state.credit
  | .storage _ _ _ release => release.amount
  | .credit _ _ release _ => release.amount

/-- The rejection with its credit replaced. -/
def withCredit (amount : Amount) : Rejected S Src → Rejected S Src
  | .admission state error => .admission { state with state.credit := amount } error
  | .storage track source error _ => .storage track source error ⟨amount⟩
  | .credit source len _ error => .credit source len ⟨amount⟩ error

/-- `Rejected::try_release`. -/
def tryRelease (self : Rejected S Src) (ledger : Amount) :
    Except CreditError (Rejected S Src) × Amount :=
  match ledger.tryDrain self.held with
  | .error error => (.error error, ledger)
  | .ok change => (.ok (self.withCredit change.request), change.connection)

end Rejected

end Sark.Body
