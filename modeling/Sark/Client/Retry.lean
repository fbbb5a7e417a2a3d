import Mathlib.Data.List.Basic
import Mathlib.Tactic

/-!
# Retries of client requests

The retry state of a client call (`client/src/protocol/retry.rs`), the loops that drive it
(`fiber/src/client/exchange/retry.rs`) and the redirects between two of them
(`client/src/protocol/redirect.rs`). A request whose method is not idempotent may be sent again only
while nothing of the call has entered egress.

The transport is not part of the model. An attempt ends as the environment decides: it is rejected
before submission, it fails with a safety of its own, a deadline expires, or a response is
delivered.
-/

namespace Sark.Client

/-! ## Failures -/

/-- Whether a request of the call may have entered egress. -/
inductive Safety where
  | beforeSubmit
  | possiblyCommitted
  deriving DecidableEq, Repr

def Safety.merge : Safety → Safety → Safety
  | .possiblyCommitted, _ => .possiblyCommitted
  | _, .possiblyCommitted => .possiblyCommitted
  | .beforeSubmit, .beforeSubmit => .beforeSubmit

/-- Why a submission was refused. -/
inductive SubmitCause where
  | identityExhausted
  | other
  deriving DecidableEq, Repr

/-- Who closed a connection locally. -/
inductive LocalOrigin where
  | apiRequest
  | sideComplete
  | operationCancelled
  | runtimeShutdown
  | superseded
  | scheduledRotation
  | resourceFailure
  deriving DecidableEq, Repr

/-- `conn::Kind`. -/
inductive Kind where
  | remoteEof
  | protocol
  | receive
  | transport
  | wire
  | timeout
  | endpointRetired
  | local (origin : LocalOrigin)
  deriving DecidableEq, Repr

inductive ParkError where
  | submit (cause : SubmitCause)
  | other
  deriving DecidableEq, Repr

inductive Transmit where
  | rejected (cause : SubmitCause)
  | other
  deriving DecidableEq, Repr

/-- `conn::Error`, with what the classification reads. -/
inductive ConnError where
  | classified (kind : Kind)
  | park (error : ParkError)
  | ready
  | retain
  | ingress
  | egress
  | receive
  | wire
  | transmit (error : Transmit) (wire : Bool)
  deriving DecidableEq, Repr

def ConnError.kind : ConnError → Kind
  | .classified kind => kind
  | .park _ => .receive
  | .ready => .local .resourceFailure
  | .retain => .local .resourceFailure
  | .ingress => .local .resourceFailure
  | .egress => .local .resourceFailure
  | .receive => .transport
  | .transmit _ false => .transport
  | .wire => .wire
  | .transmit _ true => .wire

inductive ConnectError where
  | admission (cause : SubmitCause)
  | other
  deriving DecidableEq, Repr

inductive ConnectFault where
  | transport (error : ConnectError)
  | attempt
  | cleanup
  | runtimeShutdown
  | other
  deriving DecidableEq, Repr

inductive Open where
  | exhausted
  | other
  deriving DecidableEq, Repr

/-- `connect::Error`. -/
inductive Connect where
  | resolve
  | identityExhausted
  | activation (error : Open)
  | reply
  | mailbox
  | attempt (fault : ConnectFault)
  deriving DecidableEq, Repr

inductive Phase where
  | dispatch
  | head
  | body
  | decode
  | backoff
  deriving DecidableEq, Repr

inductive Elapsed where
  | budget
  | limit
  deriving DecidableEq, Repr

/-- `Error`, with what the classification reads. -/
inductive Error where
  | notConnected
  | transport (error : ConnError)
  | capacity
  | timeout (phase : Phase) (elapsed : Elapsed)
  | timer
  | origin
  | connect (error : Connect)
  | protocol
  | redirect
  | request
  | decompression
  | reply
  | detach
  deriving DecidableEq, Repr

/-- `NonZero<u8>`. -/
abbrev Count := { n : ℕ // 0 < n ∧ n ≤ 255 }

namespace Count

def min : Count := ⟨1, by decide, by decide⟩

def saturatingAdd (count : Count) (n : ℕ) : Count :=
  ⟨Min.min (count.val + n) 255, Nat.lt_min.mpr ⟨Nat.add_pos_left count.property.1 n, by decide⟩,
    Nat.min_le_right _ _⟩

end Count

/-- `Failure`. -/
structure Failure where
  cause : Error
  safety : Safety
  attempt : Count

namespace Failure

def new (cause : Error) (safety : Safety) : Failure := ⟨cause, safety, .min⟩

def attempted (failure : Failure) (attempt : Count) : Failure := { failure with attempt := attempt }

end Failure

/-! ## The retry state -/

/-- How a failure bears on a retry. -/
inductive Class where
  | never
  | stale
  | transient
  deriving DecidableEq, Repr

/-- `Class::of`. -/
def Class.of : Error → Class
  | .notConnected => .stale
  | .transport (.park (.submit .identityExhausted)) => .never
  | .connect (.attempt (.transport (.admission .identityExhausted))) => .never
  | .transport (.transmit (.rejected .identityExhausted) _) => .never
  | .transport error =>
    match error.kind with
    | .remoteEof | .receive | .transport | .wire | .endpointRetired => .stale
    | .local .superseded | .local .scheduledRotation | .local .resourceFailure => .stale
    | .timeout => .transient
    | .protocol => .never
    | .local .apiRequest | .local .sideComplete => .never
    | .local .operationCancelled | .local .runtimeShutdown => .never
  | .connect .resolve => .never
  | .connect .identityExhausted => .never
  | .connect (.activation .exhausted) => .never
  | .connect .mailbox => .never
  | .connect .reply => .never
  | .connect (.attempt .attempt) => .never
  | .connect (.attempt .cleanup) => .never
  | .connect (.attempt .runtimeShutdown) => .never
  | .timeout .dispatch _ => .never
  | .timeout _ .budget => .never
  | .timeout _ .limit => .transient
  | .connect _ => .transient
  | _ => .never

/-- `Method`: the known methods and the extensions. -/
inductive Method where
  | get
  | post
  | put
  | patch
  | delete
  | head
  | options
  | connect
  | trace
  | query
  | extension (token : List UInt8)
  deriving DecidableEq, Repr

structure Policy where
  idempotentAttempts : Count
  nonIdempotentAttempts : Count
  reconnectOnStaleNonIdempotent : Bool

inductive Mode where
  | idempotentBefore
  | idempotentCommitted
  | nonIdempotentBefore
  | nonIdempotentCommitted
  deriving DecidableEq, Repr

namespace Mode

def safety : Mode → Safety
  | idempotentBefore | nonIdempotentBefore => .beforeSubmit
  | idempotentCommitted | nonIdempotentCommitted => .possiblyCommitted

def observe (mode : Mode) (safety : Safety) : Mode :=
  if safety = .beforeSubmit then mode
  else
    match mode with
    | idempotentBefore | idempotentCommitted => idempotentCommitted
    | nonIdempotentBefore | nonIdempotentCommitted => nonIdempotentCommitted

end Mode

structure State where
  reconnectOnStaleNonIdempotent : Bool
  mode : Mode
  attempts : Count
  limit : Count

/-- An admitted backoff, which keeps the last attempt until the next begins. -/
structure Backoff where
  state : State

namespace State

/-- `State::new`. -/
def new (policy : Policy) (method : Method) : State :=
  let start : Mode × Count :=
    match method with
    | .get | .head | .options | .trace | .put | .delete =>
      (.idempotentBefore, policy.idempotentAttempts)
    | _ => (.nonIdempotentBefore, policy.nonIdempotentAttempts)
  { reconnectOnStaleNonIdempotent := policy.reconnectOnStaleNonIdempotent
    mode := start.1
    attempts := .min
    limit := start.2 }

def withPrior (state : State) (safety : Safety) : State :=
  { state with mode := state.mode.observe safety }

def finish (state : State) (failure : Failure) : Failure :=
  (Failure.new failure.cause (failure.safety.merge state.mode.safety)).attempted state.attempts

/-- Whether the failure is the kind of which a retry may be allowed. -/
def allowed (state : State) (cause : Error) : Bool :=
  match state.mode with
  | .idempotentBefore | .idempotentCommitted => Class.of cause != .never
  | .nonIdempotentCommitted => false
  | .nonIdempotentBefore =>
    match Class.of cause with
    | .transient =>
      match cause with
      | .connect _ => true
      | _ => false
    | .stale => state.reconnectOnStaleNonIdempotent
    | .never => false

/-- `retry_after`. -/
def retryAfter (state : State) (failure : Failure) : Except State Backoff :=
  let observed := { state with mode := state.mode.observe failure.safety }
  if observed.attempts.val ≥ observed.limit.val then .error observed
  else if !observed.allowed failure.cause then .error observed
  else .ok ⟨observed⟩

end State

namespace Backoff

/-- `Backoff::start`. -/
def start (backoff : Backoff) : State :=
  { backoff.state with attempts := backoff.state.attempts.saturatingAdd 1 }

def finish (backoff : Backoff) (failure : Failure) : Failure := backoff.state.finish failure

end Backoff

/-! ## The loops -/

/-- How a response is answered once its request is dispatched. -/
inductive Answer where
  | failed (failure : Failure)
  | headElapsed (elapsed : Elapsed)
  | bodyElapsed (elapsed : Elapsed)
  | delivered

/-- How an attempt ends. -/
inductive Attempt where
  | elapsed (elapsed : Elapsed)
  | rejected (cause : Error)
  | answered (answer : Answer)

/-- How an attempt of a streamed call ends. -/
inductive Dispatch where
  | elapsed (elapsed : Elapsed)
  | rejected (cause : Error)
  | opened

/-- What a loop makes of an attempt: it is done, it fails for good, or it may be retried. -/
inductive Verdict where
  | done
  | final (failure : Failure)
  | retry (failure : Failure)

def Attempt.verdict : Attempt → Verdict
  | .elapsed bound => .final (.new (.timeout .dispatch bound) .beforeSubmit)
  | .rejected cause => .retry (.new cause .beforeSubmit)
  | .answered (.failed failure) => .retry failure
  | .answered (.headElapsed bound) => .retry (.new (.timeout .head bound) .possiblyCommitted)
  | .answered (.bodyElapsed bound) => .final (.new (.timeout .body bound) .possiblyCommitted)
  | .answered .delivered => .done

def Dispatch.verdict : Dispatch → Verdict
  | .elapsed bound => .final (.new (.timeout .dispatch bound) .beforeSubmit)
  | .rejected cause => .retry (.new cause .beforeSubmit)
  | .opened => .done

/-- How a loop stands: its next attempt has begun, or it has ended. -/
inductive Ending where
  | begun
  | delivered (attempt : Count)
  | failed (failure : Failure)

/-- The failure of a backoff whose sleep did not end in time. -/
def Backoff.expired (backoff : Backoff) (elapsed : Elapsed) : Failure :=
  backoff.finish (.new (.timeout .backoff elapsed) .beforeSubmit)

/-- The loop of `Retry::response`, over how each attempt ends and how its backoff does. The result
has the failures of the attempts, in order. -/
def response (state : State) : List (Attempt × Option Elapsed) → List Failure × Ending
  | [] => ([], .begun)
  | (attempt, sleep) :: rest =>
    match attempt.verdict with
    | .done => ([], .delivered state.attempts)
    | .final failure => ([failure], .failed (state.finish failure))
    | .retry failure =>
      match state.retryAfter (state.finish failure) with
      | .error _ => ([failure], .failed (state.finish failure))
      | .ok backoff =>
        match sleep with
        | some elapsed => ([failure], .failed (backoff.expired elapsed))
        | none =>
          let next := response backoff.start rest
          (failure :: next.1, next.2)

/-- The loop of `Retry::stream`. -/
def stream (state : State) : List (Dispatch × Option Elapsed) → List Failure × Ending
  | [] => ([], .begun)
  | (attempt, sleep) :: rest =>
    match attempt.verdict with
    | .done => ([], .delivered state.attempts)
    | .final failure => ([failure], .failed (state.finish failure))
    | .retry failure =>
      match state.retryAfter failure with
      | .error state => ([failure], .failed (state.finish failure))
      | .ok backoff =>
        match sleep with
        | some elapsed => ([failure], .failed (backoff.expired elapsed))
        | none =>
          let next := stream backoff.start rest
          (failure :: next.1, next.2)

/-! ## Redirects -/

inductive Rewrite where
  | preserve
  | get
  deriving DecidableEq, Repr

/-- `Rewrite::select`. -/
def Rewrite.select (status : ℕ) (method : Method) : Option Rewrite :=
  if (status = 301 ∨ status = 302) ∧ method = .post then some .get
  else if status = 301 ∨ status = 302 then some .preserve
  else if status = 303 ∧ method = .head then some .preserve
  else if status = 303 then some .get
  else if status = 307 ∨ status = 308 then some .preserve
  else none

/-- `redirect::Machine`, with its method and whether a request came before. -/
structure Machine where
  method : Method
  hasPrior : Bool

namespace Machine

def safety (machine : Machine) : Safety :=
  if machine.hasPrior then .possiblyCommitted else .beforeSubmit

/-- `Machine::response`: whether the location can be followed is for the environment to say. -/
def response (machine : Machine) (status : ℕ) (follows : Except Error Unit) :
    Except Failure (Option Machine) :=
  match Rewrite.select status machine.method with
  | none => .ok none
  | some rewrite =>
    match follows with
    | .error cause => .error (.new cause .possiblyCommitted)
    | .ok () =>
      .ok (some
        { method :=
            match rewrite with
            | .preserve => machine.method
            | .get => .get
          hasPrior := true })

end Machine

/-- A hop of a call: its request, the failures of its attempts and how it stands. -/
structure Hop where
  method : Method
  prior : Safety
  failures : List Failure
  ending : Ending

/-- The hop of a request. -/
def hop (policy : Policy) (request : Machine) (attempts : List (Attempt × Option Elapsed)) : Hop :=
  let ran := response ((State.new policy request.method).withPrior request.safety) attempts
  ⟨request.method, request.safety, ran.1, ran.2⟩

/-- The loop of `Call::collected` up to the response that it returns: each hop with the status of
its response and what becomes of its location. -/
def call (policy : Policy) (request : Machine) :
    List (List (Attempt × Option Elapsed) × ℕ × Except Error Unit) → List Hop × Option Failure
  | [] => ([], none)
  | (attempts, status, follows) :: rest =>
    let current := hop policy request attempts
    match current.ending with
    | .begun => ([current], none)
    | .failed failure => ([current], some failure)
    | .delivered attempt =>
      match request.response status follows with
      | .error failure => ([current], some (failure.attempted attempt))
      | .ok none => ([current], none)
      | .ok (some next) =>
        let hops := call policy next rest
        (current :: hops.1, hops.2)

end Sark.Client
