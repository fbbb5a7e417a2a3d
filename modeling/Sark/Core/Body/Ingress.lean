import Sark.Core.Body.Credit

/-!
# Request body input

The admitted length of a request body and the credit it holds (`core/src/body/admit`,
`core/src/body/ingress.rs`). A track knows the bound of its length; the length never passes it.
-/

namespace Sark.Body

/-- `admit::Kind`: the bound is the declared length, or a limit. -/
inductive Kind where
  | exact
  | limit
  deriving DecidableEq, Repr

/-- `admit::Retention`: whether framing must retain request payload bytes. -/
inductive Retention where
  | retained
  | discarded
  deriving DecidableEq, Repr

/-- `admit::Stream`: whether a builder may consume body segments before the input ends. -/
inductive Streaming where
  | streaming
  | buffered
  deriving DecidableEq, Repr

/-- `stream::Boundary`. -/
inductive Boundary where
  | more
  | «end»
  deriving DecidableEq, Repr

/-- `body::Error`. -/
inductive Error where
  | tooLarge (actual limit : ℕ)
  | lengthMismatch (actual declared : ℕ)
  | overflow (current added : ℕ)
  | inputIncomplete
  | inputFinished
  | segmentMismatch
  | credit (error : CreditError)
  deriving DecidableEq, Repr

/-- The error says that a limit, an overflow or an underflow stopped the operation. A length that
passes the declared one is stopped by a limit, too. -/
def Error.isBound : Error → Bool
  | .tooLarge _ _ | .overflow _ _ | .credit _ => true
  | .lengthMismatch actual declared => declared < actual
  | .inputIncomplete | .inputFinished | .segmentMismatch => false

/-! ## The admitted length -/

/-- `admit::Open`: input may still advance the admitted logical length. -/
structure Open where

/-- `admit::Finished`: input ended and its logical length satisfies the admitted bound. -/
structure Finished where

/-- `admit::Track`: the phase of the input and the length it has reached within its bound. -/
structure Track (φ : Type*) where
  kind : Kind
  bound : ℕ
  retention : Retention
  stream : Streaming
  phase : φ
  len : ℕ
  fits : len ≤ bound

namespace Track

variable {φ ψ : Type*}

/-- `Bound::map`. -/
def map (self : Track φ) (f : φ → ψ) : Track ψ := { self with phase := f self.phase }

/-- `Track::try_check`. -/
def tryCheck (self : Track φ) : Except Error Unit :=
  if self.kind = .exact ∧ self.len ≠ self.bound then
    .error (.lengthMismatch self.len self.bound)
  else .ok ()

/-- `Track::try_next`: the length after more input. -/
def tryNext (machine : Machine) (self : Track φ) (added : ℕ) :
    Except Error { next : ℕ // next ≤ self.bound } :=
  if machine.usizeMax < self.len + added then .error (.overflow self.len added)
  else if h : self.len + added ≤ self.bound then .ok ⟨self.len + added, h⟩
  else
    .error (match self.kind with
      | .exact => .lengthMismatch (self.len + added) self.bound
      | .limit => .tooLarge (self.len + added) self.bound)

/-- `Advance::commit`. -/
def advance (self : Track φ) (next : { next : ℕ // next ≤ self.bound }) : Track φ :=
  { self with len := next.val, fits := next.property }

/-- `Track::try_advance`. -/
def tryAdvance (machine : Machine) (self : Track Boundary) (added : ℕ) :
    Except Error { next : ℕ // next ≤ self.bound } :=
  match self.phase with
  | .end => .error .inputFinished
  | .more => self.tryNext machine added

/-- `Track::try_end`. -/
def tryEnd (self : Track Boundary) : Except Error (Track Boundary) :=
  match self.phase with
  | .end => .error .inputFinished
  | .more =>
    match self.tryCheck with
    | .error error => .error error
    | .ok () => .ok { self with phase := .end }

/-- `Track::try_complete` of open input. -/
def tryCompleteOpen (self : Track Open) : Except Error (Track Finished) :=
  match self.tryCheck with
  | .error error => .error error
  | .ok () => .ok (self.map fun _ => ⟨⟩)

/-- `Track::try_complete`. -/
def tryComplete (self : Track Boundary) : Except Error (Track Finished) :=
  match self.phase with
  | .end => .ok (self.map fun _ => ⟨⟩)
  | .more =>
    match self.tryCheck with
    | .error error => .error error
    | .ok () => .ok (self.map fun _ => ⟨⟩)

theorem isBound_of_tryCheck {self : Track φ} {error : Error} (h : self.tryCheck = .error error) :
    error.isBound = false := by
  rw [tryCheck] at h
  split_ifs at h
  rw [← Except.error.inj h]
  simpa [Error.isBound] using self.fits

theorem isBound_of_tryEnd {self : Track Boundary} {error : Error} (h : self.tryEnd = .error error) :
    error.isBound = false := by
  rw [tryEnd] at h
  split at h
  · rw [← Except.error.inj h]
    rfl
  · split at h
    · rename_i hcheck
      rw [← Except.error.inj h]
      exact isBound_of_tryCheck hcheck
    · contradiction

end Track

/-! ## Plans -/

/-- `admit::Start`: initial payload state after all head-known bounds were checked. -/
inductive Start where
  | «open» (track : Track Open)
  | finished (track : Track Finished)

/-- `Track::into_flow` of either track. -/
def Start.intoFlow : Start → Track Boundary
  | .open track => track.map fun _ => .more
  | .finished track => track.map fun _ => .end

/-- `admit::Plan`: route-selected payload policy before carrier bounds are applied. -/
inductive Plan where
  | known (max length : ℕ) (retention : Retention) (stream : Streaming)
  | unknown (max : ℕ) (retention : Retention) (stream : Streaming)
  deriving DecidableEq, Repr

namespace Plan

/-- `Plan::try_open`. -/
def tryOpen (self : Plan) (limit : ℕ) : Except Error (Track Open) :=
  match self with
  | .known max length retention stream =>
    if min limit max < length then .error (.tooLarge length (min limit max))
    else .ok ⟨.exact, length, retention, stream, ⟨⟩, 0, Nat.zero_le _⟩
  | .unknown max retention stream =>
    .ok ⟨.limit, min limit max, retention, stream, ⟨⟩, 0, Nat.zero_le _⟩

/-- `Plan::try_start`: the input ends with the head, or stays open. -/
def tryStart (self : Plan) (limit : ℕ) (boundary : Boundary) : Except Error Start :=
  match self.tryOpen limit with
  | .error error => .error error
  | .ok track =>
    match boundary with
    | .end => track.tryCompleteOpen.map .finished
    | .more => .ok (.open track)

end Plan

/-! ## The state of a body -/

/-- `ingress::State`: the track of the input and the credit the body holds. -/
structure Ingress where
  track : Track Boundary
  credit : Amount

/-- `ingress::Turn`: a body and the ledger of its connection. -/
structure Turn where
  state : Ingress
  ledger : Amount

namespace Ingress

/-- `State::new`. -/
def new (start : Start) : Ingress := ⟨start.intoFlow, .zero⟩

/-- `State::is_finished`. -/
def isFinished (self : Ingress) : Bool := self.track.phase = .end

/-- `State::try_end`: the length of the ended input. -/
def tryEnd (self : Ingress) : Except Error (ℕ × Ingress) :=
  match self.track.tryEnd with
  | .error error => .error error
  | .ok track => .ok (track.len, { self with track })

/-- `State::try_exact`: accounts for discarded input by its final length. -/
def tryExact (machine : Machine) (self : Ingress) (len : ℕ) : Except Error Ingress :=
  match self.track.retention with
  | .discarded =>
    if len < self.track.len then .error .segmentMismatch
    else
      match self.track.tryAdvance machine (len - self.track.len) with
      | .error error => .error error
      | .ok next => .ok { self with track := self.track.advance next }
  | .retained => if len ≠ self.track.len then .error .segmentMismatch else .ok self

theorem credit_of_tryEnd {self after : Ingress} {len : ℕ} (h : self.tryEnd = .ok (len, after)) :
    after.credit = self.credit := by
  rw [tryEnd] at h
  split at h
  · contradiction
  · rw [← (Prod.mk.inj (Except.ok.inj h)).2]

theorem isBound_of_tryEnd {self : Ingress} {error : Error} (h : self.tryEnd = .error error) :
    error.isBound = false := by
  rw [tryEnd] at h
  split at h
  · rename_i hend
    rw [← Except.error.inj h]
    exact Track.isBound_of_tryEnd hend
  · contradiction

theorem credit_of_tryExact {machine : Machine} {self after : Ingress} {len : ℕ}
    (h : self.tryExact machine len = .ok after) : after.credit = self.credit := by
  rw [tryExact] at h
  split at h
  · split_ifs at h
    split at h
    · contradiction
    · rw [← Except.ok.inj h]
  · split_ifs at h
    rw [← Except.ok.inj h]

end Ingress

namespace Turn

/-- `Change::commit`. -/
def commit (self : Turn) (change : Change) : Turn where
  state := { self.state with credit := change.request }
  ledger := change.connection

/-- `Turn::try_release`. -/
def tryRelease (self : Turn) (amount : Amount) : Except CreditError Turn :=
  (self.ledger.tryRelease self.state.credit amount).map self.commit

/-- `Turn::try_drain`. -/
def tryDrain (self : Turn) : Except CreditError Turn :=
  (self.ledger.tryDrain self.state.credit).map self.commit

theorem tryRelease_eq_ok {self after : Turn} {amount : Amount}
    (h : self.tryRelease amount = .ok after) (limits : Option (Limits × Limits)) :
    Moves limits self.state.credit self.ledger after.state.credit after.ledger := by
  rw [tryRelease] at h
  cases hchange : self.ledger.tryRelease self.state.credit amount with
  | error error => simp [hchange, Except.map] at h
  | ok change =>
    rw [hchange] at h
    rw [← Except.ok.inj h]
    exact Amount.tryRelease_eq_ok hchange limits

theorem tryDrain_eq_ok {self after : Turn} (h : self.tryDrain = .ok after)
    (limits : Option (Limits × Limits)) :
    after.state.credit = .zero ∧
      Moves limits self.state.credit self.ledger .zero after.ledger := by
  rw [tryDrain] at h
  cases hchange : self.ledger.tryDrain self.state.credit with
  | error error => simp [hchange, Except.map] at h
  | ok change =>
    rw [hchange] at h
    rw [← Except.ok.inj h]
    exact Amount.tryDrain_eq_ok hchange limits

end Turn

end Sark.Body
