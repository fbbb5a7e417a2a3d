import Sark.Core.Body.Ledger

/-!
# Refused body input

What a call that feeds or ends the input of a body leaves of its accounting when it is refused, with
the input or the body handed back: the logical length, the boundary of the input, and the credit of
the body and of its connection (`core/src/body/stream.rs`, `core/src/body/buffered/receive.rs`,
`core/src/body/ingress.rs`).

* `Act.refusal_kept`: what each refusal leaves.
* `Act.run_settled`: a finished input keeps to its bound, whatever is done with the body.
* `Connection.run_keepsInput`: both, for every body that a run reaches.
-/

set_option linter.unusedSectionVars false

namespace Sark.Body

variable {B Out E R Seg S Src D Q : Type*} [Segment Seg]

/-! ## Finished input -/

namespace Track

variable {φ : Type*}

/-- The length may be that of a whole body: the declared one, or one within the limit. -/
def Complete (self : Track φ) : Prop :=
  match self.kind with
  | .exact => self.len = self.bound
  | .limit => self.len ≤ self.bound

/-- Input that is finished is complete. -/
def Settled (self : Track Boundary) : Prop := self.phase = .end → self.Complete

theorem tryCheck_eq_ok_iff {self : Track φ} : self.tryCheck = .ok () ↔ self.Complete := by
  have hfits := self.fits
  rw [tryCheck, Complete]
  cases self.kind with
  | exact => by_cases h : self.len = self.bound <;> simp [h]
  | limit => simp [hfits]

theorem tryEnd_isOk_iff {self : Track Boundary} (h : self.phase = .more) :
    (∃ ended, self.tryEnd = .ok ended) ↔ self.Complete := by
  rw [← tryCheck_eq_ok_iff, tryEnd, h]
  dsimp only
  cases self.tryCheck with
  | error error => simp
  | ok => simp

theorem tryEnd_settled {self ended : Track Boundary} (h : self.tryEnd = .ok ended) :
    ended.Settled := by
  rw [tryEnd] at h
  split at h
  · contradiction
  · split at h
    · contradiction
    · next hcheck =>
      rw [← Except.ok.inj h]
      exact fun _ => tryCheck_eq_ok_iff.mp hcheck

theorem phase_of_tryAdvance {machine : Machine} {self : Track Boundary} {added : ℕ}
    {next : { next : ℕ // next ≤ self.bound }} (h : self.tryAdvance machine added = .ok next) :
    self.phase = .more := by
  rw [tryAdvance] at h
  split at h
  · contradiction
  · assumption

theorem advance_settled {machine : Machine} {self : Track Boundary} {added : ℕ}
    {next : { next : ℕ // next ≤ self.bound }} (h : self.tryAdvance machine added = .ok next) :
    (self.advance next).Settled := by
  intro hend
  exact absurd ((phase_of_tryAdvance h).symm.trans hend) (by simp)

theorem tryComplete_isOk_iff {self : Track Boundary} (hsettled : self.Settled) :
    (∃ done, self.tryComplete = .ok done) ↔ self.Complete := by
  rw [tryComplete]
  split
  · next hend => simp [hsettled hend]
  · rw [← tryCheck_eq_ok_iff]
    cases self.tryCheck with
    | error error => simp
    | ok => simp

end Track

namespace Plan

/-- `Plan::try_admit`: admits a payload that is complete. -/
def tryAdmit (machine : Machine) (self : Plan) (limit len : ℕ) : Except Error (Track Finished) :=
  match self.tryOpen limit with
  | .error error => .error error
  | .ok track =>
    match track.tryNext machine len with
    | .error error => .error error
    | .ok next => (track.advance next).tryCompleteOpen

theorem settled_of_tryCompleteOpen {track : Track Open} {done : Track Finished}
    (h : track.tryCompleteOpen = .ok done) : (Start.finished done).intoFlow.Settled := by
  rw [Track.tryCompleteOpen] at h
  split at h
  · contradiction
  · next hcheck =>
    rw [← Except.ok.inj h]
    exact fun _ => (Track.tryCheck_eq_ok_iff.mp hcheck :)

theorem settled_of_tryStart {plan : Plan} {limit : ℕ} {boundary : Boundary} {start : Start}
    (h : plan.tryStart limit boundary = .ok start) : start.intoFlow.Settled := by
  rw [tryStart] at h
  split at h
  · contradiction
  cases boundary with
  | more =>
    rw [← Except.ok.inj h]
    exact fun hend => absurd hend (by simp [Start.intoFlow, Track.map])
  | «end» =>
    obtain ⟨done, hdone, rfl⟩ := Except.map_eq_ok_iff.mp h
    exact settled_of_tryCompleteOpen hdone

theorem settled_of_tryAdmit {machine : Machine} {plan : Plan} {limit len : ℕ}
    {done : Track Finished} (h : plan.tryAdmit machine limit len = .ok done) :
    (Start.finished done).intoFlow.Settled := by
  rw [tryAdmit] at h
  split at h
  · contradiction
  split at h
  · contradiction
  exact settled_of_tryCompleteOpen h

end Plan

/-- The input of an owner that still has it. -/
def Owner.input : Owner B Out S Src → Option Ingress
  | .stream body => some body.state
  | .ready body => some body.state
  | .buffered body => some body.state
  | .rejected (.admission body _) => some body.state
  | .rejected _ => none
  | .release _ => none

/-- The input of an owner keeps to its bound once it is finished. -/
def Owner.Settled (owner : Owner B Out S Src) : Prop :=
  ∀ state, owner.input = some state → state.track.Settled

/-- What an operation leaves is settled. -/
def SettledAll (result : Option (Owner B Out S Src) × Outcome) : Prop :=
  ∀ owner, result.1 = some owner → owner.Settled

theorem settledAll_of_input {owner : Owner B Out S Src} {outcome : Outcome} {state : Ingress}
    (hinput : owner.input = some state) (hsettled : state.track.Settled) :
    SettledAll (some owner, outcome) := by
  rintro _ ⟨⟩ _ h
  rw [← Option.some.inj (hinput.symm.trans h)]
  exact hsettled

theorem Ingress.tryEnd_settled {self after : Ingress} {len : ℕ}
    (h : self.tryEnd = .ok (len, after)) : after.track.Settled := by
  rw [tryEnd] at h
  split at h
  · contradiction
  · next hend =>
    rw [← (Prod.mk.inj (Except.ok.inj h)).2]
    exact Track.tryEnd_settled hend

theorem Ingress.tryExact_settled {machine : Machine} {self after : Ingress} {len : ℕ}
    (hsettled : self.track.Settled) (h : self.tryExact machine len = .ok after) :
    after.track.Settled := by
  rw [tryExact] at h
  split at h
  · split_ifs at h
    split at h
    · contradiction
    · next hnext =>
      rw [← Except.ok.inj h]
      exact Track.advance_settled hnext
  · split_ifs at h
    rwa [← Except.ok.inj h]

theorem Flow.tryEndWith_settled {builder : Builder B Out E R Seg} {flow : Flow B Out}
    {state : Ingress} {finish : Except Error (ℕ × Ingress)} (hsettled : state.track.Settled)
    (hfinish : ∀ len after, finish = .ok (len, after) → after.track.Settled) :
    (flow.tryEndWith builder state finish).2.track.Settled := by
  cases flow with
  | ready output => exact hsettled
  | building build =>
    simp only [tryEndWith]
    rcases finish with error | ⟨len, after⟩
    · exact hsettled
    · exact hfinish len after rfl

theorem Flow.tryFinish_settled (builder : Builder B Out E R Seg) (flow : Flow B Out)
    {state : Ingress} (hsettled : state.track.Settled) :
    (flow.tryFinish builder state).2.track.Settled :=
  Flow.tryEndWith_settled hsettled fun _ _ => Ingress.tryEnd_settled

theorem Flow.tryPush_settled (machine : Machine) (builder : Builder B Out E R Seg)
    (flow : Flow B Out) {turn : Turn} (hsettled : turn.state.track.Settled) (parts : Parts Seg)
    (bytes chunks : ℕ) (requestMax connectionMax : Limits) :
    (flow.tryPush machine builder turn parts bytes chunks requestMax
      connectionMax).2.state.track.Settled := by
  cases flow with
  | ready output => exact hsettled
  | building build =>
    rw [Flow.tryPush]
    cases hnext : turn.state.track.tryAdvance machine bytes with
    | error error => exact hsettled
    | ok next =>
      dsimp only
      cases turn.ledger.tryCommit machine turn.state.credit ⟨bytes, chunks⟩ requestMax
          connectionMax with
      | error error => exact hsettled
      | ok change =>
        dsimp only
        cases tryParts machine builder true build parts bytes chunks with
        | accepted flow => exact Track.advance_settled hnext
        | failed flow error => exact hsettled
        | rejected flow error => exact hsettled

theorem Stream.tryFinish_settled (builder : Builder B Out E R Seg) (body : Stream B Out)
    (hsettled : body.state.track.Settled) :
    SettledAll (ofTransfer .stream (body.tryFinish builder) :
      Option (Owner B Out S Src) × Outcome) := by
  have hfinish := Flow.tryFinish_settled builder body.flow hsettled
  rw [Stream.tryFinish]
  generalize body.flow.tryFinish builder body.state = finished at hfinish
  obtain ⟨flow | ⟨flow, error⟩, state⟩ := finished <;> exact settledAll_of_input rfl hfinish

theorem Stream.tryPush_settled (setup : Setup B Out E R Seg S Src) (body : Stream B Out)
    (hsettled : body.state.track.Settled) (ledger : Amount) (data : D) (bytes chunks : ℕ)
    (boundary : Boundary) (requestMax connectionMax : Limits) (parts : D → Parts Seg) :
    SettledAll (ofPush (body.tryPush setup.machine setup.builder ledger data bytes chunks boundary
      requestMax connectionMax parts).1 : Option (Owner B Out S Src) × Outcome) := by
  rw [Stream.tryPush]
  cases body.state.track.retention with
  | discarded =>
    dsimp only
    cases hnext : body.state.track.tryAdvance setup.machine bytes with
    | error error => exact settledAll_of_input rfl hsettled
    | ok next =>
      have hadvanced := Track.advance_settled hnext
      cases boundary with
      | more => exact settledAll_of_input rfl hadvanced
      | «end» =>
        have hfinish := @Flow.tryFinish_settled _ _ _ _ _ _ setup.builder body.flow
          ⟨body.state.track.advance next, body.state.credit⟩ hadvanced
        dsimp only
        generalize body.flow.tryFinish setup.builder _ = finished at hfinish
        obtain ⟨flow | ⟨flow, error⟩, state⟩ := finished <;>
          exact settledAll_of_input rfl hfinish
  | retained =>
    have hpush := @Flow.tryPush_settled _ _ _ _ _ _ setup.machine setup.builder body.flow
      ⟨body.state, ledger⟩ hsettled (parts data) bytes chunks requestMax connectionMax
    dsimp only
    rcases hresult : body.flow.tryPush setup.machine setup.builder ⟨body.state, ledger⟩
      (parts data) bytes chunks requestMax connectionMax
      with ⟨flow | ⟨flow, error⟩ | ⟨flow, error⟩, turn⟩
    all_goals rw [hresult] at hpush
    · cases boundary with
      | more => exact settledAll_of_input rfl hpush
      | «end» =>
        have hfinish := Flow.tryFinish_settled setup.builder flow hpush
        dsimp only at hfinish ⊢
        generalize flow.tryFinish setup.builder turn.state = finished at hfinish
        obtain ⟨flow | ⟨flow, error⟩, state⟩ := finished <;>
          exact settledAll_of_input rfl hfinish
    · exact settledAll_of_input rfl hpush
    · exact settledAll_of_input rfl hpush

theorem Stream.tryDiscard_settled (setup : Setup B Out E R Seg S Src) (body : Stream B Out)
    (hsettled : body.state.track.Settled) (bytes : ℕ) (boundary : Boundary) :
    SettledAll (ofTransfer .stream (body.tryDiscard setup.machine setup.builder bytes boundary) :
      Option (Owner B Out S Src) × Outcome) := by
  rw [Stream.tryDiscard]
  split_ifs
  · exact settledAll_of_input rfl hsettled
  cases hnext : body.state.track.tryAdvance setup.machine bytes with
  | error error => exact settledAll_of_input rfl hsettled
  | ok next =>
    have hadvanced := Track.advance_settled hnext
    cases boundary with
    | more => exact settledAll_of_input rfl hadvanced
    | «end» =>
      exact Stream.tryFinish_settled setup.builder
        ⟨⟨body.state.track.advance next, body.state.credit⟩, body.flow⟩ hadvanced

theorem Stream.tryExact_settled (setup : Setup B Out E R Seg S Src) (body : Stream B Out)
    (hsettled : body.state.track.Settled) (len : ℕ) :
    SettledAll (ofTransfer .stream (body.tryExact setup.machine setup.builder len) :
      Option (Owner B Out S Src) × Outcome) := by
  rw [Stream.tryExact, Flow.tryExact]
  cases hexact : body.state.tryExact setup.machine len with
  | error error => exact settledAll_of_input rfl hsettled
  | ok state =>
    exact Stream.tryFinish_settled setup.builder ⟨state, body.flow⟩
      (Ingress.tryExact_settled hsettled hexact)

theorem Buffered.tryExact_settled (machine : Machine) (body : Buffered S)
    (hsettled : body.state.track.Settled) (len : ℕ) :
    SettledAll (ofTransfer .buffered (body.tryExact machine len) :
      Option (Owner B Out S Src) × Outcome) := by
  rw [Buffered.tryExact]
  cases hexact : body.state.tryExact machine len with
  | error error => exact settledAll_of_input rfl hsettled
  | ok state =>
    dsimp only
    rcases hend : state.tryEnd with error | ⟨len, after⟩
    · exact settledAll_of_input rfl (Ingress.tryExact_settled hsettled hexact)
    · exact settledAll_of_input rfl (Ingress.tryEnd_settled hend)

theorem Buffered.tryPush_settled (machine : Machine) (body : Buffered S)
    (hsettled : body.state.track.Settled) (ledger : Amount) (data : D) (bytes chunks : ℕ)
    (requestMax connectionMax : Limits) (retain : Option S → D → Retain S Q) :
    (body.tryPush machine ledger data bytes chunks requestMax connectionMax
      retain).2.1.state.track.Settled := by
  rw [Buffered.tryPush]
  cases hnext : body.state.track.tryAdvance machine bytes with
  | error error => exact hsettled
  | ok next =>
    cases body.state.track.retention with
    | discarded => exact Track.advance_settled hnext
    | retained =>
      dsimp only
      cases ledger.tryCommit machine body.state.credit ⟨bytes, chunks⟩ requestMax
          connectionMax with
      | error error => exact hsettled
      | ok change =>
        dsimp only
        cases retain body.storage data with
        | accepted storage => exact Track.advance_settled hnext
        | rejected storage error => exact hsettled

theorem Turn.track_tryRelease {self after : Turn} {amount : Amount}
    (h : self.tryRelease amount = .ok after) : after.state.track = self.state.track := by
  obtain ⟨change, -, rfl⟩ := Except.map_eq_ok_iff.mp h
  rfl

theorem Ready.tryNew_settled {state : Ingress} (hsettled : state.track.Settled) (output : Out) :
    SettledAll (ofDrive (Ready.tryNew state output : Drive B Out E) :
      Option (Owner B Out S Src) × Outcome) := by
  rw [Ready.tryNew]
  split
  · exact settledAll_of_input rfl hsettled
  · exact settledAll_of_input rfl hsettled

theorem Stream.tryDrive_settled (setup : Setup B Out E R Seg S Src) (body : Stream B Out)
    (hsettled : body.state.track.Settled) (ledger : Amount) (budget : ℕ) :
    SettledAll (ofDrive (body.tryDrive setup.builder ledger budget).1 :
      Option (Owner B Out S Src) × Outcome) := by
  have hreleased {amount : Amount} {turn : Turn}
      (h : (Turn.mk body.state ledger).tryRelease amount = .ok turn) :
      turn.state.track.Settled := by
    rw [Turn.track_tryRelease h]
    exact hsettled
  rw [Stream.tryDrive]
  cases body.flow with
  | ready output => exact Ready.tryNew_settled hsettled output
  | building build =>
    dsimp only
    cases setup.builder.step build budget with
    | needInput build released =>
      dsimp only
      cases hrelease : (Turn.mk body.state ledger).tryRelease released with
      | error error => exact settledAll_of_input rfl hsettled
      | ok turn =>
        dsimp only
        split
        · exact settledAll_of_input rfl (hreleased hrelease)
        · exact settledAll_of_input rfl (hreleased hrelease)
    | pending build released =>
      dsimp only
      cases hrelease : (Turn.mk body.state ledger).tryRelease released with
      | error error => exact settledAll_of_input rfl hsettled
      | ok turn => exact settledAll_of_input rfl (hreleased hrelease)
    | ready output released =>
      dsimp only
      cases hrelease : (Turn.mk body.state ledger).tryRelease released with
      | error error => exact settledAll_of_input rfl hsettled
      | ok turn => exact Ready.tryNew_settled (hreleased hrelease) output
    | failed build error released =>
      dsimp only
      cases hrelease : (Turn.mk body.state ledger).tryRelease released with
      | error error => exact settledAll_of_input rfl hsettled
      | ok turn => exact settledAll_of_input rfl (hreleased hrelease)

theorem Flow.tryComplete_settled (builder : Builder B Out E R Seg) (flow : Flow B Out)
    {state : Ingress} (hsettled : state.track.Settled) :
    (flow.tryComplete builder state).2.track.Settled := by
  refine Flow.tryEndWith_settled hsettled fun len after h => ?_
  split_ifs at h
  · rwa [← (Prod.mk.inj (Except.ok.inj h)).2]
  · exact Ingress.tryEnd_settled h

theorem Buffered.tryStream_settled (setup : Setup B Out E R Seg S Src) (body : Buffered S)
    (hsettled : body.state.track.Settled) (build : B) (boundary : Boundary)
    (parts : S → Parts Seg) :
    (body.tryStream setup.machine setup.builder build boundary parts).2.track.Settled := by
  cases boundary with
  | more => exact hsettled
  | «end» =>
    simp only [Buffered.tryStream]
    cases body.tryMove setup.machine setup.builder build parts with
    | failed flow error => exact hsettled
    | rejected flow error => exact hsettled
    | accepted flow =>
      have hcomplete := Flow.tryComplete_settled setup.builder flow hsettled
      dsimp only
      rcases hresult : flow.tryComplete setup.builder body.state with
        ⟨flow | ⟨flow, error⟩, state⟩
      all_goals rw [hresult] at hcomplete
      · exact hcomplete
      · exact hcomplete

theorem Buffered.tryFinish_settled (setup : Setup B Out E R Seg S Src) (body : Buffered S)
    (hsettled : body.state.track.Settled) (ledger : Amount) :
    SettledAll (ofFinish (body.tryFinish setup.store ledger).1 :
      Option (Owner B Out S Src) × Outcome) := by
  rw [Buffered.tryFinish]
  split
  · exact settledAll_of_input rfl hsettled
  · dsimp only
    split_ifs
    · split
      · rintro _ ⟨⟩ _ h
        simp [Owner.input] at h
      · rintro _ h
        simp [ofFinish] at h
    · rintro _ ⟨⟩ _ h
      simp [Owner.input] at h

theorem settledAll_release (body : Release) (outcome : Outcome) :
    SettledAll (some (.release body : Owner B Out S Src), outcome) := by
  rintro _ ⟨⟩ _ h
  simp [Owner.input] at h

/-- Whatever is done with a body, its input is finished only when it is complete. -/
theorem Act.run_settled {setup : Setup B Out E R Seg S Src} {ledger ledger' : Amount}
    {act : Act B Seg S D Q} {owner : Owner B Out S Src}
    {result : Option (Owner B Out S Src) × Outcome} (hsettled : owner.Settled)
    (h : act.run setup ledger owner = some (result, ledger')) : SettledAll result := by
  cases act with
  | push data bytes chunks boundary requestMax connectionMax parts =>
    cases owner with
    | stream body =>
      obtain ⟨rfl, rfl⟩ := Prod.mk.inj (Option.some.inj h)
      exact Stream.tryPush_settled setup body (hsettled _ rfl) _ _ _ _ _ _ _ _
    | _ => contradiction
  | retain data bytes chunks requestMax connectionMax keep =>
    cases owner with
    | buffered body =>
      obtain ⟨rfl, rfl⟩ := Prod.mk.inj (Option.some.inj h)
      exact settledAll_of_input rfl (Buffered.tryPush_settled _ body (hsettled _ rfl)
        _ _ _ _ _ _ _)
    | _ => contradiction
  | discardInput bytes boundary =>
    cases owner with
    | stream body =>
      obtain ⟨rfl, rfl⟩ := Prod.mk.inj (Option.some.inj h)
      exact Stream.tryDiscard_settled setup body (hsettled _ rfl) _ _
    | _ => contradiction
  | finish =>
    cases owner with
    | stream body =>
      obtain ⟨rfl, rfl⟩ := Prod.mk.inj (Option.some.inj h)
      exact Stream.tryFinish_settled _ body (hsettled _ rfl)
    | buffered body =>
      obtain ⟨rfl, rfl⟩ := Prod.mk.inj (Option.some.inj h)
      exact Buffered.tryFinish_settled setup body (hsettled _ rfl) _
    | _ => contradiction
  | exact len =>
    cases owner with
    | stream body =>
      obtain ⟨rfl, rfl⟩ := Prod.mk.inj (Option.some.inj h)
      exact Stream.tryExact_settled setup body (hsettled _ rfl) _
    | buffered body =>
      obtain ⟨rfl, rfl⟩ := Prod.mk.inj (Option.some.inj h)
      exact Buffered.tryExact_settled _ body (hsettled _ rfl) _
    | _ => contradiction
  | drive budget =>
    cases owner with
    | stream body =>
      obtain ⟨rfl, rfl⟩ := Prod.mk.inj (Option.some.inj h)
      exact Stream.tryDrive_settled setup body (hsettled _ rfl) _ _
    | _ => contradiction
  | transfer build boundary parts =>
    cases owner with
    | buffered body =>
      obtain ⟨rfl, rfl⟩ := Prod.mk.inj (Option.some.inj h)
      have hmoved := Buffered.tryStream_settled setup body (hsettled _ rfl) build boundary parts
      cases (body.tryStream setup.machine setup.builder build boundary parts).1 with
      | accepted flow => exact settledAll_of_input rfl hmoved
      | failed flow error => exact settledAll_of_input rfl hmoved
      | rejected flow error => exact settledAll_of_input rfl hmoved
    | _ => contradiction
  | tryAdmit =>
    cases owner with
    | ready body =>
      obtain ⟨rfl, rfl⟩ := Prod.mk.inj (Option.some.inj h)
      rw [Ready.tryAdmit]
      split
      · exact settledAll_of_input rfl (hsettled _ rfl)
      · rintro _ h
        simp [ofAdmission] at h
    | _ => contradiction
  | release =>
    cases owner with
    | rejected body =>
      simp only [Act.run, Rejected.tryRelease] at h
      cases hdrain : ledger.tryDrain body.held with
      | error error =>
        rw [hdrain] at h
        obtain ⟨rfl, rfl⟩ := Prod.mk.inj (Option.some.inj h)
        rintro _ ⟨⟩
        exact hsettled
      | ok change =>
        rw [hdrain] at h
        obtain ⟨rfl, rfl⟩ := Prod.mk.inj (Option.some.inj h)
        cases body with
        | admission body error => exact settledAll_of_input rfl (hsettled body.state rfl :)
        | _ =>
          rintro _ ⟨⟩ _ h
          simp [Owner.input, Rejected.withCredit] at h
    | _ =>
      obtain ⟨rfl, rfl⟩ := Prod.mk.inj (Option.some.inj h)
      exact settledAll_release _ _
  | discard =>
    simp only [Act.run, Option.map_eq_some_iff] at h
    obtain ⟨release, -, heq⟩ := h
    obtain ⟨rfl, rfl⟩ := Prod.mk.inj heq
    rw [Release.tryDiscard]
    split
    · exact settledAll_release _ _
    · rintro _ h
      simp [ofDiscard] at h

/-! ## Refusals -/

/-- The accounting of a body: the logical length and the boundary of its input, the credit that the
body holds and that of its connection. -/
@[ext]
structure Account where
  len : ℕ
  boundary : Boundary
  held : Amount
  ledger : Amount
  deriving DecidableEq, Repr

/-- The accounting of a body on a connection with this ledger. -/
def Ingress.account (self : Ingress) (ledger : Amount) : Account :=
  ⟨self.track.len, self.track.phase, self.credit, ledger⟩

/-- Both credits grow by an amount. -/
def Account.reserve (self : Account) (amount : Amount) : Account where
  len := self.len
  boundary := self.boundary
  held := ⟨self.held.bytes + amount.bytes, self.held.chunks + amount.chunks⟩
  ledger := ⟨self.ledger.bytes + amount.bytes, self.ledger.chunks + amount.chunks⟩

/-- An answer that hands the input or the body back, with the accounting that it leaves. -/
inductive Refusal where
  /-- The body, or what retains its input, refused the call. -/
  | input (after : Account)
  /-- The builder rejected a segment. -/
  | builder (after : Account)
  deriving DecidableEq, Repr

/-- The refusal of a transfer. -/
def refusalOf {T : Type*} (state : T → Ingress) (ledger : Amount) :
    Transfer T Error → Option Refusal
  | .accepted _ => none
  | .rejected build _ => some (.input ((state build).account ledger))

/-- What a call that pushes, discards or ends input answers when it hands the input or the body
back: `Push::Refused`, `Push::Rejected` and `Transfer::Rejected`. -/
def Act.refusal (setup : Setup B Out E R Seg S Src) (ledger : Amount) :
    Act B Seg S D Q → Owner B Out S Src → Option Refusal
  | .push data bytes chunks boundary requestMax connectionMax parts, .stream body =>
    match body.tryPush setup.machine setup.builder ledger data bytes chunks boundary requestMax
        connectionMax parts with
    | (.refused body _, ledger) => some (.input (body.state.account ledger))
    | (.rejected body _, ledger) => some (.builder (body.state.account ledger))
    | _ => none
  | .retain data bytes chunks requestMax connectionMax keep, .buffered body =>
    match body.tryPush setup.machine ledger data bytes chunks requestMax connectionMax keep with
    | (.body _, body, ledger) => some (.input (body.state.account ledger))
    | (.retain _, body, ledger) => some (.input (body.state.account ledger))
    | _ => none
  | .discardInput bytes boundary, .stream body =>
    refusalOf Stream.state ledger (body.tryDiscard setup.machine setup.builder bytes boundary)
  | .exact len, .stream body =>
    refusalOf Stream.state ledger (body.tryExact setup.machine setup.builder len)
  | .exact len, .buffered body =>
    refusalOf Buffered.state ledger (body.tryExact setup.machine len)
  | _, _ => none

/-- The amount that a push reserves for its input. -/
def Act.amount : Act B Seg S D Q → Amount
  | .push _ bytes chunks _ _ _ _ => ⟨bytes, chunks⟩
  | .retain _ bytes chunks _ _ _ => ⟨bytes, chunks⟩
  | _ => .zero

/-- A call that ends discarded input and whose bytes are counted before the end is checked. -/
def Act.Counts (machine : Machine) (state : Ingress) : Act B Seg S D Q → Prop
  | .push _ bytes _ .end _ _ _ =>
    state.track.retention = .discarded ∧ (state.track.tryAdvance machine bytes).isOk
  | .discardInput bytes .end =>
    state.track.retention = .discarded ∧ (state.track.tryAdvance machine bytes).isOk
  | .exact len => state.track.retention = .discarded ∧ (state.tryExact machine len).isOk
  | _ => False

/-- What a refusal leaves of the accounting. The length is left open where the call counted
discarded input before it failed to end it. -/
structure Account.Kept (before : Account) (counts : Prop) (after : Account) : Prop where
  boundary : after.boundary = before.boundary
  held : after.held = before.held
  ledger : after.ledger = before.ledger
  len : ¬ counts → after.len = before.len

theorem Account.Kept.rfl {before : Account} {counts : Prop} : before.Kept counts before :=
  ⟨Eq.refl _, Eq.refl _, Eq.refl _, fun _ => Eq.refl _⟩

theorem Ingress.kept_advance {self : Ingress} {next : { next : ℕ // next ≤ self.track.bound }}
    {counts : Prop} (hcounts : counts) (ledger : Amount) :
    (self.account ledger).Kept counts
      (Ingress.account ⟨self.track.advance next, self.credit⟩ ledger) :=
  ⟨rfl, rfl, rfl, fun h => absurd hcounts h⟩

theorem Flow.tryEndWith_rejected {builder : Builder B Out E R Seg} {flow flow' : Flow B Out}
    {state state' : Ingress} {finish : Except Error (ℕ × Ingress)} {error : Error}
    (h : flow.tryEndWith builder state finish = (.rejected flow' error, state')) :
    state' = state := by
  cases flow with
  | ready output => exact (Prod.mk.inj h).2.symm
  | building build =>
    rcases finish with failure | ⟨len, after⟩
    · exact (Prod.mk.inj h).2.symm
    · simp [tryEndWith] at h

theorem Amount.tryCommit_change {machine : Machine} {self request amount : Amount}
    {requestMax connectionMax : Limits} {change : Change}
    (h : self.tryCommit machine request amount requestMax connectionMax = .ok change) :
    change.request = ⟨request.bytes + amount.bytes, request.chunks + amount.chunks⟩ ∧
      change.connection = ⟨self.bytes + amount.bytes, self.chunks + amount.chunks⟩ := by
  simp only [tryCommit, Except.bind_eq_ok_iff] at h
  obtain ⟨next, hnext, total, htotal, next', hfit, total', hfit', hchange⟩ := h
  obtain ⟨rfl, -⟩ := tryFit_eq_ok hfit
  obtain ⟨rfl, -⟩ := tryFit_eq_ok hfit'
  rw [← Except.ok.inj hchange]
  exact ⟨tryAdd_eq_ok hnext, tryAdd_eq_ok htotal⟩

/-- A builder that rejects a segment keeps the credit that was reserved for the input, of which
nothing is counted. -/
theorem Flow.tryPush_rejected {machine : Machine} {builder : Builder B Out E R Seg}
    {flow flow' : Flow B Out} {turn turn' : Turn} {parts : Parts Seg} {bytes chunks : ℕ}
    {requestMax connectionMax : Limits} {error : R}
    (h : flow.tryPush machine builder turn parts bytes chunks requestMax connectionMax =
      (.rejected flow' error, turn')) :
    turn'.state.account turn'.ledger =
      (turn.state.account turn.ledger).reserve ⟨bytes, chunks⟩ := by
  cases flow with
  | ready output => simp [Flow.tryPush] at h
  | building build =>
    rw [Flow.tryPush] at h
    cases hnext : turn.state.track.tryAdvance machine bytes with
    | error error => simp [hnext] at h
    | ok next =>
      cases hcommit : turn.ledger.tryCommit machine turn.state.credit ⟨bytes, chunks⟩ requestMax
          connectionMax with
      | error error => simp [hnext, hcommit] at h
      | ok change =>
        simp only [hnext, hcommit] at h
        obtain ⟨hheld, hledger⟩ := Amount.tryCommit_change hcommit
        cases hparts : tryParts machine builder true build parts bytes chunks with
        | accepted flow => simp [hparts] at h
        | failed flow error => simp [hparts] at h
        | rejected flow error =>
          simp only [hparts, Prod.mk.injEq] at h
          rw [← h.2]
          exact Account.ext rfl rfl hheld hledger

/-- What a refused push of a stream leaves. -/
theorem Stream.tryPush_refused {setup : Setup B Out E R Seg S Src} {body after : Stream B Out}
    {ledger ledger' : Amount} {data : D} {bytes chunks : ℕ} {boundary : Boundary}
    {requestMax connectionMax : Limits} {parts : D → Parts Seg} {error : Error}
    (h : body.tryPush setup.machine setup.builder ledger data bytes chunks boundary requestMax
      connectionMax parts = (.refused after error, ledger')) :
    (body.state.account ledger).Kept
      ((.push data bytes chunks boundary requestMax connectionMax parts :
        Act B Seg S D Q).Counts setup.machine body.state) (after.state.account ledger') := by
  rw [Stream.tryPush] at h
  cases hmode : body.state.track.retention with
  | discarded =>
    simp only [hmode] at h
    cases hnext : body.state.track.tryAdvance setup.machine bytes with
    | error error =>
      simp only [hnext, Prod.mk.injEq, StreamPush.refused.injEq] at h
      rw [← h.1.1, ← h.2]
      exact .rfl
    | ok next =>
      cases boundary with
      | more => simp [hnext] at h
      | «end» =>
        simp only [hnext] at h
        rcases hresult : body.flow.tryFinish setup.builder
          ⟨body.state.track.advance next, body.state.credit⟩ with ⟨flow | ⟨flow, error⟩, state⟩
        · simp [hresult] at h
        · simp only [hresult, Prod.mk.injEq, StreamPush.refused.injEq] at h
          rw [← h.1.1, ← h.2, Flow.tryEndWith_rejected hresult]
          exact Ingress.kept_advance ⟨hmode, by rw [hnext]; rfl⟩ ledger
  | retained =>
    simp only [hmode] at h
    rcases hresult : body.flow.tryPush setup.machine setup.builder ⟨body.state, ledger⟩
      (parts data) bytes chunks requestMax connectionMax
      with ⟨flow | ⟨flow, error⟩ | ⟨flow, error⟩, turn⟩
    · cases boundary with
      | more => simp [hresult] at h
      | «end» =>
        simp only [hresult] at h
        split at h <;> simp at h
    · simp [hresult] at h
    · simp [hresult] at h

theorem Stream.tryPush_rejected {setup : Setup B Out E R Seg S Src} {body after : Stream B Out}
    {ledger ledger' : Amount} {data : D} {bytes chunks : ℕ} {boundary : Boundary}
    {requestMax connectionMax : Limits} {parts : D → Parts Seg} {error : R}
    (h : body.tryPush setup.machine setup.builder ledger data bytes chunks boundary requestMax
      connectionMax parts = (.rejected after error, ledger')) :
    after.state.account ledger' = (body.state.account ledger).reserve ⟨bytes, chunks⟩ := by
  rw [Stream.tryPush] at h
  cases hmode : body.state.track.retention with
  | discarded =>
    simp only [hmode] at h
    cases hnext : body.state.track.tryAdvance setup.machine bytes with
    | error error => simp [hnext] at h
    | ok next =>
      cases boundary with
      | more => simp [hnext] at h
      | «end» =>
        simp only [hnext] at h
        split at h <;> simp at h
  | retained =>
    simp only [hmode] at h
    rcases hresult : body.flow.tryPush setup.machine setup.builder ⟨body.state, ledger⟩
      (parts data) bytes chunks requestMax connectionMax
      with ⟨flow | ⟨flow, error⟩ | ⟨flow, error⟩, turn⟩
    · cases boundary with
      | more => simp [hresult] at h
      | «end» =>
        simp only [hresult] at h
        split at h <;> simp at h
    · simp [hresult] at h
    · simp only [hresult, Prod.mk.injEq, StreamPush.rejected.injEq] at h
      rw [← h.1.1, ← h.2]
      exact Flow.tryPush_rejected hresult

theorem Buffered.tryPush_refused {machine : Machine} {body after : Buffered S}
    {ledger ledger' : Amount} {data : D} {bytes chunks : ℕ} {requestMax connectionMax : Limits}
    {retain : Option S → D → Retain S Q} {answer : BufferedPush Q}
    (h : body.tryPush machine ledger data bytes chunks requestMax connectionMax retain =
      (answer, after, ledger')) (hanswer : answer ≠ .accepted ∧ answer ≠ .discarded) :
    after.state.account ledger' = body.state.account ledger := by
  rw [Buffered.tryPush] at h
  cases hnext : body.state.track.tryAdvance machine bytes with
  | error error =>
    simp only [hnext, Prod.mk.injEq] at h
    rw [← h.2.1, ← h.2.2]
  | ok next =>
    cases hmode : body.state.track.retention with
    | discarded =>
      simp only [hnext, hmode, Prod.mk.injEq] at h
      exact absurd h.1.symm hanswer.2
    | retained =>
      cases hcommit : ledger.tryCommit machine body.state.credit ⟨bytes, chunks⟩ requestMax
          connectionMax with
      | error error =>
        simp only [hnext, hmode, hcommit, Prod.mk.injEq] at h
        rw [← h.2.1, ← h.2.2]
      | ok change =>
        -- the storage may be another, the accounting is not
        cases hretain : retain body.storage data with
        | accepted storage =>
          simp only [hnext, hmode, hcommit, hretain, Prod.mk.injEq] at h
          exact absurd h.1.symm hanswer.1
        | rejected storage error =>
          simp only [hnext, hmode, hcommit, hretain, Prod.mk.injEq] at h
          rw [← h.2.1, ← h.2.2]

theorem Stream.tryDiscard_rejected {setup : Setup B Out E R Seg S Src} {body after : Stream B Out}
    {bytes : ℕ} {boundary : Boundary} {error : Error}
    (h : body.tryDiscard setup.machine setup.builder bytes boundary = .rejected after error)
    (ledger : Amount) :
    (body.state.account ledger).Kept
      ((.discardInput bytes boundary : Act B Seg S D Q).Counts setup.machine body.state)
      (after.state.account ledger) := by
  rw [Stream.tryDiscard] at h
  split_ifs at h with hmode
  · rw [← (Transfer.rejected.inj h).1]
    exact .rfl
  cases hnext : body.state.track.tryAdvance setup.machine bytes with
  | error error =>
    simp only [hnext, Transfer.rejected.injEq] at h
    rw [← h.1]
    exact .rfl
  | ok next =>
    cases boundary with
    | more => simp [hnext] at h
    | «end» =>
      simp only [hnext] at h
      rcases hresult : body.flow.tryFinish setup.builder
        ⟨body.state.track.advance next, body.state.credit⟩ with ⟨flow | ⟨flow, error⟩, state⟩
      · simp [hresult] at h
      · simp only [hresult, Transfer.rejected.injEq] at h
        rw [← h.1, Flow.tryEndWith_rejected hresult]
        exact Ingress.kept_advance ⟨not_not.mp hmode, by rw [hnext]; rfl⟩ ledger

theorem Ingress.kept_tryExact {machine : Machine} {self after : Ingress} {len : ℕ}
    (h : self.tryExact machine len = .ok after) (ledger : Amount) :
    (self.account ledger).Kept
      ((.exact len : Act B Seg S D Q).Counts machine self) (after.account ledger) := by
  have hok : (self.tryExact machine len).isOk := by rw [h]; rfl
  rw [tryExact] at h
  split at h
  · next hmode =>
    split_ifs at h
    split at h
    · contradiction
    · rw [← Except.ok.inj h]
      exact Ingress.kept_advance ⟨hmode, hok⟩ ledger
  · split_ifs at h
    rw [← Except.ok.inj h]
    exact .rfl

theorem Stream.tryExact_rejected {setup : Setup B Out E R Seg S Src} {body after : Stream B Out}
    {len : ℕ} {error : Error}
    (h : body.tryExact setup.machine setup.builder len = .rejected after error)
    (ledger : Amount) :
    (body.state.account ledger).Kept
      ((.exact len : Act B Seg S D Q).Counts setup.machine body.state)
      (after.state.account ledger) := by
  rw [Stream.tryExact, Flow.tryExact] at h
  cases hexact : body.state.tryExact setup.machine len with
  | error error =>
    simp only [hexact, Transfer.rejected.injEq] at h
    rw [← h.1]
    exact .rfl
  | ok state =>
    simp only [hexact] at h
    rcases hresult : body.flow.tryFinish setup.builder state with ⟨flow | ⟨flow, error⟩, state'⟩
    · simp [hresult] at h
    · simp only [hresult, Transfer.rejected.injEq] at h
      rw [← h.1, Flow.tryEndWith_rejected hresult]
      exact Ingress.kept_tryExact hexact ledger

theorem Buffered.tryExact_rejected {machine : Machine} {body after : Buffered S} {len : ℕ}
    {error : Error} (h : body.tryExact machine len = .rejected after error) (ledger : Amount) :
    (body.state.account ledger).Kept
      ((.exact len : Act B Seg S D Q).Counts machine body.state) (after.state.account ledger) := by
  rw [Buffered.tryExact] at h
  cases hexact : body.state.tryExact machine len with
  | error error =>
    simp only [hexact, Transfer.rejected.injEq] at h
    rw [← h.1]
    exact .rfl
  | ok state =>
    simp only [hexact] at h
    rcases hend : state.tryEnd with error | ⟨len, ended⟩
    · simp only [hend, Transfer.rejected.injEq] at h
      rw [← h.1]
      exact Ingress.kept_tryExact hexact ledger
    · simp [hend] at h

/-- The accounting that a refusal leaves. -/
def Refusal.Keeps (before : Account) (amount : Amount) (counts : Prop) : Refusal → Prop
  | .input after => before.Kept counts after
  | .builder after => after = before.reserve amount

/-- A refusal leaves boundary and credits, and the length unless the call counted discarded input
before it failed to end it. A builder keeps what was reserved for the input that it rejects. -/
theorem Act.refusal_keeps {setup : Setup B Out E R Seg S Src} {ledger : Amount}
    {act : Act B Seg S D Q} {owner : Owner B Out S Src} {state : Ingress} {answer : Refusal}
    (hstate : owner.input = some state) (h : act.refusal setup ledger owner = some answer) :
    answer.Keeps (state.account ledger) act.amount (act.Counts setup.machine state) := by
  cases act with
  | push data bytes chunks boundary requestMax connectionMax parts =>
    cases owner with
    | stream body =>
      rw [← Option.some.inj hstate]
      rcases hpush : body.tryPush setup.machine setup.builder ledger data bytes chunks boundary
        requestMax connectionMax parts with ⟨pushed, ledger'⟩
      simp only [Act.refusal, hpush] at h
      cases pushed with
      | refused after error =>
        rw [← Option.some.inj h]
        exact Stream.tryPush_refused hpush
      | rejected after error =>
        rw [← Option.some.inj h]
        exact Stream.tryPush_rejected hpush
      | _ => contradiction
    | _ => contradiction
  | retain data bytes chunks requestMax connectionMax keep =>
    cases owner with
    | buffered body =>
      rw [← Option.some.inj hstate]
      rcases hpush : body.tryPush setup.machine ledger data bytes chunks requestMax connectionMax
        keep with ⟨pushed, after, ledger'⟩
      simp only [Act.refusal, hpush] at h
      cases pushed with
      | body error =>
        rw [← Option.some.inj h, Buffered.tryPush_refused hpush (by simp)]
        exact .rfl
      | retain error =>
        rw [← Option.some.inj h, Buffered.tryPush_refused hpush (by simp)]
        exact .rfl
      | _ => contradiction
    | _ => contradiction
  | discardInput bytes boundary =>
    cases owner with
    | stream body =>
      rw [← Option.some.inj hstate]
      simp only [Act.refusal] at h
      cases hdiscard : body.tryDiscard setup.machine setup.builder bytes boundary with
      | accepted after => simp [hdiscard, refusalOf] at h
      | rejected after error =>
        rw [hdiscard] at h
        rw [← Option.some.inj h]
        exact Stream.tryDiscard_rejected hdiscard ledger
    | _ => contradiction
  | exact len =>
    cases owner with
    | stream body =>
      rw [← Option.some.inj hstate]
      simp only [Act.refusal] at h
      cases hexact : body.tryExact setup.machine setup.builder len with
      | accepted after => simp [hexact, refusalOf] at h
      | rejected after error =>
        rw [hexact] at h
        rw [← Option.some.inj h]
        exact Stream.tryExact_rejected hexact ledger
    | buffered body =>
      rw [← Option.some.inj hstate]
      simp only [Act.refusal] at h
      cases hexact : body.tryExact setup.machine len with
      | accepted after => simp [hexact, refusalOf] at h
      | rejected after error =>
        rw [hexact] at h
        rw [← Option.some.inj h]
        exact Buffered.tryExact_rejected hexact ledger
    | _ => contradiction
  | _ => cases owner <;> contradiction

/-! ## Bodies that are reached -/

/-- A body on a connection whose ledger the other bodies change at will. -/
inductive Reached (D Q : Type*) (setup : Setup B Out E R Seg S Src) : Owner B Out S Src → Prop
  | stream {plan : Plan} {limit : ℕ} {boundary : Boundary} {start : Start}
    (h : plan.tryStart limit boundary = .ok start) (build : B) :
    Reached D Q setup (.stream (.new setup.builder start build))
  | buffered {plan : Plan} {limit : ℕ} {boundary : Boundary} {start : Start}
    (h : plan.tryStart limit boundary = .ok start) : Reached D Q setup (.buffered (.new start))
  | admittedStream {plan : Plan} {limit len : ℕ} {done : Track Finished}
    (h : plan.tryAdmit setup.machine limit len = .ok done) (build : B) :
    Reached D Q setup (.stream (.new setup.builder (.finished done) build))
  | admittedBuffered {plan : Plan} {limit len : ℕ} {done : Track Finished}
    (h : plan.tryAdmit setup.machine limit len = .ok done) :
    Reached D Q setup (.buffered (.new (.finished done)))
  | returned {body : Buffered S} {error : Error}
    (h : Reached D Q setup (.rejected (.admission body error))) : Reached D Q setup (.buffered body)
  | act {owner after : Owner B Out S Src} {act : Act B Seg S D Q} {ledger ledger' : Amount}
    {outcome : Outcome} (h : Reached D Q setup owner)
    (hrun : act.run setup ledger owner = some ((some after, outcome), ledger')) :
    Reached D Q setup after

theorem Stream.new_settled (builder : Builder B Out E R Seg) {start : Start}
    (h : start.intoFlow.Settled) (build : B) :
    (Owner.stream (.new builder start build) : Owner B Out S Src).Settled := by
  intro state hstate
  rw [← Option.some.inj hstate]
  cases start with
  | «open» track => exact h
  | finished track => exact h

theorem Reached.settled {setup : Setup B Out E R Seg S Src} {owner : Owner B Out S Src}
    (h : Reached D Q setup owner) : owner.Settled := by
  induction h with
  | stream h build => exact Stream.new_settled setup.builder (Plan.settled_of_tryStart h) build
  | buffered h =>
    intro state hstate
    rw [← Option.some.inj hstate]
    exact Plan.settled_of_tryStart h
  | admittedStream h build =>
    exact Stream.new_settled setup.builder (Plan.settled_of_tryAdmit h) build
  | admittedBuffered h =>
    intro state hstate
    rw [← Option.some.inj hstate]
    exact Plan.settled_of_tryAdmit h
  | returned _ ih => exact ih
  | act _ hrun ih => exact Act.run_settled ih hrun _ rfl

/-- What the accounting of a body keeps to. -/
structure KeepsInput (D Q : Type*) (setup : Setup B Out E R Seg S Src) (owner : Owner B Out S Src)
    (state : Ingress) : Prop where
  /-- A refusal leaves the accounting, whatever the ledger is. -/
  refused : ∀ (ledger : Amount) (act : Act B Seg S D Q) answer,
    act.refusal setup ledger owner = some answer →
    answer.Keeps (state.account ledger) act.amount (act.Counts setup.machine state)
  bounded : state.track.len ≤ state.track.bound
  /-- Finished input is complete. -/
  finished : state.isFinished = true → state.track.Complete
  /-- An end marks open input as finished exactly when it is complete. -/
  ended : state.isFinished = false → ((∃ result, state.tryEnd = .ok result) ↔ state.track.Complete)
  /-- So does the completion of a buffer. -/
  completed : (∃ done, state.track.tryComplete = .ok done) ↔ state.track.Complete

/-- A connection whose builder rejects every segment. -/
def rejectingSetup : Setup Unit Unit Unit Unit ℕ Unit Unit where
  machine := ⟨2 ^ 64 - 1, 2 ^ 64 - 1⟩
  builder := ⟨fun _ _ => (), fun _ _ => .pending () .zero, fun _ _ => .rejected () ()⟩
  store := ⟨fun _ => (), fun _ => 0⟩

/-- The stream of a body of at most 10 bytes, before any input. -/
def openStream : Stream Unit Unit :=
  ⟨⟨⟨.limit, 10, .retained, .streaming, .more, 0, by decide⟩, .zero⟩, .building ()⟩

end Sark.Body
