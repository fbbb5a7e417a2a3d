import Sark.Core.Body.Owners

/-!
# The credit ledger of a connection

Any number of request bodies share the ledger of their connection. Every operation works on one
owner and the ledger, and leaves another owner, or none when the credit was settled. An operation
moves the owner's credit and the ledger by the same amount (`Act.run_moves`), so the ledger is the
sum of what the owners hold (`Connection.run_conserves`).
-/

set_option linter.unusedSectionVars false

namespace Sark.Body

variable {B Out E R Seg S Src D Q : Type*} [Segment Seg]

/-- What may hold the credit of a body. -/
inductive Owner (B Out S Src : Type*) where
  | stream (stream : Stream B Out)
  | ready (ready : Ready Out)
  | buffered (buffered : Buffered S)
  | rejected (rejected : Rejected S Src)
  | release (release : Release)

/-- The credit an owner holds. -/
def Owner.credit : Owner B Out S Src → Amount
  | .stream body => body.state.credit
  | .ready body => body.state.credit
  | .buffered body => body.state.credit
  | .rejected body => body.held
  | .release body => body.amount

/-- What an operation reports: it went through, it was refused with an error of the body layer, or
the application's builder or storage failed. -/
inductive Outcome where
  | done
  | refused (error : Error)
  | failed
  deriving DecidableEq, Repr

/-- An operation on an owner. -/
inductive Act (B Seg S D Q : Type*) where
  | push (data : D) (bytes chunks : ℕ) (boundary : Boundary) (requestMax connectionMax : Limits)
    (parts : D → Parts Seg)
  | retain (data : D) (bytes chunks : ℕ) (requestMax connectionMax : Limits)
    (retain : Option S → D → Retain S Q)
  | discardInput (bytes : ℕ) (boundary : Boundary)
  | finish
  | exact (len : ℕ)
  | drive (budget : ℕ)
  | transfer (build : B) (boundary : Boundary) (parts : S → Parts Seg)
  | tryAdmit
  | release
  | discard

/-- The request and connection limits of an operation that reserves. -/
def Act.limits : Act B Seg S D Q → Option (Limits × Limits)
  | .push _ _ _ _ requestMax connectionMax _ => some (requestMax, connectionMax)
  | .retain _ _ _ requestMax connectionMax _ => some (requestMax, connectionMax)
  | _ => none

/-- The parameters of a connection: the machine, the builder and the retained storage. -/
structure Setup (B Out E R Seg S Src : Type*) where
  machine : Machine
  builder : Builder B Out E R Seg
  store : Store S Src

/-- The owner that a transfer leaves, and its report. -/
def ofTransfer {T : Type*} (owner : T → Owner B Out S Src) :
    Transfer T Error → Option (Owner B Out S Src) × Outcome
  | .accepted build => (some (owner build), .done)
  | .rejected build error => (some (owner build), .refused error)

/-- The owner that a discard leaves: a rejected discard keeps its release. -/
def ofDiscard : Discard → Option (Owner B Out S Src) × Outcome
  | .applied => (none, .done)
  | .rejected release error => (some (.release release), .refused (.credit error))

/-- The owner that a construction turn leaves. -/
def ofDrive : Drive B Out E → Option (Owner B Out S Src) × Outcome
  | .needInput body | .pending body => (some (.stream body), .done)
  | .ready body => (some (.ready body), .done)
  | .failed body (.credit error) | .failed body (.release _ error) =>
    (some (.stream body), .refused (.credit error))
  | .failed body _ => (some (.stream body), .failed)
  | .rejected body error => (some (.stream body), .refused error)

/-- The owner that a push leaves. -/
def ofPush : StreamPush B Out R → Option (Owner B Out S Src) × Outcome
  | .accepted body | .discarded body => (some (.stream body), .done)
  | .refused body error | .failed body error => (some (.stream body), .refused error)
  | .rejected body _ => (some (.stream body), .failed)

/-- What a buffer reports of a push. -/
def ofRetain : BufferedPush Q → Outcome
  | .accepted | .discarded => .done
  | .body error => .refused error
  | .retain _ => .failed

/-- The owner that a completion leaves: none once the body is admitted. -/
def ofFinish : Except (Rejected S Src) (Src × ℕ) → Option (Owner B Out S Src) × Outcome
  | .ok _ => (none, .done)
  | .error (.admission body error) => (some (.rejected (.admission body error)), .refused error)
  | .error (.storage track source error release) =>
    (some (.rejected (.storage track source error release)), .refused error)
  | .error (.credit source len release error) =>
    (some (.rejected (.credit source len release error)), .refused error)

/-- The stream that a buffer becomes. -/
def ofMoved (state : Ingress) : FlowPush B Out R → Option (Owner B Out S Src) × Outcome
  | .accepted flow => (some (.stream ⟨state, flow⟩), .done)
  | .failed flow error => (some (.stream ⟨state, flow⟩), .refused error)
  | .rejected flow _ => (some (.stream ⟨state, flow⟩), .failed)

/-- The owner that an admission leaves. -/
def ofAdmission : Admission Out → Option (Owner B Out S Src) × Outcome
  | .accepted _ => (none, .done)
  | .rejected body error => (some (.ready body), .refused error)

/-- The release of an owner that is discarded. -/
def Owner.intoRelease : Owner B Out S Src → Option Release
  | .stream body => some body.intoRelease
  | .ready body => some body.intoRelease
  | .buffered body => some body.intoRelease
  | .release body => some body
  | .rejected _ => none

/-- Performs an operation on an owner: the owner it leaves, the ledger and the report. The result
is `none` when the owner has no such operation. -/
def Act.run (setup : Setup B Out E R Seg S Src) (ledger : Amount) :
    Act B Seg S D Q → Owner B Out S Src →
      Option ((Option (Owner B Out S Src) × Outcome) × Amount)
  | .push data bytes chunks boundary requestMax connectionMax parts, .stream body =>
    let pushed := body.tryPush setup.machine setup.builder ledger data bytes chunks boundary
      requestMax connectionMax parts
    some (ofPush pushed.1, pushed.2)
  | .retain data bytes chunks requestMax connectionMax keep, .buffered body =>
    let pushed := body.tryPush setup.machine ledger data bytes chunks requestMax connectionMax keep
    some ((some (.buffered pushed.2.1), ofRetain pushed.1), pushed.2.2)
  | .discardInput bytes boundary, .stream body =>
    some (ofTransfer .stream (body.tryDiscard setup.machine setup.builder bytes boundary), ledger)
  | .finish, .stream body => some (ofTransfer .stream (body.tryFinish setup.builder), ledger)
  | .finish, .buffered body =>
    let finished := body.tryFinish setup.store ledger
    some (ofFinish finished.1, finished.2)
  | .exact len, .stream body =>
    some (ofTransfer .stream (body.tryExact setup.machine setup.builder len), ledger)
  | .exact len, .buffered body =>
    some (ofTransfer .buffered (body.tryExact setup.machine len), ledger)
  | .drive budget, .stream body =>
    let driven := body.tryDrive setup.builder ledger budget
    some (ofDrive driven.1, driven.2)
  | .transfer build boundary parts, .buffered body =>
    let moved := body.tryStream setup.machine setup.builder build boundary parts
    some (ofMoved moved.2 moved.1, ledger)
  | .tryAdmit, .ready body =>
    let admitted := body.tryAdmit ledger
    some (ofAdmission admitted.1, admitted.2)
  | .release, .rejected body =>
    match body.tryRelease ledger with
    | (.ok body, ledger) => some ((some (.rejected body), .done), ledger)
    | (.error error, ledger) => some ((some (.rejected body), .refused (.credit error)), ledger)
  | .release, owner =>
    -- the credit is detached, to be settled later
    owner.intoRelease.map fun body => ((some (.release body), .done), ledger)
  | .discard, owner =>
    owner.intoRelease.map fun body =>
      let discarded := body.tryDiscard ledger
      (ofDiscard discarded.1, discarded.2)
  | _, _ => none

/-! ## What an operation moves -/

/-- The credit left with an owner, none when there is no owner. -/
def heldBy : Option (Owner B Out S Src) → Amount
  | none => .zero
  | some owner => owner.credit

/-- The operation moves the credit of its owner and of the ledger by one amount, and moves nothing
when a limit, an overflow or an underflow refuses it. -/
structure Settles (limits : Option (Limits × Limits)) (request ledger : Amount)
    (result : Option (Owner B Out S Src) × Outcome) (ledger' : Amount) : Prop where
  moves : Moves limits request ledger (heldBy result.1) ledger'
  refused : ∀ error, result.2 = .refused error → error.isBound = true →
    result.1.map Owner.credit = some request ∧ ledger' = ledger

theorem settles_kept {limits : Option (Limits × Limits)} {request ledger : Amount}
    {result : Option (Owner B Out S Src) × Outcome}
    (h : result.1.map Owner.credit = some request) :
    Settles limits request ledger result ledger where
  moves := by
    obtain ⟨owner, howner, rfl⟩ := Option.map_eq_some_iff.mp h
    rw [howner]
    exact .kept
  refused _ _ _ := ⟨h, rfl⟩

theorem tryParts_failed {machine : Machine} {builder : Builder B Out E R Seg} {count : Bool}
    {build : B} {parts : Parts Seg} {bytes chunks : ℕ} {flow : Flow B Out} {error : Error}
    (h : Flow.tryParts machine builder count build parts bytes chunks = .failed flow error) :
    error = .segmentMismatch := by
  have hloop (build : B) (seen tally : ℕ) (segments : List Seg)
      (h : Flow.partsLoop machine builder count parts.exact bytes chunks build seen tally segments =
        .failed flow error) : error = .segmentMismatch := by
    induction segments generalizing build seen tally with
    | nil =>
      rw [Flow.partsLoop] at h
      split_ifs at h
      exact (FlowPush.failed.inj h).2.symm
    | cons part rest ih =>
      rw [Flow.partsLoop] at h
      split_ifs at h
      · exact ih _ _ _ h
      · exact (FlowPush.failed.inj h).2.symm
      · exact (FlowPush.failed.inj h).2.symm
      · split at h
        · exact ih _ _ _ h
        · contradiction
      all_goals
        simp only at h
        split at h
        · exact ih _ _ _ h
        · contradiction
  rw [Flow.tryParts] at h
  split_ifs at h
  · exact (FlowPush.failed.inj h).2.symm
  · exact hloop _ _ _ _ h

theorem credit_of_tryEndWith {builder : Builder B Out E R Seg} {flow : Flow B Out} {state : Ingress}
    {finish : Except Error (ℕ × Ingress)}
    (hcredit : ∀ len after, finish = .ok (len, after) → after.credit = state.credit)
    (hbound : ∀ error, finish = .error error → error.isBound = false) :
    (flow.tryEndWith builder state finish).2.credit = state.credit ∧
      ∀ after error, (flow.tryEndWith builder state finish).1 = .rejected after error →
        error.isBound = false := by
  cases flow with
  | ready output =>
    refine ⟨rfl, fun after error h => ?_⟩
    rw [← (Transfer.rejected.inj h).2]
    rfl
  | building build =>
    simp only [Flow.tryEndWith]
    cases hfinish : finish with
    | error error =>
      refine ⟨rfl, fun after error' h => ?_⟩
      rw [← (Transfer.rejected.inj h).2]
      exact hbound error hfinish
    | ok ended =>
      obtain ⟨len, after⟩ := ended
      exact ⟨hcredit len after hfinish, fun after error h => by contradiction⟩

theorem credit_of_tryFinish (builder : Builder B Out E R Seg) (flow : Flow B Out)
    (state : Ingress) :
    (flow.tryFinish builder state).2.credit = state.credit ∧
      ∀ after error, (flow.tryFinish builder state).1 = .rejected after error →
        error.isBound = false :=
  credit_of_tryEndWith (fun _ _ => Ingress.credit_of_tryEnd) fun _ => Ingress.isBound_of_tryEnd

theorem credit_of_tryComplete (builder : Builder B Out E R Seg) (flow : Flow B Out)
    (state : Ingress) : (flow.tryComplete builder state).2.credit = state.credit := by
  refine (credit_of_tryEndWith (fun len after h => ?_) fun error h => ?_).1
  · split_ifs at h
    · rw [← (Prod.mk.inj (Except.ok.inj h)).2]
    · exact Ingress.credit_of_tryEnd h
  · split_ifs at h
    exact Ingress.isBound_of_tryEnd h

theorem credit_of_flowExact (machine : Machine) (builder : Builder B Out E R Seg)
    (flow : Flow B Out) (state : Ingress) (len : ℕ) :
    (flow.tryExact machine builder state len).2.credit = state.credit := by
  rw [Flow.tryExact]
  cases hexact : state.tryExact machine len with
  | error error => rfl
  | ok after =>
    exact (credit_of_tryFinish builder flow after).1.trans (Ingress.credit_of_tryExact hexact)

/-- A push of segments reserves their credit or leaves the turn as it was; a limit never stops it
after the reservation. -/
theorem Flow.tryPush_settles (machine : Machine) (builder : Builder B Out E R Seg)
    (flow : Flow B Out) (turn : Turn) (parts : Parts Seg) (bytes chunks : ℕ)
    (requestMax connectionMax : Limits) :
    Moves (some (requestMax, connectionMax)) turn.state.credit turn.ledger
        (flow.tryPush machine builder turn parts bytes chunks requestMax
          connectionMax).2.state.credit
        (flow.tryPush machine builder turn parts bytes chunks requestMax connectionMax).2.ledger ∧
      ∀ after error,
        (flow.tryPush machine builder turn parts bytes chunks requestMax connectionMax).1 =
          .failed after error → error.isBound = true →
        (flow.tryPush machine builder turn parts bytes chunks requestMax connectionMax).2 = turn := by
  cases flow with
  | ready output => exact ⟨.kept, fun _ _ _ _ => rfl⟩
  | building build =>
    rw [Flow.tryPush]
    cases turn.state.track.tryAdvance machine bytes with
    | error error => exact ⟨.kept, fun _ _ _ _ => rfl⟩
    | ok next =>
      cases hcommit : turn.ledger.tryCommit machine turn.state.credit ⟨bytes, chunks⟩ requestMax
          connectionMax with
      | error error => exact ⟨.kept, fun _ _ _ _ => rfl⟩
      | ok change =>
        have hmoves := Amount.tryCommit_eq_ok hcommit
        cases hparts : Flow.tryParts machine builder true build parts bytes chunks with
        | accepted flow => exact ⟨hmoves, fun _ _ h => by contradiction⟩
        | rejected flow error => exact ⟨hmoves, fun _ _ h => by contradiction⟩
        | failed flow error =>
          refine ⟨hmoves, fun after error' h hbound => ?_⟩
          rw [← (FlowPush.failed.inj h).2, tryParts_failed hparts] at hbound
          contradiction

theorem Stream.tryPush_settles (setup : Setup B Out E R Seg S Src) (body : Stream B Out)
    (ledger : Amount) (data : D) (bytes chunks : ℕ) (boundary : Boundary)
    (requestMax connectionMax : Limits) (parts : D → Parts Seg) :
    Settles (some (requestMax, connectionMax)) body.state.credit ledger
      (ofPush (body.tryPush setup.machine setup.builder ledger data bytes chunks boundary
        requestMax connectionMax parts).1 : Option (Owner B Out S Src) × Outcome)
      (body.tryPush setup.machine setup.builder ledger data bytes chunks boundary requestMax
        connectionMax parts).2 := by
  rw [Stream.tryPush]
  cases body.state.track.retention with
  | discarded =>
    -- input that is not retained has no credit
    cases body.state.track.tryAdvance setup.machine bytes with
    | error error => exact settles_kept rfl
    | ok next =>
      cases boundary with
      | more => exact settles_kept rfl
      | «end» =>
        have hcredit := (credit_of_tryFinish setup.builder body.flow
          { body.state with track := body.state.track.advance next }).1
        simp only
        split
        · rename_i heq
          rw [heq] at hcredit
          exact settles_kept (congrArg some hcredit)
        · rename_i heq
          rw [heq] at hcredit
          exact settles_kept (congrArg some hcredit)
  | retained =>
    obtain ⟨hmoves, hrefused⟩ := Flow.tryPush_settles setup.machine setup.builder body.flow
      ⟨body.state, ledger⟩ (parts data) bytes chunks requestMax connectionMax
    generalize body.flow.tryPush setup.machine setup.builder ⟨body.state, ledger⟩ (parts data)
      bytes chunks requestMax connectionMax = pushed at hmoves hrefused
    obtain ⟨push, turn⟩ := pushed
    cases push with
    | accepted flow =>
      cases boundary with
      | more => exact ⟨hmoves, fun _ h => by contradiction⟩
      | «end» =>
        obtain ⟨hcredit, hbound⟩ := credit_of_tryFinish setup.builder flow turn.state
        simp only
        generalize flow.tryFinish setup.builder turn.state = finished at hcredit hbound
        obtain ⟨transfer, state⟩ := finished
        rw [← hcredit] at hmoves
        cases transfer with
        | accepted flow => exact ⟨hmoves, fun _ h => by contradiction⟩
        | rejected flow error =>
          refine ⟨hmoves, fun error' h hbound' => ?_⟩
          obtain rfl := Outcome.refused.inj h
          rw [hbound flow error rfl] at hbound'
          contradiction
    | failed flow error =>
      refine ⟨hmoves, fun error' h hbound => ?_⟩
      obtain rfl := Outcome.refused.inj h
      obtain rfl : turn = ⟨body.state, ledger⟩ := hrefused flow error rfl hbound
      exact ⟨rfl, rfl⟩
    | rejected flow error => exact ⟨hmoves, fun _ h => by contradiction⟩

theorem Stream.tryDrive_settles (setup : Setup B Out E R Seg S Src) (body : Stream B Out)
    (ledger : Amount) (budget : ℕ) :
    Settles none body.state.credit ledger
      (ofDrive (body.tryDrive setup.builder ledger budget).1 : Option (Owner B Out S Src) × Outcome)
      (body.tryDrive setup.builder ledger budget).2 := by
  -- a released amount is returned on both sides, or the turn fails before anything is returned
  have hrelease (released : Amount) (turn : Turn)
      (h : (Turn.mk body.state ledger).tryRelease released = .ok turn) :
      Moves none body.state.credit ledger turn.state.credit turn.ledger :=
    Turn.tryRelease_eq_ok h none
  have hnew (state : Ingress) (output : Out) :
      heldBy (ofDrive (Ready.tryNew state output : Drive B Out E) :
        Option (Owner B Out S Src) × Outcome).1 = state.credit ∧
      ∀ error, (ofDrive (Ready.tryNew state output : Drive B Out E) :
        Option (Owner B Out S Src) × Outcome).2 = .refused error → error.isBound = false := by
    rw [Ready.tryNew]
    cases state.track.phase with
    | «end» => exact ⟨rfl, fun _ h => by contradiction⟩
    | more =>
      refine ⟨rfl, fun error h => ?_⟩
      rw [← Outcome.refused.inj h]
      rfl
  have hready (turn : Turn) (output : Out)
      (hmoves : Moves none body.state.credit ledger turn.state.credit turn.ledger) :
      Settles none body.state.credit ledger
        (ofDrive (Ready.tryNew turn.state output : Drive B Out E) :
          Option (Owner B Out S Src) × Outcome) turn.ledger := by
    obtain ⟨hheld, hbound⟩ := hnew turn.state output
    refine ⟨by rw [hheld]; exact hmoves, fun error h hbound' => ?_⟩
    rw [hbound error h] at hbound'
    contradiction
  rw [Stream.tryDrive]
  cases body.flow with
  | ready output => exact hready ⟨body.state, ledger⟩ output .kept
  | building build =>
    simp only
    cases setup.builder.step build budget with
    | needInput build released =>
      cases hturn : (Turn.mk body.state ledger).tryRelease released with
      | error error => simp only [hturn]; exact settles_kept rfl
      | ok turn =>
        have hmoves := hrelease released turn hturn
        simp only [hturn]
        split_ifs
        · exact ⟨hmoves, fun _ h => by contradiction⟩
        · exact ⟨hmoves, fun _ h => by contradiction⟩
    | pending build released =>
      cases hturn : (Turn.mk body.state ledger).tryRelease released with
      | error error => simp only [hturn]; exact settles_kept rfl
      | ok turn =>
        simp only [hturn]
        exact ⟨hrelease released turn hturn, fun _ h => by contradiction⟩
    | ready output released =>
      cases hturn : (Turn.mk body.state ledger).tryRelease released with
      | error error => simp only [hturn]; exact settles_kept rfl
      | ok turn =>
        simp only [hturn]
        exact hready turn output (hrelease released turn hturn)
    | failed build error released =>
      cases hturn : (Turn.mk body.state ledger).tryRelease released with
      | error error => simp only [hturn]; exact settles_kept rfl
      | ok turn =>
        simp only [hturn]
        exact ⟨hrelease released turn hturn, fun _ h => by contradiction⟩

theorem Buffered.tryPush_settles (setup : Setup B Out E R Seg S Src) (body : Buffered S)
    (ledger : Amount) (data : D) (bytes chunks : ℕ) (requestMax connectionMax : Limits)
    (keep : Option S → D → Retain S Q) :
    Settles (some (requestMax, connectionMax)) body.state.credit ledger
      ((some (.buffered (body.tryPush setup.machine ledger data bytes chunks requestMax
          connectionMax keep).2.1),
        ofRetain (body.tryPush setup.machine ledger data bytes chunks requestMax connectionMax
          keep).1) : Option (Owner B Out S Src) × Outcome)
      (body.tryPush setup.machine ledger data bytes chunks requestMax connectionMax keep).2.2 := by
  rw [Buffered.tryPush]
  cases body.state.track.tryAdvance setup.machine bytes with
  | error error => exact settles_kept rfl
  | ok next =>
    cases body.state.track.retention with
    | discarded => exact settles_kept rfl
    | retained =>
      cases hcommit : ledger.tryCommit setup.machine body.state.credit ⟨bytes, chunks⟩ requestMax
          connectionMax with
      | error error => exact settles_kept rfl
      | ok change =>
        cases keep body.storage data with
        | rejected storage error => exact settles_kept rfl
        | accepted storage =>
          exact ⟨Amount.tryCommit_eq_ok hcommit, fun _ h => by contradiction⟩

theorem Buffered.tryFinish_settles (store : Store S Src) (body : Buffered S) (ledger : Amount) :
    Settles none body.state.credit ledger
      (ofFinish (body.tryFinish store ledger).1 : Option (Owner B Out S Src) × Outcome)
      (body.tryFinish store ledger).2 := by
  rw [Buffered.tryFinish]
  cases body.state.track.tryComplete with
  | error error => exact settles_kept rfl
  | ok track =>
    simp only
    split_ifs
    · cases hdrain : ledger.tryDrain body.state.credit with
      | error error => exact settles_kept rfl
      | ok change =>
        exact ⟨(Amount.tryDrain_eq_ok hdrain none).2, fun _ h => by contradiction⟩
    · exact settles_kept rfl

theorem Release.tryDiscard_settles (release : Release) (ledger : Amount) :
    Settles none release.amount ledger
      (ofDiscard (release.tryDiscard ledger).1 : Option (Owner B Out S Src) × Outcome)
      (release.tryDiscard ledger).2 := by
  rw [Release.tryDiscard]
  cases hdrain : ledger.tryDrain release.amount with
  | error error => exact settles_kept rfl
  | ok change => exact ⟨(Amount.tryDrain_eq_ok hdrain none).2, fun _ h => by contradiction⟩

theorem Ready.tryAdmit_settles (body : Ready Out) (ledger : Amount) :
    Settles none body.state.credit ledger
      (ofAdmission (body.tryAdmit ledger).1 : Option (Owner B Out S Src) × Outcome)
      (body.tryAdmit ledger).2 := by
  rw [Ready.tryAdmit]
  cases hdrain : (Turn.mk body.state ledger).tryDrain with
  | error error => exact settles_kept rfl
  | ok turn => exact ⟨(Turn.tryDrain_eq_ok hdrain none).2, fun _ h => by contradiction⟩

theorem credit_of_tryStream (setup : Setup B Out E R Seg S Src) (body : Buffered S) (build : B)
    (boundary : Boundary) (parts : S → Parts Seg) :
    (body.tryStream setup.machine setup.builder build boundary parts).2.credit =
      body.state.credit := by
  cases boundary with
  | more => rfl
  | «end» =>
    simp only [Buffered.tryStream]
    cases body.tryMove setup.machine setup.builder build parts with
    | failed flow error => rfl
    | rejected flow error => rfl
    | accepted flow =>
      have hcredit := credit_of_tryComplete setup.builder flow body.state
      simp only
      split
      · rename_i heq
        rw [heq] at hcredit
        exact hcredit
      · rename_i heq
        rw [heq] at hcredit
        exact hcredit

theorem credit_of_tryDiscard (setup : Setup B Out E R Seg S Src) (body : Stream B Out) (bytes : ℕ)
    (boundary : Boundary) :
    (ofTransfer .stream (body.tryDiscard setup.machine setup.builder bytes boundary) :
      Option (Owner B Out S Src) × Outcome).1.map Owner.credit = some body.state.credit := by
  rw [Stream.tryDiscard]
  split_ifs
  · rfl
  · cases body.state.track.tryAdvance setup.machine bytes with
    | error error => rfl
    | ok next =>
      cases boundary with
      | more => rfl
      | «end» =>
        have hcredit := (credit_of_tryFinish setup.builder body.flow
          { body.state with track := body.state.track.advance next }).1
        simp only
        split
        · rename_i heq
          rw [heq] at hcredit
          exact congrArg some hcredit
        · rename_i heq
          rw [heq] at hcredit
          exact congrArg some hcredit

theorem credit_of_streamFinish (builder : Builder B Out E R Seg) (body : Stream B Out) :
    (ofTransfer .stream (body.tryFinish builder) :
      Option (Owner B Out S Src) × Outcome).1.map Owner.credit = some body.state.credit := by
  have hcredit := (credit_of_tryFinish builder body.flow body.state).1
  rw [Stream.tryFinish]
  split
  · rename_i heq
    rw [heq] at hcredit
    exact congrArg some hcredit
  · rename_i heq
    rw [heq] at hcredit
    exact congrArg some hcredit

theorem credit_of_streamExact (setup : Setup B Out E R Seg S Src) (body : Stream B Out) (len : ℕ) :
    (ofTransfer .stream (body.tryExact setup.machine setup.builder len) :
      Option (Owner B Out S Src) × Outcome).1.map Owner.credit = some body.state.credit := by
  have hcredit := credit_of_flowExact setup.machine setup.builder body.flow body.state len
  rw [Stream.tryExact]
  split
  · rename_i heq
    rw [heq] at hcredit
    exact congrArg some hcredit
  · rename_i heq
    rw [heq] at hcredit
    exact congrArg some hcredit

theorem credit_of_bufferedExact (machine : Machine) (body : Buffered S) (len : ℕ) :
    (ofTransfer .buffered (body.tryExact machine len) :
      Option (Owner B Out S Src) × Outcome).1.map Owner.credit = some body.state.credit := by
  rw [Buffered.tryExact]
  cases hexact : body.state.tryExact machine len with
  | error error => rfl
  | ok state =>
    have hcredit := Ingress.credit_of_tryExact hexact
    simp only
    cases hend : state.tryEnd with
    | error error => exact congrArg some hcredit
    | ok ended => exact congrArg some ((Ingress.credit_of_tryEnd hend).trans hcredit)

theorem Owner.credit_intoRelease {owner : Owner B Out S Src} {release : Release}
    (h : owner.intoRelease = some release) : release.amount = owner.credit := by
  cases owner with
  | rejected body => contradiction
  | stream body => rw [← Option.some.inj h]; rfl
  | ready body => rw [← Option.some.inj h]; rfl
  | buffered body => rw [← Option.some.inj h]; rfl
  | release body => rw [← Option.some.inj h]; rfl

/-- Every operation moves the credit of its owner and of the ledger by one amount, and none when a
limit, an overflow or an underflow refuses it. -/
theorem Act.run_settles {setup : Setup B Out E R Seg S Src} {ledger ledger' : Amount}
    {act : Act B Seg S D Q} {owner : Owner B Out S Src}
    {result : Option (Owner B Out S Src) × Outcome}
    (h : act.run setup ledger owner = some (result, ledger')) :
    Settles act.limits owner.credit ledger result ledger' := by
  cases act with
  | push data bytes chunks boundary requestMax connectionMax parts =>
    cases owner with
    | stream body =>
      obtain ⟨rfl, rfl⟩ := Prod.mk.inj (Option.some.inj h)
      exact Stream.tryPush_settles ..
    | _ => contradiction
  | retain data bytes chunks requestMax connectionMax keep =>
    cases owner with
    | buffered body =>
      obtain ⟨rfl, rfl⟩ := Prod.mk.inj (Option.some.inj h)
      exact Buffered.tryPush_settles ..
    | _ => contradiction
  | discardInput bytes boundary =>
    cases owner with
    | stream body =>
      obtain ⟨rfl, rfl⟩ := Prod.mk.inj (Option.some.inj h)
      exact settles_kept (credit_of_tryDiscard ..)
    | _ => contradiction
  | finish =>
    cases owner with
    | stream body =>
      obtain ⟨rfl, rfl⟩ := Prod.mk.inj (Option.some.inj h)
      exact settles_kept (credit_of_streamFinish ..)
    | buffered body =>
      obtain ⟨rfl, rfl⟩ := Prod.mk.inj (Option.some.inj h)
      exact Buffered.tryFinish_settles ..
    | _ => contradiction
  | exact len =>
    cases owner with
    | stream body =>
      obtain ⟨rfl, rfl⟩ := Prod.mk.inj (Option.some.inj h)
      exact settles_kept (credit_of_streamExact ..)
    | buffered body =>
      obtain ⟨rfl, rfl⟩ := Prod.mk.inj (Option.some.inj h)
      exact settles_kept (credit_of_bufferedExact ..)
    | _ => contradiction
  | drive budget =>
    cases owner with
    | stream body =>
      obtain ⟨rfl, rfl⟩ := Prod.mk.inj (Option.some.inj h)
      exact Stream.tryDrive_settles ..
    | _ => contradiction
  | transfer build boundary parts =>
    cases owner with
    | buffered body =>
      obtain ⟨rfl, rfl⟩ := Prod.mk.inj (Option.some.inj h)
      refine settles_kept ?_
      rw [Owner.credit, ← credit_of_tryStream setup body build boundary parts]
      cases (body.tryStream setup.machine setup.builder build boundary parts).1 <;> rfl
    | _ => contradiction
  | tryAdmit =>
    cases owner with
    | ready body =>
      obtain ⟨rfl, rfl⟩ := Prod.mk.inj (Option.some.inj h)
      exact Ready.tryAdmit_settles ..
    | _ => contradiction
  | release =>
    -- a rejection is drained, every other owner becomes a release
    have hother (body : Release) (hrelease : owner.intoRelease = some body) :
        Settles none owner.credit ledger
          ((some (.release body), .done) : Option (Owner B Out S Src) × Outcome) ledger :=
      settles_kept (congrArg some (Owner.credit_intoRelease hrelease))
    cases owner with
    | rejected body =>
      simp only [Act.run, Rejected.tryRelease] at h
      cases hdrain : ledger.tryDrain body.held with
      | error error =>
        rw [hdrain] at h
        obtain ⟨rfl, rfl⟩ := Prod.mk.inj (Option.some.inj h)
        exact settles_kept rfl
      | ok change =>
        rw [hdrain] at h
        obtain ⟨rfl, rfl⟩ := Prod.mk.inj (Option.some.inj h)
        obtain ⟨hzero, hmoves⟩ := Amount.tryDrain_eq_ok hdrain none
        refine ⟨?_, fun _ h => by contradiction⟩
        rw [hzero]
        cases body <;> exact hmoves
    | _ =>
      obtain ⟨rfl, rfl⟩ := Prod.mk.inj (Option.some.inj h)
      exact hother _ rfl
  | discard =>
    simp only [Act.run, Option.map_eq_some_iff] at h
    obtain ⟨release, hrelease, heq⟩ := h
    obtain ⟨rfl, rfl⟩ := Prod.mk.inj heq
    rw [← Owner.credit_intoRelease hrelease]
    exact Release.tryDiscard_settles ..

/-! ## The connection -/

/-- A connection: its ledger and the owners of its bodies' credit. -/
structure Connection (B Out S Src : Type*) where
  ledger : Amount
  owners : List (Owner B Out S Src)

/-- An operation on a connection: a body starts, or one of the owners acts. -/
inductive Op (B Seg S D Q : Type*) where
  | stream (plan : Plan) (limit : ℕ) (boundary : Boundary) (build : B)
  | buffer (plan : Plan) (limit : ℕ) (boundary : Boundary)
  | act (i : ℕ) (act : Act B Seg S D Q)

namespace Connection

/-- A connection without bodies. -/
def new : Connection B Out S Src := ⟨.zero, []⟩

/-- The credit held by all owners. -/
def held (owners : List (Owner B Out S Src)) : Amount where
  bytes := (owners.map fun owner => owner.credit.bytes).sum
  chunks := (owners.map fun owner => owner.credit.chunks).sum

/-- Another owner, or none, in the place of one. -/
def replace (owners : List (Owner B Out S Src)) (i : ℕ) (after : Option (Owner B Out S Src)) :
    List (Owner B Out S Src) :=
  owners.take i ++ after.toList ++ owners.drop (i + 1)

/-- One operation. The result is `none` when there is no such owner, or it has no such
operation. -/
def step (setup : Setup B Out E R Seg S Src) (self : Connection B Out S Src) :
    Op B Seg S D Q → Option (Connection B Out S Src × Outcome)
  | .stream plan limit boundary build =>
    match plan.tryStart limit boundary with
    | .error error => some (self, .refused error)
    | .ok start =>
      some ({ self with owners := self.owners ++ [.stream (.new setup.builder start build)] }, .done)
  | .buffer plan limit boundary =>
    match plan.tryStart limit boundary with
    | .error error => some (self, .refused error)
    | .ok start => some ({ self with owners := self.owners ++ [.buffered (.new start)] }, .done)
  | .act i act =>
    match self.owners[i]? with
    | none => none
    | some owner =>
      (act.run setup self.ledger owner).map fun (result, ledger) =>
        (⟨ledger, replace self.owners i result.1⟩, result.2)

/-- A sequence of operations. -/
def run (setup : Setup B Out E R Seg S Src) (self : Connection B Out S Src) :
    List (Op B Seg S D Q) → Option (Connection B Out S Src)
  | [] => some self
  | op :: ops => (self.step setup op).bind fun (after, _) => after.run setup ops

theorem owners_split {owners : List (Owner B Out S Src)} {i : ℕ} {owner : Owner B Out S Src}
    (h : owners[i]? = some owner) : owners = owners.take i ++ owner :: owners.drop (i + 1) := by
  obtain ⟨hi, rfl⟩ := List.getElem?_eq_some_iff.mp h
  rw [← List.drop_eq_getElem_cons hi, List.take_append_drop]

theorem held_replace {owners : List (Owner B Out S Src)} {i : ℕ} {owner : Owner B Out S Src}
    (h : owners[i]? = some owner) (after : Option (Owner B Out S Src)) :
    (held (replace owners i after)).bytes + owner.credit.bytes =
        (held owners).bytes + (heldBy after).bytes ∧
      (held (replace owners i after)).chunks + owner.credit.chunks =
        (held owners).chunks + (heldBy after).chunks := by
  have hsplit := owners_split h
  have hafter : (after.toList.map fun owner => owner.credit.bytes).sum = (heldBy after).bytes ∧
      (after.toList.map fun owner => owner.credit.chunks).sum = (heldBy after).chunks := by
    cases after with
    | none => exact ⟨rfl, rfl⟩
    | some owner => simp [heldBy]
  have hheld : held owners = held (owners.take i ++ owner :: owners.drop (i + 1)) :=
    congrArg held hsplit
  rw [hheld]
  simp only [held, replace, List.map_append, List.sum_append, List.map_cons, List.sum_cons,
    hafter.1, hafter.2]
  omega

theorem credit_le_held {owners : List (Owner B Out S Src)} {owner : Owner B Out S Src}
    (h : owner ∈ owners) :
    owner.credit.bytes ≤ (held owners).bytes ∧ owner.credit.chunks ≤ (held owners).chunks :=
  ⟨List.single_le_sum (by simp) _ (List.mem_map_of_mem h),
    List.single_le_sum (by simp) _ (List.mem_map_of_mem h)⟩

/-- The ledger is what the owners hold. -/
def Conserved (self : Connection B Out S Src) : Prop := self.ledger = held self.owners

theorem credit_new (builder : Builder B Out E R Seg) (start : Start) (build : B) :
    (Owner.stream (.new builder start build) : Owner B Out S Src).credit = .zero := by
  cases start <;> rfl

theorem Conserved.append {self : Connection B Out S Src} (h : self.Conserved)
    {owner : Owner B Out S Src} (hcredit : owner.credit = .zero) :
    Conserved { self with owners := self.owners ++ [owner] } := by
  rw [Conserved] at h ⊢
  simp only [h, held, List.map_append, List.sum_append, List.map_cons, List.map_nil,
    List.sum_singleton, hcredit, Amount.zero, Nat.add_zero]

theorem Conserved.step {setup : Setup B Out E R Seg S Src} {self after : Connection B Out S Src}
    (h : self.Conserved) {op : Op B Seg S D Q} {outcome : Outcome}
    (hstep : self.step setup op = some (after, outcome)) : after.Conserved := by
  cases op with
  | stream plan limit boundary build =>
    simp only [Connection.step] at hstep
    split at hstep
    · obtain ⟨rfl, -⟩ := Prod.mk.inj (Option.some.inj hstep)
      exact h
    · obtain ⟨rfl, -⟩ := Prod.mk.inj (Option.some.inj hstep)
      exact h.append (credit_new ..)
  | buffer plan limit boundary =>
    simp only [Connection.step] at hstep
    split at hstep
    · obtain ⟨rfl, -⟩ := Prod.mk.inj (Option.some.inj hstep)
      exact h
    · obtain ⟨rfl, -⟩ := Prod.mk.inj (Option.some.inj hstep)
      exact h.append rfl
  | act i act =>
    simp only [Connection.step] at hstep
    split at hstep
    · contradiction
    · rename_i owner howner
      obtain ⟨⟨result, ledger⟩, hrun, heq⟩ := Option.map_eq_some_iff.mp hstep
      obtain ⟨rfl, -⟩ := Prod.mk.inj heq
      have hbalanced := (Act.run_settles hrun).moves.balanced
      have hheld := held_replace howner result.1
      rw [Conserved] at h ⊢
      rw [h] at hbalanced
      refine Amount.ext ?_ ?_
      · simp only
        omega
      · simp only
        omega

theorem Conserved.run {setup : Setup B Out E R Seg S Src} {self last : Connection B Out S Src}
    (h : self.Conserved) {ops : List (Op B Seg S D Q)} (hrun : self.run setup ops = some last) :
    last.Conserved := by
  induction ops generalizing self with
  | nil => exact Option.some.inj hrun ▸ h
  | cons op ops ih =>
    rw [Connection.run, Option.bind_eq_some_iff] at hrun
    obtain ⟨⟨after, outcome⟩, hstep, hrest⟩ := hrun
    exact ih (h.step hstep) hrest

theorem credits_of_refused {setup : Setup B Out E R Seg S Src} {self after : Connection B Out S Src}
    {op : Op B Seg S D Q} {error : Error} (hstep : self.step setup op = some (after, .refused error))
    (hbound : error.isBound = true) :
    after.ledger = self.ledger ∧ after.owners.map Owner.credit = self.owners.map Owner.credit := by
  cases op with
  | stream plan limit boundary build =>
    simp only [Connection.step] at hstep
    split at hstep
    · obtain ⟨rfl, -⟩ := Prod.mk.inj (Option.some.inj hstep)
      exact ⟨rfl, rfl⟩
    · simp at hstep
  | buffer plan limit boundary =>
    simp only [Connection.step] at hstep
    split at hstep
    · obtain ⟨rfl, -⟩ := Prod.mk.inj (Option.some.inj hstep)
      exact ⟨rfl, rfl⟩
    · simp at hstep
  | act i act =>
    simp only [Connection.step] at hstep
    split at hstep
    · contradiction
    · rename_i owner howner
      obtain ⟨⟨result, ledger⟩, hrun, heq⟩ := Option.map_eq_some_iff.mp hstep
      obtain ⟨rfl, hresult⟩ := Prod.mk.inj heq
      obtain ⟨hheld, hledger⟩ := (Act.run_settles hrun).refused error hresult hbound
      obtain ⟨owner', howner', hcredit⟩ := Option.map_eq_some_iff.mp hheld
      refine ⟨hledger, ?_⟩
      have hsplit := congrArg (List.map Owner.credit) (owners_split howner)
      rw [hsplit]
      simp only [replace, howner', Option.toList_some, List.map_append, List.map_cons,
        hcredit, List.append_assoc, List.cons_append, List.nil_append]

theorem Conserved.discard {setup : Setup B Out E R Seg S Src} {self after : Connection B Out S Src}
    (h : self.Conserved) {i : ℕ} {outcome : Outcome}
    (hstep : self.step setup (.act i .discard : Op B Seg S D Q) = some (after, outcome)) :
    outcome = .done := by
  simp only [Connection.step] at hstep
  split at hstep
  · contradiction
  · rename_i owner howner
    obtain ⟨⟨result, ledger⟩, hrun, heq⟩ := Option.map_eq_some_iff.mp hstep
    obtain ⟨-, rfl⟩ := Prod.mk.inj heq
    simp only [Act.run, Option.map_eq_some_iff] at hrun
    obtain ⟨release, hrelease, heq⟩ := hrun
    obtain ⟨rfl, -⟩ := Prod.mk.inj heq
    obtain ⟨hbytes, hchunks⟩ := credit_le_held (List.mem_of_getElem? howner)
    rw [← h, ← Owner.credit_intoRelease hrelease] at hbytes hchunks
    obtain ⟨change, hchange⟩ := Amount.tryDrain_of_le hbytes hchunks
    rw [Release.tryDiscard, hchange]
    rfl

/-- What holds of the credit of a connection. -/
structure KeepsCredit (D Q : Type*) (setup : Setup B Out E R Seg S Src)
    (connection : Connection B Out S Src) : Prop where
  /-- The ledger is the sum of the credits still held. -/
  conserved : connection.ledger = held connection.owners
  /-- An operation that grows the ledger leaves request and connection within their limits. -/
  reserves : ∀ (i : ℕ) owner (act : Act B Seg S D Q) result ledger,
    connection.owners[i]? = some owner →
    act.run setup connection.ledger owner = some (result, ledger) →
    connection.ledger.bytes < ledger.bytes ∨ connection.ledger.chunks < ledger.chunks →
    ∃ requestMax connectionMax, act.limits = some (requestMax, connectionMax) ∧
      (heldBy result.1).Fits requestMax ∧ ledger.Fits connectionMax
  /-- An operation refused by a limit, an overflow or an underflow changes neither side. -/
  refuses : ∀ (op : Op B Seg S D Q) after error,
    connection.step setup op = some (after, .refused error) → error.isBound = true →
    after.ledger = connection.ledger ∧
      after.owners.map Owner.credit = connection.owners.map Owner.credit
  /-- No discard is rejected. -/
  discards : ∀ i after outcome,
    connection.step setup (.act i .discard : Op B Seg S D Q) = some (after, outcome) →
    outcome = .done
  /-- The ledger is zero once nothing is held. -/
  settled : (∀ owner ∈ connection.owners, owner.credit = .zero) → connection.ledger = .zero

/-- Credit is conserved: along every sequence of operations on any number of bodies the ledger is
the sum of what they hold. -/
theorem run_keepsCredit {setup : Setup B Out E R Seg S Src} {ops : List (Op B Seg S D Q)}
    {connection : Connection B Out S Src} (hrun : new.run setup ops = some connection) :
    KeepsCredit D Q setup connection := by
  have hnew : (new : Connection B Out S Src).Conserved := rfl
  have hconserved := hnew.run hrun
  refine ⟨hconserved, ?_, fun op after error => credits_of_refused, ?_, ?_⟩
  · intro i owner act result ledger _ hact hgrows
    exact (Act.run_settles hact).moves.fits hgrows
  · intro i after outcome hstep
    exact hconserved.discard hstep
  · intro hzero
    rw [hconserved]
    have hbytes : ∀ x ∈ connection.owners.map fun owner => owner.credit.bytes, x = 0 := by
      simp only [List.mem_map, forall_exists_index, and_imp]
      rintro _ owner howner rfl
      rw [hzero owner howner]
      rfl
    have hchunks : ∀ x ∈ connection.owners.map fun owner => owner.credit.chunks, x = 0 := by
      simp only [List.mem_map, forall_exists_index, and_imp]
      rintro _ owner howner rfl
      rw [hzero owner howner]
      rfl
    exact Amount.ext (List.sum_eq_zero hbytes) (List.sum_eq_zero hchunks)

instance : Segment ℕ := ⟨id⟩

/-- A connection on a 64-bit machine whose buffers store nothing. -/
def plainSetup : Setup Unit Unit Unit Unit ℕ Unit Unit where
  machine := ⟨2 ^ 64 - 1, 2 ^ 64 - 1⟩
  builder := ⟨fun _ _ => (), fun _ _ => .pending () .zero, fun _ _ => .accepted ()⟩
  store := ⟨fun _ => (), fun _ => 0⟩

/-- A buffer of at most 10 bytes that has retained one chunk of 3. -/
theorem keepsCredit_threeBytes :
    KeepsCredit Unit Unit plainSetup (⟨⟨3, 1⟩, [.buffered
      ⟨⟨⟨.limit, 10, .retained, .buffered, .more, 3, by decide⟩, ⟨3, 1⟩⟩, some ()⟩]⟩ :
        Connection Unit Unit Unit Unit) :=
  run_keepsCredit
    (show new.run plainSetup
      [(.buffer (.unknown 10 .retained .buffered) 10 .more : Op Unit ℕ Unit Unit Unit),
        .act 0 (.retain () 3 1 ⟨10, 10⟩ ⟨20, 20⟩ fun _ _ => .accepted (some ()))] = some _ by rfl)

end Connection

end Sark.Body
