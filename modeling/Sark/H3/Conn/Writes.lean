import Sark.H3.Conn.Budget

/-!
# The write queues

The writes of a connection wait in two lanes, one for critical writes and one for regular ones; the
QPACK feedback is a third source (`h3/src/conn/io/write/`). All three are charged against one
budget. A write that is taken stays charged until it is committed, or is put back at the front of
its lane; whoever holds it holds the queues and the budget, so that nothing else happens meanwhile.

The slots of the lanes are counted elsewhere: whether the ledger of the lanes has room for a write
is part of the step (`slot`, `slots`, `published`). So is what the table of the decoder does with
the insertions that it reads (`applied`).

* `Queues.step`: every operation on the queues.
-/

namespace Sark.H3

open Qpack (Feedback FeedbackError Instruction)

/-! ## Writes -/

/-- `hold::Charge`. -/
structure HoldCharge where
  logicalBytes : ℕ
  residentBytes : ℕ
  owners : ℕ
  deriving DecidableEq, Repr

/-- `hold::Charge::try_add`. -/
def HoldCharge.tryAdd (self other : HoldCharge) : Option HoldCharge :=
  if self.logicalBytes + other.logicalBytes ≤ usizeMax ∧
      self.residentBytes + other.residentBytes ≤ usizeMax ∧ self.owners + other.owners ≤ usizeMax
  then some ⟨self.logicalBytes + other.logicalBytes, self.residentBytes + other.residentBytes,
    self.owners + other.owners⟩
  else none

/-- `output::WritePrefix`, with the length of its bytes and the capacity of an owned buffer. -/
inductive WritePrefix
  | inline (len : ℕ)
  | owned (len capacity : ℕ)
  deriving DecidableEq, Repr

/-- `WritePrefix::charge`. -/
def WritePrefix.charge : WritePrefix → WriteCharge
  | .inline len => ⟨len, 0⟩
  | .owned len capacity => ⟨len, capacity⟩

/-- `output::WritePayload`, with the charge that it measures. -/
structure WritePayload where
  measure : WriteCharge
  deriving DecidableEq, Repr

/-- The charge of a frame: of its first bytes and its payload. -/
def frameCharge (first : WritePrefix) (payload : Option WritePayload) : WriteCharge :=
  first.charge.add ((payload.map WritePayload.measure).getD .zero)

/-- `plan::Record`: a frozen frame that waits to be sent. Its sums fit the machine, and its measured
charge bounds what its owners retain. -/
structure Record where
  streamId : ℕ
  first : WritePrefix
  payload : Option WritePayload
  retained : HoldCharge
  wireBytes_le : (frameCharge first payload).wireBytes ≤ usizeMax
  residentBytes_le : (frameCharge first payload).residentBytes ≤ usizeMax
  logical_le : retained.logicalBytes ≤ (frameCharge first payload).wireBytes
  resident_le : retained.residentBytes ≤ (frameCharge first payload).residentBytes
  owners_le : retained.owners ≤ (frameCharge first payload).residentBytes
  deriving DecidableEq, Repr

/-- `Record::charge`. -/
def Record.charge (self : Record) : WriteCharge :=
  frameCharge self.first self.payload

/-- `plan::Plan` with its target: a frame whose charge was measured when it was built. -/
structure Plan where
  record : Record
  charge : WriteCharge
  charge_eq : charge = record.charge
  deriving DecidableEq, Repr

/-- `Entry`. -/
structure Entry where
  kind : WriteClass
  plan : Plan
  deriving DecidableEq, Repr

/-! ## Queues -/

/-- `Source` with its write, while the write is taken. -/
inductive Taken
  | queued (kind : WriteClass) (record : Record)
  | decoderFeedback
  deriving DecidableEq, Repr

/-- `Queues` with the feedback wire, and the write that is taken from them. `decoderOpen` says
whether the decoder stream was opened. -/
structure Queues where
  regular : List Record
  critical : List Record
  feedback : Feedback
  decoderOpen : Bool
  budget : WriteBudget
  regularWriteLimit : ℕ
  taken : Option Taken
  deriving DecidableEq, Repr

/-- The capacities of a connection, as its options admit them, and the size of the inline buffer of
the feedback. -/
structure Capacities where
  writes : ℕ
  wireBytes : ℕ
  residentBytes : ℕ
  inlineBytes : ℕ
  writes_ge : 2 ≤ writes
  wireBytes_ge : 2 ≤ wireBytes
  residentBytes_ge : 2 ≤ residentBytes
  wireBytes_le : wireBytes ≤ usizeMax
  residentBytes_le : residentBytes ≤ usizeMax
  inlineBytes_pos : 0 < inlineBytes

/-- How an operation ends. While a write is taken nothing else can be done. -/
inductive Verdict
  | done
  | refused (error : WriteError)
  | busy
  deriving DecidableEq, Repr

/-- The operations on the queues. -/
inductive Op
  | single (entry : Entry) (slot : Bool)
  | batch (entries : List Entry) (slots published : Bool)
  | take
  | commit
  | restore
  | discard (streamId : ℕ)
  | prepare (inst : Instruction) (committed : Bool)
  | ingest (applied : List Bool)
  | openDecoder

namespace Queues

/-- The queues of a new connection. -/
def new (capacities : Capacities) : Option Queues := do
  let regularWriteLimit ← regularLimit capacities.writes 64
  let budget ← WriteBudget.new capacities.wireBytes capacities.residentBytes
  some ⟨[], [], .new, false, budget, regularWriteLimit, none⟩

/-- `lane(class)`. -/
def lane (self : Queues) : WriteClass → List Record
  | .regular => self.regular
  | .critical => self.critical

/-- The queues with another content of one lane. -/
def withLane (self : Queues) (kind : WriteClass) (records : List Record) : Queues :=
  match kind with
  | .regular => { self with regular := records }
  | .critical => { self with critical := records }

/-- A write goes to the back of its lane. -/
def insert (self : Queues) (entry : Entry) : Queues :=
  self.withLane entry.kind (self.lane entry.kind ++ [entry.plan.record])

/-- `Single::new` and `Single::commit`. -/
def single (self : Queues) (entry : Entry) (slot : Bool) : Queues × Verdict :=
  if entry.kind = .regular ∧ self.regularWriteLimit ≤ self.regular.length then
    (self, .refused (.queueRegular self.regular.length 1 self.regularWriteLimit))
  else
    let (regular, critical) : WriteCharge × WriteCharge :=
      match entry.kind with
      | .regular => (entry.plan.charge, .zero)
      | .critical => (.zero, entry.plan.charge)
    match self.budget.tryReserve regular critical with
    | .error error => (self, .refused error)
    | .ok change =>
      if slot then (({ self with budget := self.budget.commit change } : Queues).insert entry, .done)
      else (self, .refused .egress)

/-- The sums of the charges of a batch, of its regular and of its critical writes. -/
def sums : List Entry → WriteCharge → WriteCharge → Except WriteError (WriteCharge × WriteCharge)
  | [], regular, critical => .ok (regular, critical)
  | entry :: entries, regular, critical =>
    match entry.kind with
    | .regular =>
      match WriteClass.regular.tryAdd regular entry.plan.charge with
      | .error error => .error error
      | .ok regular => sums entries regular critical
    | .critical =>
      match WriteClass.critical.tryAdd critical entry.plan.charge with
      | .error error => .error error
      | .ok critical => sums entries regular critical

/-- `Permit::new` and `Permit::commit`. -/
def batch (self : Queues) (entries : List Entry) (slots published : Bool) : Queues × Verdict :=
  let added := (entries.filter fun entry => entry.kind = .regular).length
  if usizeMax < self.regular.length + added ∨
      self.regularWriteLimit < self.regular.length + added then
    (self, .refused (.queueRegular self.regular.length added self.regularWriteLimit))
  else
    match sums entries .zero .zero with
    | .error error => (self, .refused error)
    | .ok (regular, critical) =>
      match self.budget.tryReserve regular critical with
      | .error error => (self, .refused error)
      | .ok change =>
        if slots && published then
          (entries.foldl insert { self with budget := self.budget.commit change }, .done)
        else (self, .refused .egress)

/-- `take_first` of one lane, and `TakenWrite::with`: a write whose charge cannot be released goes
back. -/
def takeLane (self : Queues) (kind : WriteClass) (record : Record) (rest : List Record) :
    Queues × Verdict :=
  match self.budget.tryRelease kind record.charge with
  | .error error => (self, .refused error)
  | .ok _ => ({ self.withLane kind rest with taken := some (.queued kind record) }, .done)

/-- `Queues::take` and `TakenWrite::with`. -/
def take (self : Queues) : Queues × Verdict :=
  if self.decoderOpen ∧ self.feedback.len ≠ 0 then
    match self.budget.tryRelease .critical ⟨self.feedback.len, 0⟩ with
    | .error error => (self, .refused error)
    | .ok _ => ({ self with taken := some .decoderFeedback }, .done)
  else
    match self.critical, self.regular with
    | record :: rest, _ => self.takeLane .critical record rest
    | [], record :: rest => self.takeLane .regular record rest
    | [], [] => (self, .done)

/-- `Prepared::commit`. -/
def commit (self : Queues) (taken : Taken) : Option (Queues × Verdict) :=
  match taken with
  | .queued kind record => do
    let budget ← Release.commit ⟨kind, record.charge⟩ self.budget
    some ({ self with budget, taken := none }, .done)
  | .decoderFeedback => do
    let budget ← Release.commit ⟨.critical, ⟨self.feedback.len, 0⟩⟩ self.budget
    some ({ self with budget, feedback := self.feedback.clear, taken := none }, .done)

/-- `Prepared::restore`. -/
def restore (self : Queues) (taken : Taken) : Queues :=
  match taken with
  | .queued kind record =>
    { self.withLane kind (record :: self.lane kind) with taken := none }
  | .decoderFeedback => { self with taken := none }

/-- The loop of `Queues::discard`, over what is left of the regular lane: what stays in it, and the
budget. -/
def drain (streamId : ℕ) :
    List Record → WriteBudget → HoldCharge → Option (List Record × WriteBudget × Verdict)
  | [], budget, _ => some ([], budget, .done)
  | record :: records, budget, retired =>
    if record.streamId ≠ streamId then do
      let (kept, budget, verdict) ← drain streamId records budget retired
      some (record :: kept, budget, verdict)
    else
      match retired.tryAdd record.retained with
      | none => some (record :: records, budget, .refused .retention)
      | some retired =>
        match budget.tryRelease .regular record.charge with
        | .error error => some (record :: records, budget, .refused error)
        | .ok release => do
          let budget ← release.commit budget
          drain streamId records budget retired

/-- `Queues::discard`. -/
def discard (self : Queues) (streamId : ℕ) : Option (Queues × Verdict) := do
  let (regular, budget, verdict) ← drain streamId self.regular self.budget ⟨0, 0, 0⟩
  some ({ self with regular, budget }, verdict)

/-! ## Feedback -/

/-- `Feedback::limit`: until the decoder stream is open, a byte is kept for its stream type. -/
def limit (capacity : ℕ) (self : Queues) : Option ℕ := do
  let kept := if self.decoderOpen then 0 else 1
  let inline ← Fallible.sub capacity kept
  let used := min self.feedback.len inline
  let left ← self.budget.wireLeft
  let rest ← Fallible.sub inline used
  some (used + min (left - kept) rest)

/-- `FeedbackMut::prepare` and `Prepared::commit`, if the operation it is prepared for succeeds. -/
def prepare (capacity : ℕ) (self : Queues) (inst : Instruction) (committed : Bool) :
    Option (Queues × Verdict) := do
  let limit ← self.limit capacity
  match self.feedback.tryPush capacity inst limit with
  | .error (.capacity len additional maximum) =>
    if self.budget.limit.wireBytes < additional then
      some (self, .refused (.budgetWire self.budget.retained.wireBytes additional
        self.budget.limit.wireBytes))
    else some (self, .refused (.feedback (.capacity len additional maximum)))
  | .error error => some (self, .refused (.feedback error))
  | .ok next =>
    let growth ← Fallible.sub next.len self.feedback.len
    match self.budget.tryRetain growth with
    | .error error => some (self, .refused error)
    | .ok change =>
      if committed then
        some ({ self with feedback := next, budget := self.budget.commit change }, .done)
      else some (self, .done)

/-- `FeedbackMut::try_ingest`. -/
def ingest (capacity : ℕ) (self : Queues) (applied : List Bool) : Option (Queues × Verdict) := do
  let limit ← self.limit capacity
  match Allowance.tryNew self.budget self.feedback.len (min limit capacity) with
  | .error error => some (self, .refused error)
  | .ok allowance =>
    let (feedback, growth) ← self.feedback.ingest capacity (min limit capacity) applied
    let budget ← allowance.commit self.budget growth
    some ({ self with feedback, budget }, .done)

/-- `FeedbackMut::try_prepend`. -/
def prepend (capacity : ℕ) (self : Queues) (first : UInt8) : Option (Queues × Verdict) := do
  let used := min self.feedback.len capacity
  let left ← self.budget.wireLeft
  let rest ← Fallible.sub capacity used
  match self.feedback.tryPrepend capacity first (used + min left rest) with
  | .error error => some (self, .refused (.feedback error))
  | .ok next =>
    let growth ← Fallible.sub next.len self.feedback.len
    match self.budget.tryRetain growth with
    | .error error => some (self, .refused error)
    | .ok change =>
      some ({ self with feedback := next, budget := self.budget.commit change }, .done)

/-- `frame::STREAM_TYPE_QPACK_DECODER`. -/
def streamTypeQpackDecoder : UInt8 :=
  3

/-- `open_decoder`, on a stream of the right kind. -/
def openDecoder (capacity : ℕ) (self : Queues) : Option (Queues × Verdict) :=
  if self.decoderOpen then some (self, .refused .decoderExists)
  else do
    let (queues, verdict) ← self.prepend capacity streamTypeQpackDecoder
    match verdict with
    | .done => some ({ queues with decoderOpen := true }, .done)
    | verdict => some (queues, verdict)

/-! ## Steps -/

/-- One operation. There is no result where arithmetic leaves the machine's range. -/
def step (capacity : ℕ) (self : Queues) (op : Op) : Option (Queues × Verdict) :=
  match self.taken, op with
  | some taken, .commit => self.commit taken
  | some taken, .restore => some (self.restore taken, .done)
  | some _, _ => some (self, .busy)
  | none, .single entry slot => some (self.single entry slot)
  | none, .batch entries slots published => some (self.batch entries slots published)
  | none, .take => some self.take
  | none, .commit | none, .restore => some (self, .busy)
  | none, .discard streamId => self.discard streamId
  | none, .prepare inst committed => self.prepare capacity inst committed
  | none, .ingest applied => self.ingest capacity applied
  | none, .openDecoder => self.openDecoder capacity

/-- A run of operations. -/
def run (capacity : ℕ) : Queues → List Op → Option Queues
  | self, [] => some self
  | self, op :: ops => do
    let (next, _) ← self.step capacity op
    next.run capacity ops

end Queues

end Sark.H3
