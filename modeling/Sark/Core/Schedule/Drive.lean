import Sark.Library.LaneTable

/-!
# The stream scheduler

The records of a connection's streams and the lanes that they wait in
(`core/src/manifold/schedule`). A record waits for a control turn or for a data turn, or it is
blocked on the connection, on its stream or on egress. A drive serves the ready lanes in rounds: one
control turn, and one data turn for every record that was ready when the round began.

The lanes are a `LaneTable`. The driver stands for any payload: it has a state of its own and
answers each call as it likes. A record that a driver gets by reference is handed to it as a value
and comes back with the answer.

`Served` and `RoundLog` are not in the source. They note which turns a drive performed.
-/

namespace Sark.Schedule

open ResidentHeap (Indexed)

/-! ## Lanes and policy -/

/-- The lanes, numbered in this order. -/
inductive Lane where
  | controlReady
  | dataReady
  | connectionWait
  | streamWait
  | controlEgressWait
  | controlConnectionWait
  | controlStreamWait
  deriving DecidableEq, Repr

/-- `ALL`. -/
def Lane.all : List Lane :=
  [.controlReady, .dataReady, .connectionWait, .streamWait, .controlEgressWait,
    .controlConnectionWait, .controlStreamWait]

instance : FinEnum Lane :=
  FinEnum.ofList Lane.all (by intro lane; cases lane <;> simp [Lane.all])

/-- What owns the next wakeup of a blocked stream. -/
inductive Wait where
  | connection
  | stream
  | egress
  deriving DecidableEq, Repr

/-- The classification of a carrier's blocked result. -/
class Block (B : Type) where
  wait : B → Wait

/-- A wakeup that the carrier delivers. -/
inductive Wake (K : Type) where
  | connection
  | stream (key : K)

/-- `schedule::Turn`, the answer of a data-only driver. -/
inductive Turn (B : Type) where
  | complete
  | progress
  | blocked (block : B)
  | idle

/-- The kind of a stream's turn. -/
inductive WorkClass where
  | control
  | data
  deriving DecidableEq, Repr

def WorkClass.readyLane : WorkClass → Lane
  | .control => .controlReady
  | .data => .dataReady

/-- The lane of a record of this class. Data that waits for egress keeps its place in the ready
lane. -/
def WorkClass.blockedLane (work : WorkClass) (blocked : Option Wait) : Lane :=
  match blocked, work with
  | none, work => work.readyLane
  | some .egress, .control => .controlEgressWait
  | some .egress, .data => .dataReady
  | some .connection, .control => .controlConnectionWait
  | some .connection, .data => .connectionWait
  | some .stream, .control => .controlStreamWait
  | some .stream, .data => .streamWait

/-- `DataTurn`, which is also `Step`. -/
inductive DataTurn (B : Type) where
  | complete
  | progress (next : WorkClass)
  | blocked (block : B)
  | idle

/-- A control turn and how the stream continues. A fused turn did data work. -/
structure ControlTurn (B : Type) where
  step : DataTurn B
  activity : WorkClass

/-- The answer to a control turn that consumed its record. -/
inductive Control (T B E : Type) where
  | retain (value : T) (turn : ControlTurn B)
  | failed (value : T) (error : E)
  | complete
  | remove

/-- Where a record goes after a terminal event. -/
inductive Settlement (T : Type) where
  | keep (value : T)
  | remove

inductive Terminal (E : Type) where
  | complete
  | idle
  | failed (error : E)

/-- Whether a transaction also makes its record runnable. -/
inductive Activation (B : Type) where
  | keep
  | activate (blocked : Option B) (work : WorkClass)

/-- Which class a round serves first. -/
inductive Round where
  | single
  | controlFirst
  | dataFirst
  deriving DecidableEq, Repr

/-- `Policy`, with its two bits as fields. -/
structure Policy where
  preferData : Bool := false
  dataBlocked : Bool := false
  deriving DecidableEq, Repr

namespace Policy

def isDataNext (policy : Policy) : Bool := policy.preferData

def isBlocked (policy : Policy) : Bool := policy.dataBlocked

def blockData (policy : Policy) : Policy := { policy with dataBlocked := true }

def releaseData (policy : Policy) : Policy := { policy with dataBlocked := false }

def finishRound (policy : Policy) (round : Round) (activity : WorkClass) : Policy :=
  match round, activity with
  | .dataFirst, .data => { policy with preferData := false }
  | .single, .data => { policy with preferData := false }
  | .controlFirst, .control => { policy with preferData := true }
  | .single, .control => { policy with preferData := true }
  | .dataFirst, .control => { policy with preferData := false }
  | .controlFirst, .data => { policy with preferData := true }

@[simp]
theorem finishRound_dataBlocked (policy : Policy) (round : Round) (activity : WorkClass) :
    (policy.finishRound round activity).dataBlocked = policy.dataBlocked := by
  cases round <;> cases activity <;> rfl

end Policy

/-- The records of a scheduler and their lanes. -/
abbrev Table (K T : Type) := LaneTable K T Lane

/-! ## Turns -/

/-- How a driver uses the entry of a control turn: it borrows the record or it consumes it. -/
inductive Quantum (T B E : Type) where
  | borrowed (value : T) (turn : Except E (ControlTurn B))
  | owned (answer : Control T B E)

/-- `Driver` and `Settle`, over a state of the driver's own. -/
structure Driver (K T B E P σ : Type) where
  permit : σ → Option P × σ
  control : P → K → T → σ → Quantum T B E × σ
  data : P → K → T → σ → Except E (DataTurn B) × T × σ
  settle : K → T → Terminal E → σ → Settlement T × σ

namespace Drive

/-- What a turn does beyond moving its record. -/
inductive Effect where
  | none
  | complete
  | blockData
  deriving DecidableEq, Repr

/-- `TurnOutcome`, with a note whether the turn was a terminal step. -/
structure TurnOutcome (K : Type) where
  stream : K
  activity : WorkClass
  effect : Effect
  terminal : Bool

/-- `drive::Turn`. -/
inductive Turn (K : Type) where
  | empty
  | blocked
  | ready (outcome : TurnOutcome K)

/-- The records and the driver that a turn works on, `Uniform`. -/
structure Domain (K T σ : Type) where
  table : Table K T
  driver : σ

section Turns

variable {K T B E P σ : Type} [Indexed K] [DecidableEq K] [Block B]
  (driver : Driver K T B E P σ)

/-- `Decision::running`. -/
def running (stream : K) (activity : WorkClass) : TurnOutcome K :=
  ⟨stream, activity, .none, false⟩

/-- `Decision::blocked`. -/
def blocked (stream : K) (activity : WorkClass) : TurnOutcome K :=
  ⟨stream, activity, .blockData, false⟩

/-- `settle`: the driver keeps or drops a record that was taken out of the table. -/
def settle (domain : Domain K T σ) (stream : K) (value : T) (terminal : Terminal E)
    (activity : WorkClass) : TurnOutcome K × Domain K T σ :=
  let effect : Effect :=
    match terminal with
    | .complete => .complete
    | .idle => .none
    | .failed _ => .none
  match driver.settle stream value terminal domain.driver with
  | (.keep value, state) =>
    (⟨stream, activity, effect, true⟩, ⟨domain.table.put stream value, state⟩)
  | (.remove, state) => (⟨stream, activity, effect, true⟩, ⟨domain.table, state⟩)

/-- `finish`: takes the record and settles it. -/
def finish (domain : Domain K T σ) (stream : K) (value : T) (terminal : Terminal E)
    (activity : WorkClass) : TurnOutcome K × Domain K T σ :=
  settle driver { domain with table := domain.table.remove stream } stream value terminal activity

/-- `borrowed`: the continuation of a record that stayed in the table. -/
def borrowed (domain : Domain K T σ) (stream : K) (value : T) (step : DataTurn B)
    (activity : WorkClass) : TurnOutcome K × Domain K T σ :=
  match step with
  | .complete => finish driver domain stream value .complete activity
  | .progress next =>
    (running stream activity,
      { domain with table := domain.table.moveToBack stream next.readyLane })
  | .blocked block =>
    let wait := Block.wait block
    let isBlocked := decide (wait = .egress ∧ activity = .data)
    -- data that waits for egress keeps its place in the queue
    let table :=
      if !isBlocked || domain.table.lane stream != some .dataReady then
        domain.table.moveToBack stream (activity.blockedLane (some wait))
      else domain.table
    (if isBlocked then blocked stream activity else running stream activity,
      { domain with table := table })
  | .idle => finish driver domain stream value .idle activity

/-- `decide`: the continuation of a record that was taken out of the table. -/
def decide (domain : Domain K T σ) (stream : K) (value : T) (step : DataTurn B)
    (activity : WorkClass) : TurnOutcome K × Domain K T σ :=
  match step with
  | .complete => settle driver domain stream value .complete activity
  | .progress next =>
    (running stream activity,
      { domain with table := (domain.table.put stream value).moveToBack stream next.readyLane })
  | .blocked block =>
    let wait := Block.wait block
    let lane := activity.blockedLane (some wait)
    let decision :=
      match wait, activity with
      | .egress, .data => blocked stream activity
      | _, _ => running stream activity
    (decision, { domain with table := (domain.table.put stream value).moveToBack stream lane })
  | .idle => settle driver domain stream value .idle activity

/-- `control`: a control turn that consumed its record. -/
def owned (domain : Domain K T σ) (stream : K) (answer : Control T B E) :
    TurnOutcome K × Domain K T σ :=
  let vacant := { domain with table := domain.table.remove stream }
  match answer with
  | .retain value turn => decide driver vacant stream value turn.step turn.activity
  | .complete => (⟨stream, .control, .complete, true⟩, vacant)
  | .remove => (running stream .control, vacant)
  | .failed value error => settle driver vacant stream value (.failed error) .control

/-- `Driver::control` and the way its entry was used. -/
def control (domain : Domain K T σ) (stream : K) (value : T) (permit : P) :
    TurnOutcome K × Domain K T σ :=
  match driver.control permit stream value domain.driver with
  | (.borrowed value (.ok turn), state) =>
    borrowed driver ⟨domain.table.put stream value, state⟩ stream value turn.step turn.activity
  | (.borrowed value (.error error), state) =>
    finish driver ⟨domain.table.put stream value, state⟩ stream value (.failed error) .control
  | (.owned answer, state) => owned driver { domain with driver := state } stream answer

/-- `data`. -/
def data (domain : Domain K T σ) (stream : K) (value : T) (permit : P) :
    TurnOutcome K × Domain K T σ :=
  match driver.data permit stream value domain.driver with
  | (.ok step, value, state) =>
    borrowed driver ⟨domain.table.put stream value, state⟩ stream value step .data
  | (.error error, value, state) =>
    finish driver ⟨domain.table.put stream value, state⟩ stream value (.failed error) .data

/-- `Source::turn`: one turn of the record at the front of a lane. -/
def turn (domain : Domain K T σ) (source : Lane) (work : WorkClass) :
    Turn K × Domain K T σ :=
  match domain.table.front source with
  | none => (.empty, domain)
  | some stream =>
    match domain.table.get stream with
    | none => (.empty, domain)
    | some value =>
      match driver.permit domain.driver with
      | (none, state) => (.blocked, { domain with driver := state })
      | (some permit, state) =>
        let turned :=
          match work with
          | .control => control driver { domain with driver := state } stream value permit
          | .data => data driver { domain with driver := state } stream value permit
        (.ready turned.1, turned.2)

end Turns

end Drive

/-! ## Drives -/

/-- `Report`. -/
structure Report where
  turns : ℕ := 0
  completed : ℕ := 0
  deriving DecidableEq, Repr

/-- A turn that a drive performed. -/
structure Served (K : Type) where
  stream : K
  work : WorkClass
  terminal : Bool
  deriving DecidableEq, Repr

/-- `Drive`, with the turns that it performed. -/
structure Drive (K T σ : Type) where
  domain : Drive.Domain K T σ
  policy : Policy
  report : Report := {}
  remaining : ℕ
  served : List (Served K) := []

namespace Drive

/-- Where the body of a round is: whether it ended early, whether the last record that was ready has
had its turn, and the class of its first turn. -/
structure Stage (K T σ : Type) where
  stop : Bool := false
  done : Bool := false
  activity : Option WorkClass := none
  drive : Drive K T σ

/-- A round of a drive, from its start to its end. -/
structure RoundLog (K T σ : Type) where
  kind : Round
  before : Drive K T σ
  after : Drive K T σ
  stop : Bool

variable {K T B E P σ : Type} [Indexed K] [DecidableEq K] [Block B]
  (driver : Driver K T B E P σ)

/-- `Drive::with`. -/
def start (table : Table K T) (state : σ) (policy : Policy) : Drive K T σ where
  domain := ⟨table, state⟩
  policy := policy
  remaining := table.len

/-- `Drive::one`. -/
def one (drive : Drive K T σ) (source : Lane) (work : WorkClass) : Turn K × Drive K T σ :=
  match turn driver drive.domain source work with
  | (.ready outcome, domain) =>
    let policy :=
      match outcome.effect with
      | .blockData => drive.policy.blockData
      | _ => drive.policy
    let completed :=
      match outcome.effect with
      | .complete => drive.report.completed + 1
      | _ => drive.report.completed
    (.ready outcome,
      { domain := domain
        policy := policy
        report := ⟨drive.report.turns + 1, completed⟩
        remaining := drive.remaining - 1
        served := drive.served ++ [⟨outcome.stream, work, outcome.terminal⟩] })
  | (.empty, domain) => (.empty, { drive with domain := domain })
  | (.blocked, domain) => (.blocked, { drive with domain := domain })

/-- The data turn that comes before the control turn. -/
def leading (first : Bool) (tail : Option K) (drive : Drive K T σ) : Stage K T σ :=
  match first, tail with
  | true, some last =>
    match drive.one driver .dataReady .data with
    | (.ready outcome, next) =>
      { done := outcome.stream = last, activity := some outcome.activity, drive := next }
    | (_, next) => { stop := true, drive := next }
  | _, _ => { drive := drive }

/-- The control turn. -/
def middle (control : Bool) (stage : Stage K T σ) : Stage K T σ :=
  if !stage.stop && control && stage.drive.remaining != 0 then
    match stage.drive.one driver .controlReady .control with
    | (.ready outcome, next) =>
      { stage with activity := stage.activity <|> some outcome.activity, drive := next }
    | (_, next) => { stage with stop := true, drive := next }
  else stage

/-- The loop over the data turns. A turn uses up a unit of what remains, so the loop runs at most
that often. -/
def loop (tail : Option K) : ℕ → Stage K T σ → Stage K T σ
  | 0, stage => stage
  | fuel + 1, stage =>
    if !stage.stop && tail.isSome && !stage.done && stage.drive.remaining != 0 &&
        !stage.drive.policy.isBlocked then
      match stage.drive.one driver .dataReady .data with
      | (.ready outcome, next) =>
        loop tail fuel
          { stage with
            done := some outcome.stream = tail
            activity := stage.activity <|> some outcome.activity
            drive := next }
      | (.empty, next) => { stage with drive := next }
      | (.blocked, next) => { stage with stop := true, drive := next }
    else stage

/-- The data record at which a round ends. -/
def tail (drive : Drive K T σ) : Option K :=
  if drive.policy.isBlocked then none else drive.domain.table.back .dataReady

/-- Whether a control turn is ready. -/
def hasControl (drive : Drive K T σ) : Bool := !drive.domain.table.isVacant .controlReady

/-- The kind of the round that starts here. -/
def round (drive : Drive K T σ) : Round :=
  if drive.tail.isSome && drive.hasControl then
    if drive.policy.isDataNext then .dataFirst else .controlFirst
  else .single

/-- The turns of a round. -/
def body (drive : Drive K T σ) : Stage K T σ :=
  let stage := middle driver drive.hasControl
    (leading driver (drive.round = .dataFirst) drive.tail drive)
  loop driver drive.tail stage.drive.remaining stage

/-- The end of a round. -/
def settled (drive : Drive K T σ) (stage : Stage K T σ) : Drive K T σ :=
  match stage.activity with
  | some activity =>
    { stage.drive with policy := stage.drive.policy.finishRound drive.round activity }
  | none => stage.drive

/-- The rounds of a drive. A round that does not stop it performs a turn, so there are at most as
many rounds as turns remain. -/
def rounds (oneRound : Bool) : ℕ → Drive K T σ → Drive K T σ × List (RoundLog K T σ)
  | 0, drive => (drive, [])
  | fuel + 1, drive =>
    if drive.remaining = 0 then (drive, [])
    else if !drive.tail.isSome && !drive.hasControl then (drive, [])
    else
      let stage := drive.body driver
      let log : RoundLog K T σ := ⟨drive.round, drive, drive.settled stage, stage.stop⟩
      if stage.stop || oneRound then (drive.settled stage, [log])
      else
        let rest := rounds oneRound fuel (drive.settled stage)
        (rest.1, log :: rest.2)

/-- `Drive::run`. -/
def run (oneRound : Bool) (drive : Drive K T σ) : Drive K T σ × List (RoundLog K T σ) :=
  rounds driver oneRound drive.remaining drive

end Drive

/-! ## The runtime -/

/-- `Runtime`. -/
structure Runtime (K T : Type) where
  records : Table K T
  limit : ℕ
  policy : Policy := {}

/-- `Insert`: why a record was not admitted. -/
inductive Insert (K T : Type) where
  | full (stream : K) (value : T) (used limit : ℕ)
  | occupied (stream stored : K) (value : T)
  | excluded (stream : K) (value : T) (index capacity : ℕ)

/-- `data::Settlement`. -/
inductive DataSettlement where
  | keep
  | remove
  deriving DecidableEq, Repr

/-- `data::Driver`. -/
structure DataDriver (K T B E σ : Type) where
  canContinue : σ → Bool
  turn : K → T → σ → Except E (Turn B) × T × σ
  settle : K → T → Terminal E → σ → DataSettlement × T × σ
  remove : T → σ → σ

/-- What an entry's transition does with its record (`Occupied::try_control`). -/
inductive Transition (T B : Type) where
  | rejected (value : T)
  | stop
  | continue (value : T) (blocked : Option B)

namespace Runtime

section Operations

variable {K T B : Type}

/-- `try_bounded`. -/
def tryBounded (cap limit : ℕ) : Runtime K T where
  records := LaneTable.new cap
  limit := min limit cap

def hasRunnable (runtime : Runtime K T) : Bool :=
  !runtime.records.isVacant .controlReady ||
    (!runtime.policy.isBlocked && !runtime.records.isVacant .dataReady)

/-- `select`: the lane of an activation and whether it blocks data. -/
def select [Block B] : Activation B → Option (Lane × Bool)
  | .keep => none
  | .activate block work =>
    let wait := block.map Block.wait
    some (work.blockedLane wait, work = .data ∧ wait = some .egress)

variable [Indexed K] [DecidableEq K]

/-- `apply`: a record that already waits in the lane keeps its place. -/
def apply (runtime : Runtime K T) (stream : K) (place : Lane × Bool) : Runtime K T :=
  { runtime with
    records :=
      if runtime.records.lane stream = some place.1 then runtime.records
      else runtime.records.moveToBack stream place.1
    policy := if place.2 then runtime.policy.blockData else runtime.policy }

/-- `Records::try_vacant`. -/
def tryVacant (runtime : Runtime K T) (stream : K) (value : T) : Except (Insert K T) Unit :=
  match runtime.records.tryVacant stream with
  | .error (.outside index capacity) => .error (.excluded stream value index capacity)
  | .error (.occupied stored) => .error (.occupied stream stored value)
  | .ok () =>
    if runtime.records.len = runtime.limit then
      .error (.full stream value runtime.records.len runtime.limit)
    else .ok ()

/-- `try_insert`. -/
def tryInsert [Block B] (runtime : Runtime K T) (stream : K) (value : T) (next : Activation B) :
    Except (Insert K T) (Runtime K T) := do
  runtime.tryVacant stream value
  let stored := { runtime with records := runtime.records.put stream value }
  match select next with
  | none => return stored
  | some place => return stored.apply stream place

/-- `try_store`. -/
def tryStore (runtime : Runtime K T) (stream : K) (value : T) :
    Except (Insert K T) (Runtime K T) := do
  runtime.tryVacant stream value
  return { runtime with records := runtime.records.put stream value }

/-- `vacant` and `Vacant::insert`. -/
def vacantInsert [Block B] (runtime : Runtime K T) (stream : K) (value : T) (blocked : Option B) :
    Option (Runtime K T) :=
  if runtime.records.len = runtime.limit then none
  else
    match runtime.records.tryVacant stream with
    | .error _ => none
    | .ok () =>
      some { runtime with
        records := (runtime.records.put stream value).moveToBack stream
          (WorkClass.control.blockedLane (blocked.map Block.wait)) }

/-- `try_apply` and `transaction`: a rejected run may have written the record. -/
def transaction [Block B] {E : Type} (runtime : Runtime K T) (stream : K)
    (run : T → T × Except E (Activation B)) : Runtime K T :=
  match runtime.records.get stream with
  | none => runtime
  | some value =>
    let stored := { runtime with records := runtime.records.put stream (run value).1 }
    match (run value).2 with
    | .error _ => stored
    | .ok next =>
      match select next with
      | none => stored
      | some place => stored.apply stream place

/-- `entry` and `Occupied::try_control`. -/
def tryControl [Block B] (runtime : Runtime K T) (stream : K) (run : T → Transition T B) :
    Runtime K T :=
  match runtime.records.get stream with
  | none => runtime
  | some value =>
    match run value with
    | .rejected value => { runtime with records := runtime.records.put stream value }
    | .stop => { runtime with records := runtime.records.remove stream }
    | .continue value blocked =>
      let lane := WorkClass.control.blockedLane (blocked.map Block.wait)
      if some lane = runtime.records.lane stream then
        { runtime with records := runtime.records.put stream value }
      else
        { runtime with
          records := ((runtime.records.remove stream).put stream value).moveToBack stream lane }

/-- `Records::remove`. -/
def remove (runtime : Runtime K T) (stream : K) : Runtime K T :=
  match runtime.records.get stream with
  | none => runtime
  | some _ => { runtime with records := runtime.records.remove stream }

/-- `wake`. -/
def wake (runtime : Runtime K T) : Wake K → ℕ × Runtime K T
  | .connection =>
    let moved := (runtime.records.lanes .controlConnectionWait).length +
      (runtime.records.lanes .connectionWait).length
    (moved, { runtime with
      records := (runtime.records.moveAll .controlConnectionWait .controlReady).moveAll
        .connectionWait .dataReady })
  | .stream stream =>
    match runtime.records.get stream with
    | none => (0, runtime)
    | some _ =>
      match runtime.records.lane stream with
      | some .controlStreamWait =>
        (1, { runtime with records := runtime.records.moveToBack stream .controlReady })
      | some .streamWait =>
        (1, { runtime with records := runtime.records.moveToBack stream .dataReady })
      | _ => (0, runtime)

omit [Indexed K] [DecidableEq K] in
/-- `wake_egress`. -/
def wakeEgress (runtime : Runtime K T) : Runtime K T :=
  { runtime with
    records := runtime.records.moveAll .controlEgressWait .controlReady
    policy := runtime.policy.releaseData }

omit [Indexed K] [DecidableEq K] in
/-- `clear`. -/
def clear (runtime : Runtime K T) : Runtime K T :=
  { runtime with records := runtime.records.clear, policy := {} }

/-- `drive`, and `drive_round` with one round only. -/
def drive [Block B] {E P σ : Type} (runtime : Runtime K T) (driver : Driver K T B E P σ)
    (state : σ) (oneRound : Bool) : Drive K T σ × List (Drive.RoundLog K T σ) :=
  (Drive.start runtime.records state runtime.policy).run driver oneRound

/-- The turn of a data-only drive: what it does with the record, and whether it blocks data. -/
def dataTurn [Block B] {E σ : Type} (driver : DataDriver K T B E σ) (records : Table K T)
    (stream : K) (value : T) (state : σ) : Table K T × σ × Option (Terminal E) × Bool :=
  let settle (records : Table K T) (value : T) (state : σ) (terminal : Terminal E) :=
    match driver.settle stream value terminal state with
    | (.keep, value, state) =>
      ((records.put stream value).unlink stream, state, some terminal, false)
    | (.remove, value, state) =>
      ((records.put stream value).remove stream, driver.remove value state, some terminal, false)
  match driver.turn stream value state with
  | (result, value, state) =>
    let records := records.put stream value
    match result with
    | .ok .complete => settle records value state .complete
    | .ok .idle => settle records value state .idle
    | .ok .progress => (records.moveToBack stream .dataReady, state, none, false)
    | .ok (.blocked block) =>
      match Block.wait block with
      | .connection => (records.moveToBack stream .connectionWait, state, none, false)
      | .stream => (records.moveToBack stream .streamWait, state, none, false)
      | .egress => (records, state, none, true)
    | .error error => settle records value state (.failed error)

/-- The loop of `drive_data`, over what is `left`. -/
def dataTurns [Block B] {E σ : Type} (driver : DataDriver K T B E σ) :
    ℕ → Drive K T σ → Drive K T σ
  | 0, drive => drive
  | left + 1, drive =>
    if drive.policy.isBlocked then drive
    else
      match drive.domain.table.front .dataReady with
      | none => drive
      | some stream =>
        match drive.domain.table.get stream with
        | none => drive
        | some value =>
          if !driver.canContinue drive.domain.driver then drive
          else
            match dataTurn driver drive.domain.table stream value drive.domain.driver with
            | (table, state, terminal, blocked) =>
              let completed :=
                match terminal with
                | some .complete => drive.report.completed + 1
                | _ => drive.report.completed
              dataTurns driver left
                { domain := ⟨table, state⟩
                  policy := if blocked then drive.policy.blockData else drive.policy
                  report := ⟨drive.report.turns + 1, completed⟩
                  remaining := drive.remaining - 1
                  served := drive.served ++ [⟨stream, .data, terminal.isSome⟩] }

/-- `drive_data`. -/
def driveData [Block B] {E σ : Type} (runtime : Runtime K T) (driver : DataDriver K T B E σ)
    (state : σ) : Drive K T σ :=
  dataTurns driver runtime.records.len
    (Drive.start runtime.records state runtime.policy)

end Operations

end Runtime

end Sark.Schedule
