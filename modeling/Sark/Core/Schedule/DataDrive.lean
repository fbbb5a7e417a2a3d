import Sark.Core.Schedule.Guarantees

/-!
# The drive of data turns alone

`drive_data` serves a scheduler without control work. It has a loop of its own, without rounds, in
which it settles a record where it lies (`core/src/manifold/schedule/runtime.rs`).

A driver of both kinds of work and a data-only driver answer alike if they do so in related states:
one grants a permit where the other can continue, their data turns have the same answers, of which
none asks for control work, and they settle a record in the same way.

* `data_alike`: a data turn does the same in both drives.
* `Agree.rounds`: the rounds of one drive are the loop of the other.
* `drive_agree_driveData`: both drives serve the same turns and leave the same scheduler.
-/

namespace Sark.Schedule

open ResidentHeap (Indexed)

/-- The answer of a data-only driver as one that never asks for control work. -/
def Turn.step {B : Type} : Turn B → DataTurn B
  | .complete => .complete
  | .progress => .progress .data
  | .blocked block => .blocked block
  | .idle => .idle

section Answers

variable {K T B E P σ τ : Type}

/-- The two forms of a settlement. A record is kept as it was written, or it is dropped, which a
data-only driver does itself. -/
inductive SameSettlement (rel : σ → τ → Prop) (alone : DataDriver K T B E τ) :
    Settlement T × σ → DataSettlement × T × τ → Prop
  | keep {state : σ} {other : τ} (value : T) (h : rel state other) :
      SameSettlement rel alone (.keep value, state) (.keep, value, other)
  | remove {state : σ} {other : τ} (value : T) (h : rel state (alone.remove value other)) :
      SameSettlement rel alone (.remove, state) (.remove, value, other)

/-- A driver of both kinds of work and a data-only driver answer alike in related states. -/
structure Answers (rel : σ → τ → Prop) (driver : Driver K T B E P σ)
    (alone : DataDriver K T B E τ) : Prop where
  refused : ∀ {state other}, rel state other → (driver.permit state).1 = none →
    alone.canContinue other = false ∧ rel (driver.permit state).2 other
  granted : ∀ {state other permit}, rel state other → (driver.permit state).1 = some permit →
    alone.canContinue other = true
  turn : ∀ {state other permit} stream value, rel state other →
    (driver.permit state).1 = some permit →
    (driver.data permit stream value (driver.permit state).2).1 =
        (alone.turn stream value other).1.map Turn.step ∧
      (driver.data permit stream value (driver.permit state).2).2.1 =
        (alone.turn stream value other).2.1 ∧
      rel (driver.data permit stream value (driver.permit state).2).2.2
        (alone.turn stream value other).2.2
  settle : ∀ {state other} stream value terminal, rel state other →
    SameSettlement rel alone (driver.settle stream value terminal state)
      (alone.settle stream value terminal other)

/-- The driver that grants a permit where a data-only driver can continue. Control work, which such
a driver has none of, drops the record. -/
def DataDriver.driver (alone : DataDriver K T B E τ) : Driver K T B E Unit τ where
  permit := fun state => (if alone.canContinue state then some () else none, state)
  control := fun _ _ _ state => (.owned .remove, state)
  data := fun _ stream value state =>
    ((alone.turn stream value state).1.map Turn.step, (alone.turn stream value state).2)
  settle := fun stream value terminal state =>
    match alone.settle stream value terminal state with
    | (.keep, value, state) => (.keep value, state)
    | (.remove, value, state) => (.remove, alone.remove value state)

theorem DataDriver.answers (alone : DataDriver K T B E τ) : Answers Eq alone.driver alone where
  refused := by
    rintro state _ rfl h
    simpa [driver] using h
  granted := by
    rintro state _ permit rfl h
    by_contra hnot
    simp [driver, hnot] at h
  turn := by
    rintro state _ permit stream value rfl -
    exact ⟨rfl, rfl, rfl⟩
  settle := by
    rintro state _ stream value terminal rfl
    rcases hsettle : alone.settle stream value terminal state with ⟨answer, value', state'⟩
    cases answer with
    | keep => simpa only [driver, hsettle] using SameSettlement.keep value' rfl
    | remove => simpa only [driver, hsettle] using SameSettlement.remove value' rfl

end Answers

namespace Drive

variable {K T B E P σ τ : Type} [Indexed K] [DecidableEq K] [Block B] {rel : σ → τ → Prop}
  {driver : Driver K T B E P σ} {alone : DataDriver K T B E τ}

/-! ## One turn -/

/-- What a data-only turn does beyond moving its record. -/
def effectOf : Option (Terminal E) → Bool → Effect
  | some .complete, _ => .complete
  | _, true => .blockData
  | _, false => .none

/-- The settlement of a data-only turn. -/
def settleAlone (alone : DataDriver K T B E τ) (table : Table K T) (stream : K) (value : T)
    (terminal : Terminal E) (other : τ) : Table K T × τ × Option (Terminal E) × Bool :=
  match alone.settle stream value terminal other with
  | (.keep, value, other) => ((table.put stream value).unlink stream, other, some terminal, false)
  | (.remove, value, other) =>
    ((table.put stream value).remove stream, alone.remove value other, some terminal, false)

/-- A turn of one drive does what a turn of the other does. -/
structure Alike (rel : σ → τ → Prop) (turned : TurnOutcome K × Domain K T σ)
    (other : Table K T × τ × Option (Terminal E) × Bool) : Prop where
  table : turned.2.table = other.1
  driver : rel turned.2.driver other.2.1
  terminal : turned.1.terminal = other.2.2.1.isSome
  effect : turned.1.effect = effectOf other.2.2.1 other.2.2.2

omit [Block B] in
/-- A terminal step: one drive takes the record out and puts it back, the other writes it where it
lies. -/
theorem finish_alike (hanswers : Answers rel driver alone) (table : Table K T) {state : σ}
    {other : τ} (hrel : rel state other) (stream : K) (value : T) (terminal : Terminal E) :
    Alike rel (finish driver ⟨table.put stream value, state⟩ stream value terminal .data)
      (settleAlone alone (table.put stream value) stream value terminal other) := by
  have hsettle := hanswers.settle stream value terminal hrel
  rcases hdriver : driver.settle stream value terminal state with ⟨answer, state'⟩
  rcases hother : alone.settle stream value terminal other with ⟨answer', value', other'⟩
  rw [hdriver, hother] at hsettle
  cases hsettle with
  | keep _ h =>
    simp only [finish, settle, settleAlone, hdriver, hother]
    refine ⟨LaneTable.put_remove _ _ _, h, rfl, ?_⟩
    cases terminal <;> rfl
  | remove _ h =>
    simp only [finish, settle, settleAlone, hdriver, hother]
    refine ⟨(LaneTable.remove_put _ _ _).symm, h, rfl, ?_⟩
    cases terminal <;> rfl

/-- A data turn does the same in both drives. -/
theorem data_alike (hanswers : Answers rel driver alone) {table : Table K T}
    {state : σ} {other : τ} (hrel : rel state other) {permit : P}
    (hpermit : (driver.permit state).1 = some permit) {stream : K} (value : T)
    (hlane : table.lane stream = some .dataReady) :
    Alike rel (data driver ⟨table, (driver.permit state).2⟩ stream value permit)
      (Runtime.dataTurn alone table stream value other) := by
  have hturn := hanswers.turn stream value hrel hpermit
  rcases hdriver : driver.data permit stream value (driver.permit state).2 with
    ⟨result, value', state'⟩
  rcases hother : alone.turn stream value other with ⟨result', value'', other'⟩
  rw [hdriver, hother] at hturn
  dsimp only at hturn
  obtain ⟨rfl, rfl, hrel'⟩ := hturn
  simp only [data, hdriver, Runtime.dataTurn, hother]
  rcases result' with error | turn
  · exact finish_alike hanswers table hrel' stream value' (.failed error)
  cases turn with
  | complete => exact finish_alike hanswers table hrel' stream value' .complete
  | idle => exact finish_alike hanswers table hrel' stream value' .idle
  | progress =>
    refine ⟨rfl, hrel', rfl, ?_⟩
    simp [Except.map, Turn.step, borrowed, running, effectOf]
  | blocked block =>
    simp only [Except.map, Turn.step, borrowed]
    cases hwait : Block.wait block with
    | connection => exact ⟨rfl, hrel', rfl, by simp [running, effectOf]⟩
    | stream => exact ⟨rfl, hrel', rfl, by simp [running, effectOf]⟩
    | egress =>
      -- the record waits in the ready lane, so that it keeps its place
      have hput : (table.put stream value').lane stream = some .dataReady := hlane
      refine ⟨?_, hrel', rfl, ?_⟩
      · simp [hput]
      · simp [blocked, effectOf]

/-! ## One drive and the other -/

/-- Two drives that have done the same: the records with their lanes, the turns, the report, whether
data is blocked and what remains. -/
structure Agree (rel : σ → τ → Prop) (drive : Drive K T σ) (other : Drive K T τ) : Prop where
  table : drive.domain.table = other.domain.table
  driver : rel drive.domain.driver other.domain.driver
  isBlocked : drive.policy.isBlocked = other.policy.isBlocked
  report : drive.report = other.report
  remaining : drive.remaining = other.remaining
  served : drive.served = other.served

/-- A sound table without control work. -/
structure Quiet (table : Table K T) : Prop where
  sound : table.Sound
  vacant : table.lanes .controlReady = []

/-- A drive after a data turn. -/
def performed (drive : Drive K T σ) (turned : TurnOutcome K × Domain K T σ) : Drive K T σ where
  domain := turned.2
  policy :=
    match turned.1.effect with
    | .blockData => drive.policy.blockData
    | _ => drive.policy
  report := ⟨drive.report.turns + 1,
    match turned.1.effect with
    | .complete => drive.report.completed + 1
    | _ => drive.report.completed⟩
  remaining := drive.remaining - 1
  served := drive.served ++ [⟨turned.1.stream, .data, turned.1.terminal⟩]

/-- A data-only drive after a turn of its first record. -/
def after (alone : DataDriver K T B E τ) (drive : Drive K T τ) (stream : K) (value : T) :
    Drive K T τ :=
  let turned := Runtime.dataTurn alone drive.domain.table stream value drive.domain.driver
  { domain := ⟨turned.1, turned.2.1⟩
    policy := if turned.2.2.2 then drive.policy.blockData else drive.policy
    report := ⟨drive.report.turns + 1,
      match turned.2.2.1 with
      | some .complete => drive.report.completed + 1
      | _ => drive.report.completed⟩
    remaining := drive.remaining - 1
    served := drive.served ++ [⟨stream, .data, turned.2.2.1.isSome⟩] }

theorem agree_after {drive : Drive K T σ} {other : Drive K T τ} (hagree : Agree rel drive other)
    {stream : K} {value : T} {turned : TurnOutcome K × Domain K T σ}
    (hstream : turned.1.stream = stream)
    (halike : Alike rel turned
      (Runtime.dataTurn alone drive.domain.table stream value other.domain.driver)) :
    Agree rel (drive.performed turned) (after alone other stream value) := by
  rw [hagree.table] at halike
  have hturned := Runtime.dataTurn_turned alone other.domain.table stream value other.domain.driver
  rw [after]
  generalize Runtime.dataTurn alone other.domain.table stream value other.domain.driver = alone'
    at halike hturned
  obtain ⟨table, state, terminal, blocked⟩ := alone'
  obtain ⟨htable, hdriver, hterminal, heffect⟩ := halike
  obtain ⟨-, -, hpolicy, hreport, hremaining, hserved⟩ := hagree
  -- a terminal step does not block data
  have hboth (h : terminal.isSome = true) : blocked = false := by
    rw [h] at hturned
    cases hturned <;> rfl
  refine ⟨htable, hdriver, ?_, ?_, ?_, ?_⟩
  · rw [performed, heffect]
    rcases terminal with - | terminal
    · cases blocked
      · exact hpolicy
      · rfl
    · rw [hboth rfl]
      cases terminal <;> exact hpolicy
  · rw [performed, heffect, hreport]
    rcases terminal with - | terminal
    · cases blocked <;> rfl
    · rw [hboth rfl]
      cases terminal <;> rfl
  · simp only [performed, hremaining]
  · simp only [performed, hserved, hstream, hterminal]

theorem dataTurns_stop {drive : Drive K T τ} {stream : K} {value : T}
    (hfront : drive.domain.table.front .dataReady = some stream)
    (hvalue : drive.domain.table.get stream = some value)
    (hstop : alone.canContinue drive.domain.driver = false) (left : ℕ) :
    Runtime.dataTurns alone (left + 1) drive = drive := by
  simp [Runtime.dataTurns, hfront, hvalue, hstop]

theorem dataTurns_go {drive : Drive K T τ} {stream : K} {value : T}
    (hblocked : drive.policy.isBlocked = false)
    (hfront : drive.domain.table.front .dataReady = some stream)
    (hvalue : drive.domain.table.get stream = some value)
    (hgo : alone.canContinue drive.domain.driver = true) (left : ℕ) :
    Runtime.dataTurns alone (left + 1) drive =
      Runtime.dataTurns alone left (after alone drive stream value) := by
  rw [Runtime.dataTurns]
  simp only [hblocked, hfront, hvalue, hgo]
  rfl

omit [Block B] in
theorem settleAlone_lanes {table : Table K T} {lane : Lane} (h : table.lanes lane = [])
    (stream : K) (value : T) (terminal : Terminal E) (other : τ) :
    (settleAlone alone table stream value terminal other).1.lanes lane = [] := by
  rw [settleAlone]
  rcases alone.settle stream value terminal other with ⟨answer, value', other'⟩
  cases answer with
  | keep => simp [LaneTable.put, LaneTable.unlink, h]
  | remove => simp [LaneTable.put, LaneTable.remove, h]

theorem quiet_dataTurn {table : Table K T} (hquiet : Quiet table) {stream : K}
    (hmem : stream ∈ table.lanes .dataReady) (value : T) (other : τ) :
    Quiet (Runtime.dataTurn alone table stream value other).1 where
  sound := (Runtime.dataTurn_turned alone table stream value other).sound hquiet.sound
    (hquiet.sound.resident stream _ hmem)
  vacant := by
    have hput (value : T) : (table.put stream value).lanes .controlReady = [] := hquiet.vacant
    rw [Runtime.dataTurn]
    rcases alone.turn stream value other with ⟨result, value', other'⟩
    rcases result with error | turn
    · exact settleAlone_lanes (hput value') stream value' (.failed error) other'
    cases turn with
    | complete => exact settleAlone_lanes (hput value') stream value' .complete other'
    | idle => exact settleAlone_lanes (hput value') stream value' .idle other'
    | progress => simp [LaneTable.moveToBack, hput]
    | blocked block =>
      dsimp only
      cases Block.wait block with
      | connection => simp [LaneTable.moveToBack, hput]
      | stream => simp [LaneTable.moveToBack, hput]
      | egress => exact hput value'

/-- What the next data turn of a drive and that of the loop of `drive_data` come to. -/
theorem one_agree (hanswers : Answers rel driver alone) {drive : Drive K T σ} {other : Drive K T τ}
    (hagree : Agree rel drive other) (hquiet : Quiet drive.domain.table)
    (hblocked : other.policy.isBlocked = false) (left : ℕ) :
    (drive.domain.table.lanes .dataReady = [] ∧
      drive.one driver .dataReady .data = (.empty, drive)) ∨
    (∃ next, drive.one driver .dataReady .data = (.blocked, next) ∧ Agree rel next other ∧
      Quiet next.domain.table ∧ Runtime.dataTurns alone (left + 1) other = other) ∨
    ∃ outcome next later, drive.one driver .dataReady .data = (.ready outcome, next) ∧
      Agree rel next later ∧ Quiet next.domain.table ∧ next.remaining = drive.remaining - 1 ∧
      Runtime.dataTurns alone (left + 1) other = Runtime.dataTurns alone left later := by
  cases hlane : drive.domain.table.lanes .dataReady with
  | nil =>
    refine .inl ⟨rfl, ?_⟩
    simp [one, Drive.turn, LaneTable.front, hlane]
  | cons stream rest =>
    have hmem : stream ∈ drive.domain.table.lanes .dataReady := by simp [hlane]
    obtain ⟨value, hvalue⟩ := Option.isSome_iff_exists.mp (hquiet.sound.resident stream _ hmem)
    have hfront : drive.domain.table.front .dataReady = some stream := by
      rw [LaneTable.front, hlane, List.head?_cons]
    cases hpermit : (driver.permit drive.domain.driver).1 with
    | none =>
      obtain ⟨hstop, hrel⟩ := hanswers.refused hagree.driver hpermit
      refine .inr (.inl
        ⟨{ drive with domain := ⟨drive.domain.table, (driver.permit drive.domain.driver).2⟩ },
          ?_, { hagree with driver := hrel }, hquiet, ?_⟩)
      · have hpair : driver.permit drive.domain.driver =
            (none, (driver.permit drive.domain.driver).2) := Prod.ext hpermit rfl
        rw [one, Drive.turn]
        simp only [hfront, hvalue]
        rw [hpair]
      · rw [hagree.table] at hfront hvalue
        exact dataTurns_stop hfront hvalue hstop left
    | some permit =>
      have hgo := hanswers.granted hagree.driver hpermit
      have halike := data_alike hanswers hagree.driver hpermit value
        (hquiet.sound.lane_eq_some_iff.mpr hmem)
      have hpair : driver.permit drive.domain.driver =
          (some permit, (driver.permit drive.domain.driver).2) := Prod.ext hpermit rfl
      let turned := data driver ⟨drive.domain.table, (driver.permit drive.domain.driver).2⟩ stream
        value permit
      have hone : drive.one driver .dataReady .data =
          (.ready turned.1, drive.performed turned) := by
        rw [one, Drive.turn]
        simp only [hfront, hvalue]
        rw [hpair]
        rfl
      refine .inr (.inr ⟨_, _, after alone other stream value, hone, ?_, ?_, rfl, ?_⟩)
      · exact agree_after hagree (data_turnOf driver _ stream value permit).1 halike
      · rw [performed, halike.table]
        exact quiet_dataTurn hquiet hmem value _
      · rw [hagree.table] at hfront hvalue
        exact dataTurns_go hblocked hfront hvalue hgo left

/-- A stage of a round, seen from the loop of `drive_data` with `left` turns to go: it goes on from
`later`, and it ends where a refused permit ends the round. -/
structure Follows (rel : σ → τ → Prop) (alone : DataDriver K T B E τ) (left : ℕ)
    (other : Drive K T τ) (stage : Stage K T σ) (later : Drive K T τ) : Prop where
  agree : Agree rel stage.drive later
  quiet : Quiet stage.drive.domain.table
  turns : Runtime.dataTurns alone left other =
    Runtime.dataTurns alone stage.drive.remaining later
  remaining : stage.drive.remaining ≤ left
  stopped : stage.stop = true →
    Runtime.dataTurns alone stage.drive.remaining later = later

/-- The data turns of a round are turns of the loop of `drive_data`, and the first of them takes
place unless the driver refuses its permit. -/
theorem loop_follows (hanswers : Answers rel driver alone) (last : K) (left : ℕ)
    {stage : Stage K T σ} {other : Drive K T τ} (hagree : Agree rel stage.drive other)
    (hquiet : Quiet stage.drive.domain.table) (hstop : stage.stop = false)
    (hleft : stage.drive.remaining = left) :
    ∃ later, Follows rel alone left other (loop driver (some last) left stage) later ∧
      (stage.drive.tail = some last → stage.done = false → left ≠ 0 →
        (loop driver (some last) left stage).stop = true ∨
          (loop driver (some last) left stage).drive.remaining < left) := by
  induction left generalizing stage other with
  | zero =>
    rw [loop]
    refine ⟨other, ⟨hagree, hquiet, by rw [hleft], hleft.le, ?_⟩, ?_⟩
    · simp [hstop]
    · simp
  | succ left ih =>
    rw [loop]
    split_ifs with hgo
    · have hblocked : other.policy.isBlocked = false := by
        rw [← hagree.isBlocked]
        simp only [Bool.and_eq_true, Bool.not_eq_true'] at hgo
        exact hgo.2
      rcases one_agree hanswers hagree hquiet hblocked left with
        ⟨hlane, hone⟩ | ⟨next, hone, hnext, hquiet', hturns⟩ |
          ⟨outcome, next, later, hone, hnext, hquiet', hremaining, hturns⟩
      · simp only [hone]
        refine ⟨other, ⟨hagree, hquiet, by rw [hleft], hleft.le, by simp [hstop]⟩, ?_⟩
        intro htail
        rw [tail_eq_getLast?, dataReady, hlane] at htail
        simp at htail
      · have hremaining : next.remaining = left + 1 := by
          rw [hnext.remaining, ← hagree.remaining, hleft]
        simp only [hone]
        refine ⟨other, ⟨hnext, hquiet', by rw [hremaining], hremaining.le, ?_⟩, ?_⟩
        · intro _
          rw [hremaining, hturns]
        · intro _ _ _
          exact .inl trivial
      · have hless : next.remaining = left := by
          rw [hremaining, hleft, Nat.add_sub_cancel]
        simp only [hone]
        obtain ⟨later', hfollows, -⟩ := @ih
          { stage with
            done := some outcome.stream = some last
            activity := stage.activity <|> some outcome.activity
            drive := next } later hnext hquiet' hstop hless
        have hremaining := hfollows.remaining
        refine ⟨later', ⟨hfollows.agree, hfollows.quiet, hturns.trans hfollows.turns,
          by omega, hfollows.stopped⟩, ?_⟩
        intro _ _ _
        exact .inr (by omega)
    · refine ⟨other, ⟨hagree, hquiet, by rw [hleft], hleft.le, by simp [hstop]⟩, ?_⟩
      intro htail hdone _
      refine absurd ?_ hgo
      simp [hstop, hdone, hleft, not_isBlocked_of_tail htail]

/-! ## The whole drive -/

omit [Indexed K] [DecidableEq K] [Block B] in
theorem Agree.settled {drive : Drive K T σ} {stage : Stage K T σ} {other : Drive K T τ}
    (hagree : Agree rel stage.drive other) : Agree rel (drive.settled stage) other := by
  rw [Drive.settled]
  split
  · exact { hagree with isBlocked := (Policy.finishRound_dataBlocked _ _ _).trans hagree.isBlocked }
  · exact hagree

theorem dataTurns_of_tail {drive : Drive K T τ} (h : drive.tail = none) (left : ℕ) :
    Runtime.dataTurns alone left drive = drive := by
  cases left with
  | zero => rfl
  | succ left =>
    rw [tail] at h
    rw [Runtime.dataTurns]
    split_ifs at h with hblocked
    · rw [if_pos hblocked]
    · have hfront : drive.domain.table.front .dataReady = none := by
        simpa [LaneTable.front, LaneTable.back] using h
      rw [if_neg hblocked, hfront]

/-- The rounds of a drive without control work are the loop of `drive_data`. -/
theorem Agree.rounds (hanswers : Answers rel driver alone) (fuel : ℕ) {drive : Drive K T σ}
    {other : Drive K T τ} (hagree : Agree rel drive other) (hquiet : Quiet drive.domain.table)
    (hfuel : drive.remaining ≤ fuel) :
    Agree rel (Drive.rounds driver false fuel drive).1
      (Runtime.dataTurns alone drive.remaining other) := by
  induction fuel generalizing drive other with
  | zero =>
    rw [Nat.le_zero.mp hfuel]
    exact hagree
  | succ fuel ih =>
    have hcontrol : drive.hasControl = false := by
      rw [hasControl_eq, controlReady, hquiet.vacant]
      rfl
    rw [Drive.rounds]
    by_cases hzero : drive.remaining = 0
    · rw [if_pos hzero, hzero]
      exact hagree
    rw [if_neg hzero]
    cases htail : drive.tail with
    | none =>
      rw [if_pos (by simp [hcontrol])]
      rwa [dataTurns_of_tail]
      rw [← htail, tail, tail, hagree.table, hagree.isBlocked]
    | some last =>
      have hround : (drive.round = .dataFirst) = False := by
        simp [round, hcontrol]
      have hbody : drive.body driver =
          loop driver (some last) drive.remaining { drive := drive } := by
        simp only [body, hcontrol, hround, htail, decide_false, leading_false, middle_false]
      obtain ⟨later, hfollows, hprogress⟩ := @loop_follows _ _ _ _ _ _ _ _ _ _ rel driver alone
        hanswers last drive.remaining { drive := drive } other hagree hquiet rfl rfl
      rw [← hbody] at hfollows hprogress
      have hsettled (stage : Stage K T σ) :
          (drive.settled stage).domain = stage.drive.domain ∧
            (drive.settled stage).remaining = stage.drive.remaining := by
        rw [Drive.settled]
        split <;> exact ⟨rfl, rfl⟩
      rw [if_neg (by simp), hfollows.turns]
      cases hstop : (drive.body driver).stop with
      | true =>
        rw [if_pos (by simp [hstop]), hfollows.stopped hstop]
        exact hfollows.agree.settled
      | false =>
        rw [if_neg (by simp [hstop]), ← (hsettled _).2]
        refine ih hfollows.agree.settled ?_ ?_
        · rw [(hsettled _).1]
          exact hfollows.quiet
        · rcases hprogress htail rfl hzero with h | h
          · exact absurd (hstop.symm.trans h) (by simp)
          · rw [(hsettled _).2]
            omega

end Drive

namespace Runtime

variable {K T B E E' P P' σ σ' τ : Type} [Indexed K] [DecidableEq K] [Block B]

/-- Without control work, `drive` and `drive_data` serve the same turns and leave the same records,
the same lanes and the same report, for drivers that answer alike. -/
theorem drive_agree_driveData (cap limit : ℕ) (events : List (Event K T B E' P' σ'))
    {rel : σ → τ → Prop} {driver : Driver K T B E P σ} {alone : DataDriver K T B E τ}
    (hanswers : Answers rel driver alone) {state : σ} {other : τ} (hrel : rel state other)
    (hvacant : ((tryBounded cap limit : Runtime K T).run events).1.records.isVacant
      .controlReady = true) :
    Drive.Agree rel
      (((tryBounded cap limit : Runtime K T).run events).1.drive driver state false).1
      (((tryBounded cap limit : Runtime K T).run events).1.driveData alone other) := by
  have hsound := @records_sound_run K T B E' P' σ' _ _ _ (tryBounded cap limit)
    (LaneTable.sound_new cap) events
  generalize ((tryBounded cap limit : Runtime K T).run events).1 = runtime at hsound hvacant ⊢
  have hquiet : Drive.Quiet runtime.records :=
    ⟨hsound, by simpa [LaneTable.isVacant] using hvacant⟩
  exact Drive.Agree.rounds hanswers _ ⟨rfl, hrel, rfl, rfl, rfl, rfl⟩ hquiet le_rfl

/-- Four records: one has more data, one completes, one fails and one waits for egress. -/
inductive Sample where
  | goesOn
  | completes
  | fails
  | waits
  deriving DecidableEq

instance : Indexed Sample := ⟨Sample.ctorIdx⟩

/-- The driver of the four. -/
def mixedDriver : DataDriver Sample Unit Wait Unit ℕ where
  canContinue := fun budget => budget != 0
  turn := fun stream _ budget =>
    match stream with
    | .goesOn => (.ok .progress, (), budget - 1)
    | .completes => (.ok .complete, (), budget - 1)
    | .fails => (.error (), (), budget - 1)
    | .waits => (.ok (.blocked .egress), (), budget - 1)
  settle := fun _ _ terminal budget =>
    match terminal with
    | .complete => (.keep, (), budget)
    | _ => (.remove, (), budget)
  remove := fun _ budget => budget + 4

/-- The four records, all with data. -/
def mixedRecords : List (Event Sample Unit Wait Unit Unit Unit) :=
  [.insert .goesOn () (.activate none .data), .insert .completes () (.activate none .data),
    .insert .fails () (.activate none .data), .insert .waits () (.activate none .data)]

theorem drive_agree_mixed :
    Drive.Agree Eq
        (((tryBounded 4 4 : Runtime Sample Unit).run mixedRecords).1.drive
          mixedDriver.driver 3 false).1
        (((tryBounded 4 4 : Runtime Sample Unit).run mixedRecords).1.driveData mixedDriver 3) ∧
      (((tryBounded 4 4 : Runtime Sample Unit).run mixedRecords).1.driveData
        mixedDriver 3).report = ⟨4, 1⟩ :=
  ⟨drive_agree_driveData 4 4 mixedRecords mixedDriver.answers rfl (by decide), by decide⟩

end Runtime

end Sark.Schedule
