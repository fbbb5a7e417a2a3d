import Sark.Core.Schedule.Drive

/-!
# What a turn does

Whatever the driver answers, a turn touches the record at the front of its lane and no other. The
record goes to the back of a lane, keeps its place when data waits for egress, leaves every lane in
a terminal step, or leaves the table. `Turned` says this once, and the rest of the development
reads a turn only through it.

* `turn_turned`: every turn is one of the four.
* `Drive.run_invariant`: what every turn and every end of a round preserve holds after a drive.
-/

namespace Sark.Schedule

open ResidentHeap (Indexed)

/-- A turn of the record `stream`, whether it is a terminal step and whether it blocks data. -/
inductive Turned {K T : Type} [Indexed K] [DecidableEq K] (table : Table K T) (stream : K) :
    Table K T → Bool → Bool → Prop where
  | moved (value : T) (lane : Lane) (blocked : Bool) :
      Turned table stream ((table.put stream value).moveToBack stream lane) false blocked
  | stayed (value : T) : Turned table stream (table.put stream value) false true
  | kept (value : T) : Turned table stream ((table.put stream value).unlink stream) true false
  | removed (terminal : Bool) : Turned table stream (table.remove stream) terminal false

namespace Turned

variable {K T : Type} [Indexed K] [DecidableEq K] {table after : Table K T} {stream : K}
  {terminal blocked : Bool}

theorem sound (hturned : Turned table stream after terminal blocked) (hsound : table.Sound)
    (hresident : table.Resident stream) : after.Sound := by
  rcases hturned with ⟨value, lane, -⟩ | ⟨value⟩ | ⟨value⟩ | -
  · exact (hsound.put value hresident).moveToBack (hresident.put_self value) lane
  · exact hsound.put value hresident
  · exact (hsound.put value hresident).unlink stream
  · exact hsound.remove hresident

theorem mem_iff_of_ne (hturned : Turned table stream after terminal blocked) {other : K}
    (hne : other ≠ stream) (lane : Lane) :
    other ∈ after.lanes lane ↔ other ∈ table.lanes lane := by
  rcases hturned with ⟨value, target, -⟩ | ⟨value⟩ | ⟨value⟩ | -
  · rw [LaneTable.mem_lanes_moveToBack]
    simp [LaneTable.put, hne]
  · exact Iff.rfl
  · simp [LaneTable.unlink, LaneTable.put, hne]
  · simp [LaneTable.remove, hne]

theorem waits_or (hturned : Turned table stream after terminal blocked)
    (hmem : ∃ lane, stream ∈ table.lanes lane) :
    (∃ lane, stream ∈ after.lanes lane) ∨ ¬ after.Resident stream ∨ terminal = true := by
  rcases hturned with ⟨value, target, -⟩ | ⟨value⟩ | ⟨value⟩ | -
  · exact .inl ⟨target, LaneTable.mem_lanes_moveToBack.mpr (.inr ⟨rfl, rfl⟩)⟩
  · exact .inl hmem
  · exact .inr (.inr rfl)
  · exact .inr (.inl (LaneTable.not_resident_remove table stream))

theorem resident_of_ne (hturned : Turned table stream after terminal blocked) {other : K}
    (hne : other ≠ stream) (hother : after.Resident other) : table.Resident other := by
  rcases hturned with ⟨value, target, -⟩ | ⟨value⟩ | ⟨value⟩ | -
  · exact LaneTable.Resident.of_put hother hne
  · exact hother.of_put hne
  · exact LaneTable.Resident.of_put hother hne
  · exact hother.of_remove

/-- A lane loses the record and may get it back at its end, unless the record keeps its place. -/
theorem lanes_cases (hturned : Turned table stream after terminal blocked) (lane : Lane) :
    (after.lanes lane = table.lanes lane ∧ blocked = true) ∨
      ∃ new, after.lanes lane = (table.lanes lane).filter (· ≠ stream) ++ new := by
  rcases hturned with ⟨value, target, -⟩ | ⟨value⟩ | ⟨value⟩ | -
  · exact .inr ⟨if lane = target then [stream] else [], rfl⟩
  · exact .inl ⟨rfl, rfl⟩
  · exact .inr ⟨[], (List.append_nil _).symm⟩
  · exact .inr ⟨[], (List.append_nil _).symm⟩

theorem lanes_of_not_mem (hturned : Turned table stream after terminal blocked) {lane : Lane}
    (hmem : stream ∉ table.lanes lane) : ∃ new, after.lanes lane = table.lanes lane ++ new := by
  have hfilter : (table.lanes lane).filter (· ≠ stream) = table.lanes lane := by
    rw [List.filter_eq_self]
    intro other hother
    simpa using fun h : other = stream => hmem (h ▸ hother)
  rcases hturned.lanes_cases lane with ⟨hsame, -⟩ | ⟨new, hnew⟩
  · exact ⟨[], by rw [hsame, List.append_nil]⟩
  · exact ⟨new, by rw [hnew, hfilter]⟩

theorem lanes_of_front (hturned : Turned table stream after terminal false) (hsound : table.Sound)
    {lane : Lane} {rest : List K} (hlane : table.lanes lane = stream :: rest) :
    ∃ new, after.lanes lane = rest ++ new := by
  have hfilter : (table.lanes lane).filter (· ≠ stream) = rest := by
    have hnodup := hsound.nodup lane
    rw [hlane, List.nodup_cons] at hnodup
    rw [hlane, List.filter_cons_of_neg (by simp), List.filter_eq_self]
    intro other hother
    simpa using fun h : other = stream => hnodup.1 (h ▸ hother)
  rcases hturned.lanes_cases lane with ⟨-, hblocked⟩ | ⟨new, hnew⟩
  · exact absurd hblocked Bool.false_ne_true
  · exact ⟨new, by rw [hnew, hfilter]⟩

end Turned

namespace Drive

variable {K T B E P σ : Type} [Indexed K] [DecidableEq K] [Block B]
  (driver : Driver K T B E P σ)

/-- The result of a turn is a turn of `stream` from `table`. -/
def TurnOf (table : Table K T) (stream : K) (result : TurnOutcome K × Domain K T σ) : Prop :=
  result.1.stream = stream ∧
    Turned table stream result.2.table result.1.terminal (result.1.effect == .blockData)

/-! ## The functions of a turn -/

omit [Block B] in
theorem settle_turnOf (domain : Domain K T σ) (table : Table K T) (stream : K) (value : T)
    (terminal : Terminal E) (activity : WorkClass)
    (htable : domain.table = table.remove stream) :
    TurnOf table stream (settle driver domain stream value terminal activity) := by
  unfold settle
  rcases hsettle : driver.settle stream value terminal domain.driver with ⟨settlement, state⟩
  cases settlement with
  | keep value =>
    refine ⟨rfl, ?_⟩
    simp only [htable, LaneTable.put_remove]
    cases terminal <;> exact .kept value
  | remove =>
    refine ⟨rfl, ?_⟩
    simp only [htable]
    cases terminal <;> exact .removed _

omit [Block B] in
theorem finish_turnOf (table : Table K T) (state : σ) (stream : K) (stored value : T)
    (terminal : Terminal E) (activity : WorkClass) :
    TurnOf table stream
      (finish driver ⟨table.put stream stored, state⟩ stream value terminal activity) := by
  rw [finish]
  exact settle_turnOf driver _ table stream value terminal activity
    (LaneTable.remove_put table stream stored)

theorem borrowed_turnOf (table : Table K T) (state : σ) (stream : K) (stored value : T)
    (step : DataTurn B) (activity : WorkClass) :
    TurnOf table stream
      (borrowed driver ⟨table.put stream stored, state⟩ stream value step activity) := by
  unfold borrowed
  split
  · exact finish_turnOf driver table state stream stored value .complete activity
  · exact ⟨rfl, .moved stored _ _⟩
  · next block =>
    by_cases hblocked : Block.wait block = .egress ∧ activity = .data
    · -- the one case in which a record keeps its place
      have hdecide : Decidable.decide (Block.wait block = .egress ∧ activity = .data) = true :=
        decide_eq_true hblocked
      simp only [hdecide, Bool.not_true, Bool.false_or, if_true]
      refine ⟨rfl, ?_⟩
      simp only
      split_ifs with hlane
      · exact .moved stored _ _
      · exact .stayed stored
    · have hdecide : Decidable.decide (Block.wait block = .egress ∧ activity = .data) = false :=
        decide_eq_false hblocked
      simp only [hdecide, Bool.not_false, Bool.true_or, if_true, Bool.false_eq_true, if_false]
      exact ⟨rfl, .moved stored _ _⟩
  · exact finish_turnOf driver table state stream stored value .idle activity

theorem decide_turnOf (table : Table K T) (state : σ) (stream : K) (value : T)
    (step : DataTurn B) (activity : WorkClass) :
    TurnOf table stream
      (decide driver ⟨table.remove stream, state⟩ stream value step activity) := by
  have hmoved : ∀ lane,
      ((table.remove stream).put stream value).moveToBack stream lane =
        (table.put stream value).moveToBack stream lane := by
    intro lane
    rw [LaneTable.put_remove, LaneTable.moveToBack_unlink]
  unfold decide
  split
  · exact settle_turnOf driver _ table stream value .complete activity rfl
  · refine ⟨rfl, ?_⟩
    simp only [hmoved]
    exact .moved value _ _
  · refine ⟨?_, ?_⟩
    · simp only
      split <;> rfl
    · simp only [hmoved]
      split <;> exact .moved value _ _
  · exact settle_turnOf driver _ table stream value .idle activity rfl

theorem owned_turnOf (domain : Domain K T σ) (stream : K) (answer : Control T B E) :
    TurnOf domain.table stream (owned driver domain stream answer) := by
  unfold owned
  split
  · exact decide_turnOf driver domain.table _ stream _ _ _
  · exact ⟨rfl, .removed _⟩
  · exact ⟨rfl, .removed _⟩
  · exact settle_turnOf driver _ domain.table stream _ _ _ rfl

theorem control_turnOf (domain : Domain K T σ) (stream : K) (value : T) (permit : P) :
    TurnOf domain.table stream (control driver domain stream value permit) := by
  rw [control]
  split
  · exact borrowed_turnOf driver domain.table _ stream _ _ _ _
  · exact finish_turnOf driver domain.table _ stream _ _ _ _
  · exact owned_turnOf driver { domain with driver := _ } stream _

theorem data_turnOf (domain : Domain K T σ) (stream : K) (value : T) (permit : P) :
    TurnOf domain.table stream (data driver domain stream value permit) := by
  rw [data]
  split
  · exact borrowed_turnOf driver domain.table _ stream _ _ _ _
  · exact finish_turnOf driver domain.table _ stream _ _ _ _

/-- What `Source::turn` answers: nothing waits, the driver refuses a permit, or the first record of
the lane has its turn. -/
theorem turn_cases {domain : Domain K T σ} (hsound : domain.table.Sound) (source : Lane)
    (work : WorkClass) :
    (domain.table.lanes source = [] ∧ turn driver domain source work = (.empty, domain)) ∨
    (∃ stream rest, domain.table.lanes source = stream :: rest ∧
      (((driver.permit domain.driver).1 = none ∧ turn driver domain source work =
          (.blocked, { domain with driver := (driver.permit domain.driver).2 })) ∨
        ((driver.permit domain.driver).1.isSome = true ∧ ∃ result,
          turn driver domain source work = (.ready result.1, result.2) ∧
            TurnOf domain.table stream result))) := by
  rw [turn]
  cases hlane : domain.table.lanes source with
  | nil =>
    refine .inl ⟨rfl, ?_⟩
    simp [LaneTable.front, hlane]
  | cons stream rest =>
    refine .inr ⟨stream, rest, rfl, ?_⟩
    have hresident : domain.table.Resident stream :=
      hsound.resident stream source (by simp [hlane])
    obtain ⟨value, hvalue⟩ := Option.isSome_iff_exists.mp hresident
    simp only [LaneTable.front, hlane, List.head?_cons, hvalue]
    rcases hpermit : driver.permit domain.driver with ⟨permit, state⟩
    cases permit with
    | none => exact .inl ⟨rfl, rfl⟩
    | some permit =>
      refine .inr ⟨rfl, _, rfl, ?_⟩
      cases work with
      | control => exact control_turnOf driver { domain with driver := state } stream value permit
      | data => exact data_turnOf driver { domain with driver := state } stream value permit

/-- A turn that a drive performed, in everything that it changes. -/
structure Performs (drive : Drive K T σ) (stream : K) (work : WorkClass) (outcome : TurnOutcome K)
    (next : Drive K T σ) : Prop where
  front : outcome.stream = stream
  turned : Turned drive.domain.table stream next.domain.table outcome.terminal
    (outcome.effect == .blockData)
  policy : next.policy =
    if outcome.effect == .blockData then drive.policy.blockData else drive.policy
  turns : next.report.turns = drive.report.turns + 1
  remaining : next.remaining = drive.remaining - 1
  served : next.served = drive.served ++ [⟨stream, work, outcome.terminal⟩]

theorem one_cases {drive : Drive K T σ} (hsound : drive.domain.table.Sound) (source : Lane)
    (work : WorkClass) :
    (drive.domain.table.lanes source = [] ∧ drive.one driver source work = (.empty, drive)) ∨
    (∃ stream rest, drive.domain.table.lanes source = stream :: rest ∧
      (((driver.permit drive.domain.driver).1 = none ∧ ∃ state, drive.one driver source work =
          (.blocked, { drive with domain := ⟨drive.domain.table, state⟩ })) ∨
        ((driver.permit drive.domain.driver).1.isSome = true ∧ ∃ outcome next,
          drive.one driver source work = (.ready outcome, next) ∧
            drive.Performs stream work outcome next))) := by
  rcases turn_cases driver hsound source work with
    ⟨hlane, hturn⟩ | ⟨stream, rest, hlane, ⟨hpermit, hturn⟩ | ⟨hpermit, result, hturn, hof⟩⟩
  · exact .inl ⟨hlane, by simp only [one, hturn]⟩
  · exact .inr ⟨stream, rest, hlane, .inl ⟨hpermit, _, by simp only [one, hturn]; rfl⟩⟩
  · refine .inr ⟨stream, rest, hlane, .inr ⟨hpermit, _, _, by simp only [one, hturn]; rfl, ?_⟩⟩
    obtain ⟨hstream, hturned⟩ := hof
    refine ⟨hstream, hturned, ?_, rfl, rfl, by simp only [hstream]⟩
    cases result.1.effect <;> rfl

/-! ## What holds after a drive -/

/-- A property that the turns of a drive preserve. -/
def Invariant (holds : Drive K T σ → Prop) : Prop :=
  ∀ drive work, holds drive → drive.remaining ≠ 0 →
    (work = .data → drive.policy.isBlocked = false) →
    holds (drive.one driver work.readyLane work).2

/-- A property that the end of a round preserves. -/
def Settles (holds : Drive K T σ → Prop) : Prop :=
  ∀ drive round activity, holds drive →
    holds { drive with policy := drive.policy.finishRound round activity }

omit [Indexed K] [DecidableEq K] in
theorem not_isBlocked_of_tail {drive : Drive K T σ} {last : K} (h : drive.tail = some last) :
    drive.policy.isBlocked = false := by
  rw [tail] at h
  cases hblocked : drive.policy.isBlocked with
  | false => rfl
  | true => simp [hblocked] at h

omit [Indexed K] [DecidableEq K] in
theorem Settles.settled {holds : Drive K T σ → Prop} (hfinish : Settles holds) (drive : Drive K T σ) {stage : Stage K T σ}
    (h : holds stage.drive) : holds (drive.settled stage) := by
  unfold Drive.settled
  split
  · exact hfinish _ _ _ h
  · exact h

namespace Invariant

variable {driver} {holds : Drive K T σ → Prop}

theorem leading (hinv : Invariant driver holds) (first : Bool) {drive : Drive K T σ}
    (h : holds drive) (hremaining : drive.remaining ≠ 0) :
    holds (leading driver first drive.tail drive).drive := by
  unfold Drive.leading
  split
  · next last htail =>
    have hnext := hinv drive .data h hremaining fun _ => not_isBlocked_of_tail htail
    rcases hone : drive.one driver .dataReady .data with ⟨turn, next⟩
    have hnext' : holds next := by simpa [WorkClass.readyLane, hone] using hnext
    cases turn <;> exact hnext'
  · exact h

theorem middle (hinv : Invariant driver holds) (control : Bool) {stage : Stage K T σ}
    (h : holds stage.drive) : holds (middle driver control stage).drive := by
  unfold Drive.middle
  split
  · next hguard =>
    simp only [Bool.and_eq_true, bne_iff_ne] at hguard
    have hnext := hinv stage.drive .control h hguard.2 nofun
    rcases hone : stage.drive.one driver .controlReady .control with ⟨turn, next⟩
    have hnext' : holds next := by simpa [WorkClass.readyLane, hone] using hnext
    cases turn <;> exact hnext'
  · exact h

theorem loop (hinv : Invariant driver holds) (tail : Option K) (fuel : ℕ) {stage : Stage K T σ}
    (h : holds stage.drive) : holds (loop driver tail fuel stage).drive := by
  induction fuel generalizing stage with
  | zero => exact h
  | succ fuel ih =>
    unfold Drive.loop
    split
    · next hguard =>
      simp only [Bool.and_eq_true, bne_iff_ne, Bool.not_eq_true'] at hguard
      have hnext := hinv stage.drive .data h hguard.1.2 fun _ => hguard.2
      rcases hone : stage.drive.one driver .dataReady .data with ⟨turn, next⟩
      have hnext' : holds next := by simpa [WorkClass.readyLane, hone] using hnext
      cases turn with
      | ready outcome => exact ih hnext'
      | empty => exact hnext'
      | blocked => exact hnext'
    · exact h

theorem body (hinv : Invariant driver holds) {drive : Drive K T σ} (h : holds drive)
    (hremaining : drive.remaining ≠ 0) : holds (drive.body driver).drive := by
  unfold Drive.body
  exact hinv.loop _ _ (hinv.middle _ (hinv.leading _ h hremaining))

/-- What a drive keeps holds at its end, and at the start and the end of each of its rounds. -/
theorem rounds (hinv : Invariant driver holds) (hfinish : Settles holds) (oneRound : Bool)
    (fuel : ℕ) {drive : Drive K T σ} (h : holds drive) :
    holds (rounds driver oneRound fuel drive).1 ∧
      ∀ log ∈ (rounds driver oneRound fuel drive).2, holds log.before ∧ holds log.after := by
  induction fuel generalizing drive with
  | zero => exact ⟨h, by simp [Drive.rounds]⟩
  | succ fuel ih =>
    simp only [Drive.rounds]
    split_ifs with hremaining hready _
    · exact ⟨h, by simp⟩
    · exact ⟨h, by simp⟩
    · have hafter : holds (drive.settled (drive.body driver)) :=
        hfinish.settled drive (hinv.body h hremaining)
      refine ⟨hafter, ?_⟩
      intro log hlog
      rw [List.mem_singleton] at hlog
      subst hlog
      exact ⟨h, hafter⟩
    · have hafter : holds (drive.settled (drive.body driver)) :=
        hfinish.settled drive (hinv.body h hremaining)
      refine ⟨(ih hafter).1, ?_⟩
      intro log hlog
      rcases List.mem_cons.mp hlog with rfl | hlog
      · exact ⟨h, hafter⟩
      · exact (ih hafter).2 log hlog

theorem run (hinv : Invariant driver holds) (hfinish : Settles holds) (oneRound : Bool)
    {drive : Drive K T σ} (h : holds drive) :
    holds (drive.run driver oneRound).1 ∧
      ∀ log ∈ (drive.run driver oneRound).2, holds log.before ∧ holds log.after :=
  hinv.rounds hfinish oneRound drive.remaining h

end Invariant

theorem invariant_sound : Invariant driver fun drive => drive.domain.table.Sound := by
  intro drive work hsound _ _
  rcases one_cases driver hsound work.readyLane work with
    ⟨-, hone⟩ | ⟨stream, rest, hlane, ⟨-, state, hone⟩ | ⟨-, outcome, next, hone, hperforms⟩⟩
  · rwa [hone]
  · rwa [hone]
  · rw [hone]
    exact hperforms.turned.sound hsound
      (hsound.resident stream work.readyLane (by simp [hlane]))

/-- A property that a turn over a sound table keeps, whoever drives it. -/
structure Steady (holds : Drive K T σ → Prop) : Prop where
  driver : ∀ drive state, holds drive → holds { drive with domain := ⟨drive.domain.table, state⟩ }
  turn : ∀ drive stream work outcome next, drive.domain.table.Sound → holds drive →
    drive.remaining ≠ 0 → (work = .data → drive.policy.isBlocked = false) →
    stream ∈ drive.domain.table.lanes work.readyLane →
    drive.Performs stream work outcome next → holds next

theorem Steady.invariant {holds : Drive K T σ → Prop} (hsteady : Steady holds) :
    Invariant driver fun drive => drive.domain.table.Sound ∧ holds drive := by
  intro drive work h hremaining hblocked
  refine ⟨invariant_sound driver drive work h.1 hremaining hblocked, ?_⟩
  rcases one_cases driver h.1 work.readyLane work with
    ⟨-, hone⟩ | ⟨stream, rest, hlane, ⟨-, state, hone⟩ | ⟨-, outcome, next, hone, hperforms⟩⟩
  · rw [hone]
    exact h.2
  · rw [hone]
    exact hsteady.driver drive state h.2
  · rw [hone]
    exact hsteady.turn drive stream work outcome next h.1 h.2 hremaining hblocked
      (by simp [hlane]) hperforms

end Drive

end Sark.Schedule
