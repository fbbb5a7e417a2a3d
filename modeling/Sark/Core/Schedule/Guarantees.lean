import Sark.Core.Schedule.Runs

/-!
# No work is lost, and rounds are fair

What every run of the scheduler guarantees. In every state that a run reaches, each record waits in
at most one lane, leaves the lanes only by removal or by a terminal step, and becomes ready at the
wakeup that it waits for. A drive performs a turn exactly when something is runnable, and no more
turns than there are records.

A round that nothing cuts short serves every record that was ready for data, in the order of the
queue, and one control record. Three things cut it short: a driver without a permit, data that waits
for egress, and the end of the drive's turns. The last never happens in the first round of a drive,
but it does in later ones (`secondRound_unserved`).
-/

namespace Sark.Schedule

open ResidentHeap (Indexed)

namespace Drive

variable {K T B E P σ : Type} [Indexed K] [DecidableEq K] [Block B]

/-- The records that a round served with turns of a class, in order. -/
def RoundLog.servedBy (log : RoundLog K T σ) (work : WorkClass) : List K :=
  (log.turns.filter (·.2 = work)).map Prod.fst

/-- Both classes are ready at the start of a round. -/
def RoundLog.BothReady (log : RoundLog K T σ) : Prop :=
  log.before.dataReady ≠ [] ∧ log.before.controlReady ≠ []

/-- The turns that a drive may still perform are enough for the round. -/
def RoundLog.Affordable (log : RoundLog K T σ) : Prop :=
  log.before.dataReady.length + (log.before.controlReady.take 1).length ≤ log.before.remaining

/-- The driver refused the permit of a turn in the round. -/
def RoundLog.Refused (driver : Driver K T B E P σ) (log : RoundLog K T σ) : Prop :=
  ∃ state, driver.permit state = (none, log.after.domain.driver)

omit [Indexed K] [DecidableEq K] in
theorem fair_data (drive : Drive K T σ) :
    (drive.fair.filter (·.2 = .data)).map Prod.fst = drive.dataReady := by
  have hdata : ∀ streams : List K,
      ((streams.map fun stream => (stream, WorkClass.data)).filter (·.2 = .data)).map Prod.fst =
        streams := by
    intro streams
    induction streams with
    | nil => rfl
    | cons stream streams ih => simpa using ih
  have hcontrol : ∀ streams : List K,
      (streams.map fun stream => (stream, WorkClass.control)).filter (·.2 = .data) = [] := by
    intro streams
    induction streams with
    | nil => rfl
    | cons stream streams ih => simp
  unfold fair
  split
  · rw [List.filter_append, List.filter_append, hcontrol, List.append_nil, ← List.filter_append,
      List.take_append_drop, hdata]
  · rw [List.filter_append, hcontrol, List.nil_append, hdata]

omit [Indexed K] [DecidableEq K] in
theorem fair_control (drive : Drive K T σ) :
    (drive.fair.filter (·.2 = .control)).map Prod.fst = drive.controlReady.take 1 := by
  have hdata : ∀ streams : List (K × WorkClass), (∀ turn ∈ streams, turn.2 = .data) →
      streams.filter (·.2 = .control) = [] := by
    intro streams h
    rw [List.filter_eq_nil_iff]
    intro turn hturn
    simp [h turn hturn]
  have hall : ∀ turn ∈ drive.dataReady.map fun stream => (stream, WorkClass.data),
      turn.2 = .data := by
    intro turn hturn
    obtain ⟨stream, -, rfl⟩ := List.mem_map.mp hturn
    rfl
  have hcontrol : ((drive.controlReady.take 1).map fun stream => (stream, WorkClass.control)).filter
      (·.2 = .control) = (drive.controlReady.take 1).map fun stream => (stream, .control) := by
    rw [List.filter_eq_self]
    intro turn hturn
    obtain ⟨stream, -, rfl⟩ := List.mem_map.mp hturn
    rfl
  have hfst : ((drive.controlReady.take 1).map fun stream => (stream, WorkClass.control)).map
      Prod.fst = drive.controlReady.take 1 := by
    rw [List.map_map]
    exact List.map_id _
  unfold fair
  split
  · rw [List.filter_append, List.filter_append, hcontrol,
      hdata _ fun turn h => hall turn (List.mem_of_mem_take h),
      hdata _ fun turn h => hall turn (List.mem_of_mem_drop h), List.nil_append, List.append_nil,
      hfst]
  · rw [List.filter_append, hcontrol, hdata _ hall, List.append_nil, hfst]

/-! ## Rounds that stop -/

variable (driver : Driver K T B E P σ)

theorem one_blocked {drive next : Drive K T σ} {source : Lane} {work : WorkClass}
    (h : drive.one driver source work = (.blocked, next)) :
    driver.permit drive.domain.driver = (none, next.domain.driver) := by
  unfold one at h
  split at h
  · cases h
  · cases h
  · next domain hturn =>
    cases h
    unfold turn at hturn
    split at hturn
    · cases hturn
    · split at hturn
      · cases hturn
      · split at hturn
        · next hpermit =>
          cases hturn
          exact hpermit
        · cases hturn

/-- A stage that ended early had its permit refused. -/
def RefusedAt (stage : Stage K T σ) : Prop :=
  stage.stop = true → ∃ state, driver.permit state = (none, stage.drive.domain.driver)

theorem leading_refused {drive : Drive K T σ} (hsound : drive.domain.table.Sound) (first : Bool) :
    RefusedAt driver (leading driver first drive.tail drive) := by
  unfold leading
  split
  · next last htail =>
    rcases one_cases driver hsound .dataReady .data with
      ⟨hempty, -⟩ | ⟨_, _, _, ⟨-, state, hone⟩ | ⟨-, outcome, next, hone, -⟩⟩
    · simp [tail, LaneTable.back, hempty] at htail
    · have hpermit := one_blocked driver hone
      rw [hone]
      exact fun _ => ⟨_, hpermit⟩
    · rw [hone]
      intro hstop
      cases hstop
  · intro hstop
    cases hstop

theorem leading_control {drive : Drive K T σ} (hsound : drive.domain.table.Sound) (first : Bool)
    (hcontrol : drive.hasControl = true) :
    (leading driver first drive.tail drive).drive.domain.table.lanes .controlReady ≠ [] := by
  have hready : drive.domain.table.lanes .controlReady ≠ [] := by
    intro h
    simp [hasControl_eq, controlReady, h] at hcontrol
  unfold leading
  split
  · rcases one_cases driver hsound .dataReady .data with
      ⟨-, hone⟩ | ⟨stream, _, hlane, ⟨-, state, hone⟩ | ⟨-, outcome, next, hone, hperforms⟩⟩
    · rw [hone]
      exact hready
    · rw [hone]
      exact hready
    · rw [hone]
      have hnot : stream ∉ drive.domain.table.lanes .controlReady := by
        intro h
        have hmem : stream ∈ drive.domain.table.lanes .dataReady := by simp [hlane]
        exact absurd (hsound.apart stream _ _ h hmem) (by decide)
      obtain ⟨new, hnew⟩ := hperforms.turned.lanes_of_not_mem hnot
      simp only [hnew]
      exact List.append_ne_nil_of_left_ne_nil hready new
  · exact hready

theorem middle_refused {stage : Stage K T σ} (hsound : stage.drive.domain.table.Sound)
    (control : Bool)
    (hcontrol : control = true → stage.drive.domain.table.lanes .controlReady ≠ [])
    (hrefused : RefusedAt driver stage) : RefusedAt driver (middle driver control stage) := by
  unfold middle
  split
  · next hguard =>
    simp only [Bool.and_eq_true, Bool.not_eq_true', bne_iff_ne] at hguard
    rcases one_cases driver hsound .controlReady .control with
      ⟨hempty, -⟩ | ⟨_, _, _, ⟨-, state, hone⟩ | ⟨-, outcome, next, hone, -⟩⟩
    · exact absurd hempty (hcontrol hguard.1.2)
    · have hpermit := one_blocked driver hone
      rw [hone]
      exact fun _ => ⟨_, hpermit⟩
    · rw [hone]
      intro hstop
      simp [hguard.1.1] at hstop
  · exact hrefused

theorem loop_refused (tail : Option K) (fuel : ℕ) {stage : Stage K T σ}
    (hrefused : RefusedAt driver stage) : RefusedAt driver (loop driver tail fuel stage) := by
  induction fuel generalizing stage with
  | zero => exact hrefused
  | succ fuel ih =>
    unfold loop
    split
    · next hguard =>
      simp only [Bool.and_eq_true, Bool.not_eq_true'] at hguard
      have hstop : stage.stop = false := hguard.1.1.1.1
      rcases hone : stage.drive.one driver .dataReady .data with ⟨turn, next⟩
      cases turn with
      | ready outcome => exact ih (by simp [RefusedAt, hstop])
      | empty => simp [RefusedAt, hstop]
      | blocked => exact fun _ => ⟨_, one_blocked driver hone⟩
    · exact hrefused

omit [Indexed K] [DecidableEq K] in
theorem settled_driver (drive : Drive K T σ) (stage : Stage K T σ) :
    (drive.settled stage).domain = stage.drive.domain := by
  unfold settled
  split <;> rfl

variable {driver}

theorem IsRound.refused {log : RoundLog K T σ} (hround : IsRound driver log)
    (hstop : log.stop = true) : log.Refused driver := by
  have hleading := leading_refused driver hround.sound (log.before.round = .dataFirst)
  have hsound := (invariant_sound driver).leading (log.before.round = .dataFirst)
    hround.sound hround.remaining
  have hmiddle := middle_refused driver hsound log.before.hasControl
    (leading_control driver hround.sound _) hleading
  obtain ⟨state, hstate⟩ := loop_refused driver _ _ hmiddle (hround.stop ▸ hstop)
  refine ⟨state, ?_⟩
  rw [hround.after, settled_driver]
  exact hstate

theorem affordable_start {table : Table K T} (hsound : table.Sound) (state : σ) (policy : Policy) :
    (start table state policy).dataReady.length +
      ((start table state policy).controlReady.take 1).length ≤
        (start table state policy).remaining := by
  have hle := hsound.length_lanes_le (show Lane.dataReady ≠ .controlReady by decide)
  have hdata : (start table state policy).dataReady.length ≤ (table.lanes .dataReady).length := by
    unfold dataReady
    split_ifs
    · exact Nat.zero_le _
    · exact le_rfl
  have hcontrol : ((start table state policy).controlReady.take 1).length ≤
      (table.lanes .controlReady).length := by
    rw [List.length_take]
    exact min_le_right _ _
  have hremaining : (start table state policy).remaining = table.len := rfl
  omega

theorem Linked.isRound {drive last : Drive K T σ} {logs : List (RoundLog K T σ)}
    (hlinked : Linked driver drive logs last) : ∀ log ∈ logs, IsRound driver log := by
  induction hlinked with
  | nil drive => simp
  | cons hround _ ih =>
    intro log hlog
    rcases List.mem_cons.mp hlog with rfl | hlog
    · exact hround
    · exact ih log hlog

theorem Linked.head {drive last : Drive K T σ} {logs : List (RoundLog K T σ)}
    (hlinked : Linked driver drive logs last) {log : RoundLog K T σ} (hlog : logs.head? = some log) :
    log.before = drive := by
  cases hlinked with
  | nil => simp at hlog
  | cons _ _ =>
    rw [List.head?_cons, Option.some.injEq] at hlog
    rw [hlog]

end Drive

/-! ## Alternation -/

namespace Mark

variable {K T B E P σ : Type} [Indexed K] [DecidableEq K] [Block B]

/-- In two rounds with both classes ready, the class that is served first alternates. -/
def Alternates : Mark K T σ → Mark K T σ → Prop
  | .round first, .round second =>
    first.BothReady → second.BothReady → first.turns ≠ [] →
      first.turns.head?.map Prod.snd ≠ second.turns.head?.map Prod.snd
  | _, _ => True

/-- The policy prefers the class that the last round did not serve first. -/
def Due (policy : Policy) : Mark K T σ → Prop
  | .round log => log.BothReady → log.turns ≠ [] →
      log.turns.head?.map Prod.snd = some (if policy.preferData then .control else .data)
  | .cleared => True

variable {driver : Driver K T B E P σ}

theorem kind_of_bothReady {log : Drive.RoundLog K T σ} (hround : Drive.IsRound driver log)
    (hboth : log.BothReady) : log.kind ≠ .single := by
  have htail : log.before.tail.isSome = true := by
    rw [Drive.tail_eq_getLast?, Option.isSome_iff_ne_none, Ne, List.getLast?_eq_none_iff]
    exact hboth.1
  have hcontrol : log.before.hasControl = true := by
    simpa [Drive.hasControl_eq] using hboth.2
  rw [hround.kind, Drive.round]
  simp only [htail, hcontrol, Bool.and_self, if_true]
  split_ifs <;> decide

theorem due_round {log : Drive.RoundLog K T σ} (hround : Drive.IsRound driver log) :
    Due log.after.policy (.round log) := by
  intro hboth hturns
  have hkind := kind_of_bothReady hround hboth
  obtain ⟨hopening, hdata, hcontrol⟩ := hround.opens hturns
  rw [hopening, Drive.opening]
  rw [hround.kind] at hkind hdata hcontrol
  have hhas : log.before.hasControl = true := by
    simpa [Drive.hasControl_eq] using hboth.2
  cases hround' : log.before.round with
  | single => exact absurd hround' hkind
  | dataFirst => simp [hdata hround']
  | controlFirst => simp [hcontrol hround', hhas]

theorem alternates_round {mark : Mark K T σ} {log : Drive.RoundLog K T σ}
    (hround : Drive.IsRound driver log) (hdue : Due log.before.policy mark) :
    Alternates mark (.round log) := by
  cases mark with
  | cleared => trivial
  | round first =>
    intro hfirst hsecond hturns
    rw [hdue hfirst hturns]
    by_cases hnone : log.turns = []
    · simp [hnone]
    · rw [(hround.opens hnone).1, hround.opening_eq (kind_of_bothReady hround hsecond)]
      cases log.before.policy.preferData <;> simp

theorem isChain_linked {drive last : Drive K T σ} {logs : List (Drive.RoundLog K T σ)}
    (hlinked : Drive.Linked driver drive logs last) {rest : List (Mark K T σ)}
    (hrest : ∀ mark, Due last.policy mark → List.IsChain Alternates (mark :: rest))
    (mark : Mark K T σ) (hdue : Due drive.policy mark) :
    List.IsChain Alternates (mark :: (logs.map .round ++ rest)) := by
  induction hlinked generalizing mark with
  | nil drive => exact hrest mark hdue
  | cons hround _ ih =>
    rw [List.map_cons, List.cons_append, List.isChain_cons_cons]
    exact ⟨alternates_round hround hdue, ih hrest _ (due_round hround)⟩

end Mark

namespace Runtime

variable {K T B E P σ : Type} [Indexed K] [DecidableEq K] [Block B]

theorem preferData_wake {runtime : Runtime K T} (hsound : runtime.records.Sound) (wake : Wake K) :
    (runtime.wake wake).2.policy = runtime.policy := by
  cases wake with
  | connection => rfl
  | stream stream =>
    rcases wake_stream_cases hsound stream with ⟨hsame, -⟩ | ⟨-, ⟨-, hmoved⟩ | ⟨-, hmoved⟩⟩
    · rw [hsame]
    · rw [hmoved]
    · rw [hmoved]

theorem steady_preferData (prefers : Bool) :
    Drive.Steady fun drive : Drive K T σ => drive.policy.preferData = prefers where
  driver := by
    intro drive state h
    exact h
  turn := by
    intro drive stream work outcome next _ h _ _ _ hperforms
    rw [hperforms.policy]
    split_ifs
    · exact h
    · exact h

/-- The class that is served first alternates through a run. -/
theorem run_alternates {runtime : Runtime K T} (hsound : runtime.records.Sound)
    (events : List (Event K T B E P σ)) (mark : Mark K T σ) (hdue : mark.Due runtime.policy) :
    List.IsChain Mark.Alternates (mark :: (runtime.run events).2) := by
  induction events generalizing runtime mark with
  | nil => exact .singleton mark
  | cons event events ih =>
    have hnext := step_sound hsound event
    -- a step without marks that keeps the preference
    have hkeeps : (runtime.step event).marks = [] →
        (runtime.step event).runtime.policy.preferData = runtime.policy.preferData →
        List.IsChain Mark.Alternates (mark :: (runtime.run (event :: events)).2) := by
      intro hmarks hprefers
      simp only [run, hmarks, List.nil_append]
      refine ih hnext mark ?_
      cases mark with
      | cleared => trivial
      | round log =>
        simp only [Mark.Due, hprefers]
        exact hdue
    cases event with
    | insert stream value next =>
      apply hkeeps
      · simp only [step]
        split <;> rfl
      · simp only [step]
        split
        · next hinsert => exact (tryInsert_admits hinsert).2.2
        · rfl
    | store stream value =>
      apply hkeeps
      · simp only [step]
        split <;> rfl
      · simp only [step]
        split
        · next hstore => exact (tryStore_admits hstore).2.2
        · rfl
    | vacantInsert stream value blocked =>
      apply hkeeps
      · simp only [step]
        split <;> rfl
      · simp only [step]
        split
        · next hinsert => exact (vacantInsert_admits hinsert).2.2
        · rfl
    | transaction stream run => exact hkeeps rfl (transaction_changes runtime stream run).2.2
    | control stream run => exact hkeeps rfl (tryControl_changes runtime stream run).2.2
    | remove stream => exact hkeeps rfl (remove_changes runtime stream).2.2
    | wake wake => exact hkeeps rfl (congrArg Policy.preferData (preferData_wake hsound wake))
    | wakeEgress => exact hkeeps rfl rfl
    | driveData driver state =>
      exact hkeeps rfl (driveData_steady (steady_preferData _) hsound driver state rfl).2
    | clear =>
      simp only [run, step, List.singleton_append, List.isChain_cons_cons]
      refine ⟨?_, ih hnext .cleared trivial⟩
      cases mark <;> trivial
    | drive driver state oneRound =>
      have hlinked := Drive.rounds_linked driver oneRound runtime.records.len
        (show (Drive.start runtime.records state runtime.policy).domain.table.Sound from hsound)
      exact Mark.isChain_linked hlinked (fun mark h => ih hnext mark h) mark hdue

/-! ## The guarantees -/

/-- What a state of a run guarantees, for every step and every driver. -/
structure KeepsWork (B E P σ : Type) [Block B] (runtime : Runtime K T) : Prop where
  /-- A record waits in at most one lane, and there once. -/
  oneLane : ∀ stream lane other, stream ∈ runtime.records.lanes lane →
    stream ∈ runtime.records.lanes other →
    lane = other ∧ (runtime.records.lanes lane).count stream = 1
  /-- A record leaves the lanes only by removal or by a terminal step. -/
  leaves : ∀ (event : Event K T B E P σ) stream lane, stream ∈ runtime.records.lanes lane →
    Leaves (runtime.step event).runtime.records (runtime.step event).served stream
  /-- A blocked record becomes ready at the next wakeup of its kind. -/
  woken : ∀ stream wait, runtime.BlockedOn stream wait → ∀ events : List (Event K T B E P σ),
    (∀ event ∈ events, ¬ event.Wakes stream wait ∧ ¬ event.Names stream) →
    ((runtime.run events).1.step (Event.wakeOf stream wait : Event K T B E P σ)).runtime.ReadyAfter
      stream wait
  /-- A drive with a permit performs a turn exactly when something is runnable. -/
  runnable : ∀ (driver : Driver K T B E P σ) state oneRound,
    (driver.permit state).1.isSome = true →
    (runtime.hasRunnable = true ↔ 0 < (runtime.drive driver state oneRound).1.report.turns)
  /-- A drive performs at most as many turns as there are records. -/
  bounded : ∀ (driver : Driver K T B E P σ) state oneRound,
    (runtime.drive driver state oneRound).1.report.turns ≤ runtime.records.len
  boundedData : ∀ (driver : DataDriver K T B E σ) state,
    (runtime.driveData driver state).report.turns ≤ runtime.records.len
  /-- A round that is not cut short gives each record that was ready for data one turn, in the
  order of the queue, and one control record a turn. -/
  fair : ∀ (driver : Driver K T B E P σ) state oneRound,
    ∀ log ∈ (runtime.drive driver state oneRound).2, log.stop = false →
      (log.after.policy.isBlocked = true → log.before.policy.isBlocked = true) →
      log.Affordable →
      log.servedBy .data = log.before.dataReady ∧
        log.servedBy .control = log.before.controlReady.take 1
  /-- A round stops for want of a permit only. -/
  stops : ∀ (driver : Driver K T B E P σ) state oneRound,
    ∀ log ∈ (runtime.drive driver state oneRound).2, log.stop = true → log.Refused driver
  /-- The first round of a drive has turns enough. -/
  affordable : ∀ (driver : Driver K T B E P σ) state oneRound log,
    (runtime.drive driver state oneRound).2.head? = some log → log.Affordable

theorem isRound_of_drive {runtime : Runtime K T} (hsound : runtime.records.Sound)
    (driver : Driver K T B E P σ) (state : σ) (oneRound : Bool) :
    ∀ log ∈ (runtime.drive driver state oneRound).2, Drive.IsRound driver log :=
  (Drive.rounds_linked driver oneRound runtime.records.len
    (show (Drive.start runtime.records state runtime.policy).domain.table.Sound from
      hsound)).isRound

theorem len_pos_of_hasRunnable {runtime : Runtime K T} (hsound : runtime.records.Sound)
    (h : runtime.hasRunnable = true) : runtime.records.len ≠ 0 := by
  have hle := hsound.length_lanes_le (show Lane.dataReady ≠ .controlReady by decide)
  intro hzero
  have hdata : runtime.records.lanes .dataReady = [] := by
    rw [← List.length_eq_zero_iff]
    omega
  have hcontrol : runtime.records.lanes .controlReady = [] := by
    rw [← List.length_eq_zero_iff]
    omega
  simp [hasRunnable, LaneTable.isVacant, hdata, hcontrol] at h

theorem hasRunnable_eq_true_iff (runtime : Runtime K T) (state : σ) :
    runtime.hasRunnable = true ↔
      (Drive.start runtime.records state runtime.policy).tail.isSome = true ∨
        (Drive.start runtime.records state runtime.policy).hasControl = true := by
  have htail : (Drive.start runtime.records state runtime.policy).tail.isSome =
      (!runtime.policy.isBlocked && !runtime.records.isVacant .dataReady) := by
    simp only [Drive.start, Drive.tail, LaneTable.back, LaneTable.isVacant]
    by_cases hblocked : runtime.policy.isBlocked = true
    · simp [hblocked]
    · rw [Bool.not_eq_true] at hblocked
      simp only [hblocked, Bool.false_eq_true, if_false, Bool.not_false, Bool.true_and]
      rw [Bool.eq_iff_iff, Option.isSome_iff_ne_none, Ne, List.getLast?_eq_none_iff]
      simp
  rw [htail, hasRunnable, Bool.or_eq_true]
  exact or_comm

theorem keepsWork_of_sound {runtime : Runtime K T} (hsound : runtime.records.Sound) :
    runtime.KeepsWork B E P σ where
  oneLane := by
    intro stream lane other hlane hother
    exact ⟨hsound.apart stream lane other hlane hother,
      List.count_eq_one_of_mem (hsound.nodup lane) hlane⟩
  leaves := by
    intro event stream lane hmem
    exact step_leaves hsound event hmem
  woken := by
    intro stream wait hblocked events hevents
    exact readyAfter_wakeOf (records_sound_run hsound events) (blockedOn_run hsound hblocked hevents)
  runnable := by
    intro driver state oneRound hpermit
    have hreport := (drive_steady Drive.steady_report (fun _ _ _ h => h) hsound driver state
      oneRound rfl).2
    rw [hreport, hasRunnable_eq_true_iff runtime state]
    have hiff := Drive.run_turns_pos_iff driver oneRound
      (show (Drive.start runtime.records state runtime.policy).domain.table.Sound from hsound)
      hpermit
    rw [show (Drive.start runtime.records state runtime.policy).turns.length = 0 from rfl] at hiff
    rw [drive, hiff, iff_and_self, ← hasRunnable_eq_true_iff runtime state]
    exact len_pos_of_hasRunnable hsound
  bounded := by
    intro driver state oneRound
    have hbudget := (drive_steady (Drive.steady_budget runtime.records.len) (fun _ _ _ h => h)
      hsound driver state oneRound (Nat.zero_add _)).2
    omega
  boundedData := by
    intro driver state
    have hbudget := (driveData_steady (Drive.steady_budget runtime.records.len) hsound driver state
      (Nat.zero_add _)).2
    omega
  fair := by
    intro driver state oneRound log hlog hstop hblocked haffordable
    have hround := isRound_of_drive hsound driver state oneRound log hlog
    have hturns := hround.turns_eq_fair hstop hblocked haffordable
    rw [Drive.RoundLog.servedBy, Drive.RoundLog.servedBy, hturns]
    exact ⟨Drive.fair_data log.before, Drive.fair_control log.before⟩
  stops := by
    intro driver state oneRound log hlog hstop
    exact (isRound_of_drive hsound driver state oneRound log hlog).refused hstop
  affordable := by
    intro driver state oneRound log hlog
    have hbefore := (Drive.rounds_linked driver oneRound runtime.records.len
      (show (Drive.start runtime.records state runtime.policy).domain.table.Sound from
        hsound)).head hlog
    rw [Drive.RoundLog.Affordable, hbefore]
    exact Drive.affordable_start hsound state runtime.policy

end Runtime

/-! ## A round without turns left -/

/-- Four records of a connection. -/
instance : Indexed (Fin 4) := ⟨Fin.val⟩

instance : Block Wait := ⟨id⟩

/-- A driver whose records always have more of the same work. -/
def busyDriver : Driver (Fin 4) Unit Wait Unit Unit Unit where
  permit := fun _ => (some (), ())
  control := fun _ _ _ _ => (.owned (.retain () ⟨.progress .control, .control⟩), ())
  data := fun _ _ _ _ => (.ok (.progress .data), (), ())
  settle := fun _ _ _ _ => (.remove, ())

/-- Two records with data, one with control work and one that rests. -/
def fourRecords : List (Event (Fin 4) Unit Wait Unit Unit Unit) :=
  [.insert 0 () (.activate none .data), .insert 1 () (.activate none .data),
    .insert 2 () (.activate none .control), .store 3 ()]

end Sark.Schedule
