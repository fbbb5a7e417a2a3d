import Sark.Core.Schedule.Rounds
import Sark.Library.Fallible

/-!
# The runs of the scheduler

A run is any sequence of inserts, transactions, wakeups, releases of egress, drives and removals,
with any answers of the drivers. No step loses a record that has work: it waits in one lane until it
is removed or has a terminal step, and the wakeup that it waits for makes it ready.

* `Runtime.step_leaves`: how a record may leave the lanes.
* `Runtime.blockedOn_run`: a blocked record stays blocked until it is woken.
* `Runtime.run_keepsWork`: what holds in every state and of every drive of a run.
-/

namespace Sark.Schedule

open ResidentHeap (Indexed)

/-- A step of a run. -/
inductive Event (K T B E P σ : Type) where
  | insert (stream : K) (value : T) (next : Activation B)
  | store (stream : K) (value : T)
  | vacantInsert (stream : K) (value : T) (blocked : Option B)
  | transaction (stream : K) (run : T → T × Except E (Activation B))
  | control (stream : K) (run : T → Transition T B)
  | remove (stream : K)
  | wake (wake : Wake K)
  | wakeEgress
  | clear
  | drive (driver : Driver K T B E P σ) (state : σ) (oneRound : Bool)
  | driveData (driver : DataDriver K T B E σ) (state : σ)

/-- What a run shows: its rounds, and where everything was dropped. -/
inductive Mark (K T σ : Type) where
  | round (log : Drive.RoundLog K T σ)
  | cleared

/-- What a step leaves, the marks that it adds and the turns that it performed. -/
structure Outcome (K T σ : Type) where
  runtime : Runtime K T
  marks : List (Mark K T σ) := []
  served : List (Served K) := []

/-- The scheduler after a drive. -/
def Drive.runtime {K T σ : Type} (drive : Drive K T σ) (limit : ℕ) : Runtime K T :=
  ⟨drive.domain.table, limit, drive.policy⟩

namespace Runtime

variable {K T B E P σ : Type} [Indexed K] [DecidableEq K] [Block B]

/-- One step. A refused insertion changes nothing. -/
def step (runtime : Runtime K T) : Event K T B E P σ → Outcome K T σ
  | .insert stream value next =>
    match runtime.tryInsert stream value next with
    | .ok runtime => { runtime := runtime }
    | .error _ => { runtime := runtime }
  | .store stream value =>
    match runtime.tryStore stream value with
    | .ok runtime => { runtime := runtime }
    | .error _ => { runtime := runtime }
  | .vacantInsert stream value blocked =>
    match runtime.vacantInsert stream value blocked with
    | some runtime => { runtime := runtime }
    | none => { runtime := runtime }
  | .transaction stream run => { runtime := runtime.transaction stream run }
  | .control stream run => { runtime := runtime.tryControl stream run }
  | .remove stream => { runtime := runtime.remove stream }
  | .wake wake => { runtime := (runtime.wake wake).2 }
  | .wakeEgress => { runtime := runtime.wakeEgress }
  | .clear => { runtime := runtime.clear, marks := [.cleared] }
  | .drive driver state oneRound =>
    let driven := runtime.drive driver state oneRound
    { runtime := driven.1.runtime runtime.limit
      marks := driven.2.map .round
      served := driven.1.served }
  | .driveData driver state =>
    let driven := runtime.driveData driver state
    { runtime := driven.runtime runtime.limit, served := driven.served }

/-- A run of the scheduler. -/
def run (runtime : Runtime K T) : List (Event K T B E P σ) → Runtime K T × List (Mark K T σ)
  | [] => (runtime, [])
  | event :: events =>
    let outcome := runtime.step event
    let rest := outcome.runtime.run events
    (rest.1, outcome.marks ++ rest.2)

/-! ## Single steps -/

/-- What a step does to the record that it names: nothing, or a change that is not terminal. -/
def Changes (runtime after : Runtime K T) (stream : K) : Prop :=
  (after.records = runtime.records ∨
    (runtime.records.Resident stream ∧ ∃ blocked,
      Turned runtime.records stream after.records false blocked)) ∧
    (runtime.policy.isBlocked = true → after.policy.isBlocked = true) ∧
    after.policy.preferData = runtime.policy.preferData

theorem apply_changes {runtime : Runtime K T} {stream : K} {value : T}
    (hresident : runtime.records.Resident stream) (place : Lane × Bool) :
    runtime.Changes
      (apply { runtime with records := runtime.records.put stream value } stream place) stream := by
  refine ⟨.inr ⟨hresident, ?_⟩, ?_, ?_⟩
  · simp only [apply]
    split_ifs
    · exact ⟨true, .stayed value⟩
    · exact ⟨false, .moved value place.1 false⟩
  · intro hblocked
    simp only [apply]
    split_ifs
    · rfl
    · exact hblocked
  · simp only [apply]
    split_ifs <;> rfl

theorem write_changes {runtime : Runtime K T} {stream : K} (value : T)
    (hresident : runtime.records.Resident stream) :
    runtime.Changes { runtime with records := runtime.records.put stream value } stream :=
  ⟨.inr ⟨hresident, true, .stayed value⟩, id, rfl⟩

theorem transaction_changes (runtime : Runtime K T) (stream : K)
    (run : T → T × Except E (Activation B)) :
    runtime.Changes (runtime.transaction stream run) stream := by
  unfold transaction
  split
  · exact ⟨.inl rfl, id, rfl⟩
  · next value hvalue =>
    have hresident := LaneTable.resident_of_get hvalue
    simp only
    split
    · exact write_changes _ hresident
    · split
      · exact write_changes _ hresident
      · exact apply_changes hresident _

theorem tryControl_changes (runtime : Runtime K T) (stream : K) (run : T → Transition T B) :
    runtime.Changes (runtime.tryControl stream run) stream := by
  unfold tryControl
  split
  · exact ⟨.inl rfl, id, rfl⟩
  · next value hvalue =>
    have hresident := LaneTable.resident_of_get hvalue
    split
    · exact write_changes _ hresident
    · exact ⟨.inr ⟨hresident, false, .removed false⟩, id, rfl⟩
    · next value' blocked _ =>
      simp only
      split_ifs
      · exact write_changes _ hresident
      · refine ⟨.inr ⟨hresident, false, ?_⟩, id, rfl⟩
        rw [LaneTable.put_remove, LaneTable.moveToBack_unlink]
        exact .moved value' _ false

theorem remove_changes (runtime : Runtime K T) (stream : K) :
    runtime.Changes (runtime.remove stream) stream := by
  unfold remove
  split
  · exact ⟨.inl rfl, id, rfl⟩
  · next value hvalue =>
    exact ⟨.inr ⟨LaneTable.resident_of_get hvalue, false, .removed false⟩, id, rfl⟩

/-- What an insertion does: nothing, or a record in a free slot that may go to a lane. -/
def Admits (runtime after : Runtime K T) : Prop :=
  (after.records = runtime.records ∨ ∃ stream value,
    runtime.records.tryVacant stream = .ok () ∧
      (after.records = runtime.records.put stream value ∨ ∃ lane,
        after.records = (runtime.records.put stream value).moveToBack stream lane)) ∧
    (runtime.policy.isBlocked = true → after.policy.isBlocked = true) ∧
    after.policy.preferData = runtime.policy.preferData

omit [DecidableEq K] in
theorem vacant_of_tryVacant {runtime : Runtime K T} {stream : K} {value : T}
    (h : runtime.tryVacant stream value = .ok ()) :
    runtime.records.tryVacant stream = .ok () := by
  unfold tryVacant at h
  split at h <;> simp_all

theorem tryInsert_admits {runtime after : Runtime K T} {stream : K} {value : T}
    {next : Activation B} (h : runtime.tryInsert stream value next = .ok after) :
    runtime.Admits after := by
  unfold tryInsert at h
  obtain ⟨⟨⟩, hvacant, h⟩ := Except.bind_eq_ok_iff.mp h
  have hfree := vacant_of_tryVacant hvacant
  simp only at h
  split at h
  · cases h
    exact ⟨.inr ⟨stream, value, hfree, .inl rfl⟩, id, rfl⟩
  · next place _ =>
    cases h
    refine ⟨.inr ⟨stream, value, hfree, ?_⟩, ?_, ?_⟩
    · simp only [apply]
      split_ifs
      · exact .inl rfl
      · exact .inr ⟨place.1, rfl⟩
    · intro hblocked
      simp only [apply]
      split_ifs
      · rfl
      · exact hblocked
    · simp only [apply]
      split_ifs <;> rfl

theorem tryStore_admits {runtime after : Runtime K T} {stream : K} {value : T}
    (h : runtime.tryStore stream value = .ok after) : runtime.Admits after := by
  unfold tryStore at h
  obtain ⟨⟨⟩, hvacant, h⟩ := Except.bind_eq_ok_iff.mp h
  cases h
  exact ⟨.inr ⟨stream, value, vacant_of_tryVacant hvacant, .inl rfl⟩, id, rfl⟩

theorem vacantInsert_admits {runtime after : Runtime K T} {stream : K} {value : T}
    {blocked : Option B} (h : runtime.vacantInsert stream value blocked = some after) :
    runtime.Admits after := by
  unfold vacantInsert at h
  split_ifs at h
  split at h
  · cases h
  · next hfree =>
    cases h
    exact ⟨.inr ⟨stream, value, hfree, .inr ⟨_, rfl⟩⟩, id, rfl⟩

namespace Changes

variable {runtime after : Runtime K T} {stream other : K}

theorem sound (hchanges : runtime.Changes after stream) (hsound : runtime.records.Sound) :
    after.records.Sound := by
  rcases hchanges.1 with hsame | ⟨hresident, blocked, hturned⟩
  · rwa [hsame]
  · exact hturned.sound hsound hresident

theorem mem_of_ne (hchanges : runtime.Changes after stream) (hne : other ≠ stream) {lane : Lane}
    (hmem : other ∈ runtime.records.lanes lane) : other ∈ after.records.lanes lane := by
  rcases hchanges.1 with hsame | ⟨-, blocked, hturned⟩
  · rwa [hsame]
  · exact (hturned.mem_iff_of_ne hne lane).mpr hmem

theorem waits_or (hchanges : runtime.Changes after stream) {lane : Lane}
    (hmem : other ∈ runtime.records.lanes lane) :
    (∃ lane', other ∈ after.records.lanes lane') ∨ ¬ after.records.Resident other := by
  by_cases hne : other = stream
  · subst hne
    rcases hchanges.1 with hsame | ⟨-, blocked, hturned⟩
    · exact .inl ⟨lane, by rwa [hsame]⟩
    · rcases hturned.waits_or ⟨lane, hmem⟩ with hwaits | hgone | hterminal
      · exact .inl hwaits
      · exact .inr hgone
      · exact absurd hterminal (by simp)
  · exact .inl ⟨lane, hchanges.mem_of_ne hne hmem⟩

end Changes

namespace Admits

variable {runtime after : Runtime K T} {other : K}

theorem sound (hadmits : runtime.Admits after) (hsound : runtime.records.Sound) :
    after.records.Sound := by
  rcases hadmits.1 with hsame | ⟨stream, value, hfree, hput | ⟨lane, hmoved⟩⟩
  · rwa [hsame]
  · rw [hput]
    exact (hsound.insert value hfree).1
  · rw [hmoved]
    obtain ⟨hput, hresident, -⟩ := hsound.insert value hfree
    exact hput.moveToBack hresident lane

theorem mem (hadmits : runtime.Admits after) (hsound : runtime.records.Sound) {lane : Lane}
    (hmem : other ∈ runtime.records.lanes lane) : other ∈ after.records.lanes lane := by
  rcases hadmits.1 with hsame | ⟨stream, value, hfree, hput | ⟨target, hmoved⟩⟩
  · rwa [hsame]
  · rwa [hput]
  · rw [hmoved, LaneTable.mem_lanes_moveToBack]
    refine .inl ⟨hmem, ?_⟩
    rintro rfl
    -- a free slot has no resident
    exact (hsound.insert value hfree).2.2.1 (hsound.resident other lane hmem)

end Admits

/-! ## Wakeups -/

theorem mem_wake_connection {runtime : Runtime K T} {stream : K} {lane : Lane} :
    stream ∈ (runtime.wake .connection).2.records.lanes lane ↔
      (stream ∈ runtime.records.lanes lane ∧ lane ≠ .controlConnectionWait ∧
          lane ≠ .connectionWait) ∨
        (stream ∈ runtime.records.lanes .controlConnectionWait ∧ lane = .controlReady) ∨
        (stream ∈ runtime.records.lanes .connectionWait ∧ lane = .dataReady) := by
  simp only [wake]
  rw [LaneTable.mem_lanes_moveAll (by decide), LaneTable.mem_lanes_moveAll (by decide),
    LaneTable.mem_lanes_moveAll (by decide)]
  cases lane <;> simp

theorem wake_stream_cases {runtime : Runtime K T} (hsound : runtime.records.Sound) (stream : K) :
    ((runtime.wake (.stream stream)).2 = runtime ∧
        stream ∉ runtime.records.lanes .controlStreamWait ∧
        stream ∉ runtime.records.lanes .streamWait) ∨
      (runtime.records.Resident stream ∧
        ((stream ∈ runtime.records.lanes .controlStreamWait ∧
            (runtime.wake (.stream stream)).2 =
              { runtime with records := runtime.records.moveToBack stream .controlReady }) ∨
          (stream ∈ runtime.records.lanes .streamWait ∧
            (runtime.wake (.stream stream)).2 =
              { runtime with records := runtime.records.moveToBack stream .dataReady }))) := by
  have hmem : ∀ lane, stream ∈ runtime.records.lanes lane →
      runtime.records.lane stream = some lane :=
    fun lane => hsound.lane_eq_some_iff.mpr
  simp only [wake]
  split
  · next hnone =>
    refine .inl ⟨rfl, ?_, ?_⟩
    all_goals
      intro h
      have hresident := hsound.resident stream _ h
      simp [LaneTable.Resident, hnone] at hresident
  · next value hvalue =>
    have hresident := LaneTable.resident_of_get hvalue
    split
    · next hlane =>
      exact .inr ⟨hresident, .inl ⟨hsound.lane_eq_some_iff.mp hlane, rfl⟩⟩
    · next hlane =>
      exact .inr ⟨hresident, .inr ⟨hsound.lane_eq_some_iff.mp hlane, rfl⟩⟩
    · next hcontrol hdata =>
      exact .inl ⟨rfl, fun h => hcontrol (hmem _ h), fun h => hdata (hmem _ h)⟩

theorem wake_sound {runtime : Runtime K T} (hsound : runtime.records.Sound) (wake : Wake K) :
    (runtime.wake wake).2.records.Sound := by
  cases wake with
  | connection => exact (hsound.moveAll (by decide)).moveAll (by decide)
  | stream stream =>
    rcases wake_stream_cases hsound stream with
      ⟨hsame, -⟩ | ⟨hresident, ⟨-, hmoved⟩ | ⟨-, hmoved⟩⟩
    · rwa [hsame]
    · rw [hmoved]
      exact hsound.moveToBack hresident _
    · rw [hmoved]
      exact hsound.moveToBack hresident _

/-- A wakeup of one stream leaves the others where they are, and moves that one only from a lane
that waits for it. -/
theorem mem_wake_stream {runtime : Runtime K T} (hsound : runtime.records.Sound) {stream other : K}
    {lane : Lane} (hmem : other ∈ runtime.records.lanes lane)
    (hstays : other ≠ stream ∨ (lane ≠ .controlStreamWait ∧ lane ≠ .streamWait)) :
    other ∈ (runtime.wake (.stream stream)).2.records.lanes lane := by
  rcases wake_stream_cases hsound stream with
    ⟨hsame, -⟩ | ⟨-, ⟨hwait, hmoved⟩ | ⟨hwait, hmoved⟩⟩
  · rwa [hsame]
  all_goals
    rw [hmoved, LaneTable.mem_lanes_moveToBack]
    refine .inl ⟨hmem, ?_⟩
    rintro rfl
    have hlane := hsound.apart other _ _ hmem hwait
    rcases hstays with hne | ⟨hcontrol, hdata⟩
    · exact hne rfl
  · exact hcontrol hlane
  · exact hdata hlane

theorem wake_waits {runtime : Runtime K T} (hsound : runtime.records.Sound) (wake : Wake K)
    {stream : K} {lane : Lane} (hmem : stream ∈ runtime.records.lanes lane) :
    ∃ lane', stream ∈ (runtime.wake wake).2.records.lanes lane' := by
  cases wake with
  | connection =>
    obtain ⟨lane', hmem'⟩ : ∃ lane', stream ∈
        (runtime.records.moveAll .controlConnectionWait .controlReady).lanes lane' :=
      LaneTable.exists_mem_moveAll (by decide) hmem
    exact LaneTable.exists_mem_moveAll (by decide) hmem'
  | stream key =>
    rcases wake_stream_cases hsound key with ⟨hsame, -⟩ | ⟨-, ⟨-, hmoved⟩ | ⟨-, hmoved⟩⟩
    · exact ⟨lane, by rwa [hsame]⟩
    all_goals
      rw [hmoved]
      by_cases hne : stream = key
    · exact ⟨_, LaneTable.mem_lanes_moveToBack.mpr (.inr ⟨hne, rfl⟩)⟩
    · exact ⟨lane, LaneTable.mem_lanes_moveToBack.mpr (.inl ⟨hmem, hne⟩)⟩
    · exact ⟨_, LaneTable.mem_lanes_moveToBack.mpr (.inr ⟨hne, rfl⟩)⟩
    · exact ⟨lane, LaneTable.mem_lanes_moveToBack.mpr (.inl ⟨hmem, hne⟩)⟩

/-! ## Drives -/

theorem dataTurn_turned (driver : DataDriver K T B E σ) (records : Table K T) (stream : K)
    (value : T) (state : σ) :
    Turned records stream (dataTurn driver records stream value state).1
      (dataTurn driver records stream value state).2.2.1.isSome
      (dataTurn driver records stream value state).2.2.2 := by
  -- Both settlements store the value once more, which the lanes do not see.
  have hkeep : ∀ stored value : T, Turned records stream
      (((records.put stream stored).put stream value).unlink stream) true false := by
    intro stored value
    rw [LaneTable.put_put]
    exact .kept value
  have hremove : ∀ stored value : T, Turned records stream
      (((records.put stream stored).put stream value).remove stream) true false := by
    intro stored value
    rw [LaneTable.remove_put, LaneTable.remove_put]
    exact .removed true
  unfold dataTurn
  rcases driver.turn stream value state with ⟨result, value', state'⟩
  cases result with
  | error error =>
    rcases hsettle : driver.settle stream value' (.failed error) state' with ⟨settlement, _, _⟩
    simp only [hsettle]
    cases settlement with
    | keep => exact hkeep _ _
    | remove => exact hremove _ _
  | ok turn =>
    cases turn with
    | complete =>
      rcases hsettle : driver.settle stream value' .complete state' with ⟨settlement, _, _⟩
      simp only [hsettle]
      cases settlement with
      | keep => exact hkeep _ _
      | remove => exact hremove _ _
    | idle =>
      rcases hsettle : driver.settle stream value' .idle state' with ⟨settlement, _, _⟩
      simp only [hsettle]
      cases settlement with
      | keep => exact hkeep _ _
      | remove => exact hremove _ _
    | progress => exact .moved value' _ false
    | blocked block =>
      simp only
      split
      · exact .moved value' _ false
      · exact .moved value' _ false
      · exact .stayed value'

/-- What every turn keeps holds after a data-only drive. -/
theorem dataTurns_steady {holds : Drive K T σ → Prop} (hsteady : Drive.Steady holds)
    (driver : DataDriver K T B E σ) (left : ℕ) {drive : Drive K T σ}
    (hsound : drive.domain.table.Sound) (h : holds drive) (hleft : left ≤ drive.remaining) :
    (dataTurns driver left drive).domain.table.Sound ∧ holds (dataTurns driver left drive) := by
  induction left generalizing drive with
  | zero => exact ⟨hsound, h⟩
  | succ left ih =>
    unfold dataTurns
    split
    · exact ⟨hsound, h⟩
    · next hblocked =>
      split
      · exact ⟨hsound, h⟩
      · next stream hfront =>
        have hmem : stream ∈ drive.domain.table.lanes .dataReady :=
          List.mem_of_mem_head? hfront
        split
        · exact ⟨hsound, h⟩
        · next value hvalue =>
          split
          · exact ⟨hsound, h⟩
          · have hturned := dataTurn_turned driver drive.domain.table stream value
              drive.domain.driver
            generalize dataTurn driver drive.domain.table stream value drive.domain.driver = turned
              at hturned ⊢
            obtain ⟨table, state, terminal, blocked⟩ := turned
            simp only at hturned ⊢
            apply ih
            · exact hturned.sound hsound (hsound.resident stream _ hmem)
            · refine hsteady.turn drive stream .data
                ⟨stream, .data, if blocked then .blockData else .none, terminal.isSome⟩ _ hsound h
                (by omega) (fun _ => by simpa using hblocked) hmem ⟨rfl, ?_, ?_, rfl, rfl, rfl⟩
              · cases blocked <;> exact hturned
              · cases blocked <;> rfl
            · simp only
              omega

theorem drive_steady {holds : Drive K T σ → Prop} (hsteady : Drive.Steady holds)
    (hsettles : Drive.Settles holds) {runtime : Runtime K T} (hsound : runtime.records.Sound)
    (driver : Driver K T B E P σ) (state : σ) (oneRound : Bool)
    (h : holds (Drive.start runtime.records state runtime.policy)) :
    (runtime.drive driver state oneRound).1.domain.table.Sound ∧
      holds (runtime.drive driver state oneRound).1 := by
  refine ((hsteady.invariant driver).run ?_ oneRound ⟨hsound, h⟩).1
  intro drive round activity hdrive
  exact ⟨hdrive.1, hsettles drive round activity hdrive.2⟩

theorem driveData_steady {holds : Drive K T σ → Prop} (hsteady : Drive.Steady holds)
    {runtime : Runtime K T} (hsound : runtime.records.Sound) (driver : DataDriver K T B E σ)
    (state : σ) (h : holds (Drive.start runtime.records state runtime.policy)) :
    (runtime.driveData driver state).domain.table.Sound ∧
      holds (runtime.driveData driver state) :=
  dataTurns_steady hsteady driver _ hsound h le_rfl

/-- How a record may leave the lanes: it goes on waiting, it is gone, or it had a terminal step. -/
def Leaves (after : Table K T) (served : List (Served K)) (stream : K) : Prop :=
  (∃ lane, stream ∈ after.lanes lane) ∨ ¬ after.Resident stream ∨
    ∃ turn ∈ served, turn.stream = stream ∧ turn.terminal = true

theorem steady_leaves (stream : K) :
    Drive.Steady fun drive : Drive K T σ => Leaves drive.domain.table drive.served stream where
  driver := by
    intro drive state h
    exact h
  turn := by
    intro drive front work outcome next hsound h _ _ hmem hperforms
    rw [Leaves, hperforms.served]
    rcases h with ⟨lane, hlane⟩ | hgone | ⟨turn, hturn, hterminal⟩
    · by_cases hne : stream = front
      · subst hne
        rcases hperforms.turned.waits_or ⟨lane, hlane⟩ with hwaits | hgone | hterminal
        · exact .inl hwaits
        · exact .inr (.inl hgone)
        · exact .inr (.inr ⟨⟨stream, work, outcome.terminal⟩, by simp, rfl, hterminal⟩)
      · exact .inl ⟨lane, (hperforms.turned.mem_iff_of_ne hne lane).mpr hlane⟩
    · have hne : stream ≠ front := by
        rintro rfl
        exact hgone (hsound.resident stream _ hmem)
      exact .inr (.inl fun h => hgone (hperforms.turned.resident_of_ne hne h))
    · exact .inr (.inr ⟨turn, by simp [hturn], hterminal⟩)

theorem steady_waits (stream : K) {lane : Lane} (hcontrol : lane ≠ .controlReady)
    (hdata : lane ≠ .dataReady) :
    Drive.Steady fun drive : Drive K T σ => stream ∈ drive.domain.table.lanes lane where
  driver := by
    intro drive state h
    exact h
  turn := by
    intro drive front work outcome next hsound h _ _ hmem hperforms
    refine (hperforms.turned.mem_iff_of_ne ?_ lane).mpr h
    rintro rfl
    have hlane := hsound.apart stream _ _ h hmem
    cases work
    · exact hcontrol hlane
    · exact hdata hlane

theorem steady_egress (stream : K) :
    Drive.Steady fun drive : Drive K T σ =>
      stream ∈ drive.domain.table.lanes .dataReady ∧ drive.policy.isBlocked = true where
  driver := by
    intro drive state h
    exact h
  turn := by
    intro drive front work outcome next hsound h hremaining hfree hmem hperforms
    refine ⟨?_, Drive.steady_blocked.turn drive front work outcome next hsound h.2 hremaining hfree
      hmem hperforms⟩
    cases work with
    | data => simp [h.2] at hfree
    | control =>
      refine (hperforms.turned.mem_iff_of_ne ?_ _).mpr h.1
      rintro rfl
      exact absurd (hsound.apart stream _ _ h.1 hmem) (by decide)

theorem settles_leaves (stream : K) :
    Drive.Settles fun drive : Drive K T σ => Leaves drive.domain.table drive.served stream := by
  intro drive round activity h
  exact h

omit [Indexed K] [DecidableEq K] in
theorem settles_egress (stream : K) :
    Drive.Settles fun drive : Drive K T σ =>
      stream ∈ drive.domain.table.lanes .dataReady ∧ drive.policy.isBlocked = true := by
  intro drive round activity h
  exact ⟨h.1, (Policy.finishRound_dataBlocked _ _ _).trans h.2⟩

/-! ## Steps -/

theorem sound_clear (runtime : Runtime K T) : runtime.clear.records.Sound :=
  LaneTable.sound_new _

theorem step_sound {runtime : Runtime K T} (hsound : runtime.records.Sound)
    (event : Event K T B E P σ) : (runtime.step event).runtime.records.Sound := by
  cases event with
  | insert stream value next =>
    simp only [step]
    split
    · next hinsert => exact (tryInsert_admits hinsert).sound hsound
    · exact hsound
  | store stream value =>
    simp only [step]
    split
    · next hstore => exact (tryStore_admits hstore).sound hsound
    · exact hsound
  | vacantInsert stream value blocked =>
    simp only [step]
    split
    · next hinsert => exact (vacantInsert_admits hinsert).sound hsound
    · exact hsound
  | transaction stream run => exact (transaction_changes runtime stream run).sound hsound
  | control stream run => exact (tryControl_changes runtime stream run).sound hsound
  | remove stream => exact (remove_changes runtime stream).sound hsound
  | wake wake => exact wake_sound hsound wake
  | wakeEgress => exact hsound.moveAll (by decide)
  | clear => exact sound_clear runtime
  | drive driver state oneRound =>
    exact ((Drive.invariant_sound driver).run Drive.settles_sound oneRound hsound).1
  | driveData driver state =>
    exact (driveData_steady (Drive.steady_report) hsound driver state rfl).1

/-- A record leaves the lanes only by removal or by a terminal step. -/
theorem step_leaves {runtime : Runtime K T} (hsound : runtime.records.Sound)
    (event : Event K T B E P σ) {stream : K} {lane : Lane}
    (hmem : stream ∈ runtime.records.lanes lane) :
    Leaves (runtime.step event).runtime.records (runtime.step event).served stream := by
  have hchanges : ∀ {after : Runtime K T} {named : K}, runtime.Changes after named →
      Leaves after.records [] stream := by
    intro after named h
    rcases h.waits_or hmem with hwaits | hgone
    · exact .inl hwaits
    · exact .inr (.inl hgone)
  cases event with
  | insert key value next =>
    simp only [step]
    split
    · next hinsert => exact .inl ⟨lane, (tryInsert_admits hinsert).mem hsound hmem⟩
    · exact .inl ⟨lane, hmem⟩
  | store key value =>
    simp only [step]
    split
    · next hstore => exact .inl ⟨lane, (tryStore_admits hstore).mem hsound hmem⟩
    · exact .inl ⟨lane, hmem⟩
  | vacantInsert key value blocked =>
    simp only [step]
    split
    · next hinsert => exact .inl ⟨lane, (vacantInsert_admits hinsert).mem hsound hmem⟩
    · exact .inl ⟨lane, hmem⟩
  | transaction key run => exact hchanges (transaction_changes runtime key run)
  | control key run => exact hchanges (tryControl_changes runtime key run)
  | remove key => exact hchanges (remove_changes runtime key)
  | wake wake => exact .inl (wake_waits hsound wake hmem)
  | wakeEgress => exact .inl (LaneTable.exists_mem_moveAll (by decide) hmem)
  | clear =>
    refine .inr (.inl ?_)
    simp [step, clear, LaneTable.clear, LaneTable.Resident, LaneTable.get, LaneTable.new,
      List.getElem?_replicate]
  | drive driver state oneRound =>
    exact (drive_steady (steady_leaves stream) (settles_leaves stream) hsound driver state oneRound
      (.inl ⟨lane, hmem⟩)).2
  | driveData driver state =>
    exact (driveData_steady (steady_leaves stream) hsound driver state (.inl ⟨lane, hmem⟩)).2

/-! ## Blocked records -/

/-- A record that waits for a wakeup. Data that waits for egress keeps its place, and the policy
holds it back. -/
def BlockedOn (runtime : Runtime K T) (stream : K) : Wait → Prop
  | .connection => stream ∈ runtime.records.lanes .connectionWait ∨
      stream ∈ runtime.records.lanes .controlConnectionWait
  | .stream => stream ∈ runtime.records.lanes .streamWait ∨
      stream ∈ runtime.records.lanes .controlStreamWait
  | .egress => stream ∈ runtime.records.lanes .controlEgressWait ∨
      (stream ∈ runtime.records.lanes .dataReady ∧ runtime.policy.isBlocked = true)

/-- A record that waits in a ready lane. A release of egress also lets data go. -/
def ReadyAfter (runtime : Runtime K T) (stream : K) (wait : Wait) : Prop :=
  stream ∈ runtime.records.lanes .controlReady ∨
    (stream ∈ runtime.records.lanes .dataReady ∧
      (wait = .egress → runtime.policy.isBlocked = false))

end Runtime

/-- The step that wakes what waits for `wait`. -/
def Event.wakeOf {K T B E P σ : Type} (stream : K) : Wait → Event K T B E P σ
  | .connection => .wake .connection
  | .stream => .wake (.stream stream)
  | .egress => .wakeEgress

/-- A step that wakes what waits for `wait`. -/
def Event.Wakes {K T B E P σ : Type} (stream : K) : Wait → Event K T B E P σ → Prop
  | .connection, .wake .connection => True
  | .stream, .wake (.stream other) => other = stream
  | .egress, .wakeEgress => True
  | _, _ => False

/-- A step that names a record, or drops every record. -/
def Event.Names {K T B E P σ : Type} (stream : K) : Event K T B E P σ → Prop
  | .transaction other _ => other = stream
  | .control other _ => other = stream
  | .remove other => other = stream
  | .clear => True
  | _ => False

namespace Runtime

variable {K T B E P σ : Type} [Indexed K] [DecidableEq K] [Block B]

/-- A blocked record stays blocked in every step that neither wakes nor names it. -/
theorem blockedOn_step {runtime : Runtime K T} (hsound : runtime.records.Sound) {stream : K}
    {wait : Wait} (hblocked : runtime.BlockedOn stream wait) {event : Event K T B E P σ}
    (hwakes : ¬ event.Wakes stream wait) (hnames : ¬ event.Names stream) :
    (runtime.step event).runtime.BlockedOn stream wait := by
  -- a step that keeps the lanes of the record and does not release data
  have hkeeps : ∀ {after : Runtime K T},
      (∀ lane, stream ∈ runtime.records.lanes lane → stream ∈ after.records.lanes lane) →
      (runtime.policy.isBlocked = true → after.policy.isBlocked = true) →
      after.BlockedOn stream wait := by
    intro after hmem hpolicy
    cases wait with
    | connection => exact hblocked.imp (hmem _) (hmem _)
    | stream => exact hblocked.imp (hmem _) (hmem _)
    | egress => exact hblocked.imp (hmem _) fun h => ⟨hmem _ h.1, hpolicy h.2⟩
  have hchanges : ∀ {after : Runtime K T} {named : K}, runtime.Changes after named →
      named ≠ stream → after.BlockedOn stream wait := by
    intro after named h hne
    exact hkeeps (fun lane hmem => h.mem_of_ne hne.symm hmem) h.2.1
  cases event with
  | insert key value next =>
    simp only [step]
    split
    · next hinsert =>
      exact hkeeps (fun _ hmem => (tryInsert_admits hinsert).mem hsound hmem)
        (tryInsert_admits hinsert).2.1
    · exact hblocked
  | store key value =>
    simp only [step]
    split
    · next hstore =>
      exact hkeeps (fun _ hmem => (tryStore_admits hstore).mem hsound hmem)
        (tryStore_admits hstore).2.1
    · exact hblocked
  | vacantInsert key value blocked =>
    simp only [step]
    split
    · next hinsert =>
      exact hkeeps (fun _ hmem => (vacantInsert_admits hinsert).mem hsound hmem)
        (vacantInsert_admits hinsert).2.1
    · exact hblocked
  | transaction key run => exact hchanges (transaction_changes runtime key run) hnames
  | control key run => exact hchanges (tryControl_changes runtime key run) hnames
  | remove key => exact hchanges (remove_changes runtime key) hnames
  | clear => exact absurd trivial hnames
  | wake wake =>
    cases wake with
    | connection =>
      cases wait with
      | connection => exact absurd trivial hwakes
      | stream =>
        exact hblocked.imp (fun h => mem_wake_connection.mpr (.inl ⟨h, by decide, by decide⟩))
          fun h => mem_wake_connection.mpr (.inl ⟨h, by decide, by decide⟩)
      | egress =>
        exact hblocked.imp (fun h => mem_wake_connection.mpr (.inl ⟨h, by decide, by decide⟩))
          fun h => ⟨mem_wake_connection.mpr (.inl ⟨h.1, by decide, by decide⟩), h.2⟩
    | stream key =>
      have hpolicy : (runtime.wake (.stream key)).2.policy = runtime.policy := by
        rcases wake_stream_cases hsound key with ⟨hsame, -⟩ | ⟨-, ⟨-, hmoved⟩ | ⟨-, hmoved⟩⟩
        · rw [hsame]
        · rw [hmoved]
        · rw [hmoved]
      cases wait with
      | connection =>
        exact hblocked.imp (fun h => mem_wake_stream hsound h (.inr (by decide)))
          fun h => mem_wake_stream hsound h (.inr (by decide))
      | stream =>
        have hne : stream ≠ key := fun h => hwakes h.symm
        exact hblocked.imp (fun h => mem_wake_stream hsound h (.inl hne))
          fun h => mem_wake_stream hsound h (.inl hne)
      | egress =>
        refine hblocked.imp (fun h => mem_wake_stream hsound h (.inr (by decide))) fun h => ?_
        exact ⟨mem_wake_stream hsound h.1 (.inr (by decide)), by
          simp only [step, hpolicy]
          exact h.2⟩
  | wakeEgress =>
    cases wait with
    | egress => exact absurd trivial hwakes
    | connection =>
      exact hblocked.imp (fun h => (LaneTable.mem_lanes_moveAll (by decide)).mpr (.inl ⟨h, by decide⟩))
        fun h => (LaneTable.mem_lanes_moveAll (by decide)).mpr (.inl ⟨h, by decide⟩)
    | stream =>
      exact hblocked.imp (fun h => (LaneTable.mem_lanes_moveAll (by decide)).mpr (.inl ⟨h, by decide⟩))
        fun h => (LaneTable.mem_lanes_moveAll (by decide)).mpr (.inl ⟨h, by decide⟩)
  | drive driver state oneRound =>
    have hlane : ∀ {lane : Lane}, lane ≠ .controlReady → lane ≠ .dataReady →
        stream ∈ runtime.records.lanes lane →
        stream ∈ (runtime.drive driver state oneRound).1.domain.table.lanes lane := by
      intro lane hcontrol hdata hmem
      exact (drive_steady (steady_waits stream hcontrol hdata) (fun _ _ _ h => h) hsound driver
        state oneRound hmem).2
    cases wait with
    | connection => exact hblocked.imp (hlane (by decide) (by decide)) (hlane (by decide) (by decide))
    | stream => exact hblocked.imp (hlane (by decide) (by decide)) (hlane (by decide) (by decide))
    | egress =>
      refine hblocked.imp (hlane (by decide) (by decide)) fun h => ?_
      exact (drive_steady (steady_egress stream) (settles_egress stream) hsound driver state oneRound
        h).2
  | driveData driver state =>
    have hlane : ∀ {lane : Lane}, lane ≠ .controlReady → lane ≠ .dataReady →
        stream ∈ runtime.records.lanes lane →
        stream ∈ (runtime.driveData driver state).domain.table.lanes lane := by
      intro lane hcontrol hdata hmem
      exact (driveData_steady (steady_waits stream hcontrol hdata) hsound driver state hmem).2
    cases wait with
    | connection => exact hblocked.imp (hlane (by decide) (by decide)) (hlane (by decide) (by decide))
    | stream => exact hblocked.imp (hlane (by decide) (by decide)) (hlane (by decide) (by decide))
    | egress =>
      refine hblocked.imp (hlane (by decide) (by decide)) fun h => ?_
      exact (driveData_steady (steady_egress stream) hsound driver state h).2

theorem readyAfter_wakeOf {runtime : Runtime K T} (hsound : runtime.records.Sound) {stream : K}
    {wait : Wait} (hblocked : runtime.BlockedOn stream wait) :
    (runtime.step (Event.wakeOf stream wait : Event K T B E P σ)).runtime.ReadyAfter stream wait := by
  cases wait with
  | connection =>
    rcases hblocked with hdata | hcontrol
    · exact .inr ⟨mem_wake_connection.mpr (.inr (.inr ⟨hdata, rfl⟩)), nofun⟩
    · exact .inl (mem_wake_connection.mpr (.inr (.inl ⟨hcontrol, rfl⟩)))
  | stream =>
    have hmoved : ∀ lane : Lane,
        stream ∈ (runtime.records.moveToBack stream lane).lanes lane := fun lane =>
      LaneTable.mem_lanes_moveToBack.mpr (.inr ⟨rfl, rfl⟩)
    simp only [Event.wakeOf, step]
    rcases wake_stream_cases hsound stream with
      ⟨-, hcontrol, hdata⟩ | ⟨-, ⟨-, hwake⟩ | ⟨-, hwake⟩⟩
    · rcases hblocked with h | h
      · exact absurd h hdata
      · exact absurd h hcontrol
    · rw [hwake]
      exact .inl (hmoved .controlReady)
    · rw [hwake]
      exact .inr ⟨hmoved .dataReady, nofun⟩
  | egress =>
    rcases hblocked with hcontrol | ⟨hdata, -⟩
    · exact .inl ((LaneTable.mem_lanes_moveAll (by decide)).mpr (.inr ⟨hcontrol, rfl⟩))
    · exact .inr ⟨(LaneTable.mem_lanes_moveAll (by decide)).mpr (.inl ⟨hdata, by decide⟩),
        fun _ => rfl⟩

theorem records_sound_run {runtime : Runtime K T} (hsound : runtime.records.Sound)
    (events : List (Event K T B E P σ)) : (runtime.run events).1.records.Sound := by
  induction events generalizing runtime with
  | nil => exact hsound
  | cons event events ih => exact ih (step_sound hsound event)

theorem blockedOn_run {runtime : Runtime K T} (hsound : runtime.records.Sound) {stream : K}
    {wait : Wait} (hblocked : runtime.BlockedOn stream wait) {events : List (Event K T B E P σ)}
    (hevents : ∀ event ∈ events, ¬ event.Wakes stream wait ∧ ¬ event.Names stream) :
    (runtime.run events).1.BlockedOn stream wait := by
  induction events generalizing runtime with
  | nil => exact hblocked
  | cons event events ih =>
    have hevent := hevents event List.mem_cons_self
    exact ih (step_sound hsound event) (blockedOn_step hsound hblocked hevent.1 hevent.2)
      fun other h => hevents other (List.mem_cons_of_mem _ h)

end Runtime

end Sark.Schedule
