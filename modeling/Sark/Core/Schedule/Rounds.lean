import Sark.Core.Schedule.Turns

/-!
# The rounds of a drive

A round captures the last record that is ready for data and ends when that record had its turn. The
turns in between move records, but only ever to the back, so the records that were ready keep their
order in front of what comes after them.

* `body_serves`: a round that nothing cuts short serves each ready data record once, in the order of
  the queue, and one control record.
* `body_progresses`: a round with a permit performs a turn.
* `rounds_fair`: what holds of every round of a drive.
-/

namespace Sark.Schedule

open ResidentHeap (Indexed)

namespace Drive

variable {K T B E P σ : Type} [Indexed K] [DecidableEq K] [Block B]
  (driver : Driver K T B E P σ)

/-- The turns that a drive performed, without what became of them. -/
def turns (drive : Drive K T σ) : List (K × WorkClass) :=
  drive.served.map fun served => (served.stream, served.work)

/-- The records that a data turn may serve. -/
def dataReady (drive : Drive K T σ) : List K :=
  if drive.policy.isBlocked then [] else drive.domain.table.lanes .dataReady

/-- The records that a control turn may serve. -/
def controlReady (drive : Drive K T σ) : List K := drive.domain.table.lanes .controlReady

/-- The turns of a full round: a control turn of the first control record, and a data turn of each
data record in the order of the queue. -/
def fair (drive : Drive K T σ) : List (K × WorkClass) :=
  let data := drive.dataReady.map fun stream => (stream, WorkClass.data)
  let control := (drive.controlReady.take 1).map fun stream => (stream, WorkClass.control)
  match drive.round with
  | .dataFirst => data.take 1 ++ control ++ data.drop 1
  | _ => control ++ data

theorem Performs.turns_eq {drive next : Drive K T σ} {stream : K} {work : WorkClass}
    {outcome : TurnOutcome K} (hperforms : drive.Performs stream work outcome next) :
    next.turns = drive.turns ++ [(stream, work)] := by
  rw [Drive.turns, hperforms.served, List.map_append]
  rfl

/-! ## What every turn keeps -/

theorem steady_budget (n : ℕ) :
    Steady fun drive : Drive K T σ => drive.report.turns + drive.remaining = n where
  driver := by
    intro drive state h
    exact h
  turn := by
    intro drive stream work outcome next _ h hremaining _ _ hperforms
    rw [hperforms.turns, hperforms.remaining]
    omega

theorem steady_report :
    Steady fun drive : Drive K T σ => drive.report.turns = drive.turns.length where
  driver := by
    intro drive state h
    exact h
  turn := by
    intro drive stream work outcome next _ h _ _ _ hperforms
    rw [hperforms.turns_eq, hperforms.turns, h]
    simp

theorem steady_onward (before : List (K × WorkClass)) :
    Steady fun drive : Drive K T σ => before <+: drive.turns where
  driver := by
    intro drive state h
    exact h
  turn := by
    intro drive stream work outcome next _ h _ _ _ hperforms
    rw [hperforms.turns_eq]
    exact h.trans (List.prefix_append _ _)

theorem steady_blocked : Steady fun drive : Drive K T σ => drive.policy.isBlocked = true where
  driver := by
    intro drive state h
    exact h
  turn := by
    intro drive stream work outcome next _ h _ _ _ hperforms
    rw [hperforms.policy]
    split_ifs
    · rfl
    · exact h

/-! ## Serving a round -/

/-- The body of a round that goes on: the records of `queue` have yet to have their data turn, and
`last` is the last of them. -/
structure Ongoing (stage : Stage K T σ) (last : K) (queue : List K) : Prop where
  sound : stage.drive.domain.table.Sound
  stop : stage.stop = false
  done : stage.done = queue.isEmpty
  lane : ∃ later, stage.drive.domain.table.lanes .dataReady = queue ++ later
  last : queue ≠ [] → queue.getLast? = some last
  free : stage.drive.policy.isBlocked = false

/-- The round was cut short, by a refused permit or by data that waits for egress. -/
def Cut (stage : Stage K T σ) : Prop :=
  stage.stop = true ∨ stage.drive.policy.isBlocked = true

/-- The head of the queue has its data turn. -/
theorem Ongoing.next {stage : Stage K T σ} {last stream : K} {queue : List K}
    (hongoing : Ongoing stage last (stream :: queue)) {outcome : TurnOutcome K}
    {next : Drive K T σ} (hperforms : stage.drive.Performs stream .data outcome next)
    (activity : Option WorkClass) :
    next.policy.isBlocked = true ∨
      Ongoing { stop := false, done := outcome.stream = last, activity := activity, drive := next }
        last queue := by
  obtain ⟨later, hlane⟩ := hongoing.lane
  have hmem : stream ∈ stage.drive.domain.table.lanes .dataReady := by simp [hlane]
  have hturned := hperforms.turned
  have hpolicy := hperforms.policy
  cases hblock : outcome.effect == Effect.blockData with
  | true =>
    rw [hblock] at hpolicy
    exact .inl (by rw [hpolicy]; rfl)
  | false =>
    rw [hblock] at hturned hpolicy
    refine .inr ⟨?_, rfl, ?_, ?_, ?_, ?_⟩
    · exact hturned.sound hongoing.sound (hongoing.sound.resident stream _ hmem)
    · -- the record is the last one exactly when none is left behind it
      have hlast := hongoing.last (List.cons_ne_nil _ _)
      have hnodup := hongoing.sound.nodup .dataReady
      rw [hlane, List.cons_append, List.nodup_cons] at hnodup
      rw [hperforms.front]
      cases queue with
      | nil => simpa using hlast
      | cons head rest =>
        have hin : last ∈ head :: rest := by
          rw [List.getLast?_cons_cons] at hlast
          exact List.mem_of_getLast? hlast
        have hne : stream ≠ last := by
          rintro rfl
          exact hnodup.1 (List.mem_append_left _ hin)
        simp [hne]
    · rw [List.cons_append] at hlane
      obtain ⟨new, hnew⟩ := hturned.lanes_of_front hongoing.sound hlane
      exact ⟨later ++ new, by rw [hnew, List.append_assoc]⟩
    · intro hne
      have hlast := hongoing.last (List.cons_ne_nil _ _)
      cases queue with
      | nil => exact absurd rfl hne
      | cons head rest => simpa [List.getLast?_cons_cons] using hlast
    · rw [hpolicy]
      exact hongoing.free

/-- The loop serves the queue, in order. -/
theorem loop_serves {last : K} (queue : List K) {stage : Stage K T σ}
    (hongoing : Ongoing stage last queue) (fuel : ℕ) (hfuel : queue.length ≤ fuel)
    (hbudget : queue.length ≤ stage.drive.remaining) :
    Cut (loop driver (some last) fuel stage) ∨
      (loop driver (some last) fuel stage).drive.turns =
        stage.drive.turns ++ queue.map fun stream => (stream, WorkClass.data) := by
  induction queue generalizing stage fuel with
  | nil =>
    have hdone : stage.done = true := hongoing.done
    right
    cases fuel <;> simp [loop, hdone]
  | cons stream queue ih =>
    obtain ⟨fuel, rfl⟩ : ∃ n, fuel = n + 1 := ⟨fuel - 1, by simp at hfuel; omega⟩
    have hdone : stage.done = false := hongoing.done
    have hremaining : stage.drive.remaining ≠ 0 := by
      simp at hbudget
      omega
    obtain ⟨later, hlane⟩ := hongoing.lane
    rcases one_cases driver hongoing.sound .dataReady .data with
      ⟨hempty, -⟩ | ⟨front, rest, hfront, ⟨-, state, hone⟩ | ⟨-, outcome, next, hone, hperforms⟩⟩
    · simp [hlane] at hempty
    · left
      simp [loop, hongoing.stop, hdone, hremaining, hongoing.free, hone, Cut]
    · have heq : front = stream := by
        rw [hlane, List.cons_append, List.cons.injEq] at hfront
        exact hfront.1.symm
      subst heq
      have hloop : loop driver (some last) (fuel + 1) stage =
          loop driver (some last) fuel
            { stop := false, done := outcome.stream = last,
              activity := stage.activity <|> some outcome.activity, drive := next } := by
        simp [loop, hongoing.stop, hdone, hremaining, hongoing.free, hone]
      rw [hloop]
      rcases hongoing.next hperforms (stage.activity <|> some outcome.activity) with hblocked | hnext
      · -- blocked data stays blocked to the end of the round
        left
        have hmem : front ∈ stage.drive.domain.table.lanes .dataReady := by simp [hlane]
        have hsound := hperforms.turned.sound hongoing.sound
          (hongoing.sound.resident front _ hmem)
        exact .inr ((steady_blocked.invariant driver).loop _ _ ⟨hsound, hblocked⟩).2
      · rcases ih hnext fuel (by simpa using hfuel) (by
            rw [hperforms.remaining]
            simp at hbudget
            omega) with hcut | hturns
        · exact .inl hcut
        · right
          rw [hturns]
          simp [hperforms.turns_eq]

theorem Cut.middle {stage : Stage K T σ} (hsound : stage.drive.domain.table.Sound)
    (hcut : Cut stage) (control : Bool) : Cut (middle driver control stage) := by
  rcases hcut with hstop | hblocked
  · left
    simp [Drive.middle, hstop]
  · exact .inr ((steady_blocked.invariant driver).middle control ⟨hsound, hblocked⟩).2

theorem Cut.loop {stage : Stage K T σ} (hsound : stage.drive.domain.table.Sound)
    (hcut : Cut stage) (tail : Option K) (fuel : ℕ) : Cut (loop driver tail fuel stage) := by
  rcases hcut with hstop | hblocked
  · left
    cases fuel <;> simp [Drive.loop, hstop]
  · exact .inr ((steady_blocked.invariant driver).loop tail fuel ⟨hsound, hblocked⟩).2

/-- The first control record has its turn, and the data queue keeps its order. -/
theorem middle_serves {stage : Stage K T σ} {last : K} {queue : List K}
    (hongoing : Ongoing stage last queue) {stream : K} {rest : List K}
    (hcontrol : stage.drive.domain.table.lanes .controlReady = stream :: rest)
    (hbudget : queue.length + 1 ≤ stage.drive.remaining) :
    Cut (middle driver true stage) ∨
      (Ongoing (middle driver true stage) last queue ∧
        queue.length ≤ (middle driver true stage).drive.remaining ∧
        (middle driver true stage).drive.turns =
          stage.drive.turns ++ [(stream, WorkClass.control)]) := by
  have hremaining : stage.drive.remaining ≠ 0 := by omega
  rcases one_cases driver hongoing.sound .controlReady .control with
    ⟨hempty, -⟩ | ⟨front, _, hfront, ⟨-, state, hone⟩ | ⟨-, outcome, next, hone, hperforms⟩⟩
  · simp [hcontrol] at hempty
  · left
    left
    simp [middle, hongoing.stop, hremaining, hone]
  · have heq : front = stream := by
      rw [hcontrol, List.cons.injEq] at hfront
      exact hfront.1.symm
    subst heq
    have hmiddle : middle driver true stage =
        { stage with
          activity := stage.activity <|> some outcome.activity
          drive := next } := by
      simp [middle, hongoing.stop, hremaining, hone]
    have hmem : front ∈ stage.drive.domain.table.lanes .controlReady := by simp [hcontrol]
    have hsound := hperforms.turned.sound hongoing.sound (hongoing.sound.resident front _ hmem)
    rw [hmiddle]
    cases hblocked : next.policy.isBlocked with
    | true => exact .inl (.inr hblocked)
    | false =>
      refine .inr ⟨⟨hsound, hongoing.stop, hongoing.done, ?_, hongoing.last, hblocked⟩, ?_, ?_⟩
      · -- a control record does not wait for data, so it can only come behind the queue
        obtain ⟨later, hlane⟩ := hongoing.lane
        have hnot : front ∉ stage.drive.domain.table.lanes .dataReady := by
          intro hdata
          exact absurd (hongoing.sound.apart front _ _ hmem hdata) (by decide)
        obtain ⟨new, hnew⟩ := hperforms.turned.lanes_of_not_mem hnot
        exact ⟨later ++ new, by rw [hnew, hlane, List.append_assoc]⟩
      · simp only [hperforms.remaining]
        omega
      · exact hperforms.turns_eq

/-- The first data record has its turn before the control record. -/
theorem leading_serves {drive : Drive K T σ} {last stream : K} {queue : List K}
    (hongoing : Ongoing { drive := drive } last (stream :: queue)) :
    Cut (leading driver true (some last) drive) ∨
      (Ongoing (leading driver true (some last) drive) last queue ∧
        (leading driver true (some last) drive).drive.remaining = drive.remaining - 1 ∧
        (∀ front rest, drive.domain.table.lanes .controlReady = front :: rest → ∃ later,
          (leading driver true (some last) drive).drive.domain.table.lanes .controlReady =
            front :: later) ∧
        (leading driver true (some last) drive).drive.turns =
          drive.turns ++ [(stream, WorkClass.data)]) := by
  obtain ⟨later, hlane⟩ : ∃ later, drive.domain.table.lanes .dataReady = stream :: queue ++ later :=
    hongoing.lane
  have hsound : drive.domain.table.Sound := hongoing.sound
  rcases one_cases driver hsound .dataReady .data with
    ⟨hempty, -⟩ | ⟨front, _, hfront, ⟨-, state, hone⟩ | ⟨-, outcome, next, hone, hperforms⟩⟩
  · simp [hlane] at hempty
  · left
    left
    simp [leading, hone]
  · have heq : front = stream := by
      rw [hlane, List.cons_append, List.cons.injEq] at hfront
      exact hfront.1.symm
    subst heq
    have hleading : leading driver true (some last) drive =
        { stop := false, done := outcome.stream = last, activity := some outcome.activity,
          drive := next } := by
      simp [leading, hone]
    rw [hleading]
    rcases hongoing.next hperforms (some outcome.activity) with hblocked | hnext
    · exact .inl (.inr hblocked)
    · refine .inr ⟨hnext, hperforms.remaining, ?_, hperforms.turns_eq⟩
      intro first rest hcontrol
      have hmem : front ∈ drive.domain.table.lanes .dataReady := by simp [hlane]
      have hnot : front ∉ drive.domain.table.lanes .controlReady := by
        intro hready
        exact absurd (hsound.apart front _ _ hmem hready) (by decide)
      obtain ⟨new, hnew⟩ := hperforms.turned.lanes_of_not_mem hnot
      exact ⟨rest ++ new, by rw [hnew, hcontrol, List.cons_append]⟩

omit [Indexed K] [DecidableEq K] in
theorem tail_eq_getLast? (drive : Drive K T σ) : drive.tail = drive.dataReady.getLast? := by
  rw [tail, dataReady]
  split_ifs
  · rfl
  · rfl

omit [Indexed K] [DecidableEq K] in
theorem hasControl_eq (drive : Drive K T σ) :
    drive.hasControl = !drive.controlReady.isEmpty := rfl

theorem loop_none (fuel : ℕ) (stage : Stage K T σ) : loop driver none fuel stage = stage := by
  cases fuel <;> simp [loop]

theorem leading_false (tail : Option K) (drive : Drive K T σ) :
    leading driver false tail drive = { drive := drive } := rfl

theorem middle_false (stage : Stage K T σ) : middle driver false stage = stage := by
  simp [middle]

theorem body_serves_control {drive : Drive K T σ} (hsound : drive.domain.table.Sound)
    (hremaining : drive.remaining ≠ 0) (htail : drive.tail = none) :
    (drive.body driver).stop = true ∨ (drive.body driver).drive.turns = drive.turns ++ drive.fair := by
  have hdata : drive.dataReady = [] := by
    rw [tail_eq_getLast?] at htail
    exact List.getLast?_eq_none_iff.mp htail
  have hround : drive.round = .single := by simp [round, htail]
  have hbody : drive.body driver = middle driver drive.hasControl { drive := drive } := by
    rw [body, htail, loop_none, hround]
    rfl
  have hfair : drive.fair =
      (drive.controlReady.take 1).map fun stream => (stream, WorkClass.control) := by
    simp [fair, hround, hdata]
  rw [hbody, hfair]
  cases hcontrol : drive.controlReady with
  | nil =>
    right
    simp [hasControl_eq, hcontrol, middle]
  | cons stream rest =>
    rcases one_cases driver hsound .controlReady .control with
      ⟨hempty, -⟩ | ⟨front, _, hfront, ⟨-, state, hone⟩ | ⟨-, outcome, next, hone, hperforms⟩⟩
    · rw [controlReady, hempty] at hcontrol
      simp at hcontrol
    · left
      simp [hasControl_eq, hcontrol, middle, hremaining, hone]
    · right
      have heq : front = stream := by
        rw [controlReady, hfront, List.cons.injEq] at hcontrol
        exact hcontrol.1
      subst heq
      simp [hasControl_eq, hcontrol, middle, hremaining, hone, hperforms.turns_eq]

theorem ongoing_start {drive : Drive K T σ} (hsound : drive.domain.table.Sound) {last : K}
    (htail : drive.tail = some last) :
    Ongoing { drive := drive } last drive.dataReady ∧ drive.dataReady ≠ [] := by
  have hfree := not_isBlocked_of_tail htail
  have hlast : drive.dataReady.getLast? = some last := by
    rw [← tail_eq_getLast?, htail]
  have hne : drive.dataReady ≠ [] := by
    intro h
    simp [h] at hlast
  refine ⟨⟨hsound, rfl, ?_, ⟨[], ?_⟩, fun _ => hlast, hfree⟩, hne⟩
  · simp [hne]
  · simp [dataReady, hfree]

/-- A round that nothing cuts short serves the data that was ready, each record once and in the
order of the queue, and one control record. -/
theorem body_serves {drive : Drive K T σ} (hsound : drive.domain.table.Sound)
    (hremaining : drive.remaining ≠ 0)
    (hbudget : drive.dataReady.length + (drive.controlReady.take 1).length ≤ drive.remaining) :
    (drive.body driver).stop = true ∨
      (drive.policy.isBlocked = false ∧ (drive.body driver).drive.policy.isBlocked = true) ∨
      (drive.body driver).drive.turns = drive.turns ++ drive.fair := by
  cases htail : drive.tail with
  | none =>
    rcases body_serves_control driver hsound hremaining htail with hstop | hturns
    · exact .inl hstop
    · exact .inr (.inr hturns)
  | some last =>
    obtain ⟨hongoing, hne⟩ := ongoing_start hsound htail
    have hfree := not_isBlocked_of_tail htail
    -- it is enough to find the round cut short or fully served
    suffices hserved : Cut (drive.body driver) ∨
        (drive.body driver).drive.turns = drive.turns ++ drive.fair by
      rcases hserved with (hstop | hblocked) | hturns
      · exact .inl hstop
      · exact .inr (.inl ⟨hfree, hblocked⟩)
      · exact .inr (.inr hturns)
    cases hcontrol : drive.controlReady with
    | nil =>
      have hhas : drive.hasControl = false := by simp [hasControl_eq, hcontrol]
      have hround : drive.round = .single := by simp [round, hhas]
      have hbody : drive.body driver =
          loop driver (some last) drive.remaining { drive := drive } := by
        simp [body, hhas, hround, htail, leading_false, middle_false]
      have hfair : drive.fair =
          drive.dataReady.map fun stream => (stream, WorkClass.data) := by
        simp [fair, hround, hcontrol]
      rw [hbody, hfair]
      have hfuel : drive.dataReady.length ≤ drive.remaining := by omega
      exact loop_serves driver drive.dataReady hongoing _ hfuel hfuel
    | cons front rest =>
      have hhas : drive.hasControl = true := by simp [hasControl_eq, hcontrol]
      rw [hcontrol] at hbudget
      simp only [List.take_succ_cons, List.take_zero, List.length_singleton] at hbudget
      cases hprefer : drive.policy.isDataNext with
      | false =>
        have hround : drive.round = .controlFirst := by simp [round, htail, hhas, hprefer]
        have hbody : drive.body driver =
            loop driver (some last) (middle driver true { drive := drive }).drive.remaining
              (middle driver true { drive := drive }) := by
          simp [body, hhas, hround, htail, leading_false]
        rw [hbody]
        rcases middle_serves driver hongoing hcontrol hbudget with hcut | ⟨hnext, hfuel, hturns⟩
        · exact .inl (hcut.loop driver
            ((invariant_sound driver).middle true hsound) _ _)
        · rcases loop_serves driver drive.dataReady hnext _ hfuel hfuel with hcut | hloop
          · exact .inl hcut
          · right
            rw [hloop, hturns]
            simp [fair, hround, hcontrol]
      | true =>
        have hround : drive.round = .dataFirst := by simp [round, htail, hhas, hprefer]
        obtain ⟨stream, queue, hqueue⟩ := List.exists_cons_of_ne_nil hne
        rw [hqueue] at hongoing hbudget
        set lead := leading driver true (some last) drive with hlead
        have hbody : drive.body driver =
            loop driver (some last) (middle driver true lead).drive.remaining
              (middle driver true lead) := by
          simp [body, hhas, hround, htail, hlead]
        have hleadSound : lead.drive.domain.table.Sound := by
          have := (invariant_sound driver).leading true hsound hremaining
          rwa [htail] at this
        rw [hbody]
        rcases leading_serves driver hongoing with hcut | ⟨hnext, hleft, hfront, hturns⟩
        · exact .inl ((hcut.middle driver hleadSound true).loop driver
            ((invariant_sound driver).middle true hleadSound) _ _)
        · obtain ⟨later, hlater⟩ := hfront front rest hcontrol
          have hleft' : queue.length + 1 ≤ lead.drive.remaining := by
            rw [hlead, hleft]
            simp at hbudget
            omega
          rcases middle_serves driver hnext hlater hleft' with
            hcut | ⟨hnext', hfuel, hturns'⟩
          · exact .inl (hcut.loop driver ((invariant_sound driver).middle true hleadSound) _ _)
          · rcases loop_serves driver queue hnext' _ hfuel hfuel with hcut | hloop
            · exact .inl hcut
            · right
              rw [hloop, hturns', hturns]
              simp [fair, hround, hcontrol, hqueue]

/-! ## The first turn of a round -/

/-- The class that a round serves first. -/
def opening (drive : Drive K T σ) : WorkClass :=
  if drive.round = .dataFirst || !drive.hasControl then .data else .control

theorem middle_stop {stage : Stage K T σ} (hstop : stage.stop = true) (control : Bool) :
    middle driver control stage = stage := by
  simp [middle, hstop]

theorem loop_stop {stage : Stage K T σ} (hstop : stage.stop = true) (tail : Option K) (fuel : ℕ) :
    loop driver tail fuel stage = stage := by
  cases fuel <;> simp [loop, hstop]

theorem middle_activity {stage : Stage K T σ} (h : stage.activity.isSome = true) (control : Bool) :
    (middle driver control stage).activity.isSome = true := by
  unfold middle
  split
  · rcases stage.drive.one driver .controlReady .control with ⟨turn, next⟩
    cases turn with
    | ready outcome => simp
    | empty => exact h
    | blocked => exact h
  · exact h

theorem loop_activity (tail : Option K) (fuel : ℕ) {stage : Stage K T σ}
    (h : stage.activity.isSome = true) : (loop driver tail fuel stage).activity.isSome = true := by
  induction fuel generalizing stage with
  | zero => exact h
  | succ fuel ih =>
    unfold loop
    split
    · rcases stage.drive.one driver .dataReady .data with ⟨turn, next⟩
      cases turn with
      | ready outcome => exact ih (by simp)
      | empty => exact h
      | blocked => exact h
    · exact h

/-- How the body of a round opens: without a permit it ends as it began, and otherwise its first
turn is of the opening class. -/
def Opens (drive : Drive K T σ) (stage : Stage K T σ) : Prop :=
  ((driver.permit drive.domain.driver).1 = none ∧ stage.stop = true ∧ stage.activity = none ∧
      stage.drive.turns = drive.turns) ∨
    ((driver.permit drive.domain.driver).1.isSome = true ∧ stage.activity.isSome = true ∧
      stage.drive.domain.table.Sound ∧ ∃ stream,
        drive.turns ++ [(stream, drive.opening)] <+: stage.drive.turns)

theorem Opens.middle {drive : Drive K T σ} {stage : Stage K T σ} (hopens : Opens driver drive stage)
    (control : Bool) : Opens driver drive (middle driver control stage) := by
  rcases hopens with ⟨hpermit, hstop, hactivity, hturns⟩ | ⟨hpermit, hactivity, hsound, hturns⟩
  · rw [middle_stop driver hstop]
    exact .inl ⟨hpermit, hstop, hactivity, hturns⟩
  · obtain ⟨stream, hfirst⟩ := hturns
    refine .inr ⟨hpermit, middle_activity driver hactivity control,
      (invariant_sound driver).middle control hsound, stream, ?_⟩
    exact ((steady_onward _).invariant driver).middle control ⟨hsound, hfirst⟩ |>.2

theorem Opens.loop {drive : Drive K T σ} {stage : Stage K T σ} (hopens : Opens driver drive stage)
    (tail : Option K) (fuel : ℕ) : Opens driver drive (loop driver tail fuel stage) := by
  rcases hopens with ⟨hpermit, hstop, hactivity, hturns⟩ | ⟨hpermit, hactivity, hsound, hturns⟩
  · rw [loop_stop driver hstop]
    exact .inl ⟨hpermit, hstop, hactivity, hturns⟩
  · obtain ⟨stream, hfirst⟩ := hturns
    refine .inr ⟨hpermit, loop_activity driver tail fuel hactivity,
      (invariant_sound driver).loop tail fuel hsound, stream, ?_⟩
    exact ((steady_onward _).invariant driver).loop tail fuel ⟨hsound, hfirst⟩ |>.2

theorem opens_of_one {drive : Drive K T σ} (hsound : drive.domain.table.Sound)
    (hlane : drive.domain.table.lanes drive.opening.readyLane ≠ []) {stage : Stage K T σ}
    (hblocked : ∀ next, drive.one driver drive.opening.readyLane drive.opening = (.blocked, next) →
      stage.stop = true ∧ stage.activity = none ∧ stage.drive = next)
    (hready : ∀ outcome next,
      drive.one driver drive.opening.readyLane drive.opening = (.ready outcome, next) →
      stage.activity.isSome = true ∧ stage.drive = next) :
    Opens driver drive stage := by
  rcases one_cases driver hsound drive.opening.readyLane drive.opening with
    ⟨hempty, -⟩ | ⟨front, rest, hfront, ⟨hpermit, state, hone⟩ |
      ⟨hpermit, outcome, next, hone, hperforms⟩⟩
  · exact absurd hempty hlane
  · obtain ⟨hstop, hactivity, hdrive⟩ := hblocked _ hone
    exact .inl ⟨hpermit, hstop, hactivity, by rw [hdrive]; rfl⟩
  · obtain ⟨hactivity, hdrive⟩ := hready _ _ hone
    subst hdrive
    have hmem : front ∈ drive.domain.table.lanes drive.opening.readyLane := by simp [hfront]
    refine .inr ⟨hpermit, hactivity, ?_, front, ?_⟩
    · exact hperforms.turned.sound hsound (hsound.resident front _ hmem)
    · rw [hperforms.turns_eq]

/-- Every round opens with a turn of its class, or not at all. -/
theorem body_opens {drive : Drive K T σ} (hsound : drive.domain.table.Sound)
    (hremaining : drive.remaining ≠ 0)
    (hready : drive.tail.isSome = true ∨ drive.hasControl = true) :
    Opens driver drive (drive.body driver) := by
  unfold body
  have hdata : drive.tail.isSome = true → drive.domain.table.lanes .dataReady ≠ [] := by
    intro htail h
    simp only [tail, LaneTable.back, h] at htail
    split_ifs at htail <;> simp at htail
  by_cases hfirst : drive.round = .dataFirst
  · -- the data turn comes first
    have hopening : drive.opening = .data := by simp [opening, hfirst]
    obtain ⟨last, htail⟩ : ∃ last, drive.tail = some last := by
      rw [← Option.isSome_iff_exists]
      by_contra h
      simp [round, Option.not_isSome_iff_eq_none.mp h] at hfirst
    have hopens : Opens driver drive (leading driver (drive.round = .dataFirst) drive.tail drive) := by
      apply opens_of_one driver hsound
      · rw [hopening]
        exact hdata (by rw [htail]; rfl)
      · intro next hone
        rw [hopening, WorkClass.readyLane] at hone
        simp [leading, hfirst, htail, hone]
      · intro outcome next hone
        rw [hopening, WorkClass.readyLane] at hone
        simp [leading, hfirst, htail, hone]
    exact (hopens.middle driver _).loop driver _ _
  · have hleading : leading driver (drive.round = .dataFirst) drive.tail drive =
        { drive := drive } := by
      simp [leading, hfirst]
    rw [hleading]
    cases hcontrol : drive.hasControl with
    | true =>
      have hopening : drive.opening = .control := by simp [opening, hfirst, hcontrol]
      refine Opens.loop driver ?_ _ _
      apply opens_of_one driver hsound
      · rw [hopening]
        intro h
        rw [WorkClass.readyLane] at h
        simp [hasControl_eq, controlReady, h] at hcontrol
      · intro next hone
        rw [hopening, WorkClass.readyLane] at hone
        simp [middle, hremaining, hone]
      · intro outcome next hone
        rw [hopening, WorkClass.readyLane] at hone
        simp [middle, hremaining, hone]
    | false =>
      have hopening : drive.opening = .data := by simp [opening, hcontrol]
      have htail : drive.tail.isSome = true := by simpa [hcontrol] using hready
      obtain ⟨last, hlast⟩ := Option.isSome_iff_exists.mp htail
      have hfree := not_isBlocked_of_tail hlast
      have hlane := hdata htail
      obtain ⟨n, hn⟩ : ∃ n, drive.remaining = n + 1 := ⟨drive.remaining - 1, by omega⟩
      simp only [middle_false, hn, hlast]
      -- the first turn is that of the loop
      rcases hone : drive.one driver .dataReady .data with ⟨turn, next⟩
      cases turn with
      | empty =>
        rcases one_cases driver hsound .dataReady .data with
          ⟨hempty, -⟩ | ⟨_, _, _, ⟨-, _, hone'⟩ | ⟨-, _, _, hone', -⟩⟩
        · exact absurd hempty hlane
        · simp [hone] at hone'
        · simp [hone] at hone'
      | blocked =>
        apply opens_of_one driver hsound
        · rwa [hopening]
        · intro next' hone'
          rw [hopening, WorkClass.readyLane, hone] at hone'
          simp_all [loop]
        · intro outcome next' hone'
          rw [hopening, WorkClass.readyLane, hone] at hone'
          simp at hone'
      | ready outcome =>
        have hloop : loop driver (some last) (n + 1) { drive := drive } =
            loop driver (some last) n
              { stop := false, done := outcome.stream = last, activity := some outcome.activity,
                drive := next } := by
          simp [loop, hn, hfree, hone]
        rw [hloop]
        refine Opens.loop driver ?_ _ _
        apply opens_of_one driver hsound
        · rwa [hopening]
        · intro next' hone'
          rw [hopening, WorkClass.readyLane, hone] at hone'
          simp at hone'
        · intro outcome' next' hone'
          rw [hopening, WorkClass.readyLane, hone] at hone'
          simp only [Prod.mk.injEq] at hone'
          exact ⟨rfl, hone'.2⟩

/-! ## The rounds -/

/-- A round of a drive over a sound table, with something to serve. -/
structure IsRound (log : RoundLog K T σ) : Prop where
  sound : log.before.domain.table.Sound
  remaining : log.before.remaining ≠ 0
  ready : log.before.tail.isSome = true ∨ log.before.hasControl = true
  kind : log.kind = log.before.round
  after : log.after = log.before.settled (log.before.body driver)
  stop : log.stop = (log.before.body driver).stop

/-- The rounds of a drive follow each other. -/
inductive Linked : Drive K T σ → List (RoundLog K T σ) → Drive K T σ → Prop where
  | nil (drive : Drive K T σ) : Linked drive [] drive
  | cons {log : RoundLog K T σ} {logs : List (RoundLog K T σ)} {last : Drive K T σ}
      (hround : IsRound driver log) (hlinked : Linked log.after logs last) :
      Linked log.before (log :: logs) last

theorem settles_sound : Settles fun drive : Drive K T σ => drive.domain.table.Sound := by
  intro drive round activity hsound
  exact hsound

theorem rounds_linked (oneRound : Bool) (fuel : ℕ) {drive : Drive K T σ}
    (hsound : drive.domain.table.Sound) :
    Linked driver drive (rounds driver oneRound fuel drive).2
      (rounds driver oneRound fuel drive).1 := by
  have hround : ∀ {drive : Drive K T σ}, drive.domain.table.Sound → drive.remaining ≠ 0 →
      ¬ (!drive.tail.isSome && !drive.hasControl) = true →
      IsRound driver ⟨drive.round, drive, drive.settled (drive.body driver),
        (drive.body driver).stop⟩ := by
    intro drive hsound hremaining hready
    refine ⟨hsound, hremaining, ?_, rfl, rfl, rfl⟩
    cases h : drive.tail.isSome <;> simp_all
  induction fuel generalizing drive with
  | zero => exact .nil drive
  | succ fuel ih =>
    simp only [rounds]
    split_ifs with hremaining hready _
    · exact .nil drive
    · exact .nil drive
    · exact .cons (hround hsound hremaining hready) (.nil _)
    · refine .cons (hround hsound hremaining hready) (ih ?_)
      exact settles_sound.settled drive ((invariant_sound driver).body hsound hremaining)

omit [Indexed K] [DecidableEq K] in
@[simp]
theorem settled_turns (drive : Drive K T σ) (stage : Stage K T σ) :
    (drive.settled stage).turns = stage.drive.turns := by
  unfold settled
  split <;> rfl

omit [Indexed K] [DecidableEq K] in
@[simp]
theorem settled_isBlocked (drive : Drive K T σ) (stage : Stage K T σ) :
    (drive.settled stage).policy.isBlocked = stage.drive.policy.isBlocked := by
  unfold settled
  split
  · exact Policy.finishRound_dataBlocked _ _ _
  · rfl

theorem settles_onward (before : List (K × WorkClass)) :
    Settles fun drive : Drive K T σ => drive.domain.table.Sound ∧ before <+: drive.turns := by
  intro drive round activity h
  exact h

/-- A drive with a permit performs a turn exactly when there is something to serve. -/
theorem run_turns_pos_iff (oneRound : Bool) {drive : Drive K T σ}
    (hsound : drive.domain.table.Sound)
    (hpermit : (driver.permit drive.domain.driver).1.isSome = true) :
    drive.turns.length < (drive.run driver oneRound).1.turns.length ↔
      drive.remaining ≠ 0 ∧ (drive.tail.isSome = true ∨ drive.hasControl = true) := by
  unfold run
  cases hremaining : drive.remaining with
  | zero => simp [rounds]
  | succ n =>
    have hne : drive.remaining ≠ 0 := by omega
    simp only [rounds, hremaining, Nat.succ_ne_zero, if_false, ne_eq, not_false_eq_true, true_and]
    split_ifs with hready _
    · simp only [Bool.and_eq_true, Bool.not_eq_true'] at hready
      simp [hready.1, hready.2]
    all_goals
      have hsome : drive.tail.isSome = true ∨ drive.hasControl = true := by
        cases h : drive.tail.isSome <;> simp_all
      have hbody := body_opens driver hsound hne hsome
      rcases hbody with ⟨hnone, -⟩ | ⟨-, -, hsound', stream, hfirst⟩
      · simp [hnone] at hpermit
      have hlt : drive.turns.length < (drive.body driver).drive.turns.length := by
        simpa using hfirst.length_le
      refine iff_of_true ?_ hsome
    · simpa using hlt
    · -- the rounds that follow only add turns
      have hstart := (settles_onward (drive.body driver).drive.turns).settled drive
        ⟨hsound', List.prefix_refl _⟩
      have hrest := ((steady_onward (drive.body driver).drive.turns).invariant driver).rounds
        (settles_onward _) oneRound n hstart
      exact hlt.trans_le hrest.1.2.length_le

end Drive

/-- The turns of a round. -/
def Drive.RoundLog.turns {K T σ : Type} (log : Drive.RoundLog K T σ) : List (K × WorkClass) :=
  log.after.turns.drop log.before.turns.length

namespace Drive.IsRound

variable {K T B E P σ : Type} [Indexed K] [DecidableEq K] [Block B]
  {driver : Driver K T B E P σ} {log : RoundLog K T σ}

theorem turns_eq_fair (hround : IsRound driver log) (hstop : log.stop = false)
    (hblocked : log.after.policy.isBlocked = true → log.before.policy.isBlocked = true)
    (hbudget : log.before.dataReady.length + (log.before.controlReady.take 1).length ≤
      log.before.remaining) :
    log.turns = log.before.fair := by
  have hafter := hround.after
  rw [RoundLog.turns, hafter, settled_turns]
  rw [hafter, settled_isBlocked] at hblocked
  rcases body_serves driver hround.sound hround.remaining hbudget with
    hstop' | ⟨hfree, hblocked'⟩ | hturns
  · rw [hround.stop, hstop'] at hstop
    exact absurd hstop (by simp)
  · rw [hblocked hblocked'] at hfree
    exact absurd hfree (by simp)
  · rw [hturns, List.drop_left]

/-- A round that performs a turn starts with its opening class, and gives the other class the
next start. -/
theorem opens (hround : IsRound driver log) (hturns : log.turns ≠ []) :
    log.turns.head?.map Prod.snd = some log.before.opening ∧
      (log.kind = .dataFirst → log.after.policy.preferData = false) ∧
      (log.kind = .controlFirst → log.after.policy.preferData = true) := by
  have hafter := hround.after
  have hopens := body_opens driver hround.sound hround.remaining hround.ready
  rcases hopens with ⟨-, -, -, hsame⟩ | ⟨-, hactivity, -, stream, hfirst⟩
  · rw [RoundLog.turns, hafter, settled_turns, hsame, List.drop_length] at hturns
    exact absurd rfl hturns
  · obtain ⟨more, hmore⟩ := hfirst
    obtain ⟨activity, hactivity'⟩ := Option.isSome_iff_exists.mp hactivity
    refine ⟨?_, ?_, ?_⟩
    · rw [RoundLog.turns, hafter, settled_turns, ← hmore, List.append_assoc, List.drop_left]
      rfl
    · intro hkind
      rw [hround.kind] at hkind
      simp only [hafter, settled, hactivity', hkind]
      cases activity <;> rfl
    · intro hkind
      rw [hround.kind] at hkind
      simp only [hafter, settled, hactivity', hkind]
      cases activity <;> rfl

/-- With both classes ready, the class that comes first is the one that the policy prefers. -/
theorem opening_eq (hround : IsRound driver log) (hkind : log.kind ≠ .single) :
    log.before.opening = if log.before.policy.preferData then .data else .control := by
  rw [hround.kind] at hkind
  unfold round at hkind
  unfold opening round
  split_ifs at hkind ⊢ with hboth hprefer <;> simp_all [Policy.isDataNext]

end Drive.IsRound

end Sark.Schedule
