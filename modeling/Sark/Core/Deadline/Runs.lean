import Sark.Core.Deadline.Agenda

/-!
# Runs of the deadline agenda

Sequences of transitions, schedules, cancellations and polls on any keys. Body progress is lazy,
and a run is compared with the same run of an agenda that reschedules the idle expiry at every
progress, in which the renewing polls do not happen.

The comparison needs the steps to respect the idle deadlines (`Op.Timely`): a progress never
computes an instant before the idle deadline in force, and an idle expiry is not set to the very
instant that is stored while a later progress is pending.
-/

set_option linter.unusedSectionVars false

namespace Sark.Deadline

open ResidentHeap

/-- An operation on an agenda. A poll says which of the first entries the heap gives. -/
inductive Op (K P W N D : Type*) where
  | transition (key : K) (config : Config D) (change : Transition) (now : N) (add : N → D → P)
  | schedule (key : K) (item : Scheduled P W)
  | cancel (key : K)
  | cancelOne (key : K) (action : Action W)
  | pollDue (now : P) (choice : Option ℕ)

/-- What an operation answers. -/
inductive Outcome (K P W : Type*) where
  | ok
  | refused (error : Error K)
  | polled (poll : Poll (Expired K P W))
  deriving DecidableEq, Repr

namespace Agenda

variable {K P W N D : Type*} [DecidableEq K] [Indexed K] [LinearOrder P] [LinearOrder W]

/-- A refused operation leaves the agenda as it is. -/
def commit (self : Agenda K P W) : Except (Error K) (Agenda K P W) → Agenda K P W × Outcome K P W
  | .ok after => (after, .ok)
  | .error error => (self, .refused error)

/-- One operation. The result is `none` when the heap cannot give the entry a poll asks for. -/
def step (self : Agenda K P W) : Op K P W N D → Option (Agenda K P W × Outcome K P W)
  | .transition key config change now add =>
    some (self.commit (self.transition key config change now add))
  | .schedule key item => some (self.commit (self.schedule key item))
  | .cancel key => some (self.cancel key, .ok)
  | .cancelOne key action => some (self.cancelOne key action, .ok)
  | .pollDue now choice =>
    (self.pollDue now choice).map fun (poll, after) => (after, .polled poll)

/-- A sequence of operations and their answers. -/
def run (self : Agenda K P W) : List (Op K P W N D) → Option (Agenda K P W × List (Outcome K P W))
  | [] => some (self, [])
  | op :: ops =>
    (self.step op).bind fun (after, outcome) =>
      (after.run ops).map fun (last, outcomes) => (last, outcome :: outcomes)

/-! ## Rescheduling at every progress -/

/-- Progress that schedules the idle expiry anew, if there is one. -/
def reschedule (self : Agenda K P W) (key : K) (config : Config D) (now : N) (add : N → D → P) :
    Except (Error K) (Agenda K P W) :=
  match self.tryEntry key with
  | .error error => .error error
  | .ok _ =>
    match (self.lane key).get (.expire .bodyIdle), Timeline.instant config .bodyIdle now add with
    | some _, some due => self.schedule key (.expire due .bodyIdle)
    | _, _ => .ok self

/-- One operation of the agenda that reschedules at every progress. -/
def eagerStep (self : Agenda K P W) : Op K P W N D → Option (Agenda K P W × Outcome K P W)
  | .transition key config .bodyProgress now add =>
    some (self.commit (self.reschedule key config now add))
  | op => self.step op

/-- A sequence of operations of the agenda that reschedules at every progress. -/
def eagerRun (self : Agenda K P W) :
    List (Op K P W N D) → Option (Agenda K P W × List (Outcome K P W))
  | [] => some (self, [])
  | op :: ops =>
    (self.eagerStep op).bind fun (after, outcome) =>
      (after.eagerRun ops).map fun (last, outcomes) => (last, outcome :: outcomes)

end Agenda

/-- The operation respects the idle deadline of its key. -/
def Op.Timely {K P W N D : Type*} [DecidableEq K] [Indexed K] [LinearOrder P] [LinearOrder W]
    (agenda : Agenda K P W) : Op K P W N D → Prop
  | .transition key config change now add =>
    (agenda.lane key).phases.Admits config change now add
  | .schedule key item =>
    item.action = .expire .bodyIdle → (agenda.lane key).phases.AdmitsIdle item.due
  | _ => True

namespace Agenda

variable {K P W N D : Type*} [DecidableEq K] [Indexed K] [LinearOrder P] [LinearOrder W]

/-- Every operation of the run respects the idle deadlines it finds. -/
def TimelyRun (self : Agenda K P W) : List (Op K P W N D) → Prop
  | [] => True
  | op :: ops =>
    op.Timely self ∧ ∀ after outcome, self.step op = some (after, outcome) → after.TimelyRun ops

theorem run_cons_eq_some_iff {self last : Agenda K P W} {op : Op K P W N D}
    {ops : List (Op K P W N D)} {outcomes : List (Outcome K P W)} :
    self.run (op :: ops) = some (last, outcomes) ↔
      ∃ after outcome rest, self.step op = some (after, outcome) ∧
        after.run ops = some (last, rest) ∧ outcomes = outcome :: rest := by
  rw [run]
  simp only [Option.bind_eq_some_iff, Option.map_eq_some_iff, Prod.mk.injEq, Prod.exists]
  constructor
  · rintro ⟨after, outcome, hstep, last', rest, hrun, rfl, rfl⟩
    exact ⟨after, outcome, rest, hstep, hrun, rfl⟩
  · rintro ⟨after, outcome, rest, hstep, hrun, rfl⟩
    exact ⟨after, outcome, hstep, last, rest, hrun, rfl, rfl⟩

theorem timelyRun_cons {self after : Agenda K P W} {op : Op K P W N D}
    {ops : List (Op K P W N D)} {outcome : Outcome K P W} (htimely : op.Timely self)
    (hstep : self.step op = some (after, outcome)) (hrest : after.TimelyRun ops) :
    self.TimelyRun (op :: ops) := by
  refine ⟨htimely, fun after' outcome' hstep' => ?_⟩
  obtain ⟨rfl, rfl⟩ := Prod.mk.inj (Option.some.inj (hstep.symm.trans hstep'))
  exact hrest

/-! ## One step -/

theorem transition_of_error {self : Agenda K P W} {key : K} {error : Error K}
    (h : self.tryEntry key = .error error) (config : Config D) (change : Transition) (now : N)
    (add : N → D → P) : self.transition key config change now add = .error error := by
  rw [transition, h]

theorem schedule_of_error {self : Agenda K P W} {key : K} {error : Error K}
    (h : self.tryEntry key = .error error) (item : Scheduled P W) :
    self.schedule key item = .error error := by
  rw [schedule, h]

theorem reschedule_of_error {self : Agenda K P W} {key : K} {error : Error K}
    (h : self.tryEntry key = .error error) (config : Config D) (now : N) (add : N → D → P) :
    self.reschedule key config now add = .error error := by
  rw [reschedule, h]

theorem cancel_of_error {self : Agenda K P W} {key : K} {error : Error K}
    (h : self.tryEntry key = .error error) : self.cancel key = self := by
  rw [cancel]
  rw [tryEntry] at h
  split at h <;> simp_all

theorem cancelOne_of_error {self : Agenda K P W} {key : K} {error : Error K}
    (h : self.tryEntry key = .error error) (action : Action W) :
    self.cancelOne key action = self := by
  rw [cancelOne]
  rw [tryEntry] at h
  split at h <;> simp_all

theorem Sound.reschedule_eq {self : Agenda K P W} (hsound : self.Sound) {key : K}
    (howns : self.Owns key) (config : Config D) (now : N) (add : N → D → P) :
    self.reschedule key config now add = .ok (self.arm key
      { self.lane key with phases := (self.lane key).phases.reschedule config now add }) := by
  obtain ⟨found, hfound⟩ := howns
  rw [reschedule, hfound, Timeline.reschedule, Lane.get_expire]
  cases (self.lane key).phases.get .bodyIdle with
  | none => exact congrArg _ (hsound.arm_lane ⟨_, hfound⟩).symm
  | some item =>
    cases Timeline.instant config .bodyIdle now add with
    | none => exact congrArg _ (hsound.arm_lane ⟨_, hfound⟩).symm
    | some due =>
      simp only [Option.map_some, Option.isSome_some, if_true, Timeline.insertAt]
      rw [hsound.schedule_eq ⟨_, hfound⟩, Scheduled.expire, Lane.install_expire]

/-- An owned key is armed with a new lane, in the agenda and in the settled agenda alike. -/
theorem Sound.arm_settle {self : Agenda K P W} (hsound : self.Sound) {key : K}
    (howns : self.Owns key) {lane settled : Lane P W} (hlane : lane.phases.Sound)
    (hsettled : lane.settle = settled) :
    (self.arm key lane).Sound ∧ (self.arm key lane).settle = self.settle.arm key settled := by
  refine ⟨hsound.arm howns hlane, ?_⟩
  rw [settle_arm self key hlane, hsettled]

/-- A step keeps the agenda sound. It is a step of the settled agenda that reschedules at every
progress, unless it is a renewing poll, which changes nothing there. -/
theorem Sound.step {self after : Agenda K P W} (hsound : self.Sound) {op : Op K P W N D}
    {outcome : Outcome K P W} (htimely : op.Timely self)
    (h : self.step op = some (after, outcome)) :
    after.Sound ∧
      (outcome = .polled .renewed ∧ after.settle = self.settle ∨
        outcome ≠ .polled .renewed ∧ self.settle.eagerStep op = some (after.settle, outcome)) := by
  have hsettle := hsound.settle_sound
  cases op with
  | transition key config change now add =>
    rw [Agenda.step, Option.some.injEq] at h
    rcases hsound.tryEntry_settle key with ⟨error, herror, herror'⟩ | ⟨howns, howns', hlane⟩
    · rw [transition_of_error herror, commit, Prod.mk.injEq] at h
      obtain ⟨rfl, rfl⟩ := h
      refine ⟨hsound, .inr ⟨by simp, ?_⟩⟩
      by_cases hchange : change = .bodyProgress
      · rw [hchange, eagerStep, reschedule_of_error herror', commit]
      · rw [eagerStep, Agenda.step, transition_of_error herror', commit]
        simp [hchange]
    · rw [hsound.transition_eq howns, commit, Prod.mk.injEq] at h
      obtain ⟨rfl, rfl⟩ := h
      have hlaneSound := hsound.lane_sound key
      have happly := hlaneSound.apply htimely
      by_cases hchange : change = .bodyProgress
      · subst hchange
        have hsettled : ((self.lane key).advance config .bodyProgress now add).settle =
            { self.settle.lane key with
              phases := (self.settle.lane key).phases.reschedule config now add } := by
          rw [hlane]
          exact congrArg (Lane.mk · _) (Timeline.settle_progress hlaneSound htimely)
        obtain ⟨hafter, hagenda⟩ := hsound.arm_settle howns happly hsettled
        refine ⟨hafter, .inr ⟨by simp, ?_⟩⟩
        rw [eagerStep, hsettle.reschedule_eq howns', commit, hagenda]
      · have hsettled := Lane.settle_advance hlaneSound hchange htimely
        rw [← hlane] at hsettled
        obtain ⟨hafter, hagenda⟩ := hsound.arm_settle howns happly hsettled
        refine ⟨hafter, .inr ⟨by simp, ?_⟩⟩
        rw [eagerStep, Agenda.step, hsettle.transition_eq howns', commit, hagenda]
        simp [hchange]
  | schedule key item =>
    rw [Agenda.step, Option.some.injEq] at h
    rcases hsound.tryEntry_settle key with ⟨error, herror, herror'⟩ | ⟨howns, howns', hlane⟩
    · rw [schedule_of_error herror, commit, Prod.mk.injEq] at h
      obtain ⟨rfl, rfl⟩ := h
      refine ⟨hsound, .inr ⟨by simp, ?_⟩⟩
      simp only [eagerStep, Agenda.step, schedule_of_error herror', commit]
    · rw [hsound.schedule_eq howns, commit, Prod.mk.injEq] at h
      obtain ⟨rfl, rfl⟩ := h
      have hlaneSound := hsound.lane_sound key
      have hsettled := Lane.settle_install hlaneSound htimely
      rw [← hlane] at hsettled
      obtain ⟨hafter, hagenda⟩ :=
        hsound.arm_settle howns (Lane.install_sound hlaneSound item) hsettled
      refine ⟨hafter, .inr ⟨by simp, ?_⟩⟩
      simp only [eagerStep, Agenda.step, hsettle.schedule_eq howns', commit, hagenda]
  | cancel key =>
    rw [Agenda.step, Option.some.injEq, Prod.mk.injEq] at h
    obtain ⟨rfl, rfl⟩ := h
    rcases hsound.tryEntry_settle key with ⟨error, herror, herror'⟩ | ⟨howns, howns', -⟩
    · rw [cancel_of_error herror]
      refine ⟨hsound, .inr ⟨by simp, ?_⟩⟩
      simp only [eagerStep, Agenda.step, cancel_of_error herror']
    · rw [cancel_eq howns]
      obtain ⟨hafter, hagenda⟩ := hsound.arm_settle howns Timeline.sound_empty Lane.settle_empty
      refine ⟨hafter, .inr ⟨by simp, ?_⟩⟩
      rw [hagenda]
      simp only [eagerStep, Agenda.step, cancel_eq howns']
  | cancelOne key action =>
    rw [Agenda.step, Option.some.injEq, Prod.mk.injEq] at h
    obtain ⟨rfl, rfl⟩ := h
    rcases hsound.tryEntry_settle key with ⟨error, herror, herror'⟩ | ⟨howns, howns', hlane⟩
    · rw [cancelOne_of_error herror]
      refine ⟨hsound, .inr ⟨by simp, ?_⟩⟩
      simp only [eagerStep, Agenda.step, cancelOne_of_error herror']
    · have hlaneSound := hsound.lane_sound key
      have hsettled := Lane.settle_drop hlaneSound action
      rw [← hlane] at hsettled
      rw [hsound.cancelOne_eq howns]
      obtain ⟨hafter, hagenda⟩ :=
        hsound.arm_settle howns (Lane.drop_sound hlaneSound action) hsettled
      refine ⟨hafter, .inr ⟨by simp, ?_⟩⟩
      rw [hagenda]
      simp only [eagerStep, Agenda.step, hsettle.cancelOne_eq howns']
  | pollDue now choice =>
    rw [Agenda.step, Option.map_eq_some_iff] at h
    obtain ⟨⟨poll, after'⟩, hpoll, hout⟩ := h
    obtain ⟨rfl, rfl⟩ := Prod.mk.inj hout
    rcases hsound.pollDue_cases hpoll with ⟨rfl, rfl, rfl, hidle⟩ |
      ⟨i, slot, rfl, hslot, rfl, -, rfl⟩ |
      ⟨i, slot, rfl, hslot, hfirst, hdue, hnext, rfl, rfl⟩
    · refine ⟨hsound, .inr ⟨by simp, ?_⟩⟩
      simp only [eagerStep, Agenda.step, hsound.pollDue_settle_idle hidle, Option.map_some]
    · obtain ⟨-, howns⟩ := hsound.lane_key hslot
      have hlaneSound := hsound.lane_sound slot.key
      have hsettled : (self.lane slot.key).settle.settle = (self.settle.lane slot.key) := by
        rw [(hsound.owns_settle howns).2]
        exact congrArg (Lane.mk · _) (Timeline.settle_settle _)
      obtain ⟨hafter, hagenda⟩ := hsound.arm_settle howns hlaneSound.settle_sound hsettled
      refine ⟨hafter, .inl ⟨rfl, ?_⟩⟩
      rw [hagenda, hsettle.arm_lane (hsound.owns_settle howns).1]
    · obtain ⟨-, howns⟩ := hsound.lane_key hslot
      have hlaneSound := hsound.lane_sound slot.key
      have hget := (hsound.lane_priority hslot).2.isSome_get
      obtain ⟨hafter, hagenda⟩ := hsound.arm_settle howns (Lane.retire_sound hlaneSound hget)
        (Lane.settle_retire hlaneSound hget)
      refine ⟨hafter, .inr ⟨by simp, ?_⟩⟩
      rw [hagenda]
      simp only [eagerStep, Agenda.step, Option.map_some,
        hsound.pollDue_settle_expired hslot hfirst hdue hnext]

/-! ## The idle deadline in force -/

/-- The operation sets the idle expiry of the key. -/
def Rearms (key : K) : Op K P W N D → Prop
  | .transition other _ change _ _ => other = key ∧ change = .headAdmitted
  | .schedule other item => other = key ∧ item.action = .expire .bodyIdle
  | _ => False

/-- The idle expiry of a key with its pending progress. -/
def idle (self : Agenda K P W) (key : K) : Option (Expiry P) :=
  (self.lane key).phases.settle.get .bodyIdle

theorem idle_arm {self : Agenda K P W} {key other : K} (howns : self.Owns other)
    {lane : Lane P W} (hlane : lane.phases.Sound)
    (hidle : ∀ item, lane.phases.settle.get .bodyIdle = some item →
      other = key → ∃ before, self.idle key = some before ∧ before.due ≤ item.due)
    {item : Expiry P} (h : (self.arm other lane).idle key = some item) :
    ∃ before, self.idle key = some before ∧ before.due ≤ item.due := by
  by_cases hkey : key = other
  · subst hkey
    rw [idle, lane_arm howns hlane] at h
    exact hidle item h rfl
  · rw [idle, lane_arm_of_ne howns hkey] at h
    exact ⟨item, h, le_rfl⟩

/-- A step that does not set the idle expiry of a key does not bring it forward. -/
theorem Sound.idle_step {self after : Agenda K P W} (hsound : self.Sound) {op : Op K P W N D}
    {outcome : Outcome K P W} (htimely : op.Timely self)
    (h : self.step op = some (after, outcome)) {key : K} (hrearms : ¬ Rearms key op)
    {item : Expiry P} (hitem : after.idle key = some item) :
    ∃ before, self.idle key = some before ∧ before.due ≤ item.due := by
  cases op with
  | transition other config change now add =>
    rw [Agenda.step, Option.some.injEq] at h
    rcases hsound.tryEntry_settle other with ⟨error, herror, -⟩ | ⟨howns, -, -⟩
    · rw [transition_of_error herror, commit, Prod.mk.injEq] at h
      exact ⟨item, by rw [h.1]; exact hitem, le_rfl⟩
    · rw [hsound.transition_eq howns, commit, Prod.mk.injEq] at h
      obtain ⟨rfl, -⟩ := h
      have hlaneSound := hsound.lane_sound other
      refine idle_arm howns (hlaneSound.apply htimely) ?_ hitem
      rintro item' hitem' rfl
      by_cases hprogress : change = .bodyProgress
      · subst hprogress
        rw [Lane.advance, Timeline.apply, Timeline.settle_progress hlaneSound htimely] at hitem'
        exact Timeline.reschedule_idle hlaneSound htimely hitem'
      · rw [Lane.advance, Timeline.settle_apply hlaneSound hprogress htimely] at hitem'
        have hhead : change ≠ .headAdmitted := fun hchange => hrearms ⟨rfl, hchange⟩
        exact ⟨item', Timeline.apply_idle hhead hprogress hitem', le_rfl⟩
  | schedule other scheduled =>
    rw [Agenda.step, Option.some.injEq] at h
    rcases hsound.tryEntry_settle other with ⟨error, herror, -⟩ | ⟨howns, -, -⟩
    · rw [schedule_of_error herror, commit, Prod.mk.injEq] at h
      exact ⟨item, by rw [h.1]; exact hitem, le_rfl⟩
    · rw [hsound.schedule_eq howns, commit, Prod.mk.injEq] at h
      obtain ⟨rfl, -⟩ := h
      have hlaneSound := hsound.lane_sound other
      refine idle_arm howns (Lane.install_sound hlaneSound _) ?_ hitem
      rintro item' hitem' rfl
      refine ⟨item', ?_, le_rfl⟩
      rcases scheduled with ⟨due, phase | reason⟩
      · rw [Lane.install_expire] at hitem'
        have hphase : phase ≠ .bodyIdle := by
          rintro rfl
          exact hrearms ⟨rfl, rfl⟩
        have hadmits : phase = .bodyIdle → (self.lane other).phases.AdmitsIdle due :=
          fun hidle => absurd hidle hphase
        rw [Timeline.settle_insert hlaneSound hadmits] at hitem'
        exact Timeline.insert_idle hphase hitem'
      · rw [Lane.install_wake] at hitem'
        exact hitem'
  | cancel other =>
    rw [Agenda.step, Option.some.injEq, Prod.mk.injEq] at h
    obtain ⟨rfl, -⟩ := h
    rcases hsound.tryEntry_settle other with ⟨error, herror, -⟩ | ⟨howns, -, -⟩
    · rw [cancel_of_error herror] at hitem
      exact ⟨item, hitem, le_rfl⟩
    · rw [cancel_eq howns] at hitem
      refine idle_arm howns Timeline.sound_empty ?_ hitem
      rintro item' hitem' rfl
      rw [Lane.empty, Timeline.settle_empty] at hitem'
      contradiction
  | cancelOne other action =>
    rw [Agenda.step, Option.some.injEq, Prod.mk.injEq] at h
    obtain ⟨rfl, -⟩ := h
    rcases hsound.tryEntry_settle other with ⟨error, herror, -⟩ | ⟨howns, -, -⟩
    · rw [cancelOne_of_error herror] at hitem
      exact ⟨item, hitem, le_rfl⟩
    · rw [hsound.cancelOne_eq howns] at hitem
      have hlaneSound := hsound.lane_sound other
      refine idle_arm howns (Lane.drop_sound hlaneSound action) ?_ hitem
      rintro item' hitem' rfl
      have hdrop := congrArg Lane.phases (Lane.settle_drop hlaneSound action)
      rw [show ((self.lane other).drop action).phases.settle = _ from hdrop] at hitem'
      exact ⟨item', Lane.drop_idle hitem', le_rfl⟩
  | pollDue now choice =>
    rw [Agenda.step, Option.map_eq_some_iff] at h
    obtain ⟨⟨poll, after'⟩, hpoll, hout⟩ := h
    obtain ⟨rfl, rfl⟩ := Prod.mk.inj hout
    rcases hsound.pollDue_cases hpoll with ⟨rfl, rfl, rfl, hidle⟩ |
      ⟨i, slot, rfl, hslot, rfl, -, rfl⟩ |
      ⟨i, slot, rfl, hslot, hfirst, hdue, hnext, rfl, rfl⟩
    · exact ⟨item, hitem, le_rfl⟩
    · obtain ⟨-, howns⟩ := hsound.lane_key hslot
      have hlaneSound := hsound.lane_sound slot.key
      refine idle_arm howns hlaneSound.settle_sound ?_ hitem
      rintro item' hitem' rfl
      rw [Lane.settle, Timeline.settle_settle] at hitem'
      exact ⟨item', hitem', le_rfl⟩
    · obtain ⟨-, howns⟩ := hsound.lane_key hslot
      have hlaneSound := hsound.lane_sound slot.key
      have hget := (hsound.lane_priority hslot).2.isSome_get
      refine idle_arm howns (Lane.retire_sound hlaneSound hget) ?_ hitem
      rintro item' hitem' rfl
      have hretire := congrArg Lane.phases (Lane.settle_retire hlaneSound hget)
      rw [show ((self.lane slot.key).retire _).phases.settle = _ from hretire] at hitem'
      exact ⟨item', Lane.retire_idle hitem', le_rfl⟩

/-! ## Whole runs -/

/-- The operations of a run that are not renewing polls, with their answers. -/
def kept (ops : List (Op K P W N D)) (outcomes : List (Outcome K P W)) :
    List (Op K P W N D × Outcome K P W) :=
  (ops.zip outcomes).filter fun pair => pair.2 ≠ .polled .renewed

/-- A run keeps the agenda sound and is, without its renewing polls, a run of the settled agenda
that reschedules at every progress. -/
theorem Sound.run {self last : Agenda K P W} (hsound : self.Sound) {ops : List (Op K P W N D)}
    {outcomes : List (Outcome K P W)} (htimely : self.TimelyRun ops)
    (h : self.run ops = some (last, outcomes)) :
    last.Sound ∧ self.settle.eagerRun ((kept ops outcomes).map Prod.fst) =
      some (last.settle, (kept ops outcomes).map Prod.snd) := by
  induction ops generalizing self outcomes with
  | nil =>
    obtain ⟨rfl, rfl⟩ := Prod.mk.inj (Option.some.inj h)
    exact ⟨hsound, rfl⟩
  | cons op ops ih =>
    obtain ⟨after, outcome, rest, hstep, hrun, rfl⟩ := run_cons_eq_some_iff.mp h
    obtain ⟨hafter, hstepEager⟩ := hsound.step htimely.1 hstep
    obtain ⟨hlast, heager⟩ := ih hafter (htimely.2 after outcome hstep) hrun
    refine ⟨hlast, ?_⟩
    rcases hstepEager with ⟨rfl, hsame⟩ | ⟨hne, heagerStep⟩
    · have hkept : kept (op :: ops) (.polled .renewed :: rest) = kept ops rest := by simp [kept]
      rw [hkept, ← hsame, heager]
    · have hkept : kept (op :: ops) (outcome :: rest) = (op, outcome) :: kept ops rest := by
        simp [kept, hne]
      rw [hkept, List.map_cons, List.map_cons, eagerRun, heagerStep]
      simp only [Option.bind_some, heager, Option.map_some]

theorem Sound.idle_run {self last : Agenda K P W} (hsound : self.Sound)
    {ops : List (Op K P W N D)} {outcomes : List (Outcome K P W)} (htimely : self.TimelyRun ops)
    (h : self.run ops = some (last, outcomes)) {key : K} (hrearms : ∀ op ∈ ops, ¬ Rearms key op)
    {item : Expiry P} (hitem : last.idle key = some item) :
    ∃ before, self.idle key = some before ∧ before.due ≤ item.due := by
  induction ops generalizing self outcomes with
  | nil =>
    obtain ⟨rfl, rfl⟩ := Prod.mk.inj (Option.some.inj h)
    exact ⟨item, hitem, le_rfl⟩
  | cons op ops ih =>
    obtain ⟨after, outcome, rest, hstep, hrun, rfl⟩ := run_cons_eq_some_iff.mp h
    obtain ⟨hafter, -⟩ := hsound.step htimely.1 hstep
    obtain ⟨middle, hmiddle, hle⟩ := ih hafter (htimely.2 after outcome hstep) hrun
      fun op hop => hrearms op (List.mem_cons_of_mem _ hop)
    obtain ⟨before, hbefore, hle'⟩ :=
      hsound.idle_step htimely.1 hstep (hrearms op List.mem_cons_self) hmiddle
    exact ⟨before, hbefore, hle'.trans hle⟩

theorem run_append {self last : Agenda K P W} {first second : List (Op K P W N D)}
    {outcomes : List (Outcome K P W)} (h : self.run (first ++ second) = some (last, outcomes)) :
    ∃ middle earlier later, self.run first = some (middle, earlier) ∧
      middle.run second = some (last, later) ∧ outcomes = earlier ++ later := by
  induction first generalizing self outcomes with
  | nil => exact ⟨self, [], outcomes, rfl, h, rfl⟩
  | cons op ops ih =>
    obtain ⟨after, outcome, rest, hstep, hrun, rfl⟩ := run_cons_eq_some_iff.mp h
    obtain ⟨middle, earlier, later, hfirst, hsecond, rfl⟩ := ih hrun
    exact ⟨middle, outcome :: earlier, later,
      run_cons_eq_some_iff.mpr ⟨after, outcome, earlier, hstep, hfirst, rfl⟩, hsecond, rfl⟩

theorem TimelyRun.append {self middle : Agenda K P W} {first second : List (Op K P W N D)}
    {outcomes : List (Outcome K P W)} (h : self.TimelyRun (first ++ second))
    (hrun : self.run first = some (middle, outcomes)) :
    self.TimelyRun first ∧ middle.TimelyRun second := by
  induction first generalizing self outcomes with
  | nil =>
    obtain ⟨rfl, rfl⟩ := Prod.mk.inj (Option.some.inj hrun)
    exact ⟨trivial, h⟩
  | cons op ops ih =>
    obtain ⟨after, outcome, rest, hstep, hrest, rfl⟩ := run_cons_eq_some_iff.mp hrun
    refine ⟨⟨h.1, fun after' outcome' hstep' => ?_⟩, (ih (h.2 after outcome hstep) hrest).2⟩
    obtain ⟨rfl, rfl⟩ := Prod.mk.inj (Option.some.inj (hstep.symm.trans hstep'))
    exact (ih (h.2 after outcome hstep) hrest).1

/-- After a progress the idle deadline of the key, if there is one, is not before the instant that
the progress computed. -/
theorem Sound.idle_progress {self after : Agenda K P W} (hsound : self.Sound) {key : K}
    {config : Config D} {now : N} {add : N → D → P} {due : P}
    (hdue : Timeline.instant config .bodyIdle now add = some due)
    (htimely : (self.lane key).phases.Admits config .bodyProgress now add)
    {outcome : Outcome K P W}
    (h : self.step (.transition key config .bodyProgress now add) = some (after, outcome))
    {item : Expiry P} (hitem : after.idle key = some item) : due ≤ item.due := by
  rw [Agenda.step, Option.some.injEq] at h
  rcases hsound.tryEntry_settle key with ⟨error, herror, -⟩ | ⟨howns, -, -⟩
  · -- a key without a slot has no idle expiry
    rw [transition_of_error herror, commit, Prod.mk.injEq] at h
    obtain ⟨rfl, -⟩ := h
    have hlane : self.lane key = .empty := by
      rw [lane]
      rw [tryEntry] at herror
      split at herror <;> simp_all
    rw [idle, hlane, Lane.empty, Timeline.settle_empty] at hitem
    contradiction
  · rw [hsound.transition_eq howns, commit, Prod.mk.injEq] at h
    obtain ⟨rfl, -⟩ := h
    have hlaneSound := hsound.lane_sound key
    rw [idle, lane_arm howns (hlaneSound.apply htimely), Lane.advance, Timeline.apply,
      Timeline.settle_progress hlaneSound htimely, Timeline.reschedule, hdue] at hitem
    split_ifs at hitem with hsome
    · rw [Timeline.insertAt, Timeline.insert_of_none rfl, Timeline.set_of_lane _ rfl,
        Timeline.get_eq_some_iff] at hitem
      exact (congrArg Expiry.due (Option.some.inj hitem.1)).le
    · simp [hitem] at hsome

/-! ## Every armed entry expires at most once -/

/-- The key has an item for the action. -/
def holds (self : Agenda K P W) (key : K) (action : Action W) : Bool :=
  ((self.lane key).get action).isSome

/-- The answer is an expiry of the key's action. -/
def expires (key : K) (action : Action W) : Outcome K P W → Bool
  | .polled (.expired item) => item.key = key ∧ item.scheduled.action = action
  | _ => false

/-- How often a run arms the action of a key that was not armed. -/
def armings (key : K) (action : Action W) (self : Agenda K P W) : List (Op K P W N D) → ℕ
  | [] => 0
  | op :: ops =>
    match self.step op with
    | none => 0
    | some (after, _) =>
      (if !self.holds key action && after.holds key action then 1 else 0) +
        armings key action after ops

theorem Sound.expires_step {self after : Agenda K P W} (hsound : self.Sound) {op : Op K P W N D}
    {outcome : Outcome K P W} (h : self.step op = some (after, outcome)) {key : K}
    {action : Action W} (hexpires : expires key action outcome = true) :
    self.holds key action = true ∧ after.holds key action = false := by
  -- only a poll answers with an expiry
  cases op with
  | transition other config change now add =>
    rw [Agenda.step, Option.some.injEq] at h
    cases htransition : self.transition other config change now add <;>
      simp only [htransition, commit, Prod.mk.injEq] at h <;> simp [← h.2, expires] at hexpires
  | schedule other item =>
    rw [Agenda.step, Option.some.injEq] at h
    cases hschedule : self.schedule other item <;>
      simp only [hschedule, commit, Prod.mk.injEq] at h <;> simp [← h.2, expires] at hexpires
  | cancel other =>
    rw [Agenda.step, Option.some.injEq, Prod.mk.injEq] at h
    simp [← h.2, expires] at hexpires
  | cancelOne other item =>
    rw [Agenda.step, Option.some.injEq, Prod.mk.injEq] at h
    simp [← h.2, expires] at hexpires
  | pollDue now choice =>
    rw [Agenda.step, Option.map_eq_some_iff] at h
    obtain ⟨⟨poll, after'⟩, hpoll, hout⟩ := h
    obtain ⟨rfl, rfl⟩ := Prod.mk.inj hout
    rcases hsound.pollDue_cases hpoll with ⟨rfl, rfl, rfl, hidle⟩ |
      ⟨i, slot, rfl, hslot, rfl, -, rfl⟩ |
      ⟨i, slot, rfl, hslot, hfirst, hdue, hnext, rfl, rfl⟩
    · simp [expires] at hexpires
    · simp [expires] at hexpires
    · obtain ⟨rfl, rfl⟩ := of_decide_eq_true hexpires
      obtain ⟨-, howns⟩ := hsound.lane_key hslot
      have harmed := (hsound.lane_priority hslot).2
      refine ⟨harmed.isSome_get, ?_⟩
      rw [holds, lane_arm howns (Lane.retire_sound (hsound.lane_sound _) harmed.isSome_get),
        Bool.eq_false_iff]
      intro hsome
      obtain ⟨item, hitem⟩ := Option.isSome_iff_exists.mp hsome
      obtain ⟨haction, hafter⟩ := Lane.armed_of_get hitem
      exact ((Lane.armed_retire_iff harmed.isSome_get).mp hafter).2 haction

theorem Sound.expires_run {self last : Agenda K P W} (hsound : self.Sound)
    {ops : List (Op K P W N D)} {outcomes : List (Outcome K P W)} (htimely : self.TimelyRun ops)
    (h : self.run ops = some (last, outcomes)) (key : K) (action : Action W) :
    outcomes.countP (expires key action) + (last.holds key action).toNat ≤
      armings key action self ops + (self.holds key action).toNat := by
  induction ops generalizing self outcomes with
  | nil =>
    obtain ⟨rfl, rfl⟩ := Prod.mk.inj (Option.some.inj h)
    simp [armings]
  | cons op ops ih =>
    obtain ⟨after, outcome, rest, hstep, hrun, rfl⟩ := run_cons_eq_some_iff.mp h
    obtain ⟨hafter, -⟩ := hsound.step htimely.1 hstep
    have hrest := ih hafter (htimely.2 after outcome hstep) hrun
    rw [List.countP_cons, armings, hstep]
    simp only
    by_cases hexpires : expires key action outcome = true
    · obtain ⟨hbefore, hgone⟩ := hsound.expires_step hstep hexpires
      rw [hgone] at hrest
      simp only [hexpires, hbefore, hgone, if_true, Bool.toNat_true, Bool.toNat_false] at hrest ⊢
      simp only [Bool.not_true, Bool.and_self, Bool.false_eq_true, if_false]
      omega
    · cases hbefore : self.holds key action <;> cases hnow : after.holds key action <;>
        simp [hexpires, hnow] at hrest ⊢ <;> omega

end Agenda

end Sark.Deadline
