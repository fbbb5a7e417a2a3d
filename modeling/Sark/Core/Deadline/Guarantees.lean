import Sark.Core.Deadline.Runs

/-!
# What the deadline agenda guarantees

Popping drains the renewals of an agenda until something expires or nothing is due. It ends, since
every renewal takes a pending progress away. On a single key the agenda and a timeline give the
same answers, although the timeline looks for pending progress whatever item is due and the agenda
only when it is the idle expiry.

* `Agenda.Sound.acc_renews`: popping ends.
* `Agenda.Single.answers_eq`: agenda and timeline agree on a single key.
* `Agenda.run_keepsTime`: what holds after every run whose steps respect the idle deadlines.
-/

set_option linter.unusedSectionVars false

namespace Sark.Deadline

open ResidentHeap

namespace Agenda

variable {K P W N D : Type*} [DecidableEq K] [Indexed K] [LinearOrder P] [LinearOrder W]

/-! ## Popping -/

/-- A poll renewed an entry. -/
def Renews (now : P) (after before : Agenda K P W) : Prop :=
  ∃ choice, before.pollDue now choice = some (.renewed, after)

/-- `Book::pop_due`: polls until something expires or nothing is due. -/
inductive PopDue (now : P) : Agenda K P W → Option (Expired K P W) → Agenda K P W → Prop where
  | idle {before after choice} (h : before.pollDue now choice = some (.idle, after)) :
    PopDue now before none after
  | expired {before after choice item} (h : before.pollDue now choice = some (.expired item, after)) :
    PopDue now before (some item) after
  | renewed {before middle after answer} (h : Renews now middle before)
    (hrest : PopDue now middle answer after) : PopDue now before answer after

/-- The slot has a pending progress. -/
def isPending (found : Option (Slot K (Scheduled P W) (Lane P W))) : Bool :=
  found.any fun slot => slot.resident.phases.bodyProgress.isSome

/-- The number of pending progresses. -/
def pending (self : Agenda K P W) : ℕ := self.heap.slots.countP isPending

theorem Sound.of_pollDue {self after : Agenda K P W} (hsound : self.Sound) {now : P}
    {choice : Option ℕ} {poll : Poll (Expired K P W)}
    (h : self.pollDue now choice = some (poll, after)) : after.Sound := by
  -- the types of the clock and of the windows play no part in a poll
  have hstep : self.step (.pollDue now choice : Op K P W Unit Unit) = some (after, .polled poll) := by
    rw [Agenda.step, h]
    rfl
  have htimely : Op.Timely self (.pollDue now choice : Op K P W Unit Unit) := trivial
  exact (hsound.step htimely hstep).1

theorem Sound.pending_of_renews {self after : Agenda K P W} (hsound : self.Sound) {now : P}
    (h : Renews now after self) : after.pending < self.pending := by
  obtain ⟨choice, hpoll⟩ := h
  rcases hsound.pollDue_cases hpoll with ⟨h, -⟩ | ⟨i, slot, rfl, hslot, -, hprogress, rfl⟩ |
    ⟨_, _, _, _, _, _, _, h, -⟩
  · contradiction
  · have hindex := hsound.index i slot hslot
    have hlane := (hsound.lane_key hslot).1
    obtain ⟨hi, hget⟩ := List.getElem?_eq_some_iff.mp hslot
    have hbefore : isPending self.heap.slots[i] = true := by
      rw [hget]
      rw [hlane] at hprogress
      exact hprogress
    have hafter : isPending (Agenda.slot slot.key (self.lane slot.key).settle) = false := by
      cases hfound : Agenda.slot slot.key (self.lane slot.key).settle with
      | none => rfl
      | some found =>
        rw [isPending, Option.any_some, (slot_eq_some hfound).2.1]
        rfl
    have hpos : 0 < self.heap.slots.countP isPending :=
      List.countP_pos_iff.mpr ⟨_, List.getElem_mem hi, hbefore⟩
    rw [pending, pending, Agenda.arm, Heap.put, hindex, List.countP_set hi, hbefore, hafter]
    simp only [if_true, Bool.false_eq_true, if_false]
    omega
  · contradiction

theorem Sound.acc_renews {self : Agenda K P W} (hsound : self.Sound) (now : P) :
    Acc (Renews now) self := by
  induction hpending : self.pending using Nat.strong_induction_on generalizing self with
  | _ n ih =>
    refine ⟨_, fun after hafter => ?_⟩
    subst hpending
    obtain ⟨choice, hpoll⟩ := hafter
    exact ih _ (hsound.pending_of_renews ⟨choice, hpoll⟩) (hsound.of_pollDue hpoll) rfl

theorem Sound.exists_popDue {self : Agenda K P W} (hsound : self.Sound) (now : P) :
    ∃ answer after, PopDue now self answer after := by
  induction hsound.acc_renews now with
  | _ self _ ih =>
    obtain ⟨choice, answer, hfirst⟩ :=
      self.heap.exists_firstEntryIf fun priority => !decide (now < priority.due)
    have hpoll : ∃ poll after, self.pollDue now choice = some (poll, after) := by
      cases answer with
      | none => exact ⟨.idle, self, by rw [pollDue, hfirst]⟩
      | some slot =>
        rw [pollDue_of_first hfirst]
        split_ifs
        · exact ⟨_, _, rfl⟩
        · exact ⟨_, _, rfl⟩
    obtain ⟨poll, after, hpoll⟩ := hpoll
    cases poll with
    | idle => exact ⟨none, after, .idle hpoll⟩
    | expired item => exact ⟨some item, after, .expired hpoll⟩
    | renewed =>
      obtain ⟨answer, last, hrest⟩ := ih after ⟨choice, hpoll⟩ (hsound.of_pollDue hpoll)
      exact ⟨answer, last, .renewed ⟨choice, hpoll⟩ hrest⟩

/-! ## A single key -/

/-- An operation that a timeline has as well. -/
inductive Single (P N D : Type*) where
  | transition (config : Config D) (change : Transition) (now : N) (add : N → D → P)
  | popDue (now : P)

namespace Single

/-- The answers of a timeline, one for each pop. -/
def timeline (self : Timeline P) : List (Single P N D) → List (Option (Expiry P))
  | [] => []
  | .transition config change now add :: rest =>
    timeline (self.transition config change now add).1 rest
  | .popDue now :: rest => (self.popDue now).1 :: timeline (self.popDue now).2 rest

/-- The answers of an agenda on which only one key is used. -/
inductive Answers (key : K) :
    Agenda K P W → List (Single P N D) → List (Option (Expired K P W)) → Prop where
  | nil {agenda} : Answers key agenda [] []
  | transition {agenda after config change now add rest answers}
    (h : agenda.transition key config change now add = .ok after)
    (hrest : Answers key after rest answers) :
    Answers key agenda (.transition config change now add :: rest) answers
  | popDue {agenda after now answer rest answers} (h : PopDue now agenda answer after)
    (hrest : Answers key after rest answers) :
    Answers key agenda (.popDue now :: rest) (answer :: answers)

/-- Every transition respects the idle deadline of the agenda and of the timeline. -/
def Timely (key : K) : List (Single P N D) → Agenda K P W → Timeline P → Prop
  | [], _, _ => True
  | .transition config change now add :: rest, agenda, timeline =>
    (agenda.lane key).phases.Admits config change now add ∧
      timeline.Admits config change now add ∧
      ∀ after, agenda.transition key config change now add = .ok after →
        Timely key rest after (timeline.transition config change now add).1
  | .popDue now :: rest, agenda, timeline =>
    ∀ answer after, PopDue now agenda answer after →
      Timely key rest after (timeline.popDue now).2

/-- The agenda holds the lane of the key and no other, and the lane is the timeline up to pending
progress. -/
structure Alike (key : K) (agenda : Agenda K P W) (timeline : Timeline P) : Prop where
  sound : agenda.Sound
  owns : agenda.Owns key
  only : ∀ (i : ℕ) (slot : Slot K (Scheduled P W) (Lane P W)),
    agenda.heap.slots[i]? = some (some slot) → slot.key = key
  wake : (agenda.lane key).wake = none
  timelineSound : timeline.Sound
  phases : (agenda.lane key).phases.settle = timeline.settle

/-- Arming the key with a lane that is the new timeline keeps the agenda and the timeline alike. -/
theorem Alike.arm {key : K} {agenda : Agenda K P W} {timeline after : Timeline P}
    (h : Alike key agenda timeline) {lane : Lane P W} (hlane : lane.phases.Sound)
    (hwake : lane.wake = none) (hafter : after.Sound)
    (hphases : lane.phases.settle = after.settle) : Alike key (agenda.arm key lane) after where
  sound := h.sound.arm h.owns hlane
  owns := owns_arm h.owns lane
  only i slot hi := by
    rw [slots_arm h.owns] at hi
    split_ifs at hi
    · exact (slot_eq_some (Option.some.inj hi)).1
    · exact h.only i slot hi
  wake := by rw [lane_arm h.owns hlane, hwake]
  timelineSound := hafter
  phases := by rw [lane_arm h.owns hlane, hphases]

theorem Alike.transition {key : K} {agenda : Agenda K P W} {timeline : Timeline P}
    (h : Alike key agenda timeline) {config : Config D} {change : Transition} {now : N}
    {add : N → D → P} (hagenda : (agenda.lane key).phases.Admits config change now add)
    (htimeline : timeline.Admits config change now add) :
    Alike key (agenda.arm key ((agenda.lane key).advance config change now add))
      (timeline.transition config change now add).1 := by
  have hlane := h.sound.lane_sound key
  refine h.arm (hlane.apply hagenda) ?_ (h.timelineSound.apply htimeline) ?_
  · rw [Lane.advance, h.wake, ite_self]
  · by_cases hprogress : change = .bodyProgress
    · subst hprogress
      rw [Lane.advance, Timeline.transition, Timeline.apply, Timeline.apply,
        Timeline.settle_progress hlane hagenda,
        Timeline.settle_progress h.timelineSound htimeline, h.phases]
    · rw [Lane.advance, Timeline.transition, Timeline.settle_apply hlane hprogress hagenda,
        Timeline.settle_apply h.timelineSound hprogress htimeline, h.phases]

theorem next_of_wake_none {lane : Lane P W} (h : lane.wake = none) :
    lane.next = lane.phases.next.map fun item => .expire item.due item.phase := by
  rw [Lane.next, h]
  cases lane.phases.next with
  | none => rfl
  | some item => rfl

/-- An expiry of a timeline as the agenda reports it. -/
def report (key : K) (item : Expiry P) : Expired K P W := ⟨key, .expire item.due item.phase⟩

theorem Alike.congr {key : K} {agenda : Agenda K P W} {timeline other : Timeline P}
    (h : Alike key agenda timeline) (hother : other.Sound)
    (hsettle : other.settle = timeline.settle) : Alike key agenda other :=
  { h with timelineSound := hother, phases := h.phases.trans hsettle.symm }

theorem Alike.due_eq_none {key : K} {agenda : Agenda K P W} {timeline : Timeline P} {now : P}
    (h : Alike key agenda timeline)
    (hidle : ∀ slot ∈ agenda.heap.occupants, now < slot.priority.due) :
    timeline.settle.due now = none := by
  rw [← h.phases, Option.eq_none_iff_forall_ne_some]
  intro item hitem
  obtain ⟨hnext, hdue⟩ := Timeline.due_eq_some_iff.mp hitem
  have hlane := h.sound.lane_sound key
  have hsettle : (agenda.lane key).settle.phases.Sound := hlane.settle_sound
  -- the stored first item comes no later than the settled one
  have hfirst : (agenda.lane key).settle.next = some (.expire item.due item.phase) := by
    rw [next_of_wake_none (show (agenda.lane key).settle.wake = none from h.wake)]
    exact congrArg _ hnext
  obtain ⟨stored, hstored, -, hle⟩ :=
    Lane.le_settle hlane ((Lane.next_eq_some_iff hsettle).mp hfirst).1
  obtain ⟨first, hfirst, hfirstLe⟩ := Lane.exists_next hlane hstored
  obtain ⟨slot, hslot, -, rfl⟩ := h.sound.slot_of_next hfirst
  have hlate := hidle slot hslot
  have hearly : slot.priority.due ≤ item.due := Scheduled.due_le_of_le (hfirstLe.trans hle)
  exact absurd (hearly.trans hdue) (not_le.mpr hlate)

/-- Popping an agenda of a single key takes the first due item of the settled timeline away. -/
theorem Alike.popDue {key : K} {agenda after : Agenda K P W} {timeline : Timeline P} {now : P}
    {answer : Option (Expired K P W)} (h : Alike key agenda timeline)
    (hpop : PopDue now agenda answer after) :
    answer = (timeline.settle.due now).map (report key) ∧
      Alike key after (timeline.settle.expire now) := by
  have hsettled : (timeline.settle.expire now).settle = timeline.settle.expire now :=
    Timeline.settle_of_none (Timeline.expire_bodyProgress rfl now)
  have hexpire : (timeline.settle.expire now).Sound := h.timelineSound.settle_sound.expire_sound now
  induction hpop with
  | idle hpoll =>
    rcases h.sound.pollDue_cases hpoll with ⟨-, -, rfl, hidle⟩ | ⟨_, _, _, _, hresult, -⟩ |
      ⟨_, _, _, _, _, _, _, hresult, -⟩
    · have hnone := h.due_eq_none hidle
      refine ⟨by rw [hnone]; rfl, h.congr hexpire ?_⟩
      rw [hsettled, Timeline.expire, hnone]
    · contradiction
    · contradiction
  | @expired before after choice expired hpoll =>
    rcases h.sound.pollDue_cases hpoll with ⟨hresult, -⟩ | ⟨_, _, _, _, hresult, -⟩ |
      ⟨i, slot, -, hslot, -, hdue, hnext, hresult, rfl⟩
    · contradiction
    · contradiction
    · obtain rfl := h.only i slot hslot
      have hlane := h.sound.lane_sound slot.key
      have hget := (h.sound.lane_priority hslot).2.isSome_get
      rw [next_of_wake_none (show (_ : Lane P W).settle.wake = none from h.wake),
        Option.map_eq_some_iff] at hnext
      obtain ⟨item, hitem, hpriority⟩ := hnext
      rw [show (_ : Lane P W).settle.phases = _ from h.phases] at hitem
      have hfirst : timeline.settle.due now = some item :=
        Timeline.due_eq_some_iff.mpr ⟨hitem, by rw [← hpriority] at hdue; exact hdue⟩
      refine ⟨?_, h.arm (Lane.retire_sound hlane hget) ?_ hexpire ?_⟩
      · rw [hfirst, Option.map_some, report, hpriority]
        exact congrArg some (Poll.expired.inj hresult)
      · rw [← hpriority]
        exact h.wake
      · have hretire := congrArg Lane.phases (Lane.settle_retire hlane hget)
        rw [show ((before.lane slot.key).retire _).phases.settle = _ from hretire, ← hpriority,
          hsettled, Timeline.expire, hfirst, ← h.phases]
        rfl
  | renewed hrenews _ ih =>
    obtain ⟨choice, hpoll⟩ := hrenews
    rcases h.sound.pollDue_cases hpoll with ⟨hresult, -⟩ | ⟨i, slot, -, hslot, -, -, rfl⟩ |
      ⟨_, _, _, _, _, _, _, hresult, -⟩
    · contradiction
    · obtain rfl := h.only i slot hslot
      refine ih (h.arm (h.sound.lane_sound slot.key).settle_sound h.wake h.timelineSound ?_)
      rw [Lane.settle, Timeline.settle_settle, h.phases]
    · contradiction

theorem Alike.answers_eq {key : K} {agenda : Agenda K P W} {timeline : Timeline P}
    {script : List (Single P N D)} {answers : List (Option (Expired K P W))}
    (h : Alike key agenda timeline) (htimely : Timely key script agenda timeline)
    (hanswers : Answers key agenda script answers) :
    answers = (Single.timeline timeline script).map (Option.map (report key)) := by
  induction hanswers generalizing timeline with
  | nil => rfl
  | @transition agenda after config change now add rest answers htransition _ ih =>
    obtain ⟨hagenda, htimeline, hrest⟩ := htimely
    have heq := h.sound.transition_eq h.owns config change now add
    rw [htransition, Except.ok.injEq] at heq
    refine ih ?_ (hrest _ htransition)
    rw [heq]
    exact h.transition hagenda htimeline
  | popDue hpop _ ih =>
    obtain ⟨hanswer, halike⟩ := h.popDue hpop
    obtain ⟨hfirst, hsettle, hsound⟩ := Timeline.popDue_eq h.timelineSound _
    rw [Single.timeline, List.map_cons, hfirst, ← hanswer]
    refine congrArg _ (ih (halike.congr hsound ?_) (htimely _ _ hpop))
    rw [hsettle, Timeline.settle_of_none (Timeline.expire_bodyProgress rfl _)]

theorem Alike.exists_answers {key : K} {agenda : Agenda K P W} {timeline : Timeline P}
    {script : List (Single P N D)} (h : Alike key agenda timeline)
    (htimely : Timely key script agenda timeline) : ∃ answers, Answers key agenda script answers := by
  induction script generalizing agenda timeline with
  | nil => exact ⟨[], .nil⟩
  | cons op rest ih =>
    cases op with
    | transition config change now add =>
      obtain ⟨hagenda, htimeline, hrest⟩ := htimely
      have heq := h.sound.transition_eq h.owns config change now add
      obtain ⟨answers, hanswers⟩ := ih (h.transition hagenda htimeline) (hrest _ heq)
      exact ⟨answers, .transition heq hanswers⟩
    | popDue now =>
      obtain ⟨answer, after, hpop⟩ := h.sound.exists_popDue now
      obtain ⟨-, hsettle, hsound⟩ := Timeline.popDue_eq h.timelineSound now
      have halike := (h.popDue hpop).2.congr hsound (by
        rw [hsettle, Timeline.settle_of_none (Timeline.expire_bodyProgress rfl _)])
      obtain ⟨answers, hanswers⟩ := ih halike (htimely answer after hpop)
      exact ⟨answer :: answers, .popDue hpop hanswers⟩

theorem alike_new {key : K} {capacity : ℕ} (h : Indexed.index key < capacity) :
    Alike key (new capacity : Agenda K P W) .empty where
  sound := sound_new capacity
  owns := owns_iff.mpr ⟨none, by simp [new, Heap.new, h], by simp⟩
  only i slot hi := by
    simp only [new, Heap.new, List.getElem?_replicate] at hi
    split_ifs at hi
    simp at hi
  wake := by rw [lane_new]; rfl
  timelineSound := Timeline.sound_empty
  phases := by rw [lane_new]; rfl

end Single

/-! ## The guarantees -/

/-- What an agenda guarantees after a run. -/
structure KeepsTime (capacity : ℕ) (ops : List (Op K P W N D)) (outcomes : List (Outcome K P W))
    (agenda : Agenda K P W) : Prop where
  /-- The priority of a key is the least of its items. -/
  priority : ∀ key item, agenda.priority key = some item ↔
    (agenda.lane key).Armed item ∧ ∀ other, (agenda.lane key).Armed other → item ≤ other
  /-- A key without items has no priority. -/
  absent : ∀ key, agenda.priority key = none ↔ ∀ item, ¬ (agenda.lane key).Armed item
  /-- A poll gives an item of its key when it is due, before every other item of the key. -/
  due : ∀ now choice expired after, agenda.pollDue now choice = some (.expired expired, after) →
    expired.scheduled.due ≤ now ∧ (agenda.lane expired.key).Armed expired.scheduled ∧
      (∀ item, (agenda.lane expired.key).settle.Armed item → expired.scheduled ≤ item) ∧
      after.holds expired.key expired.scheduled.action = false
  /-- No entry expires more often than it was armed. -/
  once : ∀ key action,
    outcomes.countP (expires key action) ≤ armings key action (new capacity : Agenda K P W) ops
  /-- No idle expiry is given before the instant of the latest progress. -/
  idle : ∀ earlier later key config now add due,
    ops = earlier ++ .transition key config .bodyProgress now add :: later →
    Timeline.instant config .bodyIdle now add = some due → (∀ op ∈ later, ¬ Rearms key op) →
    ∀ now' choice item after,
      agenda.pollDue now' choice = some (.expired ⟨key, ⟨item, .expire .bodyIdle⟩⟩, after) →
      due ≤ now'
  /-- The answers are those of rescheduling at every progress, renewals left out. -/
  eager : (new capacity : Agenda K P W).eagerRun ((kept ops outcomes).map Prod.fst) =
    some (agenda.settle, (kept ops outcomes).map Prod.snd)
  /-- No transition that goes on with an exchange moves its total. -/
  total : ∀ key (config : Config D) change (now : N) (add : N → D → P) after total,
    change ≠ .awaitingHead → change ≠ .retired →
    agenda.transition key config change now add = .ok after →
    (agenda.lane key).phases.get .total = some total →
    (after.lane key).phases.get .total = some total
  /-- Popping ends, with an answer. -/
  pops : ∀ now, Acc (Renews now) agenda ∧ ∃ answer after, PopDue now agenda answer after

theorem Sound.priority_eq_some_iff {self : Agenda K P W} (h : self.Sound) {key : K}
    {item : Scheduled P W} :
    self.priority key = some item ↔
      (self.lane key).Armed item ∧ ∀ other, (self.lane key).Armed other → item ≤ other := by
  rw [h.priority_eq, Lane.next_eq_some_iff (h.lane_sound key)]

theorem Sound.priority_eq_none_iff {self : Agenda K P W} (h : self.Sound) {key : K} :
    self.priority key = none ↔ ∀ item, ¬ (self.lane key).Armed item := by
  rw [h.priority_eq]
  constructor
  · intro hnone item harmed
    obtain ⟨first, hfirst, -⟩ := Lane.exists_next (h.lane_sound key) harmed
    rw [hnone] at hfirst
    contradiction
  · intro hnot
    rw [Option.eq_none_iff_forall_ne_some]
    intro item hitem
    exact hnot item ((Lane.next_eq_some_iff (h.lane_sound key)).mp hitem).1

theorem Sound.due_of_pollDue {self after : Agenda K P W} (h : self.Sound) {now : P}
    {choice : Option ℕ} {expired : Expired K P W}
    (hpoll : self.pollDue now choice = some (.expired expired, after)) :
    expired.scheduled.due ≤ now ∧ (self.lane expired.key).Armed expired.scheduled ∧
      (∀ item, (self.lane expired.key).settle.Armed item → expired.scheduled ≤ item) ∧
      after.holds expired.key expired.scheduled.action = false := by
  have hstep : self.step (.pollDue now choice : Op K P W Unit Unit) =
      some (after, .polled (.expired expired)) := by
    rw [Agenda.step, hpoll]
    rfl
  have hexpires : expires expired.key expired.scheduled.action
      (.polled (.expired expired) : Outcome K P W) = true := by
    simp [expires]
  have hgone := (h.expires_step hstep hexpires).2
  rcases h.pollDue_cases hpoll with ⟨hresult, -⟩ | ⟨_, _, _, _, hresult, -⟩ |
    ⟨i, slot, -, hslot, -, hdue, hnext, hresult, -⟩
  · contradiction
  · contradiction
  · obtain rfl := Poll.expired.inj hresult
    have hsettle : (self.lane slot.key).settle.phases.Sound := (h.lane_sound slot.key).settle_sound
    exact ⟨hdue, (h.lane_priority hslot).2, ((Lane.next_eq_some_iff hsettle).mp hnext).2, hgone⟩

theorem Sound.idle_of_pollDue {self after : Agenda K P W} (h : self.Sound) {now due : P}
    {choice : Option ℕ} {key : K}
    (hpoll : self.pollDue now choice = some (.expired ⟨key, ⟨due, .expire .bodyIdle⟩⟩, after)) :
    self.idle key = some ⟨due, .bodyIdle⟩ ∧ due ≤ now := by
  rcases h.pollDue_cases hpoll with ⟨hresult, -⟩ | ⟨_, _, _, _, hresult, -⟩ |
    ⟨i, slot, -, hslot, -, hdue, hnext, hresult, -⟩
  · contradiction
  · contradiction
  · obtain ⟨rfl, hpriority⟩ := Expired.mk.inj (Poll.expired.inj hresult)
    have hsettle : (self.lane slot.key).settle.phases.Sound := (h.lane_sound slot.key).settle_sound
    have harmed := ((Lane.next_eq_some_iff hsettle).mp hnext).1
    rw [← hpriority] at harmed hdue
    exact ⟨Lane.armed_expire_iff.mp harmed, hdue⟩

theorem Sound.total_of_transition {self after : Agenda K P W} (h : self.Sound) {key : K}
    {config : Config D} {change : Transition} {now : N} {add : N → D → P} {total : Expiry P}
    (hhead : change ≠ .awaitingHead) (hretired : change ≠ .retired)
    (htransition : self.transition key config change now add = .ok after)
    (htotal : (self.lane key).phases.get .total = some total) :
    (after.lane key).phases.get .total = some total := by
  rcases h.tryEntry_settle key with ⟨error, herror, -⟩ | ⟨howns, -, -⟩
  · rw [transition_of_error herror] at htransition
    contradiction
  · rw [h.transition_eq howns, Except.ok.injEq] at htransition
    have hkept : ((self.lane key).advance config change now add).phases.get .total =
        some total := by
      rw [← htotal]
      exact Timeline.apply_total hhead hretired (by rw [htotal]; rfl)
    obtain ⟨first, hfirst⟩ := Lane.exists_next_of_lane (Timeline.get_eq_some_iff.mp hkept).1
    rw [← htransition, lane_arm_of_next howns hfirst, hkept]

/-- In every run whose steps respect the idle deadlines the agenda keeps its guarantees, and on a
single key it answers as a timeline does. -/
theorem run_keepsTime {capacity : ℕ} {ops : List (Op K P W N D)} {outcomes : List (Outcome K P W)}
    {agenda : Agenda K P W} (hrun : (new capacity).run ops = some (agenda, outcomes))
    (htimely : (new capacity : Agenda K P W).TimelyRun ops) :
    KeepsTime capacity ops outcomes agenda ∧
      ∀ (key : K) (script : List (Single P N D)), Indexed.index key < capacity →
        Single.Timely key script (new capacity : Agenda K P W) .empty →
        ∃ answers, Single.Answers key (new capacity : Agenda K P W) script answers ∧
          ∀ answers, Single.Answers key (new capacity : Agenda K P W) script answers →
            answers = (Single.timeline .empty script).map (Option.map (Single.report key)) := by
  have hnew : (new capacity : Agenda K P W).Sound := sound_new capacity
  obtain ⟨hsound, heager⟩ := hnew.run htimely hrun
  refine ⟨⟨fun key item => hsound.priority_eq_some_iff, fun key => hsound.priority_eq_none_iff,
    fun now choice expired after => hsound.due_of_pollDue, fun key action => ?_, ?_, ?_,
    fun key config change now add after total => hsound.total_of_transition,
    fun now => ⟨hsound.acc_renews now, hsound.exists_popDue now⟩⟩, ?_⟩
  · have hcount := hnew.expires_run htimely hrun key action
    have hholds : (new capacity : Agenda K P W).holds key action = false := by
      rw [holds, lane_new]
      cases action <;> rfl
    rw [hholds, Bool.toNat_false] at hcount
    omega
  · rintro earlier later key config now add due rfl hdue hrearms now' choice item after hpoll
    obtain ⟨hidle, hle⟩ := hsound.idle_of_pollDue hpoll
    -- cut the run at the progress
    obtain ⟨before, outs, outs', hearlier, hlater, -⟩ := run_append hrun
    obtain ⟨htimely₁, htimely₂⟩ := htimely.append hearlier
    obtain ⟨hbefore, -⟩ := hnew.run htimely₁ hearlier
    obtain ⟨middle, outcome, rest, hstep, hrest, -⟩ := run_cons_eq_some_iff.mp hlater
    obtain ⟨hmiddle, -⟩ := hbefore.step htimely₂.1 hstep
    obtain ⟨first, hfirst, hfirstLe⟩ :=
      hmiddle.idle_run (htimely₂.2 middle outcome hstep) hrest hrearms hidle
    exact ((hbefore.idle_progress hdue htimely₂.1 hstep hfirst).trans hfirstLe).trans hle
  · rw [settle_new] at heager
    exact heager
  · intro key script hindex hscript
    have halike : Single.Alike key (new capacity : Agenda K P W) .empty := Single.alike_new hindex
    obtain ⟨answers, hanswers⟩ := halike.exists_answers hscript
    exact ⟨answers, hanswers, fun answers h => halike.answers_eq hscript h⟩

instance : Indexed ℕ := ⟨id⟩

/-- An idle window and no other. -/
def idleWindow (window : ℕ) : Config ℕ :=
  ⟨fun phase => if phase = .bodyIdle then .finite window else .disabled⟩

/-- A body whose idle window is 5 starts at 0 and makes progress at 3. -/
def bodyAtThree : List (Op ℕ ℕ Unit ℕ ℕ) :=
  [.transition 0 (idleWindow 5) .headAdmitted 0 (· + ·),
    .transition 0 (idleWindow 5) .bodyProgress 3 (· + ·)]

/-- The progress at 3 renews the expiry at 5, and the body expires at 8. -/
theorem keepsTime_bodyAtThree :
    KeepsTime 1 (bodyAtThree ++ [.pollDue 5 (some 0), .pollDue 8 (some 0)])
      [.ok, .ok, .polled .renewed, .polled (.expired ⟨0, ⟨8, .expire .bodyIdle⟩⟩)]
      (new 1 : Agenda ℕ ℕ Unit) := by
  refine (run_keepsTime (by rfl) ?_).1
  refine timelyRun_cons ?_ rfl (timelyRun_cons ?_ rfl (timelyRun_cons trivial rfl
    (timelyRun_cons trivial rfl trivial)))
  · intro due _ hresident
    contradiction
  · intro due hdue item hitem
    obtain rfl : 8 = due := Option.some.inj hdue
    obtain rfl : ⟨5, .bodyIdle⟩ = item := Option.some.inj hitem
    refine ⟨by decide, fun later hlater => ?_⟩
    contradiction

/-- An idle expiry set again to the instant that is stored does not take effect while a later
progress is pending: nothing expires at 5, where rescheduling at every progress expires. -/
theorem bodyAtThree_rearmed :
    ((new 1 : Agenda ℕ ℕ Unit).run (bodyAtThree ++
      [.schedule 0 ⟨5, .expire .bodyIdle⟩, .pollDue 5 (some 0), .pollDue 5 none])).map Prod.snd =
        some [.ok, .ok, .ok, .polled .renewed, .polled .idle] ∧
    ((new 1 : Agenda ℕ ℕ Unit).eagerRun (bodyAtThree ++
      [.schedule 0 ⟨5, .expire .bodyIdle⟩, .pollDue 5 (some 0)])).map Prod.snd =
        some [.ok, .ok, .ok, .polled (.expired ⟨0, ⟨5, .expire .bodyIdle⟩⟩)] := by
  decide

end Agenda

end Sark.Deadline
