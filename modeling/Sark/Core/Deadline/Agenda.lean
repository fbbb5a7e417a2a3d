import Sark.Core.Deadline.Lane
import Sark.Library.ResidentHeap

/-!
# The agenda of many exchanges

The deadline book that keeps the lanes of many exchanges in one heap (`core/src/deadline/mod.rs`).
The priority of an exchange in the heap is the first item of its lane. Every operation on a key
computes a new lane for it and arms the heap with that lane's first item, so an operation is known
by what it does to the lane.

As for a timeline, `Agenda.settle` has every pending progress moved into its lane.

* `Agenda.Sound.transition_eq`, `Agenda.Sound.schedule_eq`, `Agenda.Sound.cancelOne_eq`,
  `Agenda.Sound.pollDue_cases`: what each operation does to the lane of its key.
* `Agenda.Sound.priority_eq`: the priority of a key is the first item of its lane.
* `Agenda.Sound.pollDue_settle_expired`: what expires in the agenda expires in the settled agenda.
-/

set_option linter.unusedSectionVars false

namespace Sark.Deadline

open ResidentHeap

/-! ## The agenda -/

/-- A schedule request that cannot name a live slot in this fixed domain. -/
inductive Error (K : Type*) where
  | outOfRange (key : K) (capacity : ℕ)
  | conflict (requested current : K)
  deriving DecidableEq, Repr

/-- One due entry removed from the book. -/
structure Expired (K P W : Type*) where
  key : K
  scheduled : Scheduled P W
  deriving DecidableEq, Repr

/-- Result of visiting at most one due entry in a deadline book. -/
inductive Poll (T : Type*) where
  | idle
  | renewed
  | expired (item : T)
  deriving DecidableEq, Repr

/-- `Agenda`: one heap for the lanes of all keys. -/
structure Agenda (K P W : Type*) where
  heap : Heap K (Scheduled P W) (Lane P W)

namespace Agenda

variable {K P W N D : Type*} [DecidableEq K] [Indexed K] [LinearOrder P] [LinearOrder W]

/-- `Agenda::try_new`, where the allocation succeeds. -/
def new (capacity : ℕ) : Agenda K P W := ⟨.new capacity⟩

/-- `Agenda::try_entry`: the slot of the key, none when it is vacant. -/
def tryEntry (self : Agenda K P W) (key : K) :
    Except (Error K) (Option (Slot K (Scheduled P W) (Lane P W))) :=
  match self.heap.entry key with
  | .outOfRange => .error (.outOfRange key self.heap.capacity)
  | .vacant => .ok none
  | .occupied slot => .ok (some slot)
  | .conflict current => .error (.conflict key current)

/-- The slot of a lane: occupied, with the first item for its priority, unless there is none. -/
def slot (key : K) (lane : Lane P W) : Option (Slot K (Scheduled P W) (Lane P W)) :=
  lane.next.map fun next => ⟨key, next, lane⟩

/-- Leaves the lane in the slot of the key, which is set to the lane's first item or retired. -/
def arm (self : Agenda K P W) (key : K) (lane : Lane P W) : Agenda K P W :=
  ⟨self.heap.put (Indexed.index key) (slot key lane)⟩

/-- `Agenda::transition`. -/
def transition (self : Agenda K P W) (key : K) (config : Config D) (change : Transition) (now : N)
    (add : N → D → P) : Except (Error K) (Agenda K P W) :=
  match self.tryEntry key with
  | .error error => .error error
  | .ok found =>
    if change = .bodyProgress then
      match found with
      | none => .ok self
      | some slot =>
        -- the heap is not told of progress
        let phases := (slot.resident.phases.progress config now add).1
        .ok ⟨self.heap.put (Indexed.index key)
          (some { slot with resident := { slot.resident with phases } })⟩
    else
      match found with
      | none =>
        let (lane, mutation) := (Lane.empty : Lane P W).transition config change now add
        if mutation = .unchanged then .ok self
        else
          match lane.next with
          | none => .ok self
          | some next => .ok ⟨self.heap.put (Indexed.index key) (some ⟨key, next, lane⟩)⟩
      | some slot =>
        let (lane, mutation) := slot.resident.transition config change now add
        if mutation ≠ .earliest then
          .ok ⟨self.heap.put (Indexed.index key) (some { slot with resident := lane })⟩
        else .ok (self.arm key lane)

/-- `Agenda::schedule`. -/
def schedule (self : Agenda K P W) (key : K) (item : Scheduled P W) :
    Except (Error K) (Agenda K P W) :=
  match self.tryEntry key with
  | .error error => .error error
  | .ok none =>
    let (lane, minimum) := (Lane.empty : Lane P W).set item
    .ok ⟨self.heap.put (Indexed.index key) (some ⟨key, minimum, lane⟩)⟩
  | .ok (some slot) =>
    if slot.resident.resident item.action = some item then .ok self
    else
      let (lane, minimum) := slot.resident.set item
      .ok ⟨self.heap.put (Indexed.index key) (some { slot with priority := minimum, resident := lane })⟩

/-- `Agenda::cancel`. Whether the heap's minimum moved is the heap's to report and left out. -/
def cancel (self : Agenda K P W) (key : K) : Agenda K P W :=
  match self.heap.entry key with
  | .occupied _ => ⟨self.heap.put (Indexed.index key) none⟩
  | _ => self

/-- `Agenda::cancel_one`. -/
def cancelOne (self : Agenda K P W) (key : K) (action : Action W) : Agenda K P W :=
  match self.heap.entry key with
  | .occupied slot =>
    if (slot.resident.get action).isNone then self else self.arm key (slot.resident.retire action)
  | _ => self

/-- `Agenda::poll_due`. The heap may have several first entries; `choice` is the one it gives, and
the result is `none` when it cannot. -/
def pollDue (self : Agenda K P W) (now : P) (choice : Option ℕ) :
    Option (Poll (Expired K P W) × Agenda K P W) :=
  match self.heap.firstEntryIf (fun priority => !decide (now < priority.due)) choice with
  | none => none
  | some none => some (.idle, self)
  | some (some slot) =>
    let item := slot.priority
    let lane := slot.resident
    if item.action = .expire .bodyIdle then
      let refreshed := lane.phases.refresh item.due
      let lane := { lane with phases := refreshed.1 }
      if refreshed.2 = .changed then some (.renewed, self.arm slot.key lane)
      else some (.expired ⟨slot.key, item⟩, self.arm slot.key (lane.retire item.action))
    else some (.expired ⟨slot.key, item⟩, self.arm slot.key (lane.retire item.action))

end Agenda

/-! ## Arming a key -/

namespace Agenda

variable {K P W N D : Type*} [DecidableEq K] [Indexed K] [LinearOrder P] [LinearOrder W]

/-- What holds of every agenda whose operations respect the idle deadlines: a slot belongs to its
key, its priority is the first item of its lane, and the lane is sound. -/
structure Sound (agenda : Agenda K P W) : Prop where
  index : ∀ (i : ℕ) slot, agenda.heap.slots[i]? = some (some slot) → Indexed.index slot.key = i
  priority : ∀ (i : ℕ) slot, agenda.heap.slots[i]? = some (some slot) →
    slot.resident.next = some slot.priority
  lanes : ∀ (i : ℕ) slot, agenda.heap.slots[i]? = some (some slot) → slot.resident.phases.Sound

/-- The lane of a key, empty when the key has no entry. -/
def lane (self : Agenda K P W) (key : K) : Lane P W :=
  match self.heap.entry key with
  | .occupied slot => slot.resident
  | _ => .empty

/-- The priority of a key in the heap, none when the key has no entry. -/
def priority (self : Agenda K P W) (key : K) : Option (Scheduled P W) :=
  match self.heap.entry key with
  | .occupied slot => some slot.priority
  | _ => none

/-- The key has a slot of its own: a vacant one, or the one it occupies. -/
def Owns (self : Agenda K P W) (key : K) : Prop := ∃ found, self.tryEntry key = .ok found

theorem tryEntry_eq_some_iff {self : Agenda K P W} {key : K}
    {slot : Slot K (Scheduled P W) (Lane P W)} :
    self.tryEntry key = .ok (some slot) ↔ self.heap.entry key = .occupied slot := by
  rw [tryEntry]
  cases self.heap.entry key <;> simp

theorem tryEntry_eq_none_iff {self : Agenda K P W} {key : K} :
    self.tryEntry key = .ok none ↔ self.heap.entry key = .vacant := by
  rw [tryEntry]
  cases self.heap.entry key <;> simp

theorem owns_iff {self : Agenda K P W} {key : K} :
    self.Owns key ↔ ∃ found, self.heap.slots[Indexed.index key]? = some found ∧
      ∀ slot, found = some slot → slot.key = key := by
  constructor
  · rintro ⟨_ | slot, hfound⟩
    · exact ⟨none, Heap.entry_eq_vacant_iff.mp (tryEntry_eq_none_iff.mp hfound), by simp⟩
    · obtain ⟨hslot, hkey⟩ := Heap.entry_eq_occupied_iff.mp (tryEntry_eq_some_iff.mp hfound)
      exact ⟨some slot, hslot, fun _ h => by rw [← Option.some.inj h, hkey]⟩
  · rintro ⟨_ | slot, hslot, hkey⟩
    · exact ⟨none, tryEntry_eq_none_iff.mpr (Heap.entry_eq_vacant_iff.mpr hslot)⟩
    · exact ⟨some slot,
        tryEntry_eq_some_iff.mpr (Heap.entry_eq_occupied_iff.mpr ⟨hslot, hkey slot rfl⟩)⟩

theorem sound_new (capacity : ℕ) : Sound (new capacity : Agenda K P W) := by
  have hvacant (i : ℕ) (slot : Slot K (Scheduled P W) (Lane P W)) :
      (new capacity : Agenda K P W).heap.slots[i]? ≠ some (some slot) := by
    intro h
    simp only [new, Heap.new, List.getElem?_replicate] at h
    split_ifs at h
    simp at h
  exact ⟨fun i slot h => absurd h (hvacant i slot), fun i slot h => absurd h (hvacant i slot),
    fun i slot h => absurd h (hvacant i slot)⟩

theorem lane_new (capacity : ℕ) (key : K) : (new capacity : Agenda K P W).lane key = .empty := by
  rw [lane]
  split
  · rename_i slot hslot
    obtain ⟨h, -⟩ := Heap.entry_eq_occupied_iff.mp hslot
    simp only [new, Heap.new, List.getElem?_replicate] at h
    split_ifs at h
    simp at h
  · rfl

theorem Sound.lane_sound {self : Agenda K P W} (h : self.Sound) (key : K) :
    (self.lane key).phases.Sound := by
  rw [lane]
  split
  · rename_i slot hslot
    exact h.lanes _ slot (Heap.entry_eq_occupied_iff.mp hslot).1
  · exact Timeline.sound_empty

theorem Sound.priority_eq {self : Agenda K P W} (h : self.Sound) (key : K) :
    self.priority key = (self.lane key).next := by
  rw [Agenda.priority, lane]
  split
  · rename_i slot hslot
    exact (h.priority _ slot (Heap.entry_eq_occupied_iff.mp hslot).1).symm
  · rfl

theorem lane_of_slot {self : Agenda K P W} {key : K} {slot : Slot K (Scheduled P W) (Lane P W)}
    (h : self.heap.slots[Indexed.index key]? = some (some slot)) (hkey : slot.key = key) :
    self.lane key = slot.resident := by
  rw [lane, Heap.entry_eq_occupied_iff.mpr ⟨h, hkey⟩]

theorem Sound.lane_key {self : Agenda K P W} (hsound : self.Sound) {i : ℕ}
    {slot : Slot K (Scheduled P W) (Lane P W)} (h : self.heap.slots[i]? = some (some slot)) :
    self.lane slot.key = slot.resident ∧ self.Owns slot.key := by
  have hslot : self.heap.slots[Indexed.index slot.key]? = some (some slot) := by
    rw [hsound.index i slot h, h]
  exact ⟨lane_of_slot hslot rfl,
    some slot, tryEntry_eq_some_iff.mpr (Heap.entry_eq_occupied_iff.mpr ⟨hslot, rfl⟩)⟩

theorem Sound.lane_priority {self : Agenda K P W} (hsound : self.Sound) {i : ℕ}
    {slot : Slot K (Scheduled P W) (Lane P W)} (h : self.heap.slots[i]? = some (some slot)) :
    (self.lane slot.key).next = some slot.priority ∧ (self.lane slot.key).Armed slot.priority := by
  have hlane := (hsound.lane_key h).1
  have hnext : (self.lane slot.key).next = some slot.priority := by
    rw [hlane, hsound.priority i slot h]
  exact ⟨hnext, ((Lane.next_eq_some_iff (hsound.lane_sound slot.key)).mp hnext).1⟩

theorem Sound.slot_of_next {self : Agenda K P W} (hsound : self.Sound) {key : K}
    {item : Scheduled P W} (h : (self.lane key).next = some item) :
    ∃ slot ∈ self.heap.occupants, slot.key = key ∧ slot.priority = item := by
  rw [← hsound.priority_eq key, Agenda.priority] at h
  split at h
  · rename_i slot hslot
    obtain ⟨hslot, hkey⟩ := Heap.entry_eq_occupied_iff.mp hslot
    exact ⟨slot, Heap.mem_occupants_iff.mpr ⟨_, hslot⟩, hkey, Option.some.inj h⟩
  · contradiction

theorem lane_of_vacant {self : Agenda K P W} {key : K}
    (h : self.heap.slots[Indexed.index key]? = some none) : self.lane key = .empty := by
  rw [lane, Heap.entry_eq_vacant_iff.mpr h]

theorem slots_arm {self : Agenda K P W} {key : K} (h : self.Owns key) (lane : Lane P W) (j : ℕ) :
    (self.arm key lane).heap.slots[j]? =
      if Indexed.index key = j then some (slot key lane) else self.heap.slots[j]? := by
  obtain ⟨found, hfound, -⟩ := owns_iff.mp h
  rw [arm, Heap.slots_put]
  split_ifs with hj
  · rw [← hj, hfound]
    rfl
  · rfl

theorem slot_eq_some {key : K} {lane : Lane P W} {found : Slot K (Scheduled P W) (Lane P W)}
    (h : slot key lane = some found) :
    found.key = key ∧ found.resident = lane ∧ lane.next = some found.priority := by
  rw [slot, Option.map_eq_some_iff] at h
  obtain ⟨next, hnext, rfl⟩ := h
  exact ⟨rfl, rfl, hnext⟩

theorem owns_arm {self : Agenda K P W} {key : K} (h : self.Owns key) (lane : Lane P W) :
    (self.arm key lane).Owns key := by
  refine owns_iff.mpr ⟨slot key lane, ?_, fun found hfound => (slot_eq_some hfound).1⟩
  rw [slots_arm h, if_pos rfl]

theorem Sound.arm {self : Agenda K P W} (h : self.Sound) {key : K} (howns : self.Owns key)
    {lane : Lane P W} (hlane : lane.phases.Sound) : (self.arm key lane).Sound where
  index i found hi := by
    rw [slots_arm howns] at hi
    split_ifs at hi with heq
    · rw [(slot_eq_some (Option.some.inj hi)).1, heq]
    · exact h.index i found hi
  priority i found hi := by
    rw [slots_arm howns] at hi
    split_ifs at hi
    · obtain ⟨-, hresident, hnext⟩ := slot_eq_some (Option.some.inj hi)
      rw [hresident, hnext]
    · exact h.priority i found hi
  lanes i found hi := by
    rw [slots_arm howns] at hi
    split_ifs at hi
    · rw [(slot_eq_some (Option.some.inj hi)).2.1]
      exact hlane
    · exact h.lanes i found hi

theorem lane_arm_of_next {self : Agenda K P W} {key : K} (howns : self.Owns key)
    {lane : Lane P W} {next : Scheduled P W} (hnext : lane.next = some next) :
    (self.arm key lane).lane key = lane := by
  have hslot := slots_arm howns lane (Indexed.index key)
  rw [if_pos rfl, slot, hnext, Option.map_some] at hslot
  exact lane_of_slot hslot rfl

theorem lane_arm {self : Agenda K P W} {key : K} (howns : self.Owns key) {lane : Lane P W}
    (hlane : lane.phases.Sound) : (self.arm key lane).lane key = lane := by
  cases hnext : lane.next with
  | none =>
    have hslot := slots_arm howns lane (Indexed.index key)
    rw [if_pos rfl, slot, hnext, Option.map_none] at hslot
    rw [lane_of_vacant hslot, Lane.eq_empty_of_next hlane hnext]
  | some next => exact lane_arm_of_next howns hnext

theorem lane_arm_of_ne {self : Agenda K P W} {key other : K} (howns : self.Owns key)
    (hne : other ≠ key) (lane : Lane P W) : (self.arm key lane).lane other = self.lane other := by
  have hslot := slots_arm howns lane (Indexed.index other)
  by_cases hindex : Indexed.index key = Indexed.index other
  · -- the slot is not the other key's, before and after
    obtain ⟨found, hfound, hkey⟩ := owns_iff.mp howns
    rw [if_pos hindex] at hslot
    rw [hindex] at hfound
    rw [Agenda.lane, Agenda.lane, Heap.entry, Heap.entry, hslot, hfound]
    have hafter : ∀ after, slot key lane = some after → after.key ≠ other := fun after h =>
      (slot_eq_some h).1 ▸ hne.symm
    have hbefore : ∀ before, found = some before → before.key ≠ other := fun before h =>
      hkey before h ▸ hne.symm
    cases hlane : slot key lane with
    | none => cases found with
      | none => rfl
      | some before => simp [hbefore before rfl]
    | some after => cases found with
      | none => simp [hafter after hlane]
      | some before => simp [hafter after hlane, hbefore before rfl]
  · rw [if_neg hindex] at hslot
    rw [Agenda.lane, Agenda.lane, Heap.entry, Heap.entry, hslot]

theorem Sound.arm_lane {self : Agenda K P W} (h : self.Sound) {key : K} (howns : self.Owns key) :
    self.arm key (self.lane key) = self := by
  obtain ⟨found, hfound, hkey⟩ := owns_iff.mp howns
  cases found with
  | none =>
    rw [lane_of_vacant hfound, Agenda.arm, slot, Lane.next_empty]
    exact congrArg Agenda.mk (Heap.put_self hfound)
  | some found =>
    obtain rfl := hkey found rfl
    rw [lane_of_slot hfound rfl, Agenda.arm, slot, h.priority _ found hfound]
    exact congrArg Agenda.mk (Heap.put_self hfound)

/-! ## What the operations do -/

theorem put_eq_arm {self : Agenda K P W} {slot : Slot K (Scheduled P W) (Lane P W)}
    {lane : Lane P W} (h : lane.next = some slot.priority) :
    (⟨self.heap.put (Indexed.index slot.key) (some { slot with resident := lane })⟩ :
      Agenda K P W) = self.arm slot.key lane := by
  rw [arm, Agenda.slot, h]
  rfl

theorem Sound.transition_eq {self : Agenda K P W} (hsound : self.Sound) {key : K}
    (howns : self.Owns key) (config : Config D) (change : Transition) (now : N)
    (add : N → D → P) :
    self.transition key config change now add =
      .ok (self.arm key ((self.lane key).advance config change now add)) := by
  obtain ⟨found, hfound⟩ := howns
  rw [transition, hfound]
  cases found with
  | none =>
    have hvacant := Heap.entry_eq_vacant_iff.mp (tryEntry_eq_none_iff.mp hfound)
    have hlane : self.lane key = .empty := lane_of_vacant hvacant
    have hself : self.arm key .empty = self := by rw [← hlane, hsound.arm_lane ⟨_, hfound⟩]
    rw [hlane]
    by_cases hprogress : change = .bodyProgress
    · subst hprogress
      simp only [if_true]
      exact congrArg _ hself.symm
    · simp only [hprogress, if_false]
      rw [Lane.transition_pair]
      simp only
      split_ifs with hunchanged
      · rw [Lane.advance_of_unchanged hprogress hunchanged, hself]
      · split
        · rename_i hnext
          rw [Agenda.arm, slot, hnext, Option.map_none, Heap.put_self hvacant]
        · rename_i next hnext
          rw [Agenda.arm, slot, hnext]
          rfl
  | some slot =>
    obtain ⟨hslot, rfl⟩ := Heap.entry_eq_occupied_iff.mp (tryEntry_eq_some_iff.mp hfound)
    have hlane : self.lane slot.key = slot.resident := lane_of_slot hslot rfl
    have hpriority := hsound.priority _ slot hslot
    rw [hlane]
    by_cases hprogress : change = .bodyProgress
    · subst hprogress
      simp only [if_true]
      refine congrArg _ (put_eq_arm ?_)
      rw [← hpriority]
      exact slot.resident.advance_bodyProgress_next config now add
    · simp only [hprogress, if_false]
      rw [Lane.transition_pair]
      simp only
      split_ifs with hearliest
      · refine congrArg _ (put_eq_arm ?_)
        rw [Lane.advance_next hprogress hearliest, hpriority]
      · rfl

theorem Sound.schedule_eq {self : Agenda K P W} (hsound : self.Sound) {key : K}
    (howns : self.Owns key) (item : Scheduled P W) :
    self.schedule key item = .ok (self.arm key ((self.lane key).install item)) := by
  obtain ⟨found, hfound⟩ := howns
  -- the installed item is in the lane, so the lane has a first item
  have hstored {lane : Lane P W} (hlane : lane.phases.Sound) :
      (lane.store item).next = some ((lane.store item).next.getD item) := by
    have harmed : (lane.store item).Armed item := by
      rcases item with ⟨due, phase | reason⟩
      · rw [Lane.armed_expire_iff, Timeline.get_eq_some_iff]
        exact ⟨Function.update_self .., rfl⟩
      · rw [Lane.armed_wake_iff]
        rfl
    obtain ⟨first, hfirst, -⟩ := Lane.exists_next (Lane.store_sound hlane item) harmed
    rw [hfirst]
    rfl
  rw [schedule, hfound]
  cases found with
  | none =>
    have hvacant := Heap.entry_eq_vacant_iff.mp (tryEntry_eq_none_iff.mp hfound)
    rw [lane_of_vacant hvacant]
    have hinstall : (Lane.empty : Lane P W).install item = Lane.empty.store item := by
      rw [Lane.install, if_neg]
      cases item.action <;> simp [Lane.resident, Lane.empty, Timeline.resident, Timeline.empty]
    rw [hinstall, Agenda.arm, slot, hstored Timeline.sound_empty]
    rfl
  | some slot =>
    obtain ⟨hslot, rfl⟩ := Heap.entry_eq_occupied_iff.mp (tryEntry_eq_some_iff.mp hfound)
    have hlane : self.lane slot.key = slot.resident := lane_of_slot hslot rfl
    rw [hlane, Lane.install]
    simp only
    split_ifs with hsame
    · rw [← hlane, hsound.arm_lane ⟨_, hfound⟩]
    · rw [Agenda.arm, Agenda.slot, hstored (hsound.lanes _ slot hslot)]
      rfl

theorem cancel_eq {self : Agenda K P W} {key : K} (howns : self.Owns key) :
    self.cancel key = self.arm key .empty := by
  obtain ⟨found, hfound⟩ := howns
  rw [cancel, arm, slot, Lane.next_empty]
  cases found with
  | none =>
    rw [tryEntry_eq_none_iff] at hfound
    rw [hfound]
    exact congrArg Agenda.mk (Heap.put_self (Heap.entry_eq_vacant_iff.mp hfound)).symm
  | some slot => rw [tryEntry_eq_some_iff.mp hfound, Option.map_none]

theorem Sound.cancelOne_eq {self : Agenda K P W} (hsound : self.Sound) {key : K}
    (howns : self.Owns key) (action : Action W) :
    self.cancelOne key action = self.arm key ((self.lane key).drop action) := by
  have hself := hsound.arm_lane howns
  obtain ⟨found, hfound⟩ := howns
  rw [cancelOne, Lane.drop]
  cases found with
  | none =>
    rw [tryEntry_eq_none_iff] at hfound
    have hlane := lane_of_vacant (Heap.entry_eq_vacant_iff.mp hfound)
    have hnone : ((Lane.empty : Lane P W).get action).isNone = true := by cases action <;> rfl
    rw [hlane] at hself
    rw [hfound, hlane, if_pos hnone, hself]
  | some slot =>
    rw [tryEntry_eq_some_iff] at hfound
    obtain ⟨hslot, rfl⟩ := Heap.entry_eq_occupied_iff.mp hfound
    have hlane : self.lane slot.key = slot.resident := lane_of_slot hslot rfl
    rw [hlane] at hself
    rw [hfound, hlane]
    simp only
    split_ifs
    · exact hself.symm
    · rfl

/-- The entry visited by a poll is renewed when it is an idle expiry with a later progress pending,
and expires otherwise. -/
theorem pollDue_of_first {self : Agenda K P W} {now : P} {choice : Option ℕ}
    {slot : Slot K (Scheduled P W) (Lane P W)}
    (h : self.heap.firstEntryIf (fun priority => !decide (now < priority.due)) choice =
      some (some slot)) :
    self.pollDue now choice =
      if slot.priority.action = .expire .bodyIdle ∧
          (slot.resident.phases.refresh slot.priority.due).2 = .changed then
        some (.renewed, self.arm slot.key slot.resident.settle)
      else
        some (.expired ⟨slot.key, slot.priority⟩,
          self.arm slot.key (slot.resident.retire slot.priority.action)) := by
  rw [pollDue, h]
  simp only
  by_cases haction : slot.priority.action = .expire .bodyIdle
  · simp only [haction, if_true, true_and]
    split_ifs with hchanged
    · rw [(Timeline.refresh_changed hchanged).1]
      rfl
    · have hunchanged : (slot.resident.phases.refresh slot.priority.due).2 = .unchanged := by
        cases hchange : (slot.resident.phases.refresh slot.priority.due).2
        · rfl
        · exact absurd hchange hchanged
      rw [Timeline.refresh_unchanged hunchanged]
      rfl
  · simp only [haction, if_false, false_and]

theorem test_closed (now : P) (a b : Scheduled P W) (hle : a ≤ b)
    (h : (!decide (now < b.due)) = true) : (!decide (now < a.due)) = true := by
  simp only [Bool.not_eq_true', decide_eq_false_iff_not, not_lt] at h ⊢
  exact (Scheduled.due_le_of_le hle).trans h

/-- What a poll can do: find nothing due, settle one lane, or retire the first item of one. -/
theorem Sound.pollDue_cases {self after : Agenda K P W} (hsound : self.Sound) {now : P}
    {choice : Option ℕ} {result : Poll (Expired K P W)}
    (h : self.pollDue now choice = some (result, after)) :
    (result = .idle ∧ choice = none ∧ after = self ∧
      ∀ slot ∈ self.heap.occupants, now < slot.priority.due) ∨
    (∃ i slot, choice = some i ∧ self.heap.slots[i]? = some (some slot) ∧ result = .renewed ∧
      (self.lane slot.key).phases.bodyProgress.isSome = true ∧
      after = self.arm slot.key (self.lane slot.key).settle) ∨
    ∃ i slot, choice = some i ∧ self.heap.slots[i]? = some (some slot) ∧
      self.heap.IsFirst slot ∧ slot.priority.due ≤ now ∧
      (self.lane slot.key).settle.next = some slot.priority ∧
      result = .expired ⟨slot.key, slot.priority⟩ ∧
      after = self.arm slot.key ((self.lane slot.key).retire slot.priority.action) := by
  cases hfirst : self.heap.firstEntryIf (fun priority => !decide (now < priority.due)) choice with
  | none =>
    rw [pollDue, hfirst] at h
    contradiction
  | some found =>
    cases found with
    | none =>
      left
      rw [pollDue, hfirst] at h
      obtain ⟨rfl, rfl⟩ := Prod.mk.inj (Option.some.inj h)
      refine ⟨rfl, Heap.choice_of_firstEntryIf_none hfirst, rfl, fun slot hslot => ?_⟩
      have hlate := Heap.not_of_firstEntryIf_none (test_closed now) hfirst hslot
      simpa using hlate
    | some slot =>
      right
      obtain ⟨i, rfl, hslot, hisFirst, hdue⟩ := Heap.firstEntryIf_eq_some hfirst
      have hlane := (hsound.lane_key hslot).1
      have hlaneSound := hsound.lanes i slot hslot
      have hpriority := hsound.priority i slot hslot
      rw [pollDue_of_first hfirst] at h
      split_ifs at h with hrenewed
      · left
        obtain ⟨rfl, rfl⟩ := Prod.mk.inj (Option.some.inj h)
        refine ⟨i, slot, rfl, hslot, rfl, ?_, ?_⟩
        · rw [hlane]
          exact (Timeline.refresh_changed hrenewed.2).2
        · rw [hlane]
      · right
        obtain ⟨rfl, rfl⟩ := Prod.mk.inj (Option.some.inj h)
        refine ⟨i, slot, rfl, hslot, hisFirst, by simpa using hdue, ?_, rfl, by rw [hlane]⟩
        rw [hlane]
        exact Lane.settle_next_of_armed hlaneSound hpriority
          (Lane.settle_armed_of_next hlaneSound hpriority hrenewed)

/-! ## The settled agenda -/

/-- The agenda with every pending progress moved into its lane. -/
def settle (self : Agenda K P W) : Agenda K P W :=
  ⟨⟨self.heap.slots.map fun found => found.bind fun held => slot held.key held.resident.settle⟩⟩

theorem slots_settle (self : Agenda K P W) (i : ℕ) :
    self.settle.heap.slots[i]? = (self.heap.slots[i]?).map fun found =>
      found.bind fun held => slot held.key held.resident.settle := by
  rw [settle, List.getElem?_map]

@[simp]
theorem settle_new (capacity : ℕ) : (new capacity : Agenda K P W).settle = new capacity := by
  simp [settle, new, Heap.new]

theorem capacity_settle (self : Agenda K P W) :
    self.settle.heap.capacity = self.heap.capacity := by
  rw [settle, Heap.capacity, List.length_map, Heap.capacity]

theorem Sound.slot_settle {self : Agenda K P W} (hsound : self.Sound) {i : ℕ}
    {held : Slot K (Scheduled P W) (Lane P W)} (h : self.heap.slots[i]? = some (some held)) :
    ∃ next, held.resident.settle.next = some next ∧ held.priority ≤ next ∧
      self.settle.heap.slots[i]? = some (some ⟨held.key, next, held.resident.settle⟩) := by
  have hlane := hsound.lanes i held h
  have hpriority := hsound.priority i held h
  have hne : held.resident.settle.next ≠ none := by
    rw [Ne, Lane.settle_next_eq_none_iff hlane, hpriority]
    simp
  obtain ⟨next, hnext⟩ := Option.ne_none_iff_exists'.mp hne
  have hsettle : held.resident.settle.phases.Sound := hlane.settle_sound
  obtain ⟨stored, hstored, -, hle⟩ :=
    Lane.le_settle hlane ((Lane.next_eq_some_iff hsettle).mp hnext).1
  refine ⟨next, hnext, (((Lane.next_eq_some_iff hlane).mp hpriority).2 stored hstored).trans hle, ?_⟩
  rw [slots_settle, h, Option.map_some, Option.bind_some, slot, hnext]
  rfl

theorem slot_of_settle {self : Agenda K P W} {i : ℕ} {found : Slot K (Scheduled P W) (Lane P W)}
    (h : self.settle.heap.slots[i]? = some (some found)) :
    ∃ held, self.heap.slots[i]? = some (some held) ∧ slot held.key held.resident.settle = some found := by
  rw [slots_settle, Option.map_eq_some_iff] at h
  obtain ⟨_ | held, hi, hfound⟩ := h
  · contradiction
  · exact ⟨held, hi, hfound⟩

theorem Sound.settle_sound {self : Agenda K P W} (h : self.Sound) : self.settle.Sound where
  index i found hi := by
    obtain ⟨held, hheld, hfound⟩ := slot_of_settle hi
    rw [(slot_eq_some hfound).1]
    exact h.index i held hheld
  priority i found hi := by
    obtain ⟨held, hheld, hfound⟩ := slot_of_settle hi
    obtain ⟨-, hresident, hnext⟩ := slot_eq_some hfound
    rw [hresident, hnext]
  lanes i found hi := by
    obtain ⟨held, hheld, hfound⟩ := slot_of_settle hi
    rw [(slot_eq_some hfound).2.1]
    exact (h.lanes i held hheld).settle_sound

theorem Sound.tryEntry_settle {self : Agenda K P W} (h : self.Sound) (key : K) :
    (∃ error, self.tryEntry key = .error error ∧ self.settle.tryEntry key = .error error) ∨
      self.Owns key ∧ self.settle.Owns key ∧ self.settle.lane key = (self.lane key).settle := by
  have hslot := slots_settle self (Indexed.index key)
  cases hfound : self.heap.slots[Indexed.index key]? with
  | none =>
    rw [hfound, Option.map_none] at hslot
    left
    refine ⟨.outOfRange key self.heap.capacity, ?_, ?_⟩
    · rw [tryEntry, Heap.entry, hfound]
    · rw [tryEntry, Heap.entry, hslot, capacity_settle]
  | some found =>
    cases found with
    | none =>
      rw [hfound, Option.map_some, Option.bind_none] at hslot
      right
      refine ⟨owns_iff.mpr ⟨none, hfound, by simp⟩, owns_iff.mpr ⟨none, hslot, by simp⟩, ?_⟩
      rw [lane_of_vacant hfound, lane_of_vacant hslot, Lane.settle_empty]
    | some held =>
      obtain ⟨next, -, -, hsettle⟩ := h.slot_settle hfound
      by_cases hkey : held.key = key
      · right
        refine ⟨owns_iff.mpr ⟨some held, hfound, ?_⟩, owns_iff.mpr ⟨_, hsettle, ?_⟩, ?_⟩
        · rintro _ ⟨⟩
          exact hkey
        · rintro _ ⟨⟩
          exact hkey
        · rw [lane_of_slot hfound hkey, lane_of_slot hsettle hkey]
      · left
        refine ⟨.conflict key held.key, ?_, ?_⟩
        · rw [tryEntry, Heap.entry, hfound]
          simp [hkey]
        · rw [tryEntry, Heap.entry, hsettle]
          simp [hkey]

theorem Sound.owns_settle {self : Agenda K P W} (h : self.Sound) {key : K}
    (howns : self.Owns key) :
    self.settle.Owns key ∧ self.settle.lane key = (self.lane key).settle := by
  obtain ⟨found, hfound⟩ := howns
  rcases h.tryEntry_settle key with ⟨error, herror, -⟩ | ⟨-, hsettle⟩
  · rw [herror] at hfound
    contradiction
  · exact hsettle

theorem settle_arm (self : Agenda K P W) (key : K) {lane : Lane P W} (hlane : lane.phases.Sound) :
    (self.arm key lane).settle = self.settle.arm key lane.settle := by
  have hbind : ((slot key lane).bind fun held => slot held.key held.resident.settle) =
      slot key lane.settle := by
    cases hnext : lane.next with
    | none =>
      rw [slot, slot, hnext, (Lane.settle_next_eq_none_iff hlane).mpr hnext]
      rfl
    | some next =>
      rw [slot, hnext]
      rfl
  rw [settle, settle, arm, arm, Heap.put, Heap.put, List.map_set, hbind]

theorem Sound.pollDue_settle_idle {self : Agenda K P W} (h : self.Sound) {now : P}
    (hidle : ∀ held ∈ self.heap.occupants, now < held.priority.due) :
    self.settle.pollDue now none = some (.idle, self.settle) := by
  have hnone : self.settle.heap.firstEntryIf (fun priority => !decide (now < priority.due)) none =
      some none := by
    refine Heap.firstEntryIf_none fun found hfound => ?_
    obtain ⟨i, hi⟩ := Heap.mem_occupants_iff.mp hfound
    obtain ⟨held, hheld, hslot⟩ := slot_of_settle hi
    obtain ⟨next, hnext, hle, -⟩ := h.slot_settle hheld
    rw [(slot_eq_some hslot).2.2, Option.some.injEq] at hnext
    have hlate := hidle held (Heap.mem_occupants_iff.mpr ⟨i, hheld⟩)
    have := hlate.trans_le (Scheduled.due_le_of_le hle)
    simpa [hnext] using this
  rw [pollDue, hnone]

/-- What expires in the agenda expires in the settled agenda. -/
theorem Sound.pollDue_settle_expired {self : Agenda K P W} (h : self.Sound) {now : P} {i : ℕ}
    {held : Slot K (Scheduled P W) (Lane P W)} (hslot : self.heap.slots[i]? = some (some held))
    (hfirst : self.heap.IsFirst held) (hdue : held.priority.due ≤ now)
    (hnext : (self.lane held.key).settle.next = some held.priority) :
    self.settle.pollDue now (some i) =
      some (.expired ⟨held.key, held.priority⟩,
        self.settle.arm held.key ((self.lane held.key).settle.retire held.priority.action)) := by
  rw [(h.lane_key hslot).1] at hnext ⊢
  obtain ⟨next, hnext', -, hsettle⟩ := h.slot_settle hslot
  obtain rfl : held.priority = next := Option.some.inj (hnext.symm.trans hnext')
  have hisFirst : self.settle.heap.IsFirst ⟨held.key, held.priority, held.resident.settle⟩ := by
    intro other hother
    obtain ⟨j, hj⟩ := Heap.mem_occupants_iff.mp hother
    obtain ⟨stored, hstored, hslot⟩ := slot_of_settle hj
    obtain ⟨later, hlater, hle, -⟩ := h.slot_settle hstored
    rw [(slot_eq_some hslot).2.2, Option.some.injEq] at hlater
    rw [hlater]
    exact (hfirst stored (Heap.mem_occupants_iff.mpr ⟨j, hstored⟩)).trans hle
  have hentry :
      self.settle.heap.firstEntryIf (fun priority => !decide (now < priority.due)) (some i) =
        some (some ⟨held.key, held.priority, held.resident.settle⟩) :=
    Heap.firstEntryIf_of_isFirst hsettle hisFirst (by simpa using hdue)
  rw [pollDue_of_first hentry, if_neg]
  rintro ⟨-, hchanged⟩
  obtain ⟨-, hsome⟩ := Timeline.refresh_changed hchanged
  simp [Lane.settle, Timeline.settle] at hsome

end Agenda

end Sark.Deadline
