import Mathlib.Data.Sum.Order
import Sark.Core.Deadline.Timeline

/-!
# The lane of one exchange

What the deadline agenda keeps for one exchange (`core/src/deadline/mod.rs`): its timeline and its
wake. An item is an instant with an action, and items are compared by time and then by the rank of
their action.

* `Lane.next_eq_some_iff`: the first item of a lane is the least of the items it holds.
* `Lane.settle_advance`, `Lane.settle_install`, `Lane.settle_retire`: the operations treat a lane
  and its settled form alike.
-/

set_option linter.unusedSectionVars false

namespace Sark.Deadline

/-! ## Actions -/

/-- The semantic action selected when an exchange-local instant becomes due. -/
inductive Action (W : Type*) where
  | expire (phase : Phase)
  | wake (reason : W)
  deriving DecidableEq, Repr

namespace Action

variable {W : Type*}

/-- Expiries are compared by rank and come before every wake. -/
def order : Action W → ℕ ⊕ₗ W
  | .expire phase => toLex (.inl phase.rank)
  | .wake reason => toLex (.inr reason)

theorem order_injective : Function.Injective (order (W := W)) := by
  intro a b h
  cases a with
  | expire phase =>
    cases b with
    | expire phase' => rw [Phase.rank_injective (Sum.inl.inj (toLex.injective h))]
    | wake reason => exact absurd (toLex.injective h) Sum.inl_ne_inr
  | wake reason =>
    cases b with
    | expire phase => exact absurd (toLex.injective h) Sum.inr_ne_inl
    | wake reason' => rw [Sum.inr.inj (toLex.injective h)]

instance [LinearOrder W] : LinearOrder (Action W) := LinearOrder.lift' order order_injective

theorem expire_le_expire_iff [LinearOrder W] {a b : Phase} :
    (expire a : Action W) ≤ expire b ↔ a.rank ≤ b.rank :=
  Sum.Lex.inl_le_inl_iff

end Action

/-- One effective phase deadline for an exact exchange identity. -/
structure Scheduled (P W : Type*) where
  due : P
  action : Action W
  deriving DecidableEq, Repr

namespace Scheduled

variable {P W : Type*}

/-- `Scheduled::expire`. -/
def expire (due : P) (phase : Phase) : Scheduled P W := ⟨due, .expire phase⟩

/-- `Scheduled::wake`. -/
def wake (due : P) (reason : W) : Scheduled P W := ⟨due, .wake reason⟩

/-- Items are compared by time, then by action. -/
def order (item : Scheduled P W) : P ×ₗ Action W := toLex (item.due, item.action)

theorem order_injective : Function.Injective (order (P := P) (W := W)) := by
  rintro ⟨due, action⟩ ⟨due', action'⟩ h
  obtain ⟨hdue, haction⟩ := Prod.mk.inj (toLex.injective h)
  exact congrArg₂ Scheduled.mk hdue haction

variable [LinearOrder P] [LinearOrder W]

instance : LinearOrder (Scheduled P W) := LinearOrder.lift' order order_injective

theorem le_iff {a b : Scheduled P W} :
    a ≤ b ↔ a.due < b.due ∨ a.due = b.due ∧ a.action ≤ b.action :=
  Prod.Lex.toLex_le_toLex

theorem due_le_of_le {a b : Scheduled P W} (h : a ≤ b) : a.due ≤ b.due := by
  rcases le_iff.mp h with h | h
  · exact h.le
  · exact h.1.le

theorem expire_le_expire_iff {a b : Expiry P} :
    (expire a.due a.phase : Scheduled P W) ≤ expire b.due b.phase ↔ a ≤ b := by
  rw [le_iff, Expiry.le_iff]
  exact or_congr Iff.rfl (and_congr_right fun _ => Action.expire_le_expire_iff)

end Scheduled

/-! ## Lanes -/

/-- A wake and its reason. -/
structure Wake (P W : Type*) where
  due : P
  reason : W
  deriving DecidableEq, Repr

/-- The timeline of an exchange and its wake. -/
structure Lane (P W : Type*) where
  phases : Timeline P
  wake : Option (Wake P W)

namespace Lane

variable {P W N D : Type*} [LinearOrder P] [LinearOrder W]

/-- `Lane::EMPTY`. -/
def empty : Lane P W := ⟨.empty, none⟩

/-- `Lane::resident`. -/
def resident (self : Lane P W) : Action W → Option (Scheduled P W)
  | .expire phase => (self.phases.resident phase).map fun item => .expire item.due item.phase
  | .wake _ => self.wake.map fun item => .wake item.due item.reason

/-- `Lane::get`. -/
def get (self : Lane P W) (action : Action W) : Option (Scheduled P W) :=
  (self.resident action).filter fun item => item.action = action

/-- `Lane::next`. -/
def next (self : Lane P W) : Option (Scheduled P W) :=
  [self.phases.next.map fun item => .expire item.due item.phase,
    self.wake.map fun item => .wake item.due item.reason].reduceOption.min?

/-- The lane that `Lane::set` leaves. -/
def store (self : Lane P W) (item : Scheduled P W) : Lane P W :=
  match item.action with
  | .expire phase => { self with phases := self.phases.set item.due phase }
  | .wake reason => { self with wake := some ⟨item.due, reason⟩ }

/-- `Lane::set`: stores the item and returns the lane's resulting minimum. -/
def set (self : Lane P W) (item : Scheduled P W) : Lane P W × Scheduled P W :=
  (self.store item, (self.store item).next.getD item)

/-- `Lane::retire`. -/
def retire (self : Lane P W) : Action W → Lane P W
  | .expire phase => { self with phases := self.phases.clearPhase phase }
  | .wake reason =>
    if self.wake.any fun item => item.reason = reason then { self with wake := none } else self

/-- `Lane::clear_wake`. -/
def clearWake (self : Lane P W) : Lane P W × Mutation :=
  if self.wake.isNone then (self, .unchanged) else ({ self with wake := none }, .contents)

/-- `Lane::transition`. -/
def transition (self : Lane P W) (config : Config D) (change : Transition) (now : N)
    (add : N → D → P) : Lane P W × Mutation :=
  let applied := self.phases.apply config change now add
  let phased : Lane P W := { self with phases := applied.1 }
  let cleared := if change = .retired then phased.clearWake else (phased, .unchanged)
  if applied.2 = .unchanged ∧ cleared.2 = .unchanged then (cleared.1, .unchanged)
  else (cleared.1, Mutation.between self.next cleared.1.next)

end Lane

/-! ## The items of a lane -/

namespace Lane

variable {P W N D : Type*} [LinearOrder P] [LinearOrder W]

/-- The lane holds the item. -/
def Armed (self : Lane P W) (item : Scheduled P W) : Prop := self.get item.action = some item

theorem get_expire (self : Lane P W) (phase : Phase) :
    self.get (.expire phase) =
      (self.phases.get phase).map fun item => .expire item.due item.phase := by
  rw [get, resident, Timeline.get]
  cases self.phases.resident phase with
  | none => rfl
  | some item => by_cases h : item.phase = phase <;> simp [Option.filter, Scheduled.expire, h]

theorem armed_of_get {self : Lane P W} {action : Action W} {item : Scheduled P W}
    (h : self.get action = some item) : item.action = action ∧ self.Armed item := by
  have haction : item.action = action := by
    rw [get, Option.filter_eq_some_iff] at h
    exact of_decide_eq_true h.2
  refine ⟨haction, ?_⟩
  rw [Armed, haction]
  exact h

theorem Armed.isSome_get {self : Lane P W} {item : Scheduled P W} (h : self.Armed item) :
    (self.get item.action).isSome = true := by
  rw [show self.get item.action = some item from h]
  rfl

theorem armed_expire_iff {self : Lane P W} {due : P} {phase : Phase} :
    self.Armed ⟨due, .expire phase⟩ ↔ self.phases.get phase = some ⟨due, phase⟩ := by
  rw [Armed, get_expire, Option.map_eq_some_iff]
  constructor
  · rintro ⟨⟨due', phase'⟩, hget, heq⟩
    obtain ⟨rfl, hphase⟩ := Scheduled.mk.inj heq
    obtain rfl := Action.expire.inj hphase
    exact hget
  · exact fun hget => ⟨_, hget, rfl⟩

theorem armed_wake_iff {self : Lane P W} {due : P} {reason : W} :
    self.Armed ⟨due, .wake reason⟩ ↔ self.wake = some ⟨due, reason⟩ := by
  rw [Armed, get, resident]
  rcases self.wake with _ | ⟨due', reason'⟩
  · simp
  · simp only [Option.map_some, Option.filter_some, Scheduled.wake]
    split_ifs with h
    · simp
    · simp only [Option.some.injEq, Wake.mk.injEq, false_iff, not_and]
      rintro - rfl
      simp at h

/-- The first item of a lane is one of its items, and every other comes later. -/
theorem next_eq_some_iff {self : Lane P W} (hsound : self.phases.Sound) {item : Scheduled P W} :
    self.next = some item ↔ self.Armed item ∧ ∀ other, self.Armed other → item ≤ other := by
  have hmem (item : Scheduled P W) :
      item ∈ [self.phases.next.map fun item => .expire item.due item.phase,
        self.wake.map fun item => .wake item.due item.reason].reduceOption ↔
      (∃ e, self.phases.next = some e ∧ Scheduled.expire e.due e.phase = item) ∨
        ∃ w, self.wake = some w ∧ Scheduled.wake w.due w.reason = item := by
    simp [List.reduceOption_mem_iff, eq_comm (a := some item)]
  have harmed {item : Scheduled P W}
      (h : item ∈ [self.phases.next.map fun item => .expire item.due item.phase,
        self.wake.map fun item => .wake item.due item.reason].reduceOption) : self.Armed item := by
    rcases (hmem item).mp h with ⟨e, he, rfl⟩ | ⟨w, hw, rfl⟩
    · obtain ⟨⟨i, hi⟩, -⟩ := Timeline.next_eq_some_iff.mp he
      exact armed_expire_iff.mpr (hsound.get_of_lane hi)
    · exact armed_wake_iff.mpr hw
  -- a member of the list comes before every armed item
  have hlow {item : Scheduled P W} (h : self.Armed item) :
      ∃ first ∈ [self.phases.next.map fun item => .expire item.due item.phase,
        self.wake.map fun item => .wake item.due item.reason].reduceOption, first ≤ item := by
    rcases item with ⟨due, phase | reason⟩
    · obtain ⟨hlane, -⟩ := Timeline.get_eq_some_iff.mp (armed_expire_iff.mp h)
      obtain ⟨first, hfirst, hle⟩ := Timeline.exists_next hlane
      exact ⟨_, (hmem _).mpr (.inl ⟨first, hfirst, rfl⟩), Scheduled.expire_le_expire_iff.mpr hle⟩
    · exact ⟨_, (hmem _).mpr (.inr ⟨_, armed_wake_iff.mp h, rfl⟩), le_rfl⟩
  rw [next, List.min?_eq_some_iff]
  constructor
  · rintro ⟨hitem, hmin⟩
    refine ⟨harmed hitem, fun other hother => ?_⟩
    obtain ⟨first, hfirst, hle⟩ := hlow hother
    exact (hmin first hfirst).trans hle
  · rintro ⟨hitem, hmin⟩
    obtain ⟨first, hfirst, hle⟩ := hlow hitem
    obtain rfl : item = first := le_antisymm (hmin first (harmed hfirst)) hle
    exact ⟨hfirst, fun other hother => hmin other (harmed hother)⟩

theorem exists_next {self : Lane P W} (hsound : self.phases.Sound) {item : Scheduled P W}
    (h : self.Armed item) : ∃ first, self.next = some first ∧ first ≤ item := by
  cases hnext : self.next with
  | some first => exact ⟨first, rfl, ((next_eq_some_iff hsound).mp hnext).2 item h⟩
  | none =>
    rw [next, List.min?_eq_none_iff, List.eq_nil_iff_forall_not_mem] at hnext
    simp only [List.reduceOption_mem_iff, List.mem_cons, List.not_mem_nil, or_false, not_or] at hnext
    rcases item with ⟨due, phase | reason⟩
    · obtain ⟨hlane, -⟩ := Timeline.get_eq_some_iff.mp (armed_expire_iff.mp h)
      obtain ⟨first, hfirst, -⟩ := Timeline.exists_next hlane
      exact absurd (by rw [hfirst]; rfl) (hnext (.expire first.due first.phase)).1
    · exact absurd (by rw [armed_wake_iff.mp h]; rfl) (hnext ⟨due, .wake reason⟩).2

theorem exists_next_of_lane {self : Lane P W} {i : Fin 3} {item : Expiry P}
    (h : self.phases.scheduled i = some item) : ∃ first, self.next = some first := by
  obtain ⟨first, hfirst, -⟩ := Timeline.exists_next h
  rw [← Option.ne_none_iff_exists', next, Ne, List.min?_eq_none_iff, hfirst]
  simp

theorem eq_empty_of_next {self : Lane P W} (hsound : self.phases.Sound) (h : self.next = none) :
    self = empty := by
  have hnot (item : Scheduled P W) : ¬ self.Armed item := by
    intro harmed
    obtain ⟨first, hfirst, -⟩ := exists_next hsound harmed
    rw [h] at hfirst
    contradiction
  have hscheduled : self.phases.scheduled = fun _ => none := by
    funext i
    rw [Option.eq_none_iff_forall_ne_some]
    intro item hi
    exact hnot ⟨item.due, .expire item.phase⟩ (armed_expire_iff.mpr (hsound.get_of_lane hi))
  have hprogress : self.phases.bodyProgress = none := by
    rw [Option.eq_none_iff_forall_ne_some]
    intro due hdue
    obtain ⟨stored, hstored, -⟩ := hsound.progress due hdue
    simp [hscheduled] at hstored
  have hwake : self.wake = none := by
    rw [Option.eq_none_iff_forall_ne_some]
    rintro ⟨due, reason⟩ hw
    exact hnot ⟨due, .wake reason⟩ (armed_wake_iff.mpr hw)
  rcases self with ⟨⟨scheduled, bodyProgress⟩, wake⟩
  exact congrArg₂ Lane.mk (congrArg₂ Timeline.mk hscheduled hprogress) hwake

@[simp]
theorem next_empty : (empty : Lane P W).next = none := rfl

/-! ## Settled lanes -/

/-- The lane with the pending progress moved into its timeline. -/
def settle (self : Lane P W) : Lane P W := { self with phases := self.phases.settle }

@[simp]
theorem settle_empty : (empty : Lane P W).settle = empty := by
  rw [settle, empty, Timeline.settle_empty]

theorem le_settle {self : Lane P W} (hsound : self.phases.Sound) {item : Scheduled P W}
    (h : self.settle.Armed item) :
    ∃ stored, self.Armed stored ∧ stored.action = item.action ∧ stored ≤ item := by
  rcases item with ⟨due, phase | reason⟩
  · obtain ⟨hlane, -⟩ := Timeline.get_eq_some_iff.mp (armed_expire_iff.mp h)
    obtain ⟨stored, hstored, hle, hphase⟩ := hsound.le_settle hlane
    have hget := hsound.get_of_lane hstored
    obtain rfl : stored.phase = phase := hphase
    exact ⟨⟨stored.due, .expire stored.phase⟩, armed_expire_iff.mpr hget, rfl,
      Scheduled.expire_le_expire_iff.mpr hle⟩
  · exact ⟨_, armed_wake_iff.mpr (armed_wake_iff.mp h), rfl, le_rfl⟩

theorem isSome_settle_get {self : Lane P W} (hsound : self.phases.Sound) (action : Action W) :
    (self.settle.get action).isSome = (self.get action).isSome := by
  cases action with
  | expire phase =>
    rw [get_expire, get_expire, Option.isSome_map, Option.isSome_map]
    exact hsound.isSome_settle_get phase
  | wake reason => rfl

theorem settle_next_eq_none_iff {self : Lane P W} (hsound : self.phases.Sound) :
    self.settle.next = none ↔ self.next = none := by
  constructor
  · intro h
    by_contra hne
    obtain ⟨item, hitem⟩ := Option.ne_none_iff_exists'.mp hne
    have harmed := ((next_eq_some_iff hsound).mp hitem).1
    have hsome := isSome_settle_get hsound item.action
    rw [show self.get item.action = some item from harmed,
      eq_empty_of_next hsound.settle_sound h] at hsome
    cases haction : item.action <;> simp [haction, empty, get, resident, Timeline.resident,
      Timeline.empty] at hsome
  · intro h
    rw [eq_empty_of_next hsound h, settle_empty, next_empty]

/-- A first item that settling does not move is the first item of the settled lane. -/
theorem settle_next_of_armed {self : Lane P W} (hsound : self.phases.Sound) {item : Scheduled P W}
    (hnext : self.next = some item) (harmed : self.settle.Armed item) :
    self.settle.next = some item := by
  have hsettle : self.settle.phases.Sound := hsound.settle_sound
  refine (next_eq_some_iff hsettle).mpr ⟨harmed, ?_⟩
  intro other hother
  obtain ⟨stored, hstored, -, hle⟩ := le_settle hsound hother
  exact (((next_eq_some_iff hsound).mp hnext).2 stored hstored).trans hle

/-- The first item is moved by settling only when it is an idle expiry to be renewed. -/
theorem settle_armed_of_next {self : Lane P W} (hsound : self.phases.Sound) {item : Scheduled P W}
    (hnext : self.next = some item)
    (hrenewed : ¬ (item.action = .expire .bodyIdle ∧
      (self.phases.refresh item.due).2 = .changed)) : self.settle.Armed item := by
  have harmed := ((next_eq_some_iff hsound).mp hnext).1
  rcases item with ⟨stored, phase | reason⟩
  · rw [armed_expire_iff] at harmed ⊢
    rcases hsound.settle_get phase with ⟨-, hsame⟩ | ⟨rfl, stored', due, hget, hdue, hle, hsettle⟩
    · rw [settle, hsame]
      exact harmed
    · obtain ⟨rfl, -⟩ := Expiry.mk.inj (Option.some.inj (hget.symm.trans harmed))
      -- a progress that does not renew the expiry comes at the same instant
      have hge : due ≤ stored' := by
        by_contra hlt
        refine hrenewed ⟨rfl, ?_⟩
        simp only [Timeline.refresh, hdue, if_neg hlt]
      rw [settle, hsettle, le_antisymm hle hge]
  · exact armed_wake_iff.mpr (armed_wake_iff.mp harmed)

/-! ## Operations on a lane -/

/-- The lane after a transition. -/
def advance (self : Lane P W) (config : Config D) (change : Transition) (now : N)
    (add : N → D → P) : Lane P W where
  phases := (self.phases.apply config change now add).1
  wake := if change = .retired then none else self.wake

/-- The lane after an item was scheduled. -/
def install (self : Lane P W) (item : Scheduled P W) : Lane P W :=
  if self.resident item.action = some item then self else self.store item

theorem clearWake_fst (self : Lane P W) : self.clearWake.1 = { self with wake := none } := by
  rw [clearWake]
  split_ifs with h
  · rw [Option.isNone_iff_eq_none] at h
    rw [← h]
  · rfl

theorem transition_eq (self : Lane P W) (config : Config D) (change : Transition) (now : N)
    (add : N → D → P) :
    self.transition config change now add =
      (self.advance config change now add,
        if (self.phases.apply config change now add).2 = .unchanged ∧
            (change = .retired → self.wake = none) then .unchanged
        else Mutation.between self.next (self.advance config change now add).next) := by
  simp only [transition, advance]
  by_cases hretired : change = .retired
  · simp only [hretired, if_true, clearWake_fst, true_imp_iff]
    cases hwake : self.wake <;> simp [clearWake]
    split_ifs <;> rfl
  · simp only [hretired, if_false, false_imp_iff, and_true]
    split_ifs <;> rfl

theorem transition_pair (self : Lane P W) (config : Config D) (change : Transition) (now : N)
    (add : N → D → P) :
    self.transition config change now add =
      (self.advance config change now add, (self.transition config change now add).2) := by
  refine Prod.ext ?_ rfl
  rw [transition_eq]

theorem advance_of_unchanged {self : Lane P W} {config : Config D} {change : Transition} {now : N}
    {add : N → D → P} (hchange : change ≠ .bodyProgress)
    (h : (self.transition config change now add).2 = .unchanged) :
    self.advance config change now add = self := by
  rw [transition_eq, Mutation.between] at h
  split_ifs at h with hsame
  have hphases := Timeline.apply_unchanged hchange hsame.1
  rcases self with ⟨phases, wake⟩
  refine congrArg₂ Lane.mk hphases ?_
  split_ifs with hretired
  · exact (hsame.2 hretired).symm
  · rfl

theorem advance_next {self : Lane P W} {config : Config D} {change : Transition} {now : N}
    {add : N → D → P} (hchange : change ≠ .bodyProgress)
    (h : (self.transition config change now add).2 ≠ .earliest) :
    (self.advance config change now add).next = self.next := by
  by_cases hsame : (self.transition config change now add).2 = .unchanged
  · rw [advance_of_unchanged hchange hsame]
  · rw [transition_eq, Mutation.between] at h hsame
    split_ifs at h hsame with hnext hkeeps
    · exact absurd rfl hsame
    · exact hkeeps.symm
    · exact absurd rfl h

theorem advance_bodyProgress_next (self : Lane P W) (config : Config D) (now : N)
    (add : N → D → P) : (self.advance config .bodyProgress now add).next = self.next := by
  simp only [next, advance, Timeline.apply, Timeline.next, Timeline.progress_scheduled,
    reduceCtorEq, if_false]

theorem settle_advance {self : Lane P W} (hsound : self.phases.Sound) {config : Config D}
    {change : Transition} {now : N} {add : N → D → P} (hchange : change ≠ .bodyProgress)
    (hadmits : self.phases.Admits config change now add) :
    (self.advance config change now add).settle = self.settle.advance config change now add := by
  simp only [advance, settle, Timeline.settle_apply hsound hchange hadmits]

theorem store_sound {self : Lane P W} (hsound : self.phases.Sound) (item : Scheduled P W) :
    (self.store item).phases.Sound := by
  rw [store]
  split
  · exact hsound.set _ _
  · exact hsound

theorem install_sound {self : Lane P W} (hsound : self.phases.Sound) (item : Scheduled P W) :
    (self.install item).phases.Sound := by
  rw [install]
  split_ifs
  · exact hsound
  · exact store_sound hsound item

theorem resident_expire_iff {self : Lane P W} {due : P} {phase : Phase} :
    self.resident (.expire phase) = some ⟨due, .expire phase⟩ ↔
      self.phases.scheduled phase.lane = some ⟨due, phase⟩ := by
  rw [resident, Timeline.resident]
  rcases self.phases.scheduled phase.lane with _ | ⟨due', phase'⟩
  · simp
  · simp [Scheduled.expire]

theorem install_expire (self : Lane P W) (due : P) (phase : Phase) :
    self.install ⟨due, .expire phase⟩ =
      { self with phases := (self.phases.insert due phase).1 } := by
  rw [install, Timeline.insert]
  by_cases h : self.phases.scheduled phase.lane = some ⟨due, phase⟩
  · rw [if_pos h, if_pos (resident_expire_iff.mpr h)]
  · rw [if_neg h, if_neg (mt resident_expire_iff.mp h), store]

theorem install_wake (self : Lane P W) (due : P) (reason : W) :
    self.install ⟨due, .wake reason⟩ = { self with wake := some ⟨due, reason⟩ } := by
  rw [install]
  split_ifs with h
  · rcases self with ⟨phases, _ | ⟨due', reason'⟩⟩
    · simp [resident] at h
    · simp only [resident, Option.map_some, Scheduled.wake, Option.some.injEq, Scheduled.mk.injEq,
        Action.wake.injEq] at h
      rw [h.1, h.2]
  · rfl

theorem settle_install {self : Lane P W} (hsound : self.phases.Sound) {item : Scheduled P W}
    (hadmits : item.action = .expire .bodyIdle → self.phases.AdmitsIdle item.due) :
    (self.install item).settle = self.settle.install item := by
  rcases item with ⟨due, phase | reason⟩
  · rw [install_expire, install_expire, settle, settle, Timeline.settle_insert hsound]
    rintro rfl
    exact hadmits rfl
  · rw [install_wake, install_wake]
    rfl

/-- The lane after one action was cancelled. -/
def drop (self : Lane P W) (action : Action W) : Lane P W :=
  if (self.get action).isNone then self else self.retire action

theorem retire_sound {self : Lane P W} (hsound : self.phases.Sound) {action : Action W}
    (hget : (self.get action).isSome = true) : (self.retire action).phases.Sound := by
  cases action with
  | expire phase =>
    rw [get_expire, Option.isSome_map] at hget
    exact hsound.clearPhase hget
  | wake reason =>
    rw [retire]
    split_ifs <;> exact hsound

theorem settle_retire {self : Lane P W} (hsound : self.phases.Sound) {action : Action W}
    (hget : (self.get action).isSome = true) :
    (self.retire action).settle = self.settle.retire action := by
  cases action with
  | expire phase =>
    rw [get_expire, Option.isSome_map] at hget
    simp only [retire, settle, Timeline.settle_clearPhase hsound hget]
  | wake reason =>
    by_cases h : (self.wake.any fun item => item.reason = reason) = true
    · simp [retire, settle, h]
    · simp [retire, settle, h]

theorem drop_sound {self : Lane P W} (hsound : self.phases.Sound) (action : Action W) :
    (self.drop action).phases.Sound := by
  rw [drop]
  split_ifs with h
  · exact hsound
  · exact retire_sound hsound (by simpa [Option.isSome_iff_ne_none] using h)

theorem settle_drop {self : Lane P W} (hsound : self.phases.Sound) (action : Action W) :
    (self.drop action).settle = self.settle.drop action := by
  have hget := isSome_settle_get hsound action
  rw [drop, drop]
  cases h : self.get action with
  | none =>
    rw [h, Option.isSome_none, Option.isSome_eq_false_iff] at hget
    rw [if_pos hget]
    rfl
  | some item =>
    rw [h, Option.isSome_some] at hget
    rw [if_neg (by simp), if_neg (by simpa [Option.isSome_iff_ne_none] using hget), settle_retire hsound (by rw [h]; rfl)]

theorem retire_idle {self : Lane P W} {action : Action W} {item : Expiry P}
    (h : (self.retire action).phases.get .bodyIdle = some item) :
    self.phases.get .bodyIdle = some item := by
  cases action with
  | expire phase => exact Timeline.clearPhase_idle h
  | wake reason =>
    rw [retire] at h
    split_ifs at h <;> exact h

theorem drop_idle {self : Lane P W} {action : Action W} {item : Expiry P}
    (h : (self.drop action).phases.get .bodyIdle = some item) :
    self.phases.get .bodyIdle = some item := by
  rw [drop] at h
  split_ifs at h
  · exact h
  · exact retire_idle h

/-- A retired item is no longer held, and every other item is. -/
theorem armed_retire_iff {self : Lane P W} {action : Action W} {item : Scheduled P W}
    (hget : (self.get action).isSome = true) :
    (self.retire action).Armed item ↔ self.Armed item ∧ item.action ≠ action := by
  obtain ⟨held, hheld⟩ := Option.isSome_iff_exists.mp hget
  obtain ⟨rfl, harmed⟩ := armed_of_get hheld
  rcases held with ⟨heldDue, heldPhase | heldReason⟩
  · rw [armed_expire_iff, Timeline.get_eq_some_iff] at harmed
    rcases item with ⟨due, phase | reason⟩
    · rw [armed_expire_iff, armed_expire_iff, Timeline.get_eq_some_iff, Timeline.get_eq_some_iff]
      simp only [retire, Timeline.clearPhase, Function.update_apply, ne_eq, Action.expire.injEq]
      by_cases hlane : phase.lane = heldPhase.lane
      · simp only [hlane, if_true, harmed.1]
        simp only [reduceCtorEq, Option.some.injEq, Expiry.mk.injEq, and_true, false_iff,
          not_and, not_not]
        exact fun h => h.2.symm
      · simp only [hlane, if_false, and_true]
        refine (and_iff_left ?_).symm
        rintro rfl
        exact hlane rfl
    · rw [armed_wake_iff, armed_wake_iff]
      simp [retire]
  · rw [armed_wake_iff] at harmed
    have hretire : self.retire (.wake heldReason) = { self with wake := none } := by
      simp [retire, harmed]
    rw [hretire]
    rcases item with ⟨due, phase | reason⟩
    · rw [armed_expire_iff, armed_expire_iff]
      simp
    · rw [armed_wake_iff, armed_wake_iff, harmed]
      simp only [reduceCtorEq, Option.some.injEq, Wake.mk.injEq, ne_eq, Action.wake.injEq,
        false_iff, not_and, not_not]
      exact fun h => h.2.symm

end Lane

end Sark.Deadline
