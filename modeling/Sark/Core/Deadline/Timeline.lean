import Mathlib.Data.List.ReduceOption
import Mathlib.Data.Prod.Lex
import Mathlib.Order.Lattice
import Mathlib.Tactic

/-!
# The timeline of one exchange

The total, ingress and work lanes of one exchange (`core/src/deadline/timeline.rs`). Every lane
holds at most one expiry. Body progress is lazy: it is kept beside the lanes and replaces the idle
expiry only when a due item is visited.

`Timeline.settle` is the timeline with the pending progress moved into its lane. It is what the
exchange has agreed to, and popping a due expiry is explained by it alone.

* `Timeline.settle_apply`: every other transition treats a timeline and its settled form alike.
* `Timeline.settle_progress`: progress is an insertion into the settled timeline.
* `Timeline.popDue_eq`: `popDue` answers with the first due item of the settled timeline.
-/

set_option linter.unusedSectionVars false

namespace Sark.Deadline

/-! ## Phases and windows -/

/-- The exchange phase whose progress authority expires. -/
inductive Phase where
  | head
  | bodyIdle
  | total
  | handler
  | responseAdmission
  deriving DecidableEq, Repr

namespace Phase

/-- `Phase::rank`: the total comes first, the others keep the order of the enumeration. -/
def rank : Phase → ℕ
  | .total => 0
  | .head => 1
  | .bodyIdle => 2
  | .handler => 4
  | .responseAdmission => 5

/-- `Phase::lane`: which lane a phase is kept in. -/
def lane : Phase → Fin 3
  | .total => 0
  | .head | .bodyIdle => 1
  | .handler | .responseAdmission => 2

theorem rank_injective : Function.Injective rank := by
  intro a b h
  cases a <;> cases b <;> simp_all [rank]

end Phase

/-- `config::Window`. -/
inductive Window (D : Type*) where
  | disabled
  | finite (window : D)

/-- `config::Config`: a window for every phase. -/
structure Config (D : Type*) where
  window : Phase → Window D

/-- One scheduled phase expiry. -/
structure Expiry (P : Type*) where
  due : P
  phase : Phase
  deriving DecidableEq, Repr

namespace Expiry

variable {P : Type*}

/-- Expiries are compared by time, then by rank. -/
def order (item : Expiry P) : P ×ₗ ℕ := toLex (item.due, item.phase.rank)

theorem order_injective : Function.Injective (order (P := P)) := by
  rintro ⟨due, phase⟩ ⟨due', phase'⟩ h
  obtain ⟨hdue, hrank⟩ := Prod.mk.inj (toLex.injective h)
  exact congrArg₂ Expiry.mk hdue (Phase.rank_injective hrank)

instance [LinearOrder P] : LinearOrder (Expiry P) := LinearOrder.lift' order order_injective

theorem le_iff [LinearOrder P] {a b : Expiry P} :
    a ≤ b ↔ a.due < b.due ∨ a.due = b.due ∧ a.phase.rank ≤ b.phase.rank :=
  Prod.Lex.toLex_le_toLex

theorem due_le_of_le [LinearOrder P] {a b : Expiry P} (h : a ≤ b) : a.due ≤ b.due := by
  rcases le_iff.mp h with h | h
  · exact h.le
  · exact h.1.le

end Expiry

/-- One protocol-neutral exchange lifetime transition. -/
inductive Transition where
  | «open»
  | awaitingHead
  | headAdmitted
  | inputAdmitted
  | bodyProgress
  | inputFinished
  | handlerStarted
  | responseReady
  | responseCommitted
  | retired
  deriving DecidableEq, Repr

/-- Whether an operation changed the timeline. -/
inductive Change where
  | unchanged
  | changed
  deriving DecidableEq, Repr

/-- `Change::merge`. -/
def Change.merge : Change → Change → Change
  | .unchanged, .unchanged => .unchanged
  | _, _ => .changed

theorem Change.merge_eq_unchanged_iff {a b : Change} :
    a.merge b = .unchanged ↔ a = .unchanged ∧ b = .unchanged := by
  cases a <;> cases b <;> simp [merge]

/-- Effect of one committed mutation on the externally armed minimum. -/
inductive Mutation where
  | unchanged
  | contents
  | earliest
  deriving DecidableEq, Repr

/-- `Mutation::between`. -/
def Mutation.between {S : Type*} [DecidableEq S] (before after : Option S) : Mutation :=
  if before = after then .contents else .earliest

/-! ## The timeline -/

/-- Linear total, ingress and work lanes for one exchange. -/
structure Timeline (P : Type*) where
  scheduled : Fin 3 → Option (Expiry P)
  bodyProgress : Option P

namespace Timeline

variable {P N D : Type*} [LinearOrder P]

/-- `Timeline::EMPTY`. -/
def empty : Timeline P := ⟨fun _ => none, none⟩

/-- `Timeline::resident`. -/
def resident (self : Timeline P) (phase : Phase) : Option (Expiry P) :=
  self.scheduled phase.lane

/-- `Timeline::get`. -/
def get (self : Timeline P) (phase : Phase) : Option (Expiry P) :=
  (self.resident phase).filter fun item => item.phase = phase

/-- `Timeline::next`: the first of the lanes' items. -/
def next (self : Timeline P) : Option (Expiry P) :=
  [self.scheduled 0, self.scheduled 1, self.scheduled 2].reduceOption.min?

/-- `Timeline::is_empty`. -/
def isEmpty (self : Timeline P) : Bool :=
  (self.scheduled 0).isNone && (self.scheduled 1).isNone && (self.scheduled 2).isNone

/-- `Timeline::set`: whatever enters the ingress lane ends the progress of what was there. -/
def set (self : Timeline P) (due : P) (phase : Phase) : Timeline P where
  scheduled := Function.update self.scheduled phase.lane (some ⟨due, phase⟩)
  bodyProgress := if phase.lane = Phase.bodyIdle.lane then none else self.bodyProgress

/-- `Timeline::insert`. -/
def insert (self : Timeline P) (due : P) (phase : Phase) : Timeline P × Change :=
  if self.scheduled phase.lane = some ⟨due, phase⟩ then (self, .unchanged)
  else (self.set due phase, .changed)

/-- `Timeline::insert_at`. -/
def insertAt (self : Timeline P) (due : Option P) (phase : Phase) : Timeline P × Change :=
  match due with
  | some due => self.insert due phase
  | none => (self, .unchanged)

/-- `Timeline::clear_phase`. -/
def clearPhase (self : Timeline P) (phase : Phase) : Timeline P where
  scheduled := Function.update self.scheduled phase.lane none
  bodyProgress := if phase = .bodyIdle then none else self.bodyProgress

/-- `Timeline::remove`. -/
def remove (self : Timeline P) (phase : Phase) : Timeline P × Change :=
  match self.scheduled phase.lane with
  | none => (self, .unchanged)
  | some item =>
    if item.phase ≠ phase then (self, .unchanged) else (self.clearPhase phase, .changed)

/-- `Timeline::instant`: the end of a phase's window, none when the window is disabled. -/
def instant (config : Config D) (phase : Phase) (now : N) (add : N → D → P) : Option P :=
  match config.window phase with
  | .disabled => none
  | .finite window => some (add now window)

/-- `Timeline::progress`. -/
def progress (self : Timeline P) (config : Config D) (now : N) (add : N → D → P) :
    Timeline P × Change :=
  if (self.get .bodyIdle).isNone then (self, .unchanged)
  else
    match instant config .bodyIdle now add with
    | none => (self, .unchanged)
    | some due =>
      -- a progress that does not come later than the pending one is dropped
      if self.bodyProgress.any fun idle => due ≤ idle then (self, .unchanged)
      else ({ self with bodyProgress := some due }, .changed)

/-- `Timeline::refresh`: takes the pending progress, and keeps it if it is later. -/
def refresh (self : Timeline P) (current : P) : Timeline P × Change :=
  match self.bodyProgress with
  | none => (self, .unchanged)
  | some due =>
    if due ≤ current then ({ self with bodyProgress := none }, .unchanged)
    else
      (⟨Function.update self.scheduled Phase.bodyIdle.lane (some ⟨due, .bodyIdle⟩), none⟩, .changed)

/-- `Timeline::clear`. -/
def clear (self : Timeline P) : Timeline P × Change :=
  if self.isEmpty && self.bodyProgress.isNone then (self, .unchanged) else (empty, .changed)

/-- Two operations one after the other, with their changes merged. -/
def both (first : Timeline P × Change) (second : Timeline P → Timeline P × Change) :
    Timeline P × Change :=
  ((second first.1).1, first.2.merge (second first.1).2)

/-- `Timeline::apply`. -/
def apply (self : Timeline P) (config : Config D) (step : Transition) (now : N)
    (add : N → D → P) : Timeline P × Change :=
  let at? (phase : Phase) := instant config phase now add
  match step with
  | .open =>
    if (self.get .total).isSome then (self, .unchanged)
    else self.insertAt (at? .total) .total
  | .awaitingHead =>
    both (self.insertAt (at? .total) .total) fun self => self.insertAt (at? .head) .head
  | .headAdmitted =>
    both (self.remove .head) fun self => self.insertAt (at? .bodyIdle) .bodyIdle
  | .inputAdmitted => self.remove .head
  | .bodyProgress => self.progress config now add
  | .inputFinished => self.remove .bodyIdle
  | .handlerStarted => self.insertAt (at? .handler) .handler
  | .responseReady =>
    both (self.remove .handler) fun self =>
      self.insertAt (at? .responseAdmission) .responseAdmission
  | .responseCommitted =>
    both (self.remove .handler) fun self => self.remove .responseAdmission
  | .retired => self.clear

/-- `Timeline::transition`. -/
def transition (self : Timeline P) (config : Config D) (step : Transition) (now : N)
    (add : N → D → P) : Timeline P × Mutation :=
  let after := self.apply config step now add
  (after.1,
    if after.2 = .unchanged then .unchanged else Mutation.between self.next after.1.next)

theorem bodyProgress_of_refresh {self after : Timeline P} {current : P}
    (h : self.refresh current = (after, .changed)) :
    after.bodyProgress = none ∧ self.bodyProgress.isSome = true := by
  rw [refresh] at h
  split at h
  · simp at h
  · split_ifs at h with hle
    · simp at h
    · obtain ⟨rfl, -⟩ := Prod.mk.inj h
      simp_all

/-- `Timeline::pop_due`. -/
def popDue (self : Timeline P) (now : P) : Option (Expiry P) × Timeline P :=
  match self.next with
  | none => (none, self)
  | some item =>
    if item.due ≤ now then
      match _h : self.refresh item.due with
      | (after, .changed) => after.popDue now
      | (after, .unchanged) => (some item, after.clearPhase item.phase)
    else (none, self)
termination_by self.bodyProgress.toList.length
decreasing_by
  obtain ⟨hnone, hsome⟩ := bodyProgress_of_refresh ‹_›
  obtain ⟨due, hdue⟩ := Option.isSome_iff_exists.mp hsome
  simp [hnone, hdue]

/-! ## The first item -/

theorem mem_lanes_iff {self : Timeline P} {item : Expiry P} :
    item ∈ [self.scheduled 0, self.scheduled 1, self.scheduled 2].reduceOption ↔
      ∃ i, self.scheduled i = some item := by
  rw [List.reduceOption_mem_iff]
  simp only [List.mem_cons, List.not_mem_nil, or_false, Fin.exists_fin_succ, Fin.isValue,
    eq_comm (a := some item), IsEmpty.exists_iff]
  rfl

theorem next_eq_some_iff {self : Timeline P} {item : Expiry P} :
    self.next = some item ↔ (∃ i, self.scheduled i = some item) ∧
      ∀ i other, self.scheduled i = some other → item ≤ other := by
  rw [next, List.min?_eq_some_iff, mem_lanes_iff]
  refine and_congr_right fun _ => ⟨fun h i other hi => h other (mem_lanes_iff.mpr ⟨i, hi⟩), ?_⟩
  intro h other hother
  obtain ⟨i, hi⟩ := mem_lanes_iff.mp hother
  exact h i other hi

theorem next_eq_none_iff {self : Timeline P} :
    self.next = none ↔ ∀ i, self.scheduled i = none := by
  rw [next, List.min?_eq_none_iff, List.eq_nil_iff_forall_not_mem]
  simp only [mem_lanes_iff, not_exists, Option.eq_none_iff_forall_ne_some]
  exact ⟨fun h i item => h item i, fun h item i => h i item⟩

theorem exists_next {self : Timeline P} {i : Fin 3} {item : Expiry P}
    (h : self.scheduled i = some item) : ∃ first, self.next = some first ∧ first ≤ item := by
  cases hnext : self.next with
  | none =>
    rw [next_eq_none_iff.mp hnext i] at h
    contradiction
  | some first => exact ⟨first, rfl, (next_eq_some_iff.mp hnext).2 i item h⟩

/-! ## Sound timelines -/

/-- What holds of every timeline whose operations respect the idle deadline: items are kept in
their own lanes, and a pending progress belongs to an idle expiry that it does not shorten. -/
structure Sound (timeline : Timeline P) : Prop where
  lanes : ∀ i item, timeline.scheduled i = some item → item.phase.lane = i
  progress : ∀ due, timeline.bodyProgress = some due →
    ∃ stored, timeline.scheduled 1 = some ⟨stored, .bodyIdle⟩ ∧ stored ≤ due

/-- An idle expiry may be set to `due`: not to the very instant that is stored, while a later
progress is pending. -/
def AdmitsIdle (self : Timeline P) (due : P) : Prop :=
  self.resident .bodyIdle = some ⟨due, .bodyIdle⟩ →
    ∀ later, self.bodyProgress = some later → later ≤ due

/-- A progress may compute the instant `due`: it comes no earlier than the idle expiry and the
progress already pending. -/
def AdmitsProgress (self : Timeline P) (due : P) : Prop :=
  ∀ item, self.get .bodyIdle = some item →
    item.due ≤ due ∧ ∀ later, self.bodyProgress = some later → later ≤ due

/-- A transition respects the idle deadline of the timeline. -/
def Admits (self : Timeline P) (config : Config D) (step : Transition) (now : N)
    (add : N → D → P) : Prop :=
  ∀ due, instant config .bodyIdle now add = some due →
    match step with
    | .headAdmitted => self.AdmitsIdle due
    | .bodyProgress => self.AdmitsProgress due
    | _ => True

theorem sound_empty : Sound (empty : Timeline P) where
  lanes _ _ h := by simp [empty] at h
  progress _ h := by simp [empty] at h

theorem get_eq_some_iff {self : Timeline P} {phase : Phase} {item : Expiry P} :
    self.get phase = some item ↔ self.scheduled phase.lane = some item ∧ item.phase = phase := by
  rw [get, resident, Option.filter_eq_some_iff, decide_eq_true_iff]

theorem Sound.get_of_lane {self : Timeline P} (h : self.Sound) {i : Fin 3} {item : Expiry P}
    (hi : self.scheduled i = some item) : self.get item.phase = some item := by
  rw [get_eq_some_iff, h.lanes i item hi]
  exact ⟨hi, rfl⟩

theorem Sound.bodyProgress_eq_none {self : Timeline P} (h : self.Sound) {item : Expiry P}
    (hitem : self.scheduled 1 = some item) (hphase : item.phase ≠ .bodyIdle) :
    self.bodyProgress = none := by
  rw [Option.eq_none_iff_forall_ne_some]
  intro due hdue
  obtain ⟨stored, hstored, -⟩ := h.progress due hdue
  rw [hitem, Option.some.injEq] at hstored
  exact hphase (by rw [hstored])

theorem Sound.set {self : Timeline P} (h : self.Sound) (due : P) (phase : Phase) :
    (self.set due phase).Sound where
  lanes i item hi := by
    simp only [Timeline.set, Function.update_apply] at hi
    split_ifs at hi with heq
    · rw [Option.some.injEq] at hi
      rw [← hi, heq]
    · exact h.lanes i item hi
  progress later hlater := by
    simp only [Timeline.set] at hlater
    split_ifs at hlater with hlane
    obtain ⟨stored, hstored, hle⟩ := h.progress later hlater
    have hne : (1 : Fin 3) ≠ phase.lane := fun heq => hlane heq.symm
    exact ⟨stored, (Function.update_of_ne hne _ _).trans hstored, hle⟩

theorem Sound.insert {self : Timeline P} (h : self.Sound) (due : P) (phase : Phase) :
    (self.insert due phase).1.Sound := by
  rw [Timeline.insert]
  split_ifs
  · exact h
  · exact h.set due phase

theorem Sound.insertAt {self : Timeline P} (h : self.Sound) (due : Option P) (phase : Phase) :
    (self.insertAt due phase).1.Sound := by
  cases due with
  | none => exact h
  | some due => exact h.insert due phase

theorem Sound.clearPhase {self : Timeline P} (h : self.Sound) {phase : Phase}
    (hget : (self.get phase).isSome = true) : (self.clearPhase phase).Sound where
  lanes i item hi := by
    simp only [Timeline.clearPhase, Function.update_apply] at hi
    split_ifs at hi
    exact h.lanes i item hi
  progress later hlater := by
    simp only [Timeline.clearPhase] at hlater
    split_ifs at hlater with hphase
    obtain ⟨stored, hstored, hle⟩ := h.progress later hlater
    obtain ⟨item, hitem⟩ := Option.isSome_iff_exists.mp hget
    obtain ⟨hitem, rfl⟩ := get_eq_some_iff.mp hitem
    -- the phase is not kept in the ingress lane, where the idle expiry is
    have hlane : (1 : Fin 3) ≠ item.phase.lane := by
      intro heq
      rw [← heq, hstored, Option.some.injEq] at hitem
      exact hphase (by rw [← hitem])
    exact ⟨stored, (Function.update_of_ne hlane _ _).trans hstored, hle⟩

theorem remove_eq (self : Timeline P) (phase : Phase) :
    (self.remove phase).1 =
      if (self.get phase).isSome then self.clearPhase phase else self := by
  rw [remove, get, resident]
  cases self.scheduled phase.lane with
  | none => rfl
  | some item => by_cases h : item.phase = phase <;> simp [h, Option.filter]

theorem Sound.remove {self : Timeline P} (h : self.Sound) (phase : Phase) :
    (self.remove phase).1.Sound := by
  rw [remove_eq]
  split_ifs with hget
  · exact h.clearPhase hget
  · exact h

theorem clear_eq (self : Timeline P) : self.clear.1 = empty := by
  rw [clear]
  split_ifs with h
  · simp only [isEmpty, Bool.and_eq_true, Option.isNone_iff_eq_none] at h
    obtain ⟨⟨⟨h0, h1⟩, h2⟩, hprogress⟩ := h
    rw [empty, ← hprogress]
    refine congrArg₂ Timeline.mk (funext fun i => ?_) rfl
    fin_cases i
    · exact h0
    · exact h1
    · exact h2
  · rfl

theorem Sound.progress_sound {self : Timeline P} (h : self.Sound) {config : Config D} {now : N}
    {add : N → D → P}
    (hadmits : ∀ due, instant config .bodyIdle now add = some due → self.AdmitsProgress due) :
    (self.progress config now add).1.Sound := by
  rw [Timeline.progress]
  split_ifs with hget
  · exact h
  · split
    · exact h
    · rename_i due hdue
      split_ifs
      · exact h
      · refine ⟨h.lanes, fun later hlater => ?_⟩
        obtain rfl : due = later := by simpa using hlater
        obtain ⟨item, hitem⟩ := Option.ne_none_iff_exists'.mp (mt Option.isNone_iff_eq_none.mpr hget)
        have hle := (hadmits due hdue item hitem).1
        obtain ⟨hlane, hphase⟩ := get_eq_some_iff.mp hitem
        exact ⟨item.due, by rw [← hphase]; exact hlane, hle⟩

/-! ## The settled timeline -/

/-- The timeline with the pending progress moved into its lane. -/
def settle (self : Timeline P) : Timeline P where
  scheduled :=
    match self.bodyProgress with
    | none => self.scheduled
    | some due => Function.update self.scheduled 1 (some ⟨due, .bodyIdle⟩)
  bodyProgress := none

theorem settle_of_none {self : Timeline P} (h : self.bodyProgress = none) : self.settle = self := by
  obtain ⟨scheduled, bodyProgress⟩ := self
  obtain rfl : bodyProgress = none := h
  rfl

theorem settle_of_some {self : Timeline P} {due : P} (h : self.bodyProgress = some due) :
    self.settle = ⟨Function.update self.scheduled 1 (some ⟨due, .bodyIdle⟩), none⟩ := by
  rw [settle, h]

@[simp]
theorem settle_settle (self : Timeline P) : self.settle.settle = self.settle :=
  settle_of_none rfl

@[simp]
theorem settle_empty : (empty : Timeline P).settle = empty :=
  settle_of_none rfl

theorem set_of_lane (self : Timeline P) {due : P} {phase : Phase} (h : phase.lane = 1) :
    self.set due phase = ⟨Function.update self.scheduled 1 (some ⟨due, phase⟩), none⟩ := by
  rw [set, h]
  rfl

theorem set_of_ne (self : Timeline P) {due : P} {phase : Phase} (h : phase.lane ≠ 1) :
    self.set due phase =
      ⟨Function.update self.scheduled phase.lane (some ⟨due, phase⟩), self.bodyProgress⟩ := by
  rw [set]
  exact congrArg _ (if_neg h)

theorem settle_set (self : Timeline P) (due : P) (phase : Phase) :
    (self.set due phase).settle = self.settle.set due phase := by
  by_cases hlane : phase.lane = 1
  · rw [set_of_lane self hlane, set_of_lane _ hlane, settle_of_none rfl]
    cases hprogress : self.bodyProgress with
    | none => rw [settle_of_none hprogress]
    | some later =>
      rw [settle_of_some hprogress]
      simp only [Function.update_idem]
  · rw [set_of_ne self hlane, set_of_ne _ hlane]
    cases hprogress : self.bodyProgress with
    | none => rw [settle_of_none rfl, settle_of_none hprogress, hprogress]
    | some later =>
      rw [settle_of_some rfl, settle_of_some hprogress]
      simp only [Function.update_comm hlane]

theorem insert_of_none {self : Timeline P} (h : self.bodyProgress = none) (due : P)
    (phase : Phase) : (self.insert due phase).1 = self.set due phase := by
  rw [insert]
  split_ifs with hsame
  · rw [set, ← hsame, Function.update_eq_self, h, ite_self, ← h]
  · rfl

theorem settle_insert {self : Timeline P} (hsound : self.Sound) {due : P} {phase : Phase}
    (hadmits : phase = .bodyIdle → self.AdmitsIdle due) :
    (self.insert due phase).1.settle = (self.settle.insert due phase).1 := by
  have hnone : self.settle.bodyProgress = none := rfl
  rw [insert_of_none hnone, ← settle_set, insert]
  split_ifs with hsame
  · cases hprogress : self.bodyProgress with
    | none => rw [← insert_of_none hprogress, insert, if_pos hsame]
    | some later =>
      by_cases hlane : phase.lane = 1
      · -- the stored expiry is the idle one, and the pending progress comes at the same time
        obtain ⟨stored, hstored, hle⟩ := hsound.progress later hprogress
        rw [← hlane, hsame, Option.some.injEq, Expiry.mk.injEq] at hstored
        obtain ⟨rfl, rfl⟩ := hstored
        obtain rfl : due = later := le_antisymm hle (hadmits rfl hsame later hprogress)
        rw [settle_of_some hprogress, set_of_lane self rfl, settle_of_none rfl]
      · have hset : self.set due phase = self := by
          rw [set_of_ne self hlane, ← hsame, Function.update_eq_self]
        rw [hset]
  · rfl

theorem settle_insertAt {self : Timeline P} (hsound : self.Sound) {due : Option P} {phase : Phase}
    (hadmits : phase = .bodyIdle → ∀ at?, due = some at? → self.AdmitsIdle at?) :
    (self.insertAt due phase).1.settle = (self.settle.insertAt due phase).1 := by
  cases due with
  | none => rfl
  | some due => exact settle_insert hsound fun hphase => hadmits hphase due rfl

theorem Sound.settle_get {self : Timeline P} (hsound : self.Sound) (phase : Phase) :
    (phase ≠ .bodyIdle ∨ self.bodyProgress = none) ∧ self.settle.get phase = self.get phase ∨
      phase = .bodyIdle ∧ ∃ stored due, self.get .bodyIdle = some ⟨stored, .bodyIdle⟩ ∧
        self.bodyProgress = some due ∧ stored ≤ due ∧
        self.settle.get .bodyIdle = some ⟨due, .bodyIdle⟩ := by
  cases hprogress : self.bodyProgress with
  | none =>
    rw [settle_of_none hprogress]
    exact .inl ⟨.inr rfl, rfl⟩
  | some due =>
    obtain ⟨stored, hstored, hle⟩ := hsound.progress due hprogress
    by_cases hphase : phase = .bodyIdle
    · right
      refine ⟨hphase, stored, due, get_eq_some_iff.mpr ⟨hstored, rfl⟩, rfl, hle, ?_⟩
      simp [settle_of_some hprogress, get_eq_some_iff, Phase.lane]
    · refine .inl ⟨.inl hphase, ?_⟩
      rw [settle_of_some hprogress, get, get, resident, resident]
      by_cases hlane : phase.lane = 1
      · -- both lanes hold an idle expiry, which is not what is looked for
        simp [hlane, hstored, Option.filter, Ne.symm hphase]
      · simp only [Function.update_of_ne hlane]

theorem Sound.isSome_settle_get {self : Timeline P} (hsound : self.Sound) (phase : Phase) :
    (self.settle.get phase).isSome = (self.get phase).isSome := by
  rcases hsound.settle_get phase with ⟨-, h⟩ | ⟨rfl, stored, due, hget, -, -, hsettle⟩
  · rw [h]
  · rw [hget, hsettle]
    rfl

theorem settle_clearPhase {self : Timeline P} (hsound : self.Sound) {phase : Phase}
    (hget : (self.get phase).isSome = true) :
    (self.clearPhase phase).settle = self.settle.clearPhase phase := by
  cases hprogress : self.bodyProgress with
  | none =>
    rw [settle_of_none hprogress, settle_of_none]
    rw [clearPhase, hprogress, ite_self]
  | some due =>
    by_cases hphase : phase = .bodyIdle
    · subst hphase
      have hnone : (self.clearPhase .bodyIdle).bodyProgress = none := rfl
      rw [settle_of_some hprogress, settle_of_none hnone]
      simp only [clearPhase, if_true, Phase.lane, Function.update_idem]
    · have hlane : phase.lane ≠ 1 := by
        intro hlane
        obtain ⟨item, hitem⟩ := Option.isSome_iff_exists.mp hget
        obtain ⟨hitem, rfl⟩ := get_eq_some_iff.mp hitem
        rw [hlane] at hitem
        rw [hsound.bodyProgress_eq_none hitem hphase] at hprogress
        contradiction
      have hsome : (self.clearPhase phase).bodyProgress = some due := by
        rw [← hprogress]
        exact if_neg hphase
      rw [settle_of_some hprogress, settle_of_some hsome]
      simp only [clearPhase, if_neg hphase, Function.update_comm hlane]

theorem settle_remove {self : Timeline P} (hsound : self.Sound) (phase : Phase) :
    (self.remove phase).1.settle = (self.settle.remove phase).1 := by
  rw [remove_eq, remove_eq, hsound.isSome_settle_get]
  split_ifs with hget
  · exact settle_clearPhase hsound hget
  · rfl

/-- Rescheduling the idle expiry at once, where `progress` is lazy. -/
def reschedule (self : Timeline P) (config : Config D) (now : N) (add : N → D → P) :
    Timeline P :=
  if (self.get .bodyIdle).isSome then
    (self.insertAt (instant config .bodyIdle now add) .bodyIdle).1
  else self

theorem settle_progress {self : Timeline P} (hsound : self.Sound) {config : Config D} {now : N}
    {add : N → D → P}
    (hadmits : ∀ due, instant config .bodyIdle now add = some due → self.AdmitsProgress due) :
    (self.progress config now add).1.settle = self.settle.reschedule config now add := by
  rw [progress, reschedule, hsound.isSome_settle_get]
  cases hget : self.get .bodyIdle with
  | none => rfl
  | some item =>
    obtain ⟨hlane, hphase⟩ := get_eq_some_iff.mp hget
    cases hdue : instant config .bodyIdle now add with
    | none => rfl
    | some due =>
      have hle := (hadmits due hdue item hget).2
      have hset : (⟨Function.update self.scheduled 1 (some ⟨due, .bodyIdle⟩), none⟩ : Timeline P) =
          self.settle.set due .bodyIdle := by
        rw [← settle_set, set_of_lane self rfl, settle_of_none rfl]
      have hnone : self.settle.bodyProgress = none := rfl
      simp only [Option.isNone_some, Option.isSome_some, if_true, insertAt, Bool.false_eq_true,
        if_false, insert_of_none hnone, ← hset]
      split_ifs with hpending
      · -- the pending progress is at the same instant
        obtain ⟨later, hlater, hge⟩ := (Option.any_eq_true _ _).mp hpending
        obtain rfl : due = later := le_antisymm (of_decide_eq_true hge) (hle later hlater)
        rw [settle_of_some hlater]
      · rw [settle_of_some rfl]

/-! ## Transitions -/

theorem both_fst (first : Timeline P × Change) (second : Timeline P → Timeline P × Change) :
    (both first second).1 = (second first.1).1 := rfl

theorem AdmitsIdle.remove_head {self : Timeline P} {due : P} (h : self.AdmitsIdle due) :
    (self.remove .head).1.AdmitsIdle due := by
  rw [remove_eq]
  split_ifs
  · intro hresident
    simp [resident, clearPhase, Phase.lane] at hresident
  · exact h

theorem Sound.apply {self : Timeline P} (h : self.Sound) {config : Config D} {step : Transition}
    {now : N} {add : N → D → P} (hadmits : self.Admits config step now add) :
    (self.apply config step now add).1.Sound := by
  cases step with
  | «open» =>
    simp only [Timeline.apply]
    split_ifs
    · exact h
    · exact h.insertAt _ _
  | awaitingHead => exact (h.insertAt _ _).insertAt _ _
  | headAdmitted => exact (h.remove _).insertAt _ _
  | inputAdmitted => exact h.remove _
  | bodyProgress => exact h.progress_sound hadmits
  | inputFinished => exact h.remove _
  | handlerStarted => exact h.insertAt _ _
  | responseReady => exact (h.remove _).insertAt _ _
  | responseCommitted => exact (h.remove _).remove _
  | retired =>
    simp only [Timeline.apply, clear_eq]
    exact sound_empty

theorem settle_apply {self : Timeline P} (h : self.Sound) {config : Config D} {step : Transition}
    {now : N} {add : N → D → P} (hstep : step ≠ .bodyProgress)
    (hadmits : self.Admits config step now add) :
    (self.apply config step now add).1.settle = (self.settle.apply config step now add).1 := by
  cases step with
  | «open» =>
    simp only [apply, h.isSome_settle_get]
    split_ifs
    · rfl
    · exact settle_insertAt h (by simp)
  | awaitingHead =>
    simp only [apply, both_fst]
    rw [settle_insertAt (h.insertAt _ _) (by simp), settle_insertAt h (by simp)]
  | headAdmitted =>
    simp only [apply, both_fst]
    rw [settle_insertAt (h.remove _) fun _ due hdue => (hadmits due hdue).remove_head,
      settle_remove h]
  | inputAdmitted => exact settle_remove h _
  | bodyProgress => contradiction
  | inputFinished => exact settle_remove h _
  | handlerStarted => exact settle_insertAt h (by simp)
  | responseReady =>
    simp only [apply, both_fst]
    rw [settle_insertAt (h.remove _) (by simp), settle_remove h]
  | responseCommitted =>
    simp only [apply, both_fst]
    rw [settle_remove (h.remove _), settle_remove h]
  | retired =>
    simp only [apply, clear_eq]
    rfl

theorem insertAt_unchanged {self : Timeline P} {due : Option P} {phase : Phase}
    (h : (self.insertAt due phase).2 = .unchanged) : (self.insertAt due phase).1 = self := by
  cases due with
  | none => rfl
  | some due =>
    simp only [insertAt, insert] at h ⊢
    split_ifs at h ⊢
    rfl

theorem remove_unchanged {self : Timeline P} {phase : Phase}
    (h : (self.remove phase).2 = .unchanged) : (self.remove phase).1 = self := by
  rw [remove] at h ⊢
  split at h
  · rfl
  · split_ifs at h with hphase
    rw [if_pos hphase]

theorem both_unchanged {self : Timeline P} {first : Timeline P × Change}
    {second : Timeline P → Timeline P × Change} (h : (both first second).2 = .unchanged)
    (hfirst : first.2 = .unchanged → first.1 = self)
    (hsecond : (second self).2 = .unchanged → (second self).1 = self) :
    (both first second).1 = self := by
  obtain ⟨h₁, h₂⟩ := Change.merge_eq_unchanged_iff.mp h
  rw [hfirst h₁] at h₂
  rw [both_fst, hfirst h₁, hsecond h₂]

theorem apply_unchanged {self : Timeline P} {config : Config D} {step : Transition}
    {now : N} {add : N → D → P} (hstep : step ≠ .bodyProgress)
    (h : (self.apply config step now add).2 = .unchanged) :
    (self.apply config step now add).1 = self := by
  cases step with
  | «open» =>
    simp only [apply] at h ⊢
    split_ifs at h ⊢
    · rfl
    · exact insertAt_unchanged h
  | awaitingHead => exact both_unchanged h insertAt_unchanged insertAt_unchanged
  | headAdmitted => exact both_unchanged h remove_unchanged insertAt_unchanged
  | inputAdmitted => exact remove_unchanged h
  | bodyProgress => contradiction
  | inputFinished => exact remove_unchanged h
  | handlerStarted => exact insertAt_unchanged h
  | responseReady => exact both_unchanged h remove_unchanged insertAt_unchanged
  | responseCommitted => exact both_unchanged h remove_unchanged remove_unchanged
  | retired =>
    simp only [apply, clear] at h ⊢
    split_ifs at h ⊢
    rfl

/-! ### The total -/

theorem insertAt_get_of_ne (self : Timeline P) {due : Option P} {phase other : Phase}
    (h : phase.lane ≠ other.lane) : (self.insertAt due phase).1.get other = self.get other := by
  cases due with
  | none => rfl
  | some due =>
    simp only [insertAt, insert]
    split_ifs
    · rfl
    · simp only [get, resident, set, Function.update_of_ne (Ne.symm h)]

theorem remove_get_of_ne (self : Timeline P) {phase other : Phase}
    (h : phase.lane ≠ other.lane) : (self.remove phase).1.get other = self.get other := by
  rw [remove_eq]
  split_ifs
  · simp only [get, resident, clearPhase, Function.update_of_ne (Ne.symm h)]
  · rfl

theorem progress_scheduled (self : Timeline P) (config : Config D) (now : N) (add : N → D → P) :
    (self.progress config now add).1.scheduled = self.scheduled := by
  rw [progress]
  split_ifs
  · rfl
  · split
    · rfl
    · split_ifs <;> rfl

/-- An armed total is moved by no transition that goes on with the exchange, opening it again
included. -/
theorem apply_total {self : Timeline P} {config : Config D} {step : Transition} {now : N}
    {add : N → D → P} (hhead : step ≠ .awaitingHead) (hretired : step ≠ .retired)
    (htotal : (self.get .total).isSome = true) :
    (self.apply config step now add).1.get .total = self.get .total := by
  cases step with
  | «open» => simp only [apply, htotal, if_true]
  | awaitingHead => contradiction
  | headAdmitted =>
    simp only [apply, both_fst]
    rw [insertAt_get_of_ne _ (by decide), remove_get_of_ne _ (by decide)]
  | inputAdmitted => exact remove_get_of_ne _ (by decide)
  | bodyProgress => simp only [apply, get, resident, progress_scheduled]
  | inputFinished => exact remove_get_of_ne _ (by decide)
  | handlerStarted => exact insertAt_get_of_ne _ (by decide)
  | responseReady =>
    simp only [apply, both_fst]
    rw [insertAt_get_of_ne _ (by decide), remove_get_of_ne _ (by decide)]
  | responseCommitted =>
    simp only [apply, both_fst]
    rw [remove_get_of_ne _ (by decide), remove_get_of_ne _ (by decide)]
  | retired => contradiction

/-! ### The idle expiry -/

theorem insert_idle {self : Timeline P} {due : P} {phase : Phase} (hphase : phase ≠ .bodyIdle)
    {item : Expiry P} (h : (self.insert due phase).1.get .bodyIdle = some item) :
    self.get .bodyIdle = some item := by
  rw [insert] at h
  split_ifs at h
  · exact h
  · rw [get_eq_some_iff, set] at h
    by_cases hlane : Phase.bodyIdle.lane = phase.lane
    · simp only [hlane, Function.update_self, Option.some.injEq] at h
      exact absurd (by rw [← h.2, ← h.1]) hphase
    · simp only [Function.update_of_ne hlane] at h
      exact get_eq_some_iff.mpr h

theorem insertAt_idle {self : Timeline P} {due : Option P} {phase : Phase}
    (hphase : phase ≠ .bodyIdle) {item : Expiry P}
    (h : (self.insertAt due phase).1.get .bodyIdle = some item) :
    self.get .bodyIdle = some item := by
  cases due with
  | none => exact h
  | some due => exact insert_idle hphase h

theorem clearPhase_idle {self : Timeline P} {phase : Phase} {item : Expiry P}
    (h : (self.clearPhase phase).get .bodyIdle = some item) : self.get .bodyIdle = some item := by
  rw [get_eq_some_iff, clearPhase] at h
  by_cases hlane : Phase.bodyIdle.lane = phase.lane
  · simp only [hlane, Function.update_self, reduceCtorEq, false_and] at h
  · simp only [Function.update_of_ne hlane] at h
    exact get_eq_some_iff.mpr h

theorem remove_idle {self : Timeline P} {phase : Phase} {item : Expiry P}
    (h : (self.remove phase).1.get .bodyIdle = some item) : self.get .bodyIdle = some item := by
  rw [remove_eq] at h
  split_ifs at h
  · exact clearPhase_idle h
  · exact h

theorem apply_idle {self : Timeline P} {config : Config D} {step : Transition} {now : N}
    {add : N → D → P} (hhead : step ≠ .headAdmitted) (hprogress : step ≠ .bodyProgress)
    {item : Expiry P} (h : (self.apply config step now add).1.get .bodyIdle = some item) :
    self.get .bodyIdle = some item := by
  cases step with
  | «open» =>
    simp only [apply] at h
    split_ifs at h
    · exact h
    · exact insertAt_idle (by simp) h
  | awaitingHead => exact insertAt_idle (by simp) (insertAt_idle (by simp) h)
  | headAdmitted => contradiction
  | inputAdmitted => exact remove_idle h
  | bodyProgress => contradiction
  | inputFinished => exact remove_idle h
  | handlerStarted => exact insertAt_idle (by simp) h
  | responseReady => exact remove_idle (insertAt_idle (by simp) h)
  | responseCommitted => exact remove_idle (remove_idle h)
  | retired =>
    simp only [apply, clear_eq] at h
    contradiction

theorem reschedule_idle {self : Timeline P} (hsound : self.Sound) {config : Config D} {now : N}
    {add : N → D → P}
    (hadmits : ∀ due, instant config .bodyIdle now add = some due → self.AdmitsProgress due)
    {item : Expiry P} (h : (self.settle.reschedule config now add).get .bodyIdle = some item) :
    ∃ before, self.settle.get .bodyIdle = some before ∧ before.due ≤ item.due := by
  rw [reschedule] at h
  split_ifs at h with hsome
  · obtain ⟨before, hbefore⟩ := Option.isSome_iff_exists.mp hsome
    refine ⟨before, hbefore, ?_⟩
    cases hinstant : instant config .bodyIdle now add with
    | none =>
      rw [hinstant, insertAt, hbefore, Option.some.injEq] at h
      rw [h]
    | some due =>
      have hnone : self.settle.bodyProgress = none := rfl
      rw [hinstant, insertAt, insert_of_none hnone, set_of_lane _ rfl, get_eq_some_iff] at h
      have hitem : due = item.due := congrArg Expiry.due (Option.some.inj h.1)
      rw [← hitem]
      -- the settled expiry is the stored one or the pending progress
      rcases hsound.settle_get .bodyIdle with ⟨-, hsame⟩ | ⟨-, stored, later, hget, hlater, -, hsettle⟩
      · exact (hadmits due hinstant before (hsame ▸ hbefore)).1
      · rw [hbefore, Option.some.injEq] at hsettle
        rw [hsettle]
        exact (hadmits due hinstant _ hget).2 later hlater
  · exact ⟨item, h, le_rfl⟩

/-! ## Popping -/

theorem Sound.le_settle {self : Timeline P} (h : self.Sound) {i : Fin 3} {item : Expiry P}
    (hi : self.settle.scheduled i = some item) :
    ∃ stored, self.scheduled i = some stored ∧ stored ≤ item ∧ stored.phase = item.phase := by
  cases hprogress : self.bodyProgress with
  | none =>
    rw [settle_of_none hprogress] at hi
    exact ⟨item, hi, le_rfl, rfl⟩
  | some due =>
    rw [settle_of_some hprogress] at hi
    by_cases hone : i = 1
    · subst hone
      obtain ⟨stored, hstored, hle⟩ := h.progress due hprogress
      obtain rfl : ⟨due, .bodyIdle⟩ = item := by simpa using hi
      refine ⟨_, hstored, Expiry.le_iff.mpr ?_, rfl⟩
      rcases hle.lt_or_eq with hlt | heq
      · exact .inl hlt
      · exact .inr ⟨heq, le_rfl⟩
    · simp only [Function.update_of_ne hone] at hi
      exact ⟨item, hi, le_rfl, rfl⟩

/-- The first item due at an instant. -/
def due (self : Timeline P) (now : P) : Option (Expiry P) :=
  self.next.filter fun item => item.due ≤ now

/-- The timeline without its first due item. -/
def expire (self : Timeline P) (now : P) : Timeline P :=
  match self.due now with
  | none => self
  | some item => self.clearPhase item.phase

theorem Sound.due_settle_eq_none {self : Timeline P} (h : self.Sound) {now : P}
    (hdue : self.due now = none) : self.settle.due now = none := by
  rw [due, Option.filter_eq_none_iff] at hdue ⊢
  intro item hitem
  obtain ⟨⟨i, hi⟩, -⟩ := next_eq_some_iff.mp hitem
  obtain ⟨stored, hstored, hle, -⟩ := h.le_settle hi
  obtain ⟨first, hfirst, hfirstLe⟩ := exists_next hstored
  have hlate := hdue first hfirst
  simp only [decide_eq_true_eq, not_le] at hlate ⊢
  exact hlate.trans_le (Expiry.due_le_of_le (hfirstLe.trans hle))

theorem due_eq_some_iff {self : Timeline P} {now : P} {item : Expiry P} :
    self.due now = some item ↔ self.next = some item ∧ item.due ≤ now := by
  rw [due, Option.filter_eq_some_iff, decide_eq_true_iff]

theorem popDue_of_not_due {self : Timeline P} {now : P} (h : self.due now = none) :
    self.popDue now = (none, self) := by
  rw [popDue]
  cases hnext : self.next with
  | none => rfl
  | some item =>
    rw [due, hnext, Option.filter_eq_none_iff] at h
    exact if_neg fun hle => h item rfl (decide_eq_true hle)

theorem popDue_of_changed {self after : Timeline P} {now : P} {item : Expiry P}
    (hdue : self.due now = some item) (hrefresh : self.refresh item.due = (after, .changed)) :
    self.popDue now = after.popDue now := by
  obtain ⟨hnext, hle⟩ := due_eq_some_iff.mp hdue
  rw [popDue, hnext]
  simp only [hle, if_true]
  split
  · rename_i heq
    rw [hrefresh, Prod.mk.injEq] at heq
    rw [heq.1]
  · rename_i heq
    simp [hrefresh] at heq

theorem popDue_of_unchanged {self after : Timeline P} {now : P} {item : Expiry P}
    (hdue : self.due now = some item) (hrefresh : self.refresh item.due = (after, .unchanged)) :
    self.popDue now = (some item, after.clearPhase item.phase) := by
  obtain ⟨hnext, hle⟩ := due_eq_some_iff.mp hdue
  rw [popDue, hnext]
  simp only [hle, if_true]
  split
  · rename_i heq
    simp [hrefresh] at heq
  · rename_i heq
    rw [hrefresh, Prod.mk.injEq] at heq
    rw [heq.1]

theorem popDue_of_none {self : Timeline P} (hprogress : self.bodyProgress = none) (now : P) :
    self.popDue now = (self.due now, self.expire now) := by
  cases hdue : self.due now with
  | none => rw [popDue_of_not_due hdue, expire, hdue]
  | some item =>
    have hrefresh : self.refresh item.due = (self, .unchanged) := by rw [refresh, hprogress]
    rw [popDue_of_unchanged hdue hrefresh, expire, hdue]

/-- A pending progress that is no later than the first item does not move the idle expiry. -/
theorem Sound.settle_of_le {self : Timeline P} (h : self.Sound) {item : Expiry P} {due : P}
    (hnext : self.next = some item) (hprogress : self.bodyProgress = some due)
    (hle : due ≤ item.due) : self.settle = { self with bodyProgress := none } := by
  obtain ⟨stored, hstored, hstoredLe⟩ := h.progress due hprogress
  have hfirst := Expiry.due_le_of_le ((next_eq_some_iff.mp hnext).2 1 _ hstored)
  obtain rfl : stored = due := le_antisymm hstoredLe (hle.trans hfirst)
  rw [settle_of_some hprogress, ← hstored, Function.update_eq_self]

theorem refresh_unchanged {self : Timeline P} {current : P}
    (h : (self.refresh current).2 = .unchanged) :
    (self.refresh current).1 = { self with bodyProgress := none } := by
  rw [refresh] at h ⊢
  split at h
  · rename_i hnone
    rw [← hnone]
  · split_ifs at h with hle
    rw [if_pos hle]

theorem refresh_changed {self : Timeline P} {current : P}
    (h : (self.refresh current).2 = .changed) :
    (self.refresh current).1 = self.settle ∧ self.bodyProgress.isSome = true := by
  rw [refresh] at h ⊢
  split at h
  · contradiction
  · rename_i due hdue
    split_ifs at h with hle
    rw [if_neg hle, settle_of_some hdue, hdue]
    exact ⟨rfl, rfl⟩

theorem Sound.popDue_of_due {self : Timeline P} (h : self.Sound) {now : P} {item : Expiry P}
    (hdue : self.due now = some item) :
    self.popDue now = (self.settle.due now, self.settle.expire now) := by
  obtain ⟨hnext, -⟩ := due_eq_some_iff.mp hdue
  have hsettle : self.settle.bodyProgress = none := rfl
  cases hprogress : self.bodyProgress with
  | none => rw [settle_of_none hprogress, popDue_of_none hprogress]
  | some due =>
    by_cases hle : due ≤ item.due
    · have hrefresh : self.refresh item.due = (self.settle, .unchanged) := by
        rw [refresh, hprogress, h.settle_of_le hnext hprogress hle]
        exact if_pos hle
      have hsame : self.settle.due now = some item := by
        rw [h.settle_of_le hnext hprogress hle]
        exact hdue
      rw [popDue_of_unchanged hdue hrefresh, hsame, expire, hsame]
    · have hrefresh : self.refresh item.due = (self.settle, .changed) := by
        rw [refresh, hprogress, settle_of_some hprogress]
        exact if_neg hle
      rw [popDue_of_changed hdue hrefresh, popDue_of_none hsettle]

theorem Sound.settle_sound {self : Timeline P} (h : self.Sound) : self.settle.Sound where
  lanes i item hi := by
    obtain ⟨stored, hstored, -, hphase⟩ := h.le_settle hi
    rw [← hphase]
    exact h.lanes i stored hstored
  progress due hdue := by simp [settle] at hdue

theorem Sound.expire_sound {self : Timeline P} (h : self.Sound) (now : P) :
    (self.expire now).Sound := by
  rw [Timeline.expire]
  cases hdue : self.due now with
  | none => exact h
  | some item =>
    obtain ⟨⟨i, hi⟩, -⟩ := next_eq_some_iff.mp (due_eq_some_iff.mp hdue).1
    exact h.clearPhase (by rw [h.get_of_lane hi]; rfl)

theorem expire_bodyProgress {self : Timeline P} (h : self.bodyProgress = none) (now : P) :
    (self.expire now).bodyProgress = none := by
  rw [expire]
  split
  · exact h
  · rw [clearPhase, h, ite_self]

/-- `pop_due` answers with the first due item of the settled timeline and takes it away. -/
theorem popDue_eq {self : Timeline P} (h : self.Sound) (now : P) :
    (self.popDue now).1 = self.settle.due now ∧
      (self.popDue now).2.settle = self.settle.expire now ∧ (self.popDue now).2.Sound := by
  cases hdue : self.due now with
  | none =>
    have hnone := h.due_settle_eq_none hdue
    rw [popDue_of_not_due hdue, hnone, expire, hnone]
    exact ⟨rfl, rfl, h⟩
  | some item =>
    rw [h.popDue_of_due hdue]
    exact ⟨rfl, settle_of_none (expire_bodyProgress rfl now), h.settle_sound.expire_sound now⟩

end Timeline

end Sark.Deadline
