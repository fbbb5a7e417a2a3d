import Sark.H2.Flow.Receive

/-!
# Both ends of a flow-control window

The window of a connection at its sender and at its receiver, which both run `h2/src/flow.rs`, and
the DATA and WINDOW_UPDATE frames on the way between them. Each way keeps its order; nothing else
is ordered.

* `Peers.Flows.step`: both ends and what is on the way agree.
* `Peers.flow_control`: no frame is refused, and a sender that waits for nothing has credit.
-/

open Sark.H2.Frame (Length)

namespace Sark.H2.Flow

/-- `flow::Target`. -/
structure Target where
  value : ℕ
  le : (value : ℤ) ≤ Window.max

/-- `Target::low`. -/
def Target.low (self : Target) : ℕ :=
  if self.value / 2 = 0 then 1 else self.value / 2

/-- `Target::increment`. -/
def Target.increment (self : Target) : Option Increment :=
  if 65535 ≤ self.value then Increment.new (self.value - 65535) else none

/-- `Window::for_target`. -/
def Window.forTarget (target : Target) : Window :=
  if (target.value : ℤ) < initial then .ofValue initial else .ofValue target.value

/-- Both ends of a window, what is reserved, and the frames on the way, oldest first. -/
structure Peers where
  sender : Window
  reserved : ℕ
  receiver : Half
  data : List Length
  updates : List Increment

/-- What happens at either end. -/
inductive PeerOp
  | send (amount : Length)
  | reserve (amount : Length)
  | accept (amount : Length)
  | cancel (amount : Length)
  | receiveData
  | receiveUpdate

namespace Peers

/-- A new connection. The receiver announces at once what it has beyond the initial window. -/
def start (target : Target) : Peers :=
  ⟨.new, 0, ⟨.forTarget target, 0⟩, [], target.increment.toList⟩

/-- One step. A frame that is refused stays on the way. -/
def step (low : ℕ) (self : Peers) : PeerOp → Peers
  | .send amount =>
    if amount.value ≤ self.sender.available then
      { self with sender := self.sender.debit amount.value, data := self.data ++ [amount] }
    else self
  | .reserve amount =>
    if amount.value ≤ self.sender.available then
      { self with
        sender := self.sender.reserve amount.value, reserved := self.reserved + amount.value }
    else self
  | .accept amount =>
    if amount.value ≤ self.reserved then
      { self with
        sender := self.sender.acceptOne amount.value, reserved := self.reserved - amount.value
        data := self.data ++ [amount] }
    else self
  | .cancel amount =>
    if amount.value ≤ self.reserved then
      { self with
        sender := self.sender.cancelOne amount.value, reserved := self.reserved - amount.value }
    else self
  | .receiveData =>
    match self.data with
    | [] => self
    | amount :: rest =>
      match self.receiver.receive low amount .enabled with
      | .error _ => self
      | .ok credit =>
        { self with
          receiver := self.receiver.commit credit, data := rest
          updates := self.updates ++ credit.bump.toList }
  | .receiveUpdate =>
    match self.updates with
    | [] => self
    | inc :: rest =>
      match self.sender.increase inc with
      | .error _ => self
      | .ok next => { self with sender := next, updates := rest }

/-- A run of both ends. -/
def run (target : Target) (ops : List PeerOp) : Peers :=
  ops.foldl (step target.low) (start target)

/-- The bytes of the DATA frames on the way, and the credit of the WINDOW_UPDATE frames. -/
def flying (self : Peers) : ℕ :=
  (self.data.map Length.value).sum + (self.updates.map Increment.value).sum

/-- What the receiver has is what the sender may send or has reserved, and what is on the way. -/
structure Flows (target : Target) (peers : Peers) : Prop where
  sender : peers.sender.Holds peers.reserved
  nonneg : 0 ≤ peers.sender.value
  receiver : peers.receiver.Holds (max target.value 65535)
  credit : peers.receiver.window.value = peers.sender.committed + peers.flying
  pending : peers.receiver.pending < target.low

section Flows

variable {target : Target} {peers : Peers} {amount : Length}

theorem flows_start (target : Target) : (start target).Flows target := by
  have hle := target.le
  have hmax : Window.max = 0x7fffffff := rfl
  have hinitial : Window.initial = 65535 := rfl
  have hwindow : Window.forTarget target = .ofValue (max target.value 65535 : ℕ) := by
    rw [Window.forTarget, hinitial]
    split_ifs <;> congr 1 <;> omega
  refine ⟨Window.holds_ofValue (by decide) (by decide), ?_, ?_, ?_, ?_⟩
  · show (0 : ℤ) ≤ Window.initial
    decide
  · show (Half.mk (.forTarget target) 0).Holds _
    rw [hwindow]
    exact Half.holds_fresh (by omega)
  · have hincrement : (target.increment.toList.map Increment.value).sum = target.value - 65535 := by
      rw [Target.increment, Increment.new]
      split_ifs
      · exact List.sum_singleton
      · exact (Nat.sub_eq_zero_of_le (by omega)).symm
      · exact (Nat.sub_eq_zero_of_le (by omega)).symm
    show (Window.forTarget target).value = Window.initial + flying (start target)
    rw [hwindow, flying, start, hincrement, hinitial, List.map_nil, List.sum_nil]
    dsimp only [Window.ofValue]
    omega
  · show 0 < target.low
    rw [Target.low]
    split_ifs <;> omega

/-- The receiver has room for the oldest frame on the way. -/
theorem Flows.receive (h : peers.Flows target) {rest : List Length}
    (hdata : peers.data = amount :: rest) : ∃ credit,
      peers.receiver.receive target.low amount .enabled = .ok credit ∧
        (peers.receiver.commit credit).Holds (max target.value 65535) ∧
        peers.receiver.Charged (peers.receiver.commit credit) amount.value credit.given := by
  rcases Half.receive_cases h.receiver target.low amount .enabled with
    ⟨hstalled, -⟩ | ⟨credit, -, hok⟩
  · have hcommitted := h.sender.committed_eq
    have hnonneg := h.nonneg
    have hcredit := h.credit
    rw [flying, hdata, List.map_cons, List.sum_cons] at hcredit
    omega
  · exact ⟨credit, hok⟩

/-- The sender can take the oldest announcement on the way. -/
theorem Flows.increase (h : peers.Flows target) {inc : Increment} {rest : List Increment}
    (hupdates : peers.updates = inc :: rest) : ∃ next, peers.sender.increase inc = .ok next ∧
      next.Holds peers.reserved ∧ next.value = peers.sender.value + inc.value := by
  rcases h.sender.increase inc with ⟨-, hover⟩ | hok
  · have hmax : Window.max = 0x7fffffff := rfl
    have hsum := h.receiver.sum
    have hle := h.receiver.le
    have hcredit := h.credit
    rw [flying, hupdates, List.map_cons, List.sum_cons] at hcredit
    omega
  · exact hok

/-- Every step keeps to it. -/
theorem Flows.step (h : peers.Flows target) (op : PeerOp) :
    (peers.step target.low op).Flows target := by
  obtain ⟨hsender, hnonneg, hreceiver, hcredit, hpending⟩ := id h
  have hcommitted := hsender.committed_eq
  rw [flying] at hcredit
  cases op with
  | send amount =>
    rw [Peers.step]
    split_ifs with hamount
    · obtain ⟨hholds, hvalue⟩ := hsender.debit hamount
      have hnext := hholds.committed_eq
      refine ⟨hholds, hvalue ▸ (Window.sub_fits hamount hsender.low).2 hnonneg, hreceiver, ?_,
        hpending⟩
      simp only [flying, List.map_append, List.sum_append, List.map_cons, List.sum_cons,
        List.map_nil, List.sum_nil]
      omega
    · exact h
  | reserve amount =>
    rw [Peers.step]
    split_ifs with hamount
    · obtain ⟨hholds, hvalue⟩ := hsender.reserve hamount
      exact ⟨hholds, hvalue ▸ (Window.sub_fits hamount hsender.low).2 hnonneg, hreceiver, hcredit,
        hpending⟩
    · exact h
  | accept amount =>
    rw [Peers.step]
    split_ifs with hamount
    · obtain ⟨hholds, hvalue⟩ := hsender.acceptOne hamount
      have hnext := hholds.committed_eq
      refine ⟨hholds, hvalue ▸ hnonneg, hreceiver, ?_, hpending⟩
      simp only [flying, List.map_append, List.sum_append, List.map_cons, List.sum_cons,
        List.map_nil, List.sum_nil]
      omega
    · exact h
  | cancel amount =>
    rw [Peers.step]
    split_ifs with hamount
    · obtain ⟨hholds, hvalue⟩ := hsender.cancelOne hamount
      exact ⟨hholds, hvalue ▸ by omega, hreceiver, hcredit, hpending⟩
    · exact h
  | receiveData =>
    rw [Peers.step]
    split
    next => exact h
    next amount rest hdata =>
      obtain ⟨credit, hok, hholds, hvalue, -⟩ := h.receive hdata
      rw [hok]
      refine ⟨hsender, hnonneg, hholds, ?_, Half.pending_commit_lt hok hpending⟩
      have hgiven : (credit.bump.toList.map Increment.value).sum = credit.given := by
        rw [Credit.given]
        cases credit.bump <;> rfl
      rw [hdata] at hcredit
      simp only [flying, hgiven, List.map_append, List.sum_append, List.map_cons,
        List.sum_cons] at hcredit ⊢
      omega
  | receiveUpdate =>
    rw [Peers.step]
    split
    next => exact h
    next inc rest hupdates =>
      obtain ⟨next, hok, hholds, hvalue⟩ := h.increase hupdates
      have hnext := hholds.committed_eq
      rw [hok]
      refine ⟨hholds, hvalue ▸ by omega, hreceiver, ?_, hpending⟩
      rw [hupdates] at hcredit
      simp only [flying, List.map_cons, List.sum_cons] at hcredit ⊢
      omega

theorem flows_run (target : Target) (ops : List PeerOp) : (run target ops).Flows target := by
  induction ops using List.reverseRecOn with
  | nil => exact flows_start target
  | append_singleton ops op ih =>
    rw [run, List.foldl_append]
    exact ih.step op

end Flows

/-- After every run: what the sender may send or has reserved, what is on the way and what the
receiver has not announced yet are the window; the receiver takes the next DATA frame and the
sender the next WINDOW_UPDATE frame; and a sender that has nothing on the way and nothing reserved
has credit. -/
theorem flow_control (target : Target) (ops : List PeerOp) :
    ((run target ops).sender.committed + (run target ops).flying +
        (run target ops).receiver.pending = max target.value 65535) ∧
    (∀ amount rest, (run target ops).data = amount :: rest → ∃ credit,
      (run target ops).receiver.receive target.low amount .enabled = .ok credit) ∧
    (∀ inc rest, (run target ops).updates = inc :: rest → ∃ next,
      (run target ops).sender.increase inc = .ok next) ∧
    ((run target ops).data = [] → (run target ops).updates = [] →
      (run target ops).reserved = 0 → 0 < (run target ops).sender.available) := by
  have h := flows_run target ops
  generalize run target ops = peers at h ⊢
  have hsum := h.receiver.sum
  have hcredit := h.credit
  refine ⟨by push_cast at *; omega,
    fun amount rest hdata => (h.receive hdata).imp fun _ => And.left,
    fun inc rest hupdates => (h.increase hupdates).imp fun _ => And.left,
    fun hdata hupdates hreserved => ?_⟩
  -- what is pending is less than half of the window, or nothing
  have hcommitted := h.sender.committed_eq
  have hpending := h.pending
  have hlow : target.low ≤ max target.value 65535 := by
    rw [Target.low]
    split_ifs <;> omega
  rw [flying, hdata, hupdates] at hcredit
  rw [hreserved] at hcommitted
  rw [Window.available, if_neg (not_lt.mpr h.nonneg)]
  simp at hcredit hcommitted
  omega

end Peers

end Sark.H2.Flow
