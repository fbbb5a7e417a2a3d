import Sark.H2.Flow.Window
import Sark.H2.Frame.Layout

/-!
# Receive windows

The receive side of HTTP/2 flow control (`h2/src/flow.rs`). A DATA frame is charged to a window as
soon as it is received; what was charged is pending until it is given back with a WINDOW_UPDATE
frame, which waits for a threshold. Sums and differences are cut to the bits that they have.

* `Half.Holds`: what is left of a window and what is pending are the window there was at first.
* `Half.receive_cases`: a frame is charged once, or there is not enough left.
* `Half.pending_commit_lt`: what is pending stays below the threshold.
-/

open Sark.H2.Frame (Length)

namespace Sark.H2.Flow

/-- `flow::Refill`. -/
inductive Refill
  | enabled
  | disabled
  deriving DecidableEq, Repr

/-- `flow::Receive`. -/
inductive ReceiveError
  | stalled (available : ℤ) (amount : ℕ)
  | refill (spent : ℤ) (held : ℕ)
  deriving DecidableEq, Repr

/-- A receive window, and what is pending of it. -/
structure Half where
  window : Window
  pending : ℕ
  deriving DecidableEq, Repr

/-- `flow::Endpoint`: what a frame makes of a receive window. -/
structure Credit where
  next : ℤ
  held : ℕ
  bump : Option Increment

/-- What is given back. -/
def Credit.given (self : Credit) : ℕ :=
  (self.bump.map Increment.value).getD 0

/-- `Endpoint::new`. A length has 24 bits: it is the same number with a sign. -/
def Half.receive (self : Half) (limit : ℕ) (amount : Length) (refill : Refill) :
    Except ReceiveError Credit :=
  let debit : ℤ := amount.value
  if debit > max self.window.value 0 then .error (.stalled self.window.value amount.value)
  else if amount.value = 0 then .ok ⟨self.window.value, self.pending, none⟩
  else
    let held := (self.pending + amount.value) % 2 ^ 32
    let spent := asI32 (self.window.value - debit)
    if refill = .disabled ∨ held < limit then .ok ⟨spent, held, none⟩
    else
      match Increment.new held with
      | none => .error (.refill spent held)
      | some bump => .ok ⟨asI32 (spent + bump.value), 0, some bump⟩

/-- `Endpoint::commit`. -/
def Half.commit (_self : Half) (credit : Credit) : Half :=
  ⟨⟨credit.next, credit.next⟩, credit.held⟩

/-- `Pair::receive_data`, of the connection and a stream. -/
def receivePair (conn stream : Half) (connLow streamLow : ℕ) (amount : Length) (refill : Refill) :
    Except ReceiveError (Credit × Except ReceiveError Credit) :=
  (conn.receive connLow amount .enabled).map fun credit =>
    (credit, stream.receive streamLow amount refill)

/-! ## Conservation -/

/-- What is left of a window and what is pending are the window there was at first. -/
structure Half.Holds (half : Half) (initial : ℕ) : Prop where
  committed : half.window.committed = half.window.value
  nonneg : 0 ≤ half.window.value
  sum : half.window.value + half.pending = initial
  le : initial ≤ 0x7fffffff

/-- A window that was never charged. -/
def Half.fresh (initial : ℕ) : Half :=
  ⟨.ofValue initial, 0⟩

theorem Half.holds_fresh {initial : ℕ} (h : initial ≤ 0x7fffffff) :
    (Half.fresh initial).Holds initial :=
  ⟨rfl, Int.natCast_nonneg initial, add_zero _, h⟩

/-- A frame of some length was charged once: the window is less by it, and it is pending, but for
what is given back. -/
structure Half.Charged (half next : Half) (amount given : ℕ) : Prop where
  value : next.window.value = half.window.value - amount + given
  pending : next.pending + given = half.pending + amount

/-- A frame is charged, or there is not enough left for it. No sum or difference is cut, and what is
given back is a valid increment. -/
theorem Half.receive_cases {half : Half} {initial : ℕ} (h : half.Holds initial) (limit : ℕ)
    (amount : Length) (refill : Refill) :
    (half.window.value < amount.value ∧
      half.receive limit amount refill = .error (.stalled half.window.value amount.value)) ∨
    ∃ credit, (amount.value : ℤ) ≤ half.window.value ∧
      half.receive limit amount refill = .ok credit ∧ (half.commit credit).Holds initial ∧
      half.Charged (half.commit credit) amount.value credit.given := by
  obtain ⟨hcommitted, hnonneg, hsum, hle⟩ := h
  rw [Half.receive]
  dsimp only
  by_cases hstalled : half.window.value < amount.value
  · rw [if_pos (by rw [max_eq_left hnonneg]; exact hstalled)]
    exact .inl ⟨hstalled, rfl⟩
  rw [if_neg (by rw [max_eq_left hnonneg]; exact hstalled)]
  right
  by_cases hzero : amount.value = 0
  · rw [if_pos hzero]
    refine ⟨_, not_lt.mp hstalled, rfl, ⟨rfl, hnonneg, hsum, hle⟩, ?_, ?_⟩
    · rw [hzero]
      show half.window.value = half.window.value - 0 + 0
      ring
    · rw [hzero]
      rfl
  have hheld : (half.pending + amount.value) % 2 ^ 32 = half.pending + amount.value :=
    Nat.mod_eq_of_lt (by omega)
  have hspent : asI32 (half.window.value - amount.value) = half.window.value - amount.value :=
    asI32_of_fits (by omega) (by omega)
  rw [if_neg hzero, hheld, hspent]
  by_cases hwait : refill = .disabled ∨ half.pending + amount.value < limit
  · rw [if_pos hwait]
    refine ⟨_, not_lt.mp hstalled, rfl, ⟨rfl, ?_, ?_, hle⟩, ?_, rfl⟩
    · show 0 ≤ half.window.value - amount.value
      omega
    · show half.window.value - amount.value + (half.pending + amount.value : ℕ) = initial
      omega
    · show half.window.value - amount.value = half.window.value - amount.value + 0
      ring
  · -- all that is pending is given back, and that is at most what there was at first
    have hinc : Increment.new (half.pending + amount.value) =
        some ⟨half.pending + amount.value, by omega, by omega⟩ := by
      rw [Increment.new, dif_pos ⟨by omega, by omega⟩]
    have hnext : asI32 (half.window.value - amount.value + (half.pending + amount.value : ℕ)) =
        half.window.value - amount.value + (half.pending + amount.value : ℕ) :=
      asI32_of_fits (by omega) (by omega)
    rw [if_neg hwait, hinc]
    dsimp only
    rw [hnext]
    refine ⟨_, not_lt.mp hstalled, rfl, ⟨rfl, ?_, ?_, hle⟩, rfl, ?_⟩
    · show 0 ≤ half.window.value - amount.value + (half.pending + amount.value : ℕ)
      omega
    · show half.window.value - amount.value + (half.pending + amount.value : ℕ) + (0 : ℕ) = initial
      omega
    · show 0 + (half.pending + amount.value) = half.pending + amount.value
      exact Nat.zero_add _

/-- What is pending stays below the threshold of a window that may be given back. -/
theorem Half.pending_commit_lt {half : Half} {limit : ℕ} {amount : Length} {credit : Credit}
    (h : half.receive limit amount .enabled = .ok credit) (hpending : half.pending < limit) :
    (half.commit credit).pending < limit := by
  rw [Half.receive] at h
  dsimp only at h
  by_cases hstalled : (amount.value : ℤ) > max half.window.value 0
  · rw [if_pos hstalled] at h
    cases h
  rw [if_neg hstalled] at h
  by_cases hzero : amount.value = 0
  · rw [if_pos hzero, Except.ok.injEq] at h
    rw [← h]
    exact hpending
  rw [if_neg hzero] at h
  by_cases hwait : Refill.enabled = .disabled ∨ (half.pending + amount.value) % 2 ^ 32 < limit
  · rw [if_pos hwait, Except.ok.injEq] at h
    rw [← h]
    exact hwait.resolve_left (by decide)
  · rw [if_neg hwait] at h
    cases hinc : Increment.new ((half.pending + amount.value) % 2 ^ 32) with
    | none =>
      rw [hinc] at h
      cases h
    | some bump =>
      rw [hinc, Except.ok.injEq] at h
      rw [← h]
      exact Nat.zero_lt_of_lt hpending

end Sark.H2.Flow
