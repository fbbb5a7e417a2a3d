import Mathlib.Tactic

/-!
# Flow-control windows

A window of HTTP/2 flow control (`h2/src/flow.rs`): the credit that is available, and the credit
that is committed, which includes what is reserved and can still be cancelled. Both are numbers of
32 bits with a sign; a change is computed in more bits and then cut.

* `Window.Holds`: a window commits what is available and what is reserved.
* `Window.Holds.increase`, `Window.Holds.adjust`: changes by the peer keep to it, or are rejected.
-/

namespace Sark.H2.Flow

/-- A number `as i32`. -/
def asI32 (n : ℤ) : ℤ :=
  n.bmod (2 ^ 32)

theorem asI32_of_fits {n : ℤ} (hlow : -2 ^ 31 ≤ n) (hhigh : n < 2 ^ 31) : asI32 n = n :=
  Int.bmod_eq_of_le (by omega) (by omega)

/-- `numbers::Increment`. -/
structure Increment where
  value : ℕ
  pos : 1 ≤ value
  le : value ≤ 0x7fffffff
  deriving Repr

/-- `Increment::new`. -/
def Increment.new (value : ℕ) : Option Increment :=
  if h : 1 ≤ value ∧ value ≤ 0x7fffffff then some ⟨value, h.1, h.2⟩ else none

/-- `flow::Window`. -/
structure Window where
  value : ℤ
  committed : ℤ
  deriving DecidableEq, Repr

/-- `flow::Increase`. -/
structure IncreaseError where
  value : ℤ
  committed : ℤ
  inc : ℕ
  deriving DecidableEq, Repr

/-- `flow::Adjust`. -/
structure AdjustError where
  value : ℤ
  committed : ℤ
  delta : ℤ
  deriving DecidableEq, Repr

namespace Window

/-- `Window::INITIAL`. -/
def initial : ℤ :=
  65535

/-- `Window::MAX`. -/
def max : ℤ :=
  0x7fffffff

/-- `Window::with`. -/
def ofValue (value : ℤ) : Window :=
  ⟨value, value⟩

/-- `Window::new`. -/
def new : Window :=
  .ofValue initial

/-- `Window::available`. -/
def available (self : Window) : ℕ :=
  if self.value < 0 then 0 else self.value.toNat

/-- `Window::increase`. -/
def increase (self : Window) (inc : Increment) : Except IncreaseError Window :=
  let bound := self.committed + inc.value
  let next := self.value + inc.value
  if bound > max then .error ⟨self.value, self.committed, inc.value⟩
  else .ok ⟨asI32 next, asI32 bound⟩

/-- `Window::adjust`. -/
def adjust (self : Window) (delta : ℤ) : Except AdjustError Window :=
  let next := self.value + delta
  let bound := self.committed + delta
  if bound > max ∨ next < -2 ^ 31 then .error ⟨self.value, self.committed, delta⟩
  else .ok ⟨asI32 next, asI32 bound⟩

/-- One window of `Debit::commit`. -/
def debit (self : Window) (amount : ℕ) : Window :=
  ⟨asI32 (self.value - amount), asI32 (self.committed - amount)⟩

/-- One window of `Debit::reserve`. -/
def reserve (self : Window) (amount : ℕ) : Window :=
  { self with value := asI32 (self.value - amount) }

/-- `Reserved::accept_one`. -/
def acceptOne (self : Window) (amount : ℕ) : Window :=
  { self with committed := asI32 (self.committed - amount) }

/-- `Reserved::cancel_one`. -/
def cancelOne (self : Window) (amount : ℕ) : Window :=
  { self with value := asI32 (self.value + amount) }

/-! ## What a window keeps to -/

/-- A window commits what is available and what is reserved, and both fit. -/
structure Holds (window : Window) (reserved : ℕ) : Prop where
  committed_eq : window.committed = window.value + reserved
  low : -2 ^ 31 ≤ window.value
  high : window.committed ≤ max

variable {self next : Window} {reserved amount : ℕ}

theorem holds_ofValue {value : ℤ} (hlow : -2 ^ 31 ≤ value) (hhigh : value ≤ max) :
    (Window.ofValue value).Holds 0 :=
  ⟨(Int.add_zero value).symm, hlow, hhigh⟩

theorem holds_asI32 {value committed : ℤ} (heq : committed = value + reserved)
    (hlow : -2 ^ 31 ≤ value) (hhigh : committed ≤ max) :
    (⟨asI32 value, asI32 committed⟩ : Window).Holds reserved ∧ asI32 value = value := by
  have hmax : max = 2 ^ 31 - 1 := rfl
  rw [asI32_of_fits hlow (by omega), asI32_of_fits (by omega) (by omega)]
  exact ⟨⟨heq, hlow, hhigh⟩, rfl⟩

theorem available_le (hpos : 0 < self.available) : (self.available : ℤ) = self.value := by
  rw [available] at hpos ⊢
  by_cases hneg : self.value < 0
  · rw [if_pos hneg] at hpos
    exact absurd hpos (lt_irrefl 0)
  · rw [if_neg hneg]
    exact Int.toNat_of_nonneg (Int.not_lt.mp hneg)

theorem Holds.available_le_max (h : self.Holds reserved) : (self.available : ℤ) ≤ max := by
  have hcommitted := h.committed_eq
  have hhigh := h.high
  rw [available]
  split_ifs with hneg
  · decide
  · rw [Int.toNat_of_nonneg (Int.not_lt.mp hneg)]
    omega

theorem Holds.increase (h : self.Holds reserved) (inc : Increment) :
    (self.increase inc = .error ⟨self.value, self.committed, inc.value⟩ ∧
        max < self.committed + inc.value) ∨
      ∃ next, self.increase inc = .ok next ∧ next.Holds reserved ∧
        next.value = self.value + inc.value := by
  obtain ⟨hcommitted, hlow, hhigh⟩ := h
  rw [Window.increase]
  by_cases hbound : self.committed + inc.value > max
  · exact .inl ⟨if_pos hbound, hbound⟩
  · obtain ⟨hholds, hvalue⟩ := @holds_asI32 reserved (self.value + inc.value)
      (self.committed + inc.value) (by omega) (by omega) (by omega)
    exact .inr ⟨_, if_neg hbound, hholds, hvalue⟩

/-- An adjustment is added to both, or is rejected because it would be too much or too little. -/
theorem Holds.adjust (h : self.Holds reserved) (delta : ℤ) :
    (self.adjust delta = .error ⟨self.value, self.committed, delta⟩ ∧
        (max < self.committed + delta ∨ self.value + delta < -2 ^ 31)) ∨
      ∃ next, self.adjust delta = .ok next ∧ next.Holds reserved ∧
        next.value = self.value + delta := by
  obtain ⟨hcommitted, hlow, hhigh⟩ := h
  rw [Window.adjust]
  by_cases hbound : self.committed + delta > max ∨ self.value + delta < -2 ^ 31
  · exact .inl ⟨if_pos hbound, hbound⟩
  · have hfits := not_or.mp hbound
    obtain ⟨hholds, hvalue⟩ := @holds_asI32 reserved (self.value + delta)
      (self.committed + delta) (by omega) (by omega) (by omega)
    exact .inr ⟨_, if_neg hbound, hholds, hvalue⟩

theorem sub_fits (hamount : amount ≤ self.available) (hlow : -2 ^ 31 ≤ self.value) :
    -2 ^ 31 ≤ self.value - amount ∧ (0 ≤ self.value → 0 ≤ self.value - amount) := by
  rcases Nat.eq_zero_or_pos amount with rfl | hpos
  · rw [Nat.cast_zero, sub_zero]
    exact ⟨hlow, fun h => h⟩
  · have havailable := available_le (hpos.trans_le hamount)
    omega

theorem Holds.debit (h : self.Holds reserved) (hamount : amount ≤ self.available) :
    (self.debit amount).Holds reserved ∧ (self.debit amount).value = self.value - amount := by
  obtain ⟨hcommitted, hlow, hhigh⟩ := h
  obtain ⟨hfits, -⟩ := sub_fits hamount hlow
  exact holds_asI32 (by omega) hfits (by omega)

theorem Holds.reserve (h : self.Holds reserved) (hamount : amount ≤ self.available) :
    (self.reserve amount).Holds (reserved + amount) ∧
      (self.reserve amount).value = self.value - amount := by
  obtain ⟨hcommitted, hlow, hhigh⟩ := h
  obtain ⟨hfits, -⟩ := sub_fits hamount hlow
  have hmax : max = 2 ^ 31 - 1 := rfl
  have hvalue : asI32 (self.value - amount) = self.value - amount := asI32_of_fits hfits (by omega)
  refine ⟨⟨?_, ?_, hhigh⟩, hvalue⟩
  · show self.committed = asI32 (self.value - amount) + (reserved + amount : ℕ)
    rw [hvalue]
    omega
  · show -2 ^ 31 ≤ asI32 (self.value - amount)
    rw [hvalue]
    exact hfits

theorem Holds.acceptOne (h : self.Holds reserved) (hamount : amount ≤ reserved) :
    (self.acceptOne amount).Holds (reserved - amount) ∧
      (self.acceptOne amount).value = self.value := by
  obtain ⟨hcommitted, hlow, hhigh⟩ := h
  have hmax : max = 2 ^ 31 - 1 := rfl
  have hcommitted' : asI32 (self.committed - amount) = self.committed - amount :=
    asI32_of_fits (by omega) (by omega)
  refine ⟨⟨?_, hlow, ?_⟩, rfl⟩
  · show asI32 (self.committed - amount) = self.value + (reserved - amount : ℕ)
    rw [hcommitted']
    omega
  · show asI32 (self.committed - amount) ≤ max
    rw [hcommitted']
    omega

theorem Holds.cancelOne (h : self.Holds reserved) (hamount : amount ≤ reserved) :
    (self.cancelOne amount).Holds (reserved - amount) ∧
      (self.cancelOne amount).value = self.value + amount := by
  obtain ⟨hcommitted, hlow, hhigh⟩ := h
  have hmax : max = 2 ^ 31 - 1 := rfl
  have hvalue : asI32 (self.value + amount) = self.value + amount :=
    asI32_of_fits (by omega) (by omega)
  refine ⟨⟨?_, ?_, hhigh⟩, hvalue⟩
  · show self.committed = asI32 (self.value + amount) + (reserved - amount : ℕ)
    rw [hvalue]
    omega
  · show -2 ^ 31 ≤ asI32 (self.value + amount)
    rw [hvalue]
    omega

end Window

end Sark.H2.Flow
