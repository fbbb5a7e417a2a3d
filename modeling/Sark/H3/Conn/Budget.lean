import Sark.H3.Qpack.Feedback

/-!
# The write budget

Every write that waits to be sent is charged against the budget of its connection
(`h3/src/conn/io/write/budget/mod.rs`), in wire bytes and in resident bytes. A part of the budget is
out of reach of regular writes. A change of the budget is checked first and committed later.

Arithmetic that the program checks returns an error; arithmetic that it does not check has no result
where it leaves the machine's `usize` (`Fallible.sub`).

* `WriteBudget.Sound`: the charges are within their limits.
* `WriteBudget.tryReserve_eq_ok`, `WriteBudget.tryRetain_eq_ok`, `Release.commit_eq`,
  `Allowance.commit_eq`: what a change writes.
* `WriteBudget.tryReserve_critical`: what regular writes leave to critical ones.
-/

namespace Sark.H3

/-- `usize::MAX`. -/
def usizeMax : ℕ :=
  2 ^ 64 - 1

/-- `WriteClass`. -/
inductive WriteClass
  | regular
  | critical
  deriving DecidableEq, Repr

/-- `output::WriteCharge`. -/
@[ext]
structure WriteCharge where
  wireBytes : ℕ
  residentBytes : ℕ
  deriving DecidableEq, Repr

namespace WriteCharge

/-- `WriteCharge::default`. -/
def zero : WriteCharge :=
  ⟨0, 0⟩

/-- The sum of two charges. -/
def add (left right : WriteCharge) : WriteCharge :=
  ⟨left.wireBytes + right.wireBytes, left.residentBytes + right.residentBytes⟩

/-- Both parts of a charge are within those of another one. -/
def Le (left right : WriteCharge) : Prop :=
  left.wireBytes ≤ right.wireBytes ∧ left.residentBytes ≤ right.residentBytes

/-- The sum of the charges in a list. -/
def total (charges : List WriteCharge) : WriteCharge :=
  charges.foldr add zero

@[simp]
theorem add_wireBytes (left right : WriteCharge) :
    (left.add right).wireBytes = left.wireBytes + right.wireBytes := rfl

@[simp]
theorem add_residentBytes (left right : WriteCharge) :
    (left.add right).residentBytes = left.residentBytes + right.residentBytes := rfl

@[simp]
theorem zero_wireBytes : zero.wireBytes = 0 := rfl

@[simp]
theorem zero_residentBytes : zero.residentBytes = 0 := rfl

@[simp]
theorem total_nil : total [] = zero := rfl

@[simp]
theorem total_cons (charge : WriteCharge) (charges : List WriteCharge) :
    total (charge :: charges) = charge.add (total charges) := rfl

theorem total_append (charges more : List WriteCharge) :
    total (charges ++ more) = (total charges).add (total more) := by
  induction charges with
  | nil => simp [WriteCharge.ext_iff]
  | cons charge charges ih => simp [ih, WriteCharge.ext_iff, Nat.add_assoc]

end WriteCharge

/-- The errors of the write queues, as far as they come from their charges and counts. -/
inductive WriteError
  | budgetWire (retained additional limit : ℕ)
  | budgetResident (retained additional limit : ℕ)
  | budgetRegularWire (retained additional limit : ℕ)
  | budgetRegularResident (retained additional limit : ℕ)
  | budgetReleaseWire (retained released : ℕ)
  | budgetReleaseResident (retained released : ℕ)
  | budgetRegularReleaseWire (retained released : ℕ)
  | budgetRegularReleaseResident (retained released : ℕ)
  | batchRegularWire (left right : ℕ)
  | batchRegularResident (left right : ℕ)
  | batchCriticalWire (left right : ℕ)
  | batchCriticalResident (left right : ℕ)
  | queueRegular (queued additional limit : ℕ)
  | egress
  | retention
  | feedback (error : Qpack.FeedbackError)
  | qpackEncoderStream
  | decoderExists
  deriving DecidableEq, Repr

/-- `WriteClass::try_add`. -/
def WriteClass.tryAdd (self : WriteClass) (left right : WriteCharge) :
    Except WriteError WriteCharge :=
  if usizeMax < left.wireBytes + right.wireBytes then
    .error (match self with
      | .regular => .batchRegularWire left.wireBytes right.wireBytes
      | .critical => .batchCriticalWire left.wireBytes right.wireBytes)
  else if usizeMax < left.residentBytes + right.residentBytes then
    .error (match self with
      | .regular => .batchRegularResident left.residentBytes right.residentBytes
      | .critical => .batchCriticalResident left.residentBytes right.residentBytes)
  else .ok (left.add right)

/-- `regular_limit`: a sixteenth of the capacity is kept for critical writes, at least one and at
most `maximum`. -/
def regularLimit (capacity maximum : ℕ) : Option ℕ :=
  let reserve := capacity / 16
  Fallible.sub capacity (if reserve = 0 then 1 else if reserve < maximum then reserve else maximum)

theorem regularLimit_eq {capacity : ℕ} (maximum : ℕ) (hcapacity : 0 < capacity) :
    ∃ limit, regularLimit capacity maximum = some limit ∧ limit ≤ capacity := by
  have hreserve : (if capacity / 16 = 0 then 1
      else if capacity / 16 < maximum then capacity / 16 else maximum) ≤ capacity := by
    split
    · omega
    · split <;> omega
  exact ⟨_, Fallible.sub_of_le hreserve, Nat.sub_le _ _⟩

/-- `WriteBudget`. -/
structure WriteBudget where
  retained : WriteCharge
  regular : WriteCharge
  limit : WriteCharge
  regularLimit : WriteCharge
  deriving DecidableEq, Repr

/-- `Change`: what the budget becomes. -/
structure Change where
  retained : WriteCharge
  regular : WriteCharge
  deriving DecidableEq, Repr

/-- `Allowance`. -/
structure Allowance where
  change : Change
  room : ℕ
  deriving DecidableEq, Repr

/-- `Release`. -/
structure Release where
  kind : WriteClass
  charge : WriteCharge
  deriving DecidableEq, Repr

namespace WriteBudget

/-- `WriteBudget::MAX_CRITICAL_RESERVE`. -/
def maxCriticalReserve : ℕ :=
  64 * 1024

/-- `WriteBudget::new`. -/
def new (wire resident : ℕ) : Option WriteBudget := do
  let wireLimit ← H3.regularLimit wire maxCriticalReserve
  let residentLimit ← H3.regularLimit resident maxCriticalReserve
  some ⟨.zero, .zero, ⟨wire, resident⟩, ⟨wireLimit, residentLimit⟩⟩

/-- One dimension of `try_reserve`: what is retained after it. -/
def reserved (error : ℕ → ℕ → ℕ → WriteError) (retained regular critical limit : ℕ) :
    Except WriteError ℕ :=
  if usizeMax < retained + regular then .error (error retained regular limit)
  else if usizeMax < retained + regular + critical then
    .error (error (retained + regular) critical limit)
  else if limit < retained + regular + critical then
    .error (error retained (retained + regular + critical - retained) limit)
  else .ok (retained + regular + critical)

/-- One dimension of `try_reserve`: what regular writes retain after it. -/
def reservedRegular (error : ℕ → ℕ → ℕ → WriteError) (retained additional limit : ℕ) :
    Except WriteError ℕ :=
  if retained + additional ≤ usizeMax ∧ retained + additional ≤ limit then
    .ok (retained + additional)
  else .error (error retained additional limit)

/-- `WriteBudget::try_reserve`. -/
def tryReserve (self : WriteBudget) (regular critical : WriteCharge) :
    Except WriteError Change := do
  let wire ← reserved .budgetWire self.retained.wireBytes regular.wireBytes critical.wireBytes
    self.limit.wireBytes
  let resident ← reserved .budgetResident self.retained.residentBytes regular.residentBytes
    critical.residentBytes self.limit.residentBytes
  let regularWire ← reservedRegular .budgetRegularWire self.regular.wireBytes regular.wireBytes
    self.regularLimit.wireBytes
  let regularResident ← reservedRegular .budgetRegularResident self.regular.residentBytes
    regular.residentBytes self.regularLimit.residentBytes
  .ok ⟨⟨wire, resident⟩, ⟨regularWire, regularResident⟩⟩

/-- `WriteBudget::try_retain`. -/
def tryRetain (self : WriteBudget) (bytes : ℕ) : Except WriteError Change :=
  if self.retained.wireBytes + bytes ≤ usizeMax ∧
      self.retained.wireBytes + bytes ≤ self.limit.wireBytes then
    .ok ⟨⟨self.retained.wireBytes + bytes, self.retained.residentBytes⟩, self.regular⟩
  else .error (.budgetWire self.retained.wireBytes bytes self.limit.wireBytes)

/-- `WriteBudget::try_release`. -/
def tryRelease (self : WriteBudget) (kind : WriteClass) (charge : WriteCharge) :
    Except WriteError Release :=
  if self.retained.wireBytes < charge.wireBytes then
    .error (.budgetReleaseWire self.retained.wireBytes charge.wireBytes)
  else if self.retained.residentBytes < charge.residentBytes then
    .error (.budgetReleaseResident self.retained.residentBytes charge.residentBytes)
  else if kind = .regular ∧ self.regular.wireBytes < charge.wireBytes then
    .error (.budgetRegularReleaseWire self.regular.wireBytes charge.wireBytes)
  else if kind = .regular ∧ self.regular.residentBytes < charge.residentBytes then
    .error (.budgetRegularReleaseResident self.regular.residentBytes charge.residentBytes)
  else .ok ⟨kind, charge⟩

/-- `WriteBudget::wire_left`. -/
def wireLeft (self : WriteBudget) : Option ℕ :=
  Fallible.sub self.limit.wireBytes self.retained.wireBytes

/-- `Change::commit`. -/
def commit (self : WriteBudget) (change : Change) : WriteBudget :=
  { self with retained := change.retained, regular := change.regular }

end WriteBudget

/-- `self.wire_bytes -= …; self.resident_bytes -= …`. -/
def WriteCharge.sub (self charge : WriteCharge) : Option WriteCharge := do
  let wire ← Fallible.sub self.wireBytes charge.wireBytes
  let resident ← Fallible.sub self.residentBytes charge.residentBytes
  some ⟨wire, resident⟩

/-- `Release::commit`. -/
def Release.commit (self : Release) (budget : WriteBudget) : Option WriteBudget := do
  let retained ← budget.retained.sub self.charge
  match self.kind with
  | .regular =>
    let regular ← budget.regular.sub self.charge
    some { budget with retained, regular }
  | .critical => some { budget with retained }

/-- `Allowance::try_new`. -/
def Allowance.tryNew (budget : WriteBudget) (before limit : ℕ) : Except WriteError Allowance :=
  (budget.tryRetain (limit - before)).map fun change => ⟨change, limit - before⟩

/-- `Allowance::commit`. -/
def Allowance.commit (self : Allowance) (budget : WriteBudget) (growth : ℕ) :
    Option WriteBudget := do
  let unused ← Fallible.sub self.room growth
  let wire ← Fallible.sub self.change.retained.wireBytes unused
  some (budget.commit ⟨⟨wire, self.change.retained.residentBytes⟩, self.change.regular⟩)

/-! ## What a change writes -/

theorem WriteCharge.sub_of_le {charge other : WriteCharge} (h : charge.Le other) :
    ∃ left, other.sub charge = some left ∧ left.add charge = other := by
  refine ⟨⟨other.wireBytes - charge.wireBytes, other.residentBytes - charge.residentBytes⟩,
    ?_, ?_⟩
  · simp [WriteCharge.sub, Fallible.sub_of_le h.1, Fallible.sub_of_le h.2]
  · ext
    · exact Nat.sub_add_cancel h.1
    · exact Nat.sub_add_cancel h.2

namespace WriteBudget

variable {budget next : WriteBudget} {regular critical charge : WriteCharge} {change : Change}

/-- The charges are within their limits. -/
structure Sound (budget : WriteBudget) : Prop where
  retained_le : budget.retained.Le budget.limit
  regular_le : budget.regular.Le budget.regularLimit

theorem reserved_eq_ok_iff {error : ℕ → ℕ → ℕ → WriteError} {retained regular critical limit used : ℕ}
    (hlimit : limit ≤ usizeMax) :
    reserved error retained regular critical limit = .ok used ↔
      retained + regular + critical ≤ limit ∧ used = retained + regular + critical := by
  unfold reserved
  split
  · simp
    omega
  split
  · simp
    omega
  split
  · simp
    omega
  · simp [eq_comm]
    omega

theorem reservedRegular_eq_ok_iff {error : ℕ → ℕ → ℕ → WriteError} {retained additional limit used : ℕ}
    (hlimit : limit ≤ usizeMax) :
    reservedRegular error retained additional limit = .ok used ↔
      retained + additional ≤ limit ∧ used = retained + additional := by
  unfold reservedRegular
  split
  · simp [eq_comm]
    omega
  · simp
    omega

/-- The limits fit the machine. -/
def Fits (budget : WriteBudget) : Prop :=
  (budget.limit.wireBytes ≤ usizeMax ∧ budget.limit.residentBytes ≤ usizeMax) ∧
    budget.regularLimit.Le budget.limit

/-- A reservation succeeds exactly when both dimensions have room for it, among all writes and
among the regular ones. -/
theorem tryReserve_eq_ok_iff (hfits : budget.Fits) :
    budget.tryReserve regular critical = .ok change ↔
      ((budget.retained.add regular).add critical).Le budget.limit ∧
      (budget.regular.add regular).Le budget.regularLimit ∧
      change = ⟨(budget.retained.add regular).add critical, budget.regular.add regular⟩ := by
  obtain ⟨⟨hwire, hresident⟩, hregular⟩ := hfits
  have hregularWire := hregular.1.trans hwire
  have hregularResident := hregular.2.trans hresident
  simp only [tryReserve, Except.bind_eq_ok_iff, reserved_eq_ok_iff hwire,
    reserved_eq_ok_iff hresident, reservedRegular_eq_ok_iff hregularWire,
    reservedRegular_eq_ok_iff hregularResident]
  constructor
  · rintro ⟨_, ⟨hwire, rfl⟩, _, ⟨hresident, rfl⟩, _, ⟨hregularWire, rfl⟩, _,
      ⟨hregularResident, rfl⟩, h⟩
    cases h
    exact ⟨⟨hwire, hresident⟩, ⟨hregularWire, hregularResident⟩, rfl⟩
  · rintro ⟨⟨hwire, hresident⟩, ⟨hregularWire, hregularResident⟩, rfl⟩
    exact ⟨_, ⟨hwire, rfl⟩, _, ⟨hresident, rfl⟩, _, ⟨hregularWire, rfl⟩, _,
      ⟨hregularResident, rfl⟩, rfl⟩

/-- Whatever regular writes retain, critical ones may have what regular ones cannot reach. -/
theorem tryReserve_critical (hfits : budget.Fits) (hsound : budget.Sound)
    (hroom : (budget.retained.add charge).Le
      (budget.regular.add ⟨budget.limit.wireBytes - budget.regularLimit.wireBytes,
        budget.limit.residentBytes - budget.regularLimit.residentBytes⟩)) :
    ∃ change, budget.tryReserve .zero charge = .ok change := by
  refine ⟨_, (tryReserve_eq_ok_iff hfits).mpr ⟨?_, ?_, rfl⟩⟩
  · obtain ⟨hwire, hresident⟩ := hroom
    obtain ⟨-, hlimitWire, hlimitResident⟩ := hfits
    obtain ⟨hregularWire, hregularResident⟩ := hsound.regular_le
    simp only [WriteCharge.Le, WriteCharge.add_wireBytes, WriteCharge.add_residentBytes,
      WriteCharge.zero_wireBytes, WriteCharge.zero_residentBytes] at *
    exact ⟨by omega, by omega⟩
  · simpa [WriteCharge.Le] using hsound.regular_le

theorem tryRetain_eq_ok_iff (hfits : budget.Fits) {bytes : ℕ} :
    budget.tryRetain bytes = .ok change ↔
      budget.retained.wireBytes + bytes ≤ budget.limit.wireBytes ∧
      change = ⟨budget.retained.add ⟨bytes, 0⟩, budget.regular⟩ := by
  have hwire := hfits.1.1
  have hadd : budget.retained.add ⟨bytes, 0⟩ =
      ⟨budget.retained.wireBytes + bytes, budget.retained.residentBytes⟩ := rfl
  rw [hadd]
  unfold tryRetain
  split
  · simp [eq_comm]
    omega
  · simp
    omega

theorem tryRelease_of_le (kind : WriteClass) (hretained : charge.Le budget.retained)
    (hregular : kind = .regular → charge.Le budget.regular) :
    budget.tryRelease kind charge = .ok ⟨kind, charge⟩ := by
  unfold tryRelease
  rw [if_neg (not_lt.mpr hretained.1), if_neg (not_lt.mpr hretained.2), if_neg, if_neg]
  · rintro ⟨hkind, hlt⟩
    exact absurd (hregular hkind).2 (not_le.mpr hlt)
  · rintro ⟨hkind, hlt⟩
    exact absurd (hregular hkind).1 (not_le.mpr hlt)

theorem commit_release (kind : WriteClass) (hretained : charge.Le budget.retained)
    (hregular : kind = .regular → charge.Le budget.regular) :
    ∃ next, Release.commit ⟨kind, charge⟩ budget = some next ∧
      next.retained.add charge = budget.retained ∧
      next.regular.add (if kind = .regular then charge else .zero) = budget.regular ∧
      next.limit = budget.limit ∧ next.regularLimit = budget.regularLimit := by
  obtain ⟨retained, hsub, hretained⟩ := WriteCharge.sub_of_le hretained
  cases kind with
  | critical =>
    refine ⟨{ budget with retained }, ?_, hretained, ?_, rfl, rfl⟩
    · simp [Release.commit, hsub]
    · simp [WriteCharge.ext_iff]
  | regular =>
    obtain ⟨regular, hsub', hregular⟩ := WriteCharge.sub_of_le (hregular rfl)
    refine ⟨{ budget with retained, regular }, ?_, hretained, ?_, rfl, rfl⟩
    · simp [Release.commit, hsub, hsub']
    · simpa using hregular

/-- The allowance of an ingestion gives back what the feedback has not grown by. -/
theorem commit_allowance (hfits : budget.Fits) {before limit growth : ℕ} {allowance : Allowance}
    (hnew : Allowance.tryNew budget before limit = .ok allowance)
    (hgrowth : growth ≤ limit - before) :
    allowance.commit budget growth =
        some (budget.commit ⟨budget.retained.add ⟨growth, 0⟩, budget.regular⟩) ∧
      budget.retained.wireBytes + growth ≤ budget.limit.wireBytes := by
  unfold Allowance.tryNew at hnew
  cases hretain : budget.tryRetain (limit - before) with
  | error error => simp [hretain, Except.map] at hnew
  | ok change =>
    obtain ⟨hroom, rfl⟩ := (tryRetain_eq_ok_iff hfits).mp hretain
    rw [hretain] at hnew
    obtain rfl := Except.ok.inj hnew
    refine ⟨?_, by omega⟩
    have hunused : limit - before - growth ≤ budget.retained.wireBytes + (limit - before) := by
      omega
    simp only [Allowance.commit, Fallible.sub_of_le hgrowth, WriteCharge.add_wireBytes,
      WriteCharge.add_residentBytes, Option.bind_eq_bind, Option.bind_some,
      Fallible.sub_of_le hunused]
    have hleft : budget.retained.wireBytes + (limit - before) - (limit - before - growth) =
        budget.retained.wireBytes + growth := by omega
    rw [hleft]
    rfl

end WriteBudget

end Sark.H3
