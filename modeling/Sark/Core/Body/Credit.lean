import Sark.Library.Fallible

/-!
# Body credit

The bytes and chunks that a request body holds before it is admitted, and the two-sided changes
that keep a request and its connection in step (`core/src/body/credit/mod.rs`). A change is
validated on both sides before either is written.

* `Amount.tryCommit_eq_ok`, `Amount.tryRelease_eq_ok`: what a validated change writes.
* `Amount.tryDrain_of_le`: a request can always be drained from a connection that covers it.
-/

namespace Sark.Body

/-- The largest values of the machine's `usize` and of a chunk count. -/
structure Machine where
  usizeMax : ℕ
  countMax : ℕ

/-- `credit::Amount`. -/
@[ext]
structure Amount where
  bytes : ℕ
  chunks : ℕ
  deriving DecidableEq, Repr

/-- `credit::Limits`. -/
structure Limits where
  bytes : ℕ
  chunks : ℕ
  deriving DecidableEq, Repr

/-- `credit::Scope`. -/
inductive Scope where
  | request
  | connection
  deriving DecidableEq, Repr

/-- `credit::Error`. -/
inductive CreditError where
  | byteOverflow (scope : Scope) (current added : ℕ)
  | chunkOverflow (scope : Scope) (current added : ℕ)
  | byteLimit (scope : Scope) (actual limit : ℕ)
  | chunkLimit (scope : Scope) (actual limit : ℕ)
  | byteUnderflow (scope : Scope) (current removed : ℕ)
  | chunkUnderflow (scope : Scope) (current removed : ℕ)
  deriving DecidableEq, Repr

/-- `credit::Change`: what both sides become, and by how much they change. -/
structure Change where
  request : Amount
  connection : Amount
  changed : Amount
  deriving DecidableEq, Repr

namespace Amount

/-- `Amount::default`. -/
def zero : Amount := ⟨0, 0⟩

/-- The amount stays within the limits. -/
def Fits (self : Amount) (max : Limits) : Prop := self.bytes ≤ max.bytes ∧ self.chunks ≤ max.chunks

/-- `Amount::try_add`. -/
def tryAdd (machine : Machine) (self added : Amount) (scope : Scope) : Except CreditError Amount :=
  if machine.usizeMax < self.bytes + added.bytes then
    .error (.byteOverflow scope self.bytes added.bytes)
  else if machine.countMax < self.chunks + added.chunks then
    .error (.chunkOverflow scope self.chunks added.chunks)
  else .ok ⟨self.bytes + added.bytes, self.chunks + added.chunks⟩

/-- `Amount::try_fit`. -/
def tryFit (self : Amount) (max : Limits) (scope : Scope) : Except CreditError Amount :=
  if max.bytes < self.bytes then .error (.byteLimit scope self.bytes max.bytes)
  else if max.chunks < self.chunks then .error (.chunkLimit scope self.chunks max.chunks)
  else .ok self

/-- `Amount::try_sub`. -/
def trySub (self removed : Amount) (scope : Scope) : Except CreditError Amount :=
  if self.bytes < removed.bytes then .error (.byteUnderflow scope self.bytes removed.bytes)
  else if self.chunks < removed.chunks then
    .error (.chunkUnderflow scope self.chunks removed.chunks)
  else .ok ⟨self.bytes - removed.bytes, self.chunks - removed.chunks⟩

/-- `Amount::try_commit`: reserves an amount on both sides. -/
def tryCommit (machine : Machine) (self request amount : Amount) (requestMax connectionMax : Limits) :
    Except CreditError Change := do
  let next ← request.tryAdd machine amount .request
  let total ← self.tryAdd machine amount .connection
  let next ← next.tryFit requestMax .request
  let total ← total.tryFit connectionMax .connection
  return ⟨next, total, amount⟩

/-- `Amount::try_release`: returns an amount on both sides. -/
def tryRelease (self request amount : Amount) : Except CreditError Change := do
  let next ← request.trySub amount .request
  let total ← self.trySub amount .connection
  return ⟨next, total, amount⟩

/-- `Amount::try_drain`: returns all that the request holds. -/
def tryDrain (self request : Amount) : Except CreditError Change := self.tryRelease request request

theorem tryAdd_eq_ok {machine : Machine} {self added sum : Amount} {scope : Scope}
    (h : self.tryAdd machine added scope = .ok sum) :
    sum = ⟨self.bytes + added.bytes, self.chunks + added.chunks⟩ := by
  rw [tryAdd] at h
  split_ifs at h
  exact (Except.ok.inj h).symm

theorem tryFit_eq_ok {self fit : Amount} {max : Limits} {scope : Scope}
    (h : self.tryFit max scope = .ok fit) : fit = self ∧ self.Fits max := by
  rw [tryFit] at h
  split_ifs at h with hbytes hchunks
  exact ⟨(Except.ok.inj h).symm, not_lt.mp hbytes, not_lt.mp hchunks⟩

theorem trySub_eq_ok {self removed rest : Amount} {scope : Scope}
    (h : self.trySub removed scope = .ok rest) :
    self.bytes = rest.bytes + removed.bytes ∧ self.chunks = rest.chunks + removed.chunks := by
  rw [trySub] at h
  split_ifs at h with hbytes hchunks
  rw [← Except.ok.inj h]
  exact ⟨(Nat.sub_add_cancel (not_lt.mp hbytes)).symm, (Nat.sub_add_cancel (not_lt.mp hchunks)).symm⟩

end Amount

/-! ## Two-sided changes -/

/-- How an operation of one owner moves the credit of its request and of the connection: both stay,
both grow by one amount and stay within limits, or both shrink by one amount. -/
inductive Moves (limits : Option (Limits × Limits)) (request connection : Amount) :
    Amount → Amount → Prop where
  | kept : Moves limits request connection request connection
  | reserved {request' connection' amount : Amount} {requestMax connectionMax : Limits}
    (hlimits : limits = some (requestMax, connectionMax))
    (hrequest : request' = ⟨request.bytes + amount.bytes, request.chunks + amount.chunks⟩)
    (hconnection :
      connection' = ⟨connection.bytes + amount.bytes, connection.chunks + amount.chunks⟩)
    (hfits : request'.Fits requestMax) (hfits' : connection'.Fits connectionMax) :
    Moves limits request connection request' connection'
  | released {request' connection' amount : Amount}
    (hrequest : request = ⟨request'.bytes + amount.bytes, request'.chunks + amount.chunks⟩)
    (hconnection :
      connection = ⟨connection'.bytes + amount.bytes, connection'.chunks + amount.chunks⟩) :
    Moves limits request connection request' connection'

theorem Moves.balanced {limits : Option (Limits × Limits)}
    {request connection request' connection' : Amount}
    (h : Moves limits request connection request' connection') :
    connection'.bytes + request.bytes = connection.bytes + request'.bytes ∧
      connection'.chunks + request.chunks = connection.chunks + request'.chunks := by
  cases h with
  | kept => exact ⟨rfl, rfl⟩
  | reserved _ hrequest hconnection =>
    subst hrequest hconnection
    constructor <;> simp only <;> omega
  | released hrequest hconnection =>
    subst hrequest hconnection
    constructor <;> simp only <;> omega

theorem Moves.fits {limits : Option (Limits × Limits)}
    {request connection request' connection' : Amount}
    (h : Moves limits request connection request' connection')
    (hgrows : connection.bytes < connection'.bytes ∨ connection.chunks < connection'.chunks) :
    ∃ requestMax connectionMax, limits = some (requestMax, connectionMax) ∧
      request'.Fits requestMax ∧ connection'.Fits connectionMax := by
  cases h with
  | kept => omega
  | reserved hlimits _ _ hfits hfits' => exact ⟨_, _, hlimits, hfits, hfits'⟩
  | released _ hconnection =>
    subst hconnection
    simp only at hgrows
    omega

namespace Amount

theorem tryCommit_eq_ok {machine : Machine} {self request amount : Amount}
    {requestMax connectionMax : Limits} {change : Change}
    (h : self.tryCommit machine request amount requestMax connectionMax = .ok change) :
    Moves (some (requestMax, connectionMax)) request self change.request change.connection := by
  simp only [tryCommit, Except.bind_eq_ok_iff] at h
  obtain ⟨next, hnext, total, htotal, next', hfit, total', hfit', hchange⟩ := h
  obtain ⟨rfl, hfits⟩ := tryFit_eq_ok hfit
  obtain ⟨rfl, hfits'⟩ := tryFit_eq_ok hfit'
  rw [← Except.ok.inj hchange]
  exact .reserved rfl (tryAdd_eq_ok hnext) (tryAdd_eq_ok htotal) hfits hfits'

theorem tryRelease_eq_ok {self request amount : Amount} {change : Change}
    (h : self.tryRelease request amount = .ok change) (limits : Option (Limits × Limits)) :
    Moves limits request self change.request change.connection := by
  simp only [tryRelease, Except.bind_eq_ok_iff] at h
  obtain ⟨next, hnext, total, htotal, hchange⟩ := h
  obtain ⟨hbytes, hchunks⟩ := trySub_eq_ok hnext
  obtain ⟨hbytes', hchunks'⟩ := trySub_eq_ok htotal
  rw [← Except.ok.inj hchange]
  exact .released (Amount.ext hbytes hchunks) (Amount.ext hbytes' hchunks')

theorem tryDrain_eq_ok {self request : Amount} {change : Change}
    (h : self.tryDrain request = .ok change) (limits : Option (Limits × Limits)) :
    change.request = zero ∧ Moves limits request self zero change.connection := by
  have hmoves := tryRelease_eq_ok h limits
  have hzero : change.request = zero := by
    rw [tryDrain, tryRelease] at h
    simp only [trySub, lt_irrefl, if_false, Nat.sub_self, bind, Except.bind] at h
    split at h
    · contradiction
    · rw [← Except.ok.inj h]
      rfl
  rw [hzero] at hmoves
  exact ⟨hzero, hmoves⟩

theorem tryDrain_of_le {self request : Amount} (hbytes : request.bytes ≤ self.bytes)
    (hchunks : request.chunks ≤ self.chunks) : ∃ change, self.tryDrain request = .ok change := by
  simp only [tryDrain, tryRelease, trySub, lt_irrefl, if_false, not_lt.mpr hbytes,
    not_lt.mpr hchunks, bind, Except.bind, pure, Except.pure]
  exact ⟨_, rfl⟩

end Amount

end Sark.Body
