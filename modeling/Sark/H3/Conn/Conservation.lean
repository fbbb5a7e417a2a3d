import Sark.H3.Conn.Writes

/-!
# Conservation of the write budget

What the budget retains is what its writes and the feedback are charged for, whichever operations
have moved those charges about.

* `Queues.Conserves`: the invariant.
* `Queues.Conserves.step`: every operation has a result, keeps the invariant, and changes nothing if
  it is refused.
* `Queues.run_conserves`: it holds behind every run.
-/

namespace Sark.H3

open Qpack (Feedback FeedbackError Instruction)

/-- The charges of a list of writes. -/
def charges (records : List Record) : WriteCharge :=
  WriteCharge.total (records.map Record.charge)

@[simp]
theorem charges_nil : charges [] = .zero := rfl

@[simp]
theorem charges_cons (record : Record) (records : List Record) :
    charges (record :: records) = record.charge.add (charges records) := rfl

theorem charges_append (records more : List Record) :
    charges (records ++ more) = (charges records).add (charges more) := by
  simp only [charges, List.map_append, WriteCharge.total_append]

namespace WriteCharge

theorem add_comm (left right : WriteCharge) : left.add right = right.add left := by
  ext <;> simp [Nat.add_comm]

theorem add_assoc (first second third : WriteCharge) :
    (first.add second).add third = first.add (second.add third) := by
  ext <;> simp [Nat.add_assoc]

theorem add_left_comm (first second third : WriteCharge) :
    first.add (second.add third) = second.add (first.add third) := by
  ext <;> simp <;> omega

@[simp]
theorem add_zero (charge : WriteCharge) : charge.add .zero = charge := rfl

@[simp]
theorem zero_add (charge : WriteCharge) : zero.add charge = charge := by
  ext <;> simp

theorem le_add_left (charge other : WriteCharge) : charge.Le (other.add charge) :=
  ⟨Nat.le_add_left _ _, Nat.le_add_left _ _⟩

theorem le_add_right (charge other : WriteCharge) : charge.Le (charge.add other) :=
  ⟨Nat.le_add_right _ _, Nat.le_add_right _ _⟩

theorem add_right_cancel {left right : WriteCharge} (charge : WriteCharge)
    (h : left.add charge = right.add charge) : left = right := by
  obtain ⟨hwire, hresident⟩ := WriteCharge.ext_iff.mp h
  ext
  · exact Nat.add_right_cancel hwire
  · exact Nat.add_right_cancel hresident

end WriteCharge

namespace Taken

/-- What a taken write is charged for, besides the feedback. -/
def charge : Option Taken → WriteCharge
  | some (.queued _ record) => record.charge
  | _ => .zero

/-- What a taken regular write is charged for. -/
def regularCharge : Option Taken → WriteCharge
  | some (.queued .regular record) => record.charge
  | _ => .zero

/-- What a taken critical write is charged for. -/
def criticalCharge : Option Taken → WriteCharge
  | some (.queued .critical record) => record.charge
  | _ => .zero

theorem charge_eq (taken : Option Taken) :
    charge taken = (regularCharge taken).add (criticalCharge taken) := by
  match taken with
  | none => rfl
  | some .decoderFeedback => rfl
  | some (.queued .regular record) => rfl
  | some (.queued .critical record) => exact (WriteCharge.zero_add _).symm

end Taken

namespace Queues

/-- What the writes of one class are charged for, the taken one included. -/
def laneCharge (self : Queues) : WriteClass → WriteCharge
  | .regular => (charges self.regular).add (Taken.regularCharge self.taken)
  | .critical => (charges self.critical).add (Taken.criticalCharge self.taken)

/-- What the writes of a connection are charged for. -/
def queued (self : Queues) : WriteCharge :=
  ((charges self.regular).add (charges self.critical)).add (Taken.charge self.taken)

/-- The budget retains the charges of all writes and the bytes of the feedback, its regular part the
charges of the regular writes, and both are within the limits that the capacities set. -/
structure Conserves (capacities : Capacities) (queues : Queues) : Prop where
  retained : queues.budget.retained = queues.queued.add ⟨queues.feedback.len, 0⟩
  regular : queues.budget.regular =
    (charges queues.regular).add (Taken.regularCharge queues.taken)
  sound : queues.budget.Sound
  limit : queues.budget.limit = ⟨capacities.wireBytes, capacities.residentBytes⟩
  wireLimit : regularLimit capacities.wireBytes WriteBudget.maxCriticalReserve =
    some queues.budget.regularLimit.wireBytes
  residentLimit : regularLimit capacities.residentBytes WriteBudget.maxCriticalReserve =
    some queues.budget.regularLimit.residentBytes
  feedback : queues.feedback.Sound capacities.inlineBytes

variable {capacities : Capacities} {self next : Queues}

theorem regularLimit_le {capacity maximum limit : ℕ} (hcapacity : 0 < capacity)
    (h : regularLimit capacity maximum = some limit) : limit ≤ capacity := by
  obtain ⟨limit', hlimit, hle⟩ := regularLimit_eq maximum hcapacity
  rw [hlimit] at h
  exact Option.some.inj h ▸ hle

theorem Conserves.fits (h : self.Conserves capacities) : self.budget.Fits := by
  have hwire := capacities.wireBytes_ge
  have hresident := capacities.residentBytes_ge
  refine ⟨?_, ?_⟩
  · rw [h.limit]
    exact ⟨capacities.wireBytes_le, capacities.residentBytes_le⟩
  · rw [h.limit]
    exact ⟨regularLimit_le (lt_of_lt_of_le two_pos hwire) h.wireLimit,
      regularLimit_le (lt_of_lt_of_le two_pos hresident) h.residentLimit⟩

theorem new_conserves (capacities : Capacities) :
    ∃ queues, new capacities = some queues ∧ queues.Conserves capacities ∧ queues.taken = none := by
  obtain ⟨writes, hwrites, -⟩ := regularLimit_eq 64
    (lt_of_lt_of_le two_pos capacities.writes_ge)
  obtain ⟨wire, hwire, hwireLe⟩ := regularLimit_eq WriteBudget.maxCriticalReserve
    (lt_of_lt_of_le two_pos capacities.wireBytes_ge)
  obtain ⟨resident, hresident, hresidentLe⟩ := regularLimit_eq
    WriteBudget.maxCriticalReserve (lt_of_lt_of_le two_pos capacities.residentBytes_ge)
  refine ⟨_, by simp [new, WriteBudget.new, hwrites, hwire, hresident]; rfl, ?_, rfl⟩
  exact ⟨rfl, rfl, ⟨⟨Nat.zero_le _, Nat.zero_le _⟩, ⟨Nat.zero_le _, Nat.zero_le _⟩⟩, rfl, hwire,
    hresident, Feedback.sound_new⟩

/-! ## Reservations -/

theorem Conserves.reserved (h : self.Conserves capacities) {regular critical : WriteCharge}
    {change : Change} (hchange : self.budget.tryReserve regular critical = .ok change) :
    (self.budget.commit change).Sound ∧
      change.retained = (self.budget.retained.add regular).add critical ∧
      change.regular = self.budget.regular.add regular := by
  obtain ⟨hretained, hregular, rfl⟩ := (WriteBudget.tryReserve_eq_ok_iff h.fits).mp hchange
  exact ⟨⟨hretained, hregular⟩, rfl, rfl⟩

/-- What the entries of one class are charged for. -/
def classCharges (kind : WriteClass) (entries : List Entry) : WriteCharge :=
  charges ((entries.filter fun entry => entry.kind = kind).map fun entry => entry.plan.record)

theorem sums_eq_ok {entries : List Entry} {regular critical : WriteCharge}
    {result : WriteCharge × WriteCharge} (h : sums entries regular critical = .ok result) :
    result = (regular.add (classCharges .regular entries),
      critical.add (classCharges .critical entries)) := by
  induction entries generalizing regular critical with
  | nil => exact (Except.ok.inj h).symm
  | cons entry entries ih =>
    have hcharge := entry.plan.charge_eq
    unfold sums at h
    cases hkind : entry.kind with
    | regular =>
      simp only [hkind, WriteClass.tryAdd] at h
      split at h
      · cases h
      next sum hsum =>
      split at hsum
      · cases hsum
      split at hsum
      · cases hsum
      obtain rfl := Except.ok.inj hsum
      rw [ih h]
      simp [classCharges, hkind, hcharge, WriteCharge.add_assoc]
    | critical =>
      simp only [hkind, WriteClass.tryAdd] at h
      split at h
      · cases h
      next sum hsum =>
      split at hsum
      · cases hsum
      split at hsum
      · cases hsum
      obtain rfl := Except.ok.inj hsum
      rw [ih h]
      simp [classCharges, hkind, hcharge, WriteCharge.add_assoc]

theorem foldl_insert (entries : List Entry) (queues : Queues) :
    entries.foldl insert queues = { queues with
      regular := queues.regular ++
        (entries.filter fun entry => entry.kind = .regular).map fun entry => entry.plan.record
      critical := queues.critical ++
        (entries.filter fun entry => entry.kind = .critical).map fun entry =>
          entry.plan.record } := by
  induction entries generalizing queues with
  | nil => simp
  | cons entry entries ih =>
    rw [List.foldl_cons, ih]
    cases hkind : entry.kind <;> simp [insert, withLane, lane, hkind]

theorem Conserves.inserted (h : self.Conserves capacities) (entries : List Entry) {change : Change}
    (hchange : self.budget.tryReserve (classCharges .regular entries)
      (classCharges .critical entries) = .ok change) :
    (entries.foldl insert { self with budget := self.budget.commit change }).Conserves
      capacities := by
  obtain ⟨hsound, hretained, hregular⟩ := h.reserved hchange
  rw [foldl_insert]
  refine ⟨?_, ?_, hsound, h.limit, h.wireLimit, h.residentLimit, h.feedback⟩
  · simp only [WriteBudget.commit, hretained, h.retained, queued, charges_append]
    ext <;> simp [classCharges] <;> omega
  · simp only [WriteBudget.commit, hregular, h.regular, charges_append]
    ext <;> simp [classCharges] <;> omega

/-- What every operation does: it has a result, keeps the invariant, and changes nothing if it is
refused. -/
def Kept (capacities : Capacities) (self : Queues) (result : Option (Queues × Verdict)) : Prop :=
  ∃ next verdict, result = some (next, verdict) ∧ next.Conserves capacities ∧
    (verdict ≠ .done → next = self)

theorem Conserves.refuse (h : self.Conserves capacities) (verdict : Verdict) :
    Kept capacities self (some (self, verdict)) :=
  ⟨self, verdict, rfl, h, fun _ => rfl⟩

theorem kept_done (h : next.Conserves capacities) : Kept capacities self (some (next, .done)) :=
  ⟨next, .done, rfl, h, fun hdone => absurd rfl hdone⟩

theorem Conserves.single (h : self.Conserves capacities) (entry : Entry) (slot : Bool) :
    Kept capacities self (some (self.single entry slot)) := by
  unfold Queues.single
  split
  · exact h.refuse _
  cases hkind : entry.kind with
  | regular =>
    have hfirst : entry.plan.charge = classCharges .regular [entry] := by
      simp [classCharges, hkind, entry.plan.charge_eq]
    have hsecond : WriteCharge.zero = classCharges .critical [entry] := by
      simp [classCharges, hkind]
    simp only
    cases hchange : self.budget.tryReserve entry.plan.charge .zero with
    | error error => exact h.refuse _
    | ok change =>
      rw [hfirst, hsecond] at hchange
      cases slot with
      | false => exact h.refuse _
      | true => exact kept_done (h.inserted [entry] hchange)
  | critical =>
    have hfirst : WriteCharge.zero = classCharges .regular [entry] := by
      simp [classCharges, hkind]
    have hsecond : entry.plan.charge = classCharges .critical [entry] := by
      simp [classCharges, hkind, entry.plan.charge_eq]
    simp only
    cases hchange : self.budget.tryReserve .zero entry.plan.charge with
    | error error => exact h.refuse _
    | ok change =>
      rw [hfirst, hsecond] at hchange
      cases slot with
      | false => exact h.refuse _
      | true => exact kept_done (h.inserted [entry] hchange)

theorem Conserves.batch (h : self.Conserves capacities) (entries : List Entry)
    (slots published : Bool) :
    Kept capacities self (some (self.batch entries slots published)) := by
  unfold Queues.batch
  simp only
  split
  · exact h.refuse _
  cases hsums : sums entries .zero .zero with
  | error error => exact h.refuse _
  | ok result =>
    obtain rfl := sums_eq_ok hsums
    simp only [WriteCharge.zero_add]
    cases hchange : self.budget.tryReserve (classCharges .regular entries)
        (classCharges .critical entries) with
    | error error => exact h.refuse _
    | ok change =>
      cases hslots : slots && published with
      | false => exact h.refuse _
      | true => exact kept_done (h.inserted entries hchange)

/-! ## Releases -/

theorem Conserves.charge_le (h : self.Conserves capacities) {kind : WriteClass} {record : Record}
    (hmem : record ∈ self.lane kind) :
    record.charge.Le self.budget.retained ∧
      (kind = .regular → record.charge.Le self.budget.regular) := by
  have hlist : ∀ {records : List Record}, record ∈ records →
      record.charge.Le (charges records) := by
    intro records hmem
    obtain ⟨before, after, rfl⟩ := List.append_of_mem hmem
    rw [charges_append, charges_cons]
    constructor <;> simp <;> omega
  have hcharge := hlist hmem
  rw [h.retained, h.regular]
  cases kind with
  | regular =>
    obtain ⟨hwire, hresident⟩ := hcharge
    simp only [lane] at hwire hresident
    refine ⟨⟨?_, ?_⟩, fun _ => ⟨?_, ?_⟩⟩ <;> simp [queued] <;> omega
  | critical =>
    obtain ⟨hwire, hresident⟩ := hcharge
    simp only [lane] at hwire hresident
    refine ⟨⟨?_, ?_⟩, nofun⟩ <;> simp [queued] <;> omega

theorem Conserves.takeLane (h : self.Conserves capacities) (htaken : self.taken = none)
    (kind : WriteClass) {record : Record} {rest : List Record}
    (hlane : self.lane kind = record :: rest) :
    Kept capacities self (some (self.takeLane kind record rest)) := by
  have hmem : record ∈ self.lane kind := by simp [hlane]
  obtain ⟨hretained, hregular⟩ := h.charge_le hmem
  unfold Queues.takeLane
  rw [WriteBudget.tryRelease_of_le kind hretained hregular]
  refine kept_done ?_
  have hbudget := h.retained
  have hbudget' := h.regular
  -- The charge moves from the lane to the taken write.
  cases kind with
  | regular =>
    simp only [lane] at hlane
    refine ⟨?_, ?_, h.sound, h.limit, h.wireLimit, h.residentLimit, h.feedback⟩
    · simp only [withLane, hbudget, queued, hlane, htaken, Taken.charge]
      ext <;> simp <;> omega
    · simp only [withLane, hbudget', hlane, htaken, Taken.regularCharge]
      ext <;> simp <;> omega
  | critical =>
    simp only [lane] at hlane
    refine ⟨?_, ?_, h.sound, h.limit, h.wireLimit, h.residentLimit, h.feedback⟩
    · simp only [withLane, hbudget, queued, hlane, htaken, Taken.charge]
      ext <;> simp <;> omega
    · simp only [withLane, hbudget', htaken, Taken.regularCharge]

theorem Conserves.feedback_le (h : self.Conserves capacities) :
    (⟨self.feedback.len, 0⟩ : WriteCharge).Le self.budget.retained := by
  rw [h.retained]
  exact WriteCharge.le_add_left _ _

theorem Conserves.take (h : self.Conserves capacities) (htaken : self.taken = none) :
    Kept capacities self (some self.take) := by
  unfold Queues.take
  split
  · rw [WriteBudget.tryRelease_of_le .critical h.feedback_le (by simp)]
    refine kept_done ⟨?_, ?_, h.sound, h.limit, h.wireLimit, h.residentLimit, h.feedback⟩
    · simpa only [queued, htaken, Taken.charge] using h.retained
    · simpa only [htaken, Taken.regularCharge] using h.regular
  · cases hcritical : self.critical with
    | cons record rest => exact h.takeLane htaken .critical hcritical
    | nil =>
      cases hregular : self.regular with
      | cons record rest => exact h.takeLane htaken .regular hregular
      | nil => exact kept_done h

theorem sound_of_release {budget released : WriteBudget} {charge regular : WriteCharge}
    (h : budget.Sound) (hretained : released.retained.add charge = budget.retained)
    (hregular : released.regular.add regular = budget.regular)
    (hlimit : released.limit = budget.limit)
    (hregularLimit : released.regularLimit = budget.regularLimit) : released.Sound := by
  obtain ⟨⟨hwire, hresident⟩, ⟨hwire', hresident'⟩⟩ := h
  rw [← hretained, ← hlimit] at hwire hresident
  rw [← hregular, ← hregularLimit] at hwire' hresident'
  simp only [WriteCharge.add_wireBytes, WriteCharge.add_residentBytes] at *
  exact ⟨⟨by omega, by omega⟩, ⟨by omega, by omega⟩⟩

theorem Conserves.commit (h : self.Conserves capacities) {taken : Taken}
    (htaken : self.taken = some taken) : Kept capacities self (self.commit taken) := by
  cases taken with
  | queued kind record =>
    have hcharge : Taken.charge self.taken = record.charge := by rw [htaken]; rfl
    have hretained : record.charge.Le self.budget.retained := by
      rw [h.retained, queued, hcharge]
      constructor <;> simp; omega
    have hregular : kind = .regular → record.charge.Le self.budget.regular := by
      rintro rfl
      rw [h.regular, htaken]
      exact WriteCharge.le_add_left _ _
    obtain ⟨released, hcommit, hleft, hleftRegular, hlimit, hregularLimit⟩ :=
      WriteBudget.commit_release kind hretained hregular
    refine ⟨{ self with budget := released, taken := none }, .done, ?_, ?_, fun hdone => absurd rfl hdone⟩
    · simp only [Queues.commit, hcommit, Option.bind_eq_bind, Option.bind_some]
    · refine ⟨?_, ?_, sound_of_release h.sound hleft hleftRegular hlimit hregularLimit,
        hlimit.trans h.limit, hregularLimit ▸ h.wireLimit, hregularLimit ▸ h.residentLimit,
        h.feedback⟩
      · refine WriteCharge.add_right_cancel record.charge ?_
        rw [hleft, h.retained, queued, hcharge]
        simp only [queued, Taken.charge]
        ext <;> simp; omega
      · have htakenRegular : Taken.regularCharge self.taken =
            if kind = .regular then record.charge else .zero := by
          rw [htaken]
          cases kind <;> rfl
        refine WriteCharge.add_right_cancel
          (if kind = .regular then record.charge else .zero) ?_
        rw [hleftRegular, h.regular, htakenRegular]
        rfl
  | decoderFeedback =>
    obtain ⟨released, hcommit, hleft, hleftRegular, hlimit, hregularLimit⟩ :=
      WriteBudget.commit_release .critical h.feedback_le (by simp)
    refine ⟨{ self with budget := released, feedback := self.feedback.clear, taken := none },
      .done, ?_, ?_, fun hdone => absurd rfl hdone⟩
    · simp only [Queues.commit, hcommit, Option.bind_eq_bind, Option.bind_some]
    · refine ⟨?_, ?_, sound_of_release h.sound hleft hleftRegular hlimit hregularLimit,
        hlimit.trans h.limit, hregularLimit ▸ h.wireLimit, hregularLimit ▸ h.residentLimit,
        Feedback.sound_new⟩
      · refine WriteCharge.add_right_cancel ⟨self.feedback.len, 0⟩ ?_
        rw [hleft, h.retained]
        simp only [queued, htaken, Taken.charge, Feedback.clear, Feedback.new, Feedback.len]
        ext <;> simp
      · have hsame : released.regular = self.budget.regular := by simpa using hleftRegular
        rw [hsame, h.regular, htaken]
        rfl

theorem Conserves.restore (h : self.Conserves capacities) {taken : Taken}
    (htaken : self.taken = some taken) :
    Kept capacities self (some (self.restore taken, .done)) := by
  have hretained := h.retained
  have hregular := h.regular
  refine kept_done ?_
  cases taken with
  | queued kind record =>
    cases kind with
    | regular =>
      refine ⟨?_, ?_, h.sound, h.limit, h.wireLimit, h.residentLimit, h.feedback⟩
      · simp only [Queues.restore, withLane, lane, queued, hretained, htaken, Taken.charge]
        ext <;> simp <;> omega
      · simp only [Queues.restore, withLane, lane, hregular, htaken, Taken.regularCharge]
        ext <;> simp <;> omega
    | critical =>
      refine ⟨?_, ?_, h.sound, h.limit, h.wireLimit, h.residentLimit, h.feedback⟩
      · simp only [Queues.restore, withLane, lane, queued, hretained, htaken, Taken.charge]
        ext <;> simp <;> omega
      · simpa only [Queues.restore, withLane, lane, htaken, Taken.regularCharge] using hregular
  | decoderFeedback =>
    refine ⟨?_, ?_, h.sound, h.limit, h.wireLimit, h.residentLimit, h.feedback⟩
    · simpa only [Queues.restore, queued, htaken, Taken.charge] using hretained
    · simpa only [Queues.restore, htaken, Taken.regularCharge] using hregular

/-- The writes of a stream are removed with their charges, and none of them is refused: the charges
of the records, and what their owners retain, were counted in. -/
theorem drain_spec (streamId : ℕ) (records : List Record) {budget : WriteBudget}
    (retired : HoldCharge) (other otherRegular : WriteCharge) (hsound : budget.Sound)
    (hretained : budget.retained = (charges records).add other)
    (hregular : budget.regular = (charges records).add otherRegular)
    (hlogical : retired.logicalBytes + (charges records).wireBytes ≤ usizeMax)
    (hresident : retired.residentBytes + (charges records).residentBytes ≤ usizeMax)
    (howners : retired.owners + (charges records).residentBytes ≤ usizeMax) :
    ∃ left, drain streamId records budget retired =
        some (records.filter fun record => record.streamId ≠ streamId, left, .done) ∧
      left.Sound ∧
      left.retained =
        (charges (records.filter fun record => record.streamId ≠ streamId)).add other ∧
      left.regular =
        (charges (records.filter fun record => record.streamId ≠ streamId)).add otherRegular ∧
      left.limit = budget.limit ∧ left.regularLimit = budget.regularLimit := by
  induction records generalizing budget retired other otherRegular with
  | nil => exact ⟨budget, rfl, hsound, hretained, hregular, rfl, rfl⟩
  | cons record records ih =>
    simp only [charges_cons, WriteCharge.add_wireBytes, WriteCharge.add_residentBytes]
      at hretained hregular hlogical hresident howners
    unfold drain
    by_cases hstream : record.streamId ≠ streamId
    · obtain ⟨left, hdrain, hleft, hkept, hkeptRegular, hlimits⟩ := ih retired
        (record.charge.add other) (record.charge.add otherRegular) hsound
        (by rw [hretained]; ext <;> simp <;> omega) (by rw [hregular]; ext <;> simp <;> omega)
        (by omega) (by omega) (by omega)
      have hfilter : (record :: records).filter (fun record => record.streamId ≠ streamId) =
          record :: records.filter fun record => record.streamId ≠ streamId := by
        rw [List.filter_cons_of_pos (by simpa using hstream)]
      rw [hfilter]
      refine ⟨left, by simp [hstream, hdrain], hleft, ?_, ?_, hlimits⟩
      · rw [hkept]
        ext <;> simp <;> omega
      · rw [hkeptRegular]
        ext <;> simp <;> omega
    · have hfilter : (record :: records).filter (fun record => record.streamId ≠ streamId) =
          records.filter fun record => record.streamId ≠ streamId := by
        rw [List.filter_cons_of_neg (by simpa using hstream)]
      rw [hfilter]
      have hlogical' : record.retained.logicalBytes ≤ record.charge.wireBytes := record.logical_le
      have hresident' : record.retained.residentBytes ≤ record.charge.residentBytes :=
        record.resident_le
      have howners' : record.retained.owners ≤ record.charge.residentBytes := record.owners_le
      have hadd : retired.tryAdd record.retained =
          some ⟨retired.logicalBytes + record.retained.logicalBytes,
            retired.residentBytes + record.retained.residentBytes,
            retired.owners + record.retained.owners⟩ :=
        if_pos ⟨by omega, by omega, by omega⟩
      have hle : record.charge.Le budget.retained := by
        rw [hretained]
        constructor <;> simp <;> omega
      have hleRegular : record.charge.Le budget.regular := by
        rw [hregular]
        constructor <;> simp <;> omega
      obtain ⟨released, hcommit, hleft, hleftRegular, hlimit, hregularLimit⟩ :=
        WriteBudget.commit_release .regular hle fun _ => hleRegular
      rw [if_pos rfl] at hleftRegular
      obtain ⟨left, hdrain, hsound', hkept, hkeptRegular, hlimit', hregularLimit'⟩ := ih
        ⟨retired.logicalBytes + record.retained.logicalBytes,
          retired.residentBytes + record.retained.residentBytes,
          retired.owners + record.retained.owners⟩ other otherRegular
        (sound_of_release hsound hleft hleftRegular hlimit hregularLimit)
        (WriteCharge.add_right_cancel record.charge
          (by rw [hleft, hretained]; ext <;> simp <;> omega))
        (WriteCharge.add_right_cancel record.charge
          (by rw [hleftRegular, hregular]; ext <;> simp <;> omega))
        (by simp only; omega) (by simp only; omega) (by simp only; omega)
      refine ⟨left, ?_, hsound', hkept, hkeptRegular, hlimit'.trans hlimit,
        hregularLimit'.trans hregularLimit⟩
      simp only [if_neg hstream, hadd, WriteBudget.tryRelease_of_le .regular hle fun _ => hleRegular,
        hcommit, Option.bind_eq_bind, Option.bind_some, hdrain]

theorem Conserves.discard (h : self.Conserves capacities) (streamId : ℕ) :
    Kept capacities self (self.discard streamId) := by
  obtain ⟨hwire, hresident⟩ := h.sound.retained_le
  rw [h.retained, h.limit] at hwire hresident
  have hwireLimit := capacities.wireBytes_le
  have hresidentLimit := capacities.residentBytes_le
  simp only [queued, WriteCharge.add_wireBytes, WriteCharge.add_residentBytes] at hwire hresident
  obtain ⟨left, hdrain, hsound, hretained, hregular, hlimit, hregularLimit⟩ :=
    drain_spec streamId self.regular ⟨0, 0, 0⟩
      (((charges self.critical).add (Taken.charge self.taken)).add ⟨self.feedback.len, 0⟩) _
      h.sound
      (by rw [h.retained]; simp only [queued, WriteCharge.add_assoc]) h.regular
      (by simp only; omega) (by simp only; omega) (by simp only; omega)
  refine ⟨{ self with
      regular := self.regular.filter fun record => record.streamId ≠ streamId, budget := left },
    .done, by simp only [Queues.discard, hdrain, Option.bind_eq_bind, Option.bind_some], ?_,
    fun hdone => absurd rfl hdone⟩
  refine ⟨?_, hregular, hsound, hlimit.trans h.limit, hregularLimit ▸ h.wireLimit,
    hregularLimit ▸ h.residentLimit, h.feedback⟩
  rw [hretained]
  simp only [queued, WriteCharge.add_assoc]

/-! ## Feedback -/

theorem Conserves.fed (h : self.Conserves capacities) {feedback : Feedback} {growth : ℕ}
    (hsound : feedback.Sound capacities.inlineBytes)
    (hlen : feedback.len = self.feedback.len + growth)
    (hroom : self.budget.retained.wireBytes + growth ≤ self.budget.limit.wireBytes)
    (decoderOpen : Bool) :
    ({ self with
      feedback, decoderOpen
      budget := self.budget.commit ⟨self.budget.retained.add ⟨growth, 0⟩, self.budget.regular⟩ } :
        Queues).Conserves capacities := by
  refine ⟨?_, h.regular, ⟨⟨hroom, ?_⟩, h.sound.regular_le⟩, h.limit, h.wireLimit,
    h.residentLimit, hsound⟩
  · simp only [WriteBudget.commit, h.retained, hlen, queued]
    ext <;> simp; omega
  · exact h.sound.retained_le.2

theorem Conserves.wireLeft (h : self.Conserves capacities) :
    self.budget.wireLeft =
      some (self.budget.limit.wireBytes - self.budget.retained.wireBytes) :=
  Fallible.sub_of_le h.sound.retained_le.1

/-- The limit of the feedback is a number, before and after the decoder stream is open. -/
theorem Conserves.exists_limit (h : self.Conserves capacities) :
    ∃ limit, self.limit capacities.inlineBytes = some limit := by
  have hinline := capacities.inlineBytes_pos
  have hkept : (if self.decoderOpen then 0 else 1) ≤ capacities.inlineBytes := by
    split <;> omega
  unfold Queues.limit
  simp only [h.wireLeft, Fallible.sub_of_le hkept, Option.bind_eq_bind, Option.bind_some,
    Fallible.sub_of_le (min_le_right _ _)]
  exact ⟨_, rfl⟩

theorem Conserves.prepare (h : self.Conserves capacities) (inst : Instruction)
    (committed : Bool) :
    Kept capacities self (self.prepare capacities.inlineBytes inst committed) := by
  obtain ⟨limit, hlimit⟩ := h.exists_limit
  unfold Queues.prepare
  simp only [hlimit, Option.bind_eq_bind, Option.bind_some]
  cases hpush : self.feedback.tryPush capacities.inlineBytes inst limit with
  | error error =>
    cases error with
    | capacity len additional maximum =>
      simp only
      split
      · exact h.refuse _
      · exact h.refuse _
    | increment pending additional => exact h.refuse _
  | ok next =>
    obtain ⟨hsound, hle, -⟩ := h.feedback.tryPush hpush
    simp only [Fallible.sub_of_le hle, Option.bind_some]
    cases hretain : self.budget.tryRetain (next.len - self.feedback.len) with
    | error error => exact h.refuse _
    | ok change =>
      obtain ⟨hroom, rfl⟩ := (WriteBudget.tryRetain_eq_ok_iff h.fits).mp hretain
      cases committed with
      | false => exact h.refuse _
      | true => exact kept_done (h.fed hsound (by omega) hroom self.decoderOpen)

theorem Conserves.ingest (h : self.Conserves capacities) (applied : List Bool) :
    Kept capacities self (self.ingest capacities.inlineBytes applied) := by
  obtain ⟨limit, hlimit⟩ := h.exists_limit
  unfold Queues.ingest
  simp only [hlimit, Option.bind_eq_bind, Option.bind_some]
  cases hallow : Allowance.tryNew self.budget self.feedback.len
      (min limit capacities.inlineBytes) with
  | error error => exact h.refuse _
  | ok allowance =>
    obtain ⟨feedback, growth, hingest, hsound, hlen, hgrowth⟩ :=
      h.feedback.ingest (min limit capacities.inlineBytes) applied
    have hwithin : growth ≤ min limit capacities.inlineBytes - self.feedback.len :=
      hgrowth.trans (Nat.sub_le_sub_right (min_le_left _ _) _)
    obtain ⟨hcommit, hroom⟩ := WriteBudget.commit_allowance h.fits hallow hwithin
    simp only [hingest, Option.bind_some, hcommit]
    exact kept_done (h.fed hsound hlen hroom self.decoderOpen)

theorem Conserves.openDecoder (h : self.Conserves capacities) :
    Kept capacities self (self.openDecoder capacities.inlineBytes) := by
  unfold Queues.openDecoder
  split
  · exact h.refuse _
  simp only [prepend, h.wireLeft, Option.bind_eq_bind, Option.bind_some,
    Fallible.sub_of_le (min_le_right self.feedback.len capacities.inlineBytes)]
  cases hprepend : self.feedback.tryPrepend capacities.inlineBytes streamTypeQpackDecoder
      (min self.feedback.len capacities.inlineBytes +
        min (self.budget.limit.wireBytes - self.budget.retained.wireBytes)
          (capacities.inlineBytes - min self.feedback.len capacities.inlineBytes)) with
  | error error => exact h.refuse _
  | ok next =>
    obtain ⟨hsound, hlen⟩ := h.feedback.tryPrepend hprepend
    have hgrowth : next.len - self.feedback.len = 1 := by omega
    simp only [Fallible.sub_of_le (hlen ▸ Nat.le_succ _ : self.feedback.len ≤ next.len),
      Option.bind_some, hgrowth]
    cases hretain : self.budget.tryRetain 1 with
    | error error => exact h.refuse _
    | ok change =>
      obtain ⟨hroom, rfl⟩ := (WriteBudget.tryRetain_eq_ok_iff h.fits).mp hretain
      exact kept_done (h.fed hsound hlen hroom true)

/-! ## Runs -/

theorem queued_eq (self : Queues) :
    self.queued = (self.laneCharge .regular).add (self.laneCharge .critical) := by
  simp only [queued, laneCharge, Taken.charge_eq]
  ext <;> simp <;> omega

theorem Conserves.settling (h : self.Conserves capacities) {taken : Taken}
    (htaken : self.taken = some taken) (op : Op) :
    Kept capacities self (self.step capacities.inlineBytes op) := by
  have hbusy := h.refuse .busy
  unfold Queues.step
  rw [htaken]
  cases op with
  | commit => exact h.commit htaken
  | restore => exact h.restore htaken
  | _ => exact hbusy

/-- Every operation has a result, keeps the invariant, and changes nothing if it is refused. -/
theorem Conserves.step (h : self.Conserves capacities) (op : Op) :
    Kept capacities self (self.step capacities.inlineBytes op) := by
  cases htaken : self.taken with
  | some taken => exact h.settling htaken op
  | none =>
    have hbusy := h.refuse .busy
    unfold Queues.step
    rw [htaken]
    cases op with
    | single entry slot => exact h.single entry slot
    | batch entries slots published => exact h.batch entries slots published
    | take => exact h.take htaken
    | commit => exact hbusy
    | restore => exact hbusy
    | discard streamId => exact h.discard streamId
    | prepare inst committed => exact h.prepare inst committed
    | ingest applied => exact h.ingest applied
    | openDecoder => exact h.openDecoder

theorem Conserves.run (h : self.Conserves capacities) (ops : List Op) :
    ∃ last, self.run capacities.inlineBytes ops = some last ∧ last.Conserves capacities := by
  induction ops generalizing self with
  | nil => exact ⟨self, rfl, h⟩
  | cons op ops ih =>
    obtain ⟨next, verdict, hstep, hnext, -⟩ := h.step op
    obtain ⟨last, hrun, hlast⟩ := ih hnext
    refine ⟨last, ?_, hlast⟩
    unfold Queues.run
    simp only [hstep, Option.bind_eq_bind, Option.bind_some, hrun]

theorem lt_of_regularLimit {capacity maximum limit : ℕ} (hcapacity : 0 < capacity)
    (hmaximum : 0 < maximum) (h : regularLimit capacity maximum = some limit) :
    limit < capacity := by
  unfold regularLimit at h
  obtain ⟨-, rfl⟩ := Fallible.sub_eq_some_iff.mp h
  split <;> [skip; split] <;> omega

end Queues

end Sark.H3
