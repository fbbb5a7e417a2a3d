import Sark.Http.Compress.Storage

/-!
# Tables with insertions in fragments

The table of a decoder (`table/edit/mod.rs`, `insert/`). The bytes of an insertion that is not
committed stand in the ring behind all entries, where a second arena has room for them; the draft
says how many there are and how many of them are the name.

The abstract side is the queue of entries of `Sark.Http.Compress.Table`, with a name or a value
being written.

* `Session.simulates_run`: every run of a table is a run of the queue.
* `Session.staged_refines`: what that means for the fields and the sizes.
-/

namespace Sark.Compress

/-- `mode::Staged`: a record is a slot, and there is no index. -/
instance : Slotted Slot where
  slot := id

instance : Kind Slot Unit where
  remove index _ _ := index

/-! ## The draft -/

namespace Staged

/-- `insert::State`, less the classification of its bytes: their end and their number, and of a name
that is complete the length. -/
structure Draft where
  tail : ℕ
  len : ℕ
  nameLen : ℕ
  isFinished : Bool
  deriving DecidableEq, Repr

/-- `Length::INACTIVE`. -/
def Draft.inactive : ℕ :=
  2 ^ 32 - 1

/-- `State::begin`. -/
def Draft.begin (_self : Draft) (tail : ℕ) : Draft :=
  ⟨tail, 0, 0, false⟩

/-- `State::invalidate`. -/
def Draft.invalidate (self : Draft) (tail : ℕ) : Draft :=
  { self with tail, len := Draft.inactive }

/-- `State::pack`. -/
def Draft.pack (self : Draft) (nameLen : ℕ) : Draft :=
  { self with nameLen := nameLen % (nameLenMask + 1), isFinished := true }

/-- `write::Error`. -/
inductive WriteError
  | capacity (required limit : ℕ)
  | length (len additional : ℕ)
  deriving DecidableEq, Repr

/-- `insert::Error`. Spans of the ring are always found. -/
inductive DraftError
  | capacity (required limit : ℕ)
  | index (index len : ℕ)
  | name (actual limit : ℕ)
  | range (requested start stop : ℕ)
  deriving DecidableEq, Repr

end Staged

/-- `table::Table<mode::Staged>`. -/
structure Staged where
  store : Store Slot Unit
  insert : Staged.Draft

namespace Staged

/-- `Plan::try_table`. -/
def new (layout : Layout) (limit : ℕ) : Staged :=
  ⟨Store.new layout limit ⟨0, 0⟩ (), ⟨0, Draft.inactive, 0, false⟩⟩

/-- `Table::try_begin`. -/
def tryBegin (self : Staged) : Except DraftError Staged :=
  if self.store.entries.limit < entryOverhead then
    .error (.capacity entryOverhead self.store.entries.limit)
  else .ok { self with insert := self.insert.begin self.store.entries.tail }

/-- `Table::rollback`. -/
def rollback (self : Staged) : Staged :=
  { self with insert := self.insert.invalidate self.store.entries.tail }

/-! ### Writers -/

/-- `Writer::validate`. -/
def validate (self : Staged) (extra : ℕ) : Except WriteError ℕ :=
  let len := self.insert.len
  let limit := self.store.entries.limit
  if 2 ^ 64 ≤ len + extra then .error (.length len extra)
  else if 2 ^ 64 ≤ len + extra + entryOverhead then .error (.length (len + extra) entryOverhead)
  else if limit < len + extra + entryOverhead then
    .error (.capacity (len + extra + entryOverhead) limit)
  else .ok (len + extra)

/-- `Writer::extend`. -/
def extend (self : Staged) (bytes : Bytes) : Staged :=
  let (arena, tail) := Arena.write self.store.arena self.insert.tail bytes
  ⟨{ self.store with arena }, { self.insert with tail }⟩

/-- The sum of some lengths. -/
def sumLengths (extra : ℕ) : List Bytes → Except WriteError ℕ
  | [] => .ok extra
  | bytes :: slices =>
    if 2 ^ 64 ≤ extra + bytes.length then .error (.length extra bytes.length)
    else sumLengths (extra + bytes.length) slices

/-- `Writer::write_slices`. The other functions of the sink write a single slice. -/
def writeSlices (self : Staged) (slices : List Bytes) : Except WriteError Staged := do
  let extra ← sumLengths 0 slices
  let len ← self.validate extra
  let next := slices.foldl extend self
  .ok { next with insert := { next.insert with len } }

/-- `Writer::rollback`, behind some writes, each of which may have failed. -/
def retract (self : Staged) (writes : List (List Bytes)) : Staged :=
  let next := writes.foldl (fun next slices => (next.writeSlices slices).toOption.getD next) self
  { next with insert := { next.insert with tail := self.insert.tail, len := self.insert.len } }

/-! ### Names -/

/-- `State::finish`. -/
def finish (self : Staged) : Except DraftError Staged :=
  if nameLenMask < self.insert.len then .error (.name self.insert.len nameLenMask)
  else .ok { self with insert := self.insert.pack self.insert.len }

/-- `Name::apply`. -/
def copyFrom (self : Staged) (source length : ℕ) : Staged :=
  let (arena, tail) := Arena.copy self.store.arena source self.insert.tail length
  ⟨{ self.store with arena }, { self.insert with tail, len := length }⟩

/-- `Name::copy_name`. -/
def copyName (self : Staged) (index : ℕ) : Except DraftError Staged :=
  match self.store.record index with
  | none => .error (.index index self.store.entries.len)
  | some slot =>
    let self := { self with insert := { self.insert with tail := self.store.entries.tail } }
    let self := self.copyFrom slot.start slot.nameLen
    .ok { self with insert := self.insert.pack slot.nameLen }

/-- `Name::replace_name`, with a name in two parts. -/
def replaceName (self : Staged) (first second : Bytes) : Except DraftError Staged :=
  let len := first.length + second.length
  if nameLenMask < len then .error (.name len nameLenMask)
  else if self.store.entries.limit < len + entryOverhead then
    .error (.capacity (len + entryOverhead) self.store.entries.limit)
  else
    let (arena, tail) := Arena.write self.store.arena self.store.entries.tail first
    let (arena, tail) := Arena.write arena tail second
    .ok ⟨{ self.store with arena }, ({ self.insert with tail, len } : Draft).pack len⟩

/-! ### Values -/

/-- `Value::truncate`. -/
def truncate (self : Staged) (len : ℕ) : Except DraftError Staged :=
  let start := self.insert.nameLen
  let stop := self.insert.len
  if len < start ∨ stop < len then .error (.range len start stop)
  else if len < stop then
    .ok { self with insert := {
      self.insert with
      len
      tail := Arena.advance self.store.arena self.store.entries.tail len } }
  else .ok self

/-- `Edit::publish`. -/
def publish (self : Staged) (slot : Slot) (size tail : ℕ) : Staged :=
  let self := self.rollback
  let store := self.store.makeRoom size self.store.entries.len
  { self with store := store.push slot size tail }

/-- `Value::commit`. -/
def commit (self : Staged) : Staged :=
  self.publish (Slot.pack self.store.entries.tail self.insert.nameLen) self.insert.len
    self.insert.tail

/-! ### Edits -/

/-- `Edit::set_limit`. -/
def setLimit (self : Staged) (limit : ℕ) : Staged :=
  let self := ({ self with store := self.store.setLimit limit } : Staged).rollback
  { self with store := self.store.trim self.store.entries.len }

/-- `Edit::reject`. -/
def reject (self : Staged) : Staged :=
  let self := self.rollback
  { self with store := self.store.clear }

/-- `Edit::duplicate`. -/
def duplicate (self : Staged) (index : ℕ) : Except DraftError Staged :=
  if self.store.entries.limit < entryOverhead then
    .error (.capacity entryOverhead self.store.entries.limit)
  else
    match self.store.tryEntry index with
    | none => .error (.index index self.store.entries.len)
    | some (_, slot, size) =>
      let self := { self with insert := self.insert.begin self.store.entries.tail }
      let self := self.copyFrom slot.start size
      .ok (self.publish (Slot.pack self.store.entries.tail slot.nameLen) size self.insert.tail)

/-! ## Sessions -/

/-- Which of `stages::Ready`, `stages::Name` and `stages::Value` a table is. -/
inductive Phase
  | ready
  | name
  | value
  deriving DecidableEq, Repr

/-- The operations of a table and of its stages. -/
inductive Op
  | setLimit (limit : ℕ)
  | reject
  | rollback
  | duplicate (index : ℕ)
  | begin
  | write (slices : List Bytes)
  | retract (writes : List (List Bytes))
  | copyName (index : ℕ)
  | replaceName (first second : Bytes)
  | finish
  | truncate (len : ℕ)
  | commit
  deriving DecidableEq, Repr

/-- The operations on an insertion that is not committed. -/
def Op.isDraft : Op → Bool
  | .rollback | .begin | .write _ | .retract _ | .copyName _ | .replaceName _ _ | .finish
  | .truncate _ => true
  | _ => false

/-- A table and its stage. -/
structure Session where
  table : Staged
  phase : Phase

namespace Session

/-- An operation. A failure leaves the table as it is, and the stage unless the operation is one of
the table itself; a stage that does not have the operation cannot make it. -/
def apply (self : Session) (op : Op) : Session :=
  match op, self.phase with
  | .setLimit limit, _ => ⟨self.table.setLimit limit, .ready⟩
  | .reject, _ => ⟨self.table.reject, .ready⟩
  | .rollback, _ => ⟨self.table.rollback, .ready⟩
  | .duplicate index, _ =>
    match self.table.duplicate index with
    | .ok table => ⟨table, .ready⟩
    | .error _ => { self with phase := .ready }
  | .begin, _ =>
    match self.table.tryBegin with
    | .ok table => ⟨table, .name⟩
    | .error _ => { self with phase := .ready }
  | .write slices, .name | .write slices, .value =>
    match self.table.writeSlices slices with
    | .ok table => { self with table }
    | .error _ => self
  | .retract writes, .name | .retract writes, .value =>
    { self with table := self.table.retract writes }
  | .copyName index, .name =>
    match self.table.copyName index with
    | .ok table => ⟨table, .value⟩
    | .error _ => self
  | .replaceName first second, .name =>
    match self.table.replaceName first second with
    | .ok table => ⟨table, .value⟩
    | .error _ => self
  | .finish, .name =>
    match self.table.finish with
    | .ok table => ⟨table, .value⟩
    | .error _ => self
  | .truncate len, .value =>
    match self.table.truncate len with
    | .ok table => { self with table }
    | .error _ => self
  | .commit, .value => ⟨self.table.commit, .ready⟩
  | _, _ => self

/-- A new table. -/
def new (layout : Layout) (limit : ℕ) : Session :=
  ⟨.new layout limit, .ready⟩

/-- A sequence of operations. -/
def run (self : Session) (ops : List Op) : Session :=
  ops.foldl apply self

end Session

end Staged

/-! ## The queue -/

/-- `Edit::duplicate` on the queue. -/
def Table.duplicate (self : Table) (index : ℕ) : Table :=
  match self.field index with
  | none => self
  | some entry => self.insert entry

/-- `Value::truncate` on the queue: a length that includes the name. -/
def ValueStage.truncate (self : ValueStage) (len : ℕ) : ValueStage :=
  if len < self.name.length then self
  else
    ⟨self.table, self.name, self.value.take (len - self.name.length), by
      have := self.fits
      rw [List.length_take]
      omega⟩

namespace Staged

/-- A queue with what is being written. -/
inductive Stage
  | ready (table : Table)
  | name (stage : NameStage)
  | value (stage : ValueStage)

namespace Stage

/-- The queue of a stage. -/
def table : Stage → Table
  | .ready table => table
  | .name stage => stage.table
  | .value stage => stage.table

/-- What an operation does to the queue. -/
def apply (self : Stage) : Op → Stage
  | .setLimit limit => .ready (self.table.setLimit limit)
  | .reject => .ready self.table.reject
  | .rollback => .ready self.table
  | .duplicate index => .ready (self.table.duplicate index)
  | .begin =>
    match self.table.tryBegin with
    | some stage => .name stage
    | none => .ready self.table
  | .write slices =>
    match self with
    | .ready table => .ready table
    | .name stage => .name ((stage.write slices.flatten).toOption.getD stage)
    | .value stage => .value ((stage.write slices.flatten).toOption.getD stage)
  | .retract _ => self
  | .copyName index =>
    match self with
    | .name stage =>
      match stage.copy index with
      | .ok next => .value next
      | .error _ => self
    | _ => self
  | .replaceName first second =>
    match self with
    | .name stage =>
      match stage.setName (first ++ second) with
      | .ok next => .value next
      | .error _ => self
    | _ => self
  | .finish =>
    match self with
    | .name stage =>
      match stage.finish with
      | .ok next => .value next
      | .error _ => self
    | _ => self
  | .truncate len =>
    match self with
    | .value stage => .value (stage.truncate len)
    | _ => self
  | .commit =>
    match self with
    | .value stage => .ready stage.commit
    | _ => self

/-- A sequence of operations. -/
def run (self : Stage) (ops : List Op) : Stage :=
  ops.foldl apply self

end Stage

/-! ## A table is a queue -/

/-- A table holds the entries of a queue, under its bounds. -/
structure Tracks (state : Staged) (records : List Slot) (table : Table) : Prop where
  represents : state.store.Represents 2 records table.entries
  limit : state.store.entries.limit = table.limit
  capacity : state.store.layout.capacity = table.capacity
  names : ∀ entry ∈ table.entries, entry.name.length ≤ nameLenMask

/-- The bytes of a draft stand behind all entries. -/
structure Written (state : Staged) (bytes : Bytes) : Prop where
  tail : state.insert.tail =
    Circular.cell state.store.arena.length state.store.entries.tail bytes.length
  read : Circular.read state.store.arena state.store.entries.tail bytes.length = bytes

/-- What an operation on a draft leaves as it is, apart from the bytes behind all entries. -/
structure Frame (state next : Staged) : Prop where
  entries : next.store.entries = state.store.entries
  layout : next.store.layout = state.store.layout
  nameLen : next.insert.nameLen = state.insert.nameLen

variable {self next : Staged} {records : List Slot} {table : Table} {bytes more : Bytes}

theorem Frame.refl (self : Staged) : self.Frame self :=
  ⟨rfl, rfl, rfl⟩

theorem Frame.trans {last : Staged} (h : self.Frame next) (h' : next.Frame last) :
    self.Frame last :=
  ⟨h'.entries.trans h.entries, h'.layout.trans h.layout, h'.nameLen.trans h.nameLen⟩

namespace Tracks

theorem room (h : self.Tracks records table) {len : ℕ} (hlen : len + entryOverhead ≤ table.limit) :
    dataSize table.entries + len ≤ self.store.arena.length := by
  have hdata := h.represents.dataSize_le
  have hlimit := h.represents.limit_le
  rw [h.limit] at hlimit
  rw [h.represents.arena_length, h.represents.planned.arenaLen_eq]
  simp only [entryOverhead] at *
  by_cases hnil : table.entries = []
  · rw [hnil, dataSize_nil]
    omega
  · have hpos := List.length_pos_iff.mpr hnil
    omega

theorem period_eq (h : self.Tracks records table) : self.store.layout.period = table.period := by
  rw [h.represents.planned.period_eq, h.capacity]
  rfl

/-- Bytes that are written behind a draft. -/
theorem extend (h : self.Tracks records table) (hwritten : self.Written bytes)
    (hfits : (bytes ++ more).length + entryOverhead ≤ table.limit) :
    (self.extend more).Tracks records table ∧ (self.extend more).Written (bytes ++ more) ∧
      self.Frame (self.extend more) := by
  have hroom := h.room hfits
  rw [List.length_append] at hroom
  have htail := h.represents.tail_lt
  have hstart : self.insert.tail < max self.store.arena.length 1 := by
    rw [hwritten.tail]
    exact Circular.cell_lt htail (by omega)
  have hextend : self.extend more = ⟨{ self.store with
      arena := Circular.write self.store.arena self.insert.tail more },
      { self.insert with
        tail := Circular.cell self.store.arena.length self.insert.tail more.length }⟩ := by
    rw [Staged.extend, Arena.write_eq hstart (by omega)]
  rw [hextend]
  have hlength := Circular.length_write (show self.insert.tail ≤ self.store.arena.length by omega)
    (show more.length ≤ self.store.arena.length by omega)
  refine ⟨⟨h.represents.write (by omega) hwritten.tail, h.limit, h.capacity, h.names⟩, ⟨?_, ?_⟩,
    ⟨rfl, rfl, rfl⟩⟩
  · simp only [hlength, List.length_append]
    rw [hwritten.tail, Circular.cell_cell htail (by omega)]
  · simp only [List.length_append]
    -- The draft so far is not where the bytes go.
    have hbefore : Circular.read (Circular.write self.store.arena self.insert.tail more)
        self.store.entries.tail bytes.length = bytes := by
      rw [@Circular.read_write_of_disjoint _ _ _ _ _ _ 0 htail (by omega) (by
        rw [hwritten.tail, Nat.add_zero]), hwritten.read]
    have hafter : Circular.read (Circular.write self.store.arena self.insert.tail more)
        self.insert.tail more.length = more :=
      Circular.read_write_self hstart (by omega)
    rw [Circular.read_add (by rwa [hlength]) (by rw [hlength]; omega), hlength, hbefore,
      ← hwritten.tail, hafter]

theorem extend_all (h : self.Tracks records table) (hwritten : self.Written bytes)
    {slices : List Bytes}
    (hfits : (bytes ++ slices.flatten).length + entryOverhead ≤ table.limit) :
    (slices.foldl Staged.extend self).Tracks records table ∧
      (slices.foldl Staged.extend self).Written (bytes ++ slices.flatten) ∧
      self.Frame (slices.foldl Staged.extend self) := by
  induction slices generalizing self bytes with
  | nil => exact ⟨h, by simpa using hwritten, .refl self⟩
  | cons slice slices ih =>
    rw [List.flatten_cons, ← List.append_assoc] at hfits
    have hfirst : (bytes ++ slice).length + entryOverhead ≤ table.limit := by
      rw [List.length_append] at hfits
      omega
    obtain ⟨htracks, hnext, hframe⟩ := h.extend hwritten hfirst
    obtain ⟨hlast, hall, hrest⟩ := ih htracks hnext hfits
    rw [List.append_assoc, ← List.flatten_cons] at hall
    exact ⟨hlast, hall, hframe.trans hrest⟩

end Tracks

theorem sumLengths_eq_ok {slices : List Bytes} {extra sum : ℕ}
    (h : sumLengths extra slices = .ok sum) : sum = extra + slices.flatten.length := by
  induction slices generalizing extra with
  | nil =>
    obtain rfl := Except.ok.inj h
    simp
  | cons bytes slices ih =>
    unfold sumLengths at h
    split_ifs at h
    rw [ih h, List.flatten_cons, List.length_append]
    omega

theorem sumLengths_of_lt {slices : List Bytes} {extra : ℕ}
    (h : extra + slices.flatten.length < 2 ^ 64) :
    sumLengths extra slices = .ok (extra + slices.flatten.length) := by
  induction slices generalizing extra with
  | nil => simp [sumLengths]
  | cons bytes slices ih =>
    rw [List.flatten_cons, List.length_append] at h ⊢
    rw [sumLengths, if_neg (by omega), ih (by omega)]
    congr 1
    omega

/-- Writing to a draft succeeds exactly if the limit admits the longer draft. -/
theorem Tracks.writeSlices (h : self.Tracks records table) (hwritten : self.Written bytes)
    (hlen : self.insert.len = bytes.length) (slices : List Bytes) :
    (∀ next, self.writeSlices slices = .ok next →
      (bytes ++ slices.flatten).length + entryOverhead ≤ table.limit ∧
        next.Tracks records table ∧ next.Written (bytes ++ slices.flatten) ∧
        next.insert.len = (bytes ++ slices.flatten).length ∧ self.Frame next) ∧
      ∀ error, self.writeSlices slices = .error error →
        table.limit < (bytes ++ slices.flatten).length + entryOverhead := by
  have hlimit := h.represents.limit_le
  have hcapacity := h.represents.planned.capacity_lt
  rw [h.limit] at hlimit
  constructor
  · intro next hok
    obtain ⟨extra, hextra, hok⟩ := Except.bind_eq_ok_iff.mp hok
    obtain rfl := sumLengths_eq_ok hextra
    obtain ⟨len, hvalidate, hok⟩ := Except.bind_eq_ok_iff.mp hok
    unfold validate at hvalidate
    simp only at hvalidate
    split_ifs at hvalidate with hover hover' hfits
    obtain rfl := Except.ok.inj hvalidate
    obtain rfl := Except.ok.inj hok
    have hall : (bytes ++ slices.flatten).length + entryOverhead ≤ table.limit := by
      rw [List.length_append, ← h.limit, ← hlen]
      omega
    obtain ⟨htracks, hnext, hframe⟩ := h.extend_all hwritten hall
    refine ⟨hall, ⟨htracks.represents, htracks.limit, htracks.capacity, h.names⟩, ⟨hnext.tail, hnext.read⟩,
      ?_, ⟨hframe.entries, hframe.layout, hframe.nameLen⟩⟩
    rw [List.length_append, ← hlen, Nat.zero_add]
  · intro error herror
    by_contra hfits
    rw [not_lt, List.length_append] at hfits
    have hsum : sumLengths 0 slices = .ok (0 + slices.flatten.length) :=
      sumLengths_of_lt (by omega)
    have hvalidate : self.validate (0 + slices.flatten.length) =
        .ok (self.insert.len + (0 + slices.flatten.length)) := by
      unfold validate
      simp only
      rw [hlen, h.limit, if_neg (by simp only [entryOverhead] at *; omega),
        if_neg (by simp only [entryOverhead] at *; omega), if_neg (by omega)]
    unfold Staged.writeSlices at herror
    rw [hsum] at herror
    simp only [bind, Except.bind] at herror
    rw [hvalidate] at herror
    cases herror

/-- A writer that is rolled back leaves the draft as it was. -/
theorem Tracks.retract (h : self.Tracks records table) (hwritten : self.Written bytes)
    (hlen : self.insert.len = bytes.length) (hfits : bytes.length + entryOverhead ≤ table.limit)
    (writes : List (List Bytes)) :
    (self.retract writes).Tracks records table ∧ (self.retract writes).Written bytes ∧
      (self.retract writes).insert.len = bytes.length ∧ self.Frame (self.retract writes) := by
  -- Behind every write the draft is an extension of what it was.
  have hall : ∀ (writes : List (List Bytes)) (state : Staged) (more : Bytes),
      state.Tracks records table → state.Written (bytes ++ more) →
      state.insert.len = (bytes ++ more).length → self.Frame state →
      (bytes ++ more).length + entryOverhead ≤ table.limit →
      ∃ more', (writes.foldl (fun next slices => (next.writeSlices slices).toOption.getD next)
          state).Tracks records table ∧
        (writes.foldl (fun next slices => (next.writeSlices slices).toOption.getD next)
          state).Written (bytes ++ more') ∧
        self.Frame (writes.foldl (fun next slices => (next.writeSlices slices).toOption.getD next)
          state) ∧ (bytes ++ more').length + entryOverhead ≤ table.limit := by
    intro writes
    induction writes with
    | nil => exact fun state more htracks hmore _ hframe hle => ⟨more, htracks, hmore, hframe, hle⟩
    | cons slices writes ih =>
      intro state more htracks hmore hlength hframe hle
      rw [List.foldl_cons]
      cases hwrite : state.writeSlices slices with
      | error error => exact ih state more htracks hmore hlength hframe hle
      | ok next =>
        obtain ⟨hfit, hnext, hbytes, hcount, hstep⟩ :=
          (htracks.writeSlices hmore hlength slices).1 _ hwrite
        rw [List.append_assoc] at hbytes hcount hfit
        exact ih next (more ++ slices.flatten) hnext hbytes hcount (hframe.trans hstep) hfit
  obtain ⟨more, htracks, hmore, hframe, hle⟩ := hall writes self [] h (by simpa using hwritten)
    (by simpa using hlen) (.refl self) (by simpa using hfits)
  unfold Staged.retract
  generalize writes.foldl (fun next slices => (next.writeSlices slices).toOption.getD next) self =
    last at *
  have htail := htracks.represents.tail_lt
  have hlength : last.store.arena.length = self.store.arena.length := by
    rw [htracks.represents.arena_length, h.represents.arena_length, hframe.layout]
  refine ⟨⟨htracks.represents, htracks.limit, htracks.capacity, h.names⟩, ⟨?_, ?_⟩, hlen,
    ⟨hframe.entries, hframe.layout, hframe.nameLen⟩⟩
  · simp only
    rw [hwritten.tail, hlength, hframe.entries]
  · -- The first bytes of a longer draft.
    have hread := hmore.read
    have hroom := htracks.room hle
    simp only
    rw [List.length_append] at hread hroom
    rw [Circular.read_add htail (by omega)] at hread
    exact (List.append_inj hread (by rw [Circular.length_read (by omega) (by omega)])).1

theorem Tracks.copyFrom (h : self.Tracks records table)
    (htail : self.insert.tail = self.store.entries.tail) {source between : ℕ}
    (hsource : source < max self.store.arena.length 1)
    (hread : Circular.read self.store.arena source bytes.length = bytes)
    (hbetween : self.store.entries.tail =
      Circular.cell self.store.arena.length source (bytes.length + between))
    (hturn : bytes.length + between ≤ dataSize table.entries)
    (hfits : bytes.length + entryOverhead ≤ table.limit) :
    (self.copyFrom source bytes.length).Tracks records table ∧
      (self.copyFrom source bytes.length).Written bytes ∧
      (self.copyFrom source bytes.length).insert.len = bytes.length ∧
      self.Frame (self.copyFrom source bytes.length) := by
  have hroom := h.room hfits
  have hcopy : self.copyFrom source bytes.length = ⟨{ self.store with
      arena := Circular.write self.store.arena self.store.entries.tail bytes },
      { self.insert with
        tail := Circular.cell self.store.arena.length self.store.entries.tail bytes.length
        len := bytes.length }⟩ := by
    rw [Staged.copyFrom, htail, Arena.copy_eq hsource (by omega) hbetween, hread]
  have hlt := h.represents.tail_lt
  have hlength := Circular.length_write
    (show self.store.entries.tail ≤ self.store.arena.length by omega)
    (show bytes.length ≤ self.store.arena.length by omega)
  have hzero := (Circular.cell_zero hlt).symm
  rw [hcopy]
  refine ⟨⟨h.represents.write (by omega) hzero, h.limit, h.capacity, h.names⟩, ⟨?_, ?_⟩, rfl,
    ⟨rfl, rfl, rfl⟩⟩
  · simp only [hlength]
  · exact Circular.read_write_self hlt (by omega)

/-- An entry whose bytes stand behind all others is published. -/
theorem Tracks.publish (h : self.Tracks records table) {entry : Entry} {slot : Slot} {tail : ℕ}
    (hstart : slot.start = self.store.entries.tail) (hname : slot.nameLen = entry.name.length)
    (hread : Circular.read self.store.arena self.store.entries.tail entry.data.length = entry.data)
    (htail : tail = Circular.cell self.store.arena.length self.store.entries.tail entry.data.length)
    (hfits : entry.size ≤ table.limit) (hmask : entry.name.length ≤ nameLenMask) :
    ∃ records', (self.publish slot entry.data.length tail).Tracks records'
      (table.publish entry hfits) := by
  have hrep := h.represents
  have hlt := hrep.tail_lt
  -- Eviction moves neither the ring nor the end of what is left.
  have hkept : Store.Represents.Kept 2 fun (store : Store Slot Unit) (records : List Slot) =>
      store.arena = self.store.arena ∧
        (records ≠ [] → store.entries.tail = self.store.entries.tail) := by
    intro store records entries hstore hne hkeep
    obtain ⟨record, hrecord⟩ := hstore.exists_oldest hne
    obtain ⟨hpop, -, -, -, harena, -, hends⟩ := hstore.popLast_spec hrecord
    refine ⟨harena.trans hkeep.1, fun hrecords => ?_⟩
    have hentries : entries.dropLast ≠ [] := by
      intro hnil
      rw [hnil] at hpop
      exact hrecords (List.length_eq_zero_iff.mp hpop.holds.length_eq)
    have hfirst : records ≠ [] := by
      rintro rfl
      exact hrecords rfl
    rw [(hends hentries).1, hkeep.2 hfirst]
  obtain ⟨records', hroom, hlimit, hlayout, harena, hend⟩ :=
    hrep.makeRoom hkept self.store.entries.len entry.data.length ⟨rfl, fun _ => rfl⟩
      hrep.len_eq.ge
  have hsize := entry.size_eq
  rw [h.limit, h.period_eq, ← hsize] at hroom
  have hread' : Circular.read (self.store.makeRoom entry.data.length
      self.store.entries.len).arena slot.start entry.data.length = entry.data := by
    rw [harena, hstart, hread]
  have hlt' : slot.start < max (self.store.makeRoom entry.data.length
      self.store.entries.len).arena.length 1 := by
    rw [harena, hstart]
    exact hlt
  have hpush := @Store.Represents.push Slot Unit _ _ _ 2 records' _ hroom slot entry hname hread' hlt'
    (by
      intro hne
      have hrecords : records' ≠ [] := by
        rintro rfl
        exact hne (List.length_eq_zero_iff.mp hroom.holds.length_eq.symm)
      rw [hend hrecords]
      exact hstart)
    (by
      have hle := (table.publish entry hfits).size_le
      rw [hlayout, h.capacity]
      exact hle.trans table.limit_le)
  have htail' : tail = Circular.cell (self.store.makeRoom entry.data.length
      self.store.entries.len).arena.length slot.start entry.data.length := by
    rw [harena, hstart, htail]
  refine ⟨slot :: records', ?_, hlimit.trans h.limit,
    (congrArg Layout.capacity hlayout).trans h.capacity, ?_⟩
  · rw [htail']
    exact hpush
  · refine List.forall_mem_cons.mpr ⟨hmask, fun other hother => h.names other ?_⟩
    exact (evict_isPrefix table.entries).subset hother

/-! ## Simulation -/

/-- A draft that the limit admits, as the stages retain it. -/
structure Drafts (state : Staged) (table : Table) (bytes : Bytes) : Prop where
  written : state.Written bytes
  len : state.insert.len = bytes.length
  fits : bytes.length + entryOverhead ≤ table.limit

/-- A table in a stage holds the queue of a stage, and what is being written. -/
inductive Simulates : Session → Stage → Prop
  | ready {state : Staged} {table : Table} {records : List Slot} : state.Tracks records table →
      Simulates ⟨state, .ready⟩ (.ready table)
  | name {state : Staged} {stage : NameStage} {records : List Slot} :
      state.Tracks records stage.table → state.Drafts stage.table stage.name →
      Simulates ⟨state, .name⟩ (.name stage)
  | value {state : Staged} {stage : ValueStage} {records : List Slot} :
      state.Tracks records stage.table → state.Drafts stage.table (stage.name ++ stage.value) →
      state.insert.nameLen = stage.name.length → stage.name.length ≤ nameLenMask →
      Simulates ⟨state, .value⟩ (.value stage)

variable {session : Session} {stage : Stage}

theorem Simulates.tracks (h : Simulates session stage) :
    ∃ records, session.table.Tracks records stage.table := by
  cases h with
  | ready h => exact ⟨_, h⟩
  | name h => exact ⟨_, h⟩
  | value h => exact ⟨_, h⟩

theorem simulates_new {width indexed capacity : ℕ} {layout : Layout} (limit : ℕ)
    (hlayout : Layout.new 2 width indexed capacity = .ok layout) :
    Simulates (.new layout limit) (.ready (Table.new capacity limit)) := by
  obtain ⟨hplanned, rfl⟩ := Layout.planned_of_new (by omega) hlayout
  exact @Simulates.ready _ _ [] ⟨Store.represents_new hplanned limit _ _, rfl, rfl, nofun⟩

theorem Tracks.rollback (h : self.Tracks records table) : self.rollback.Tracks records table :=
  ⟨h.represents, h.limit, h.capacity, h.names⟩

theorem kept_true : Store.Represents.Kept 2 fun (_ : Store Slot Unit) (_ : List Slot) => True :=
  fun _ _ _ _ _ _ => trivial

theorem Tracks.setLimit (h : self.Tracks records table) (limit : ℕ) :
    ∃ records', (self.setLimit limit).Tracks records' (table.setLimit limit) := by
  obtain ⟨records', hrep, hlimit, hlayout, -⟩ := (h.represents.setLimit limit).trim kept_true
    self.store.entries.len trivial h.represents.len_eq.ge
  have hmin : (self.store.setLimit limit).entries.limit = min limit table.capacity := by
    rw [← h.capacity]
    rfl
  rw [hmin] at hrep hlimit
  exact ⟨records', hrep, hlimit, (congrArg Layout.capacity hlayout).trans h.capacity,
    fun entry hentry => h.names entry ((evict_isPrefix table.entries).subset hentry)⟩

theorem Tracks.reject (h : self.Tracks records table) : self.reject.Tracks [] table.reject :=
  ⟨h.represents.clear, h.limit, h.capacity, nofun⟩

theorem Tracks.tryBegin (h : self.Tracks records table) :
    (∀ next, self.tryBegin = .ok next → ∃ stage, table.tryBegin = some stage ∧
      next.Tracks records stage.table ∧ next.Drafts stage.table stage.name) ∧
      ∀ error, self.tryBegin = .error error → table.tryBegin = none := by
  unfold Staged.tryBegin Table.tryBegin
  rw [h.limit]
  by_cases hlimit : table.limit < entryOverhead
  · rw [if_pos hlimit, dif_neg (by omega)]
    exact ⟨nofun, fun _ _ => rfl⟩
  · rw [if_neg hlimit, dif_pos (by omega)]
    refine ⟨fun next hnext => ?_, nofun⟩
    obtain rfl := Except.ok.inj hnext
    refine ⟨_, rfl, ⟨h.represents, h.limit, h.capacity, h.names⟩, ⟨⟨?_, by simp⟩, rfl, ?_⟩⟩
    · exact (Circular.cell_zero h.represents.tail_lt).symm
    · simp only [List.length_nil]
      omega

theorem Tracks.entry_of_record (h : self.Tracks records table) {index : ℕ} {slot : Slot}
    (hslot : records[index]? = some slot) :
    ∃ entry between, table.field index = some entry ∧ entry ∈ table.entries ∧
      slot.nameLen = entry.name.length ∧ slot.start < max self.store.arena.length 1 ∧
      Circular.read self.store.arena slot.start entry.data.length = entry.data ∧
      self.store.entries.tail =
        Circular.cell self.store.arena.length slot.start (entry.data.length + between) ∧
      entry.data.length + between ≤ dataSize table.entries := by
  have hlength := h.represents.holds.length_eq
  have hlt := (List.getElem?_eq_some_iff.mp hslot).1
  have hlt' : index < table.entries.length := by omega
  have hentry : table.entries[index]? = some table.entries[index] := List.getElem?_eq_getElem hlt'
  obtain ⟨hname, hread, hstart, -⟩ := h.represents.holds.get h.represents.data_le hslot hentry
  obtain ⟨between, hbetween, hsum⟩ := h.represents.holds.behind h.represents.data_le hslot hentry
  exact ⟨_, between, hentry, List.mem_of_getElem? hentry, hname, hstart, hread, hbetween, hsum⟩

theorem Tracks.fits (h : self.Tracks records table) {entry : Entry}
    (hentry : entry ∈ table.entries) : entry.data.length + entryOverhead ≤ table.limit := by
  have hsize := (size_le_totalSize hentry).trans table.size_le
  rwa [Entry.size_eq] at hsize

theorem field_eq_none (h : self.Tracks records table) {index : ℕ} (hnone : records[index]? = none) :
    table.field index = none := by
  have hlength := h.represents.holds.length_eq
  rw [List.getElem?_eq_none_iff] at hnone
  exact List.getElem?_eq_none (by omega)

theorem pack_nameLen {len : ℕ} (h : len ≤ nameLenMask) : len % (nameLenMask + 1) = len :=
  Nat.mod_eq_of_lt (by omega)

theorem Tracks.copyName (h : self.Tracks records table) (index : ℕ) :
    (∀ next, self.copyName index = .ok next → ∃ entry, table.field index = some entry ∧
      next.Tracks records table ∧ next.Drafts table (entry.name ++ []) ∧
      next.insert.nameLen = entry.name.length ∧ entry.name.length ≤ nameLenMask) ∧
      ∀ error, self.copyName index = .error error → table.field index = none := by
  unfold Staged.copyName
  rw [h.represents.record_eq]
  cases hslot : records[index]? with
  | none => exact ⟨nofun, fun _ _ => field_eq_none h hslot⟩
  | some slot =>
    refine ⟨fun next hnext => ?_, nofun⟩
    obtain rfl := Except.ok.inj hnext
    obtain ⟨entry, between, hentry, hmem, hname, hstart, hread, hbetween, hsum⟩ :=
      h.entry_of_record hslot
    have hmask := h.names entry hmem
    have hfits := h.fits hmem
    have hdata : entry.data.length = entry.name.length + entry.value.length := by
      rw [Entry.data, List.length_append]
    -- The name is the first part of the data.
    have hfirst : Circular.read self.store.arena slot.start entry.name.length = entry.name := by
      rw [hdata, Circular.read_add hstart (by have := h.represents.data_le; omega), Entry.data]
        at hread
      exact (List.append_inj hread (by
        have := h.represents.data_le
        rw [Circular.length_read (by omega) (by omega)])).1
    rw [hdata, Nat.add_assoc] at hbetween hsum
    have htracks : ({ self with
        insert := { self.insert with tail := self.store.entries.tail } } : Staged).Tracks records
          table :=
      ⟨h.represents, h.limit, h.capacity, h.names⟩
    obtain ⟨hnext, hwritten, hlen, -⟩ :=
      htracks.copyFrom rfl hstart hfirst hbetween hsum (by omega)
    rw [hname]
    refine ⟨entry, hentry, ⟨hnext.represents, hnext.limit, hnext.capacity, hnext.names⟩,
      ⟨⟨?_, ?_⟩, ?_, ?_⟩, pack_nameLen hmask, hmask⟩
    · rw [List.append_nil]
      exact hwritten.tail
    · rw [List.append_nil]
      exact hwritten.read
    · rw [List.append_nil]
      exact hlen
    · rw [List.append_nil]
      omega

theorem Tracks.replaceName (h : self.Tracks records table) (first second : Bytes) :
    (∀ next, self.replaceName first second = .ok next →
      (first ++ second).length ≤ nameLenMask ∧ next.Tracks records table ∧
      next.Drafts table ((first ++ second) ++ []) ∧
      next.insert.nameLen = (first ++ second).length) ∧
      ∀ error, self.replaceName first second = .error error →
        nameLenMask < (first ++ second).length ∨
          table.limit < (first ++ second).length + entryOverhead := by
  unfold Staged.replaceName
  simp only [List.length_append]
  rw [h.limit]
  by_cases hmask : nameLenMask < first.length + second.length
  · rw [if_pos hmask]
    exact ⟨nofun, fun _ _ => .inl hmask⟩
  by_cases hfits : table.limit < first.length + second.length + entryOverhead
  · rw [if_neg hmask, if_pos hfits]
    exact ⟨nofun, fun _ _ => .inr hfits⟩
  rw [if_neg hmask, if_neg hfits]
  refine ⟨fun next hnext => ?_, nofun⟩
  -- Both parts are written behind an empty draft.
  have hstart : ({ self with
      insert := { self.insert with tail := self.store.entries.tail } } : Staged).Tracks records
        table :=
    ⟨h.represents, h.limit, h.capacity, h.names⟩
  have hempty : ({ self with
      insert := { self.insert with tail := self.store.entries.tail } } : Staged).Written [] :=
    ⟨(Circular.cell_zero h.represents.tail_lt).symm, by simp⟩
  have hfirst : ([] ++ first).length + entryOverhead ≤ table.limit := by
    rw [List.nil_append]
    omega
  have hsecond : ([] ++ first ++ second).length + entryOverhead ≤ table.limit := by
    rw [List.nil_append, List.length_append]
    omega
  obtain ⟨htracks, hwritten, -⟩ := hstart.extend hempty hfirst
  obtain ⟨htracks', hwritten', -⟩ := htracks.extend hwritten hsecond
  rw [List.nil_append] at hwritten'
  obtain rfl := Except.ok.inj hnext
  refine ⟨not_lt.mp hmask, ⟨htracks'.represents, htracks'.limit, htracks'.capacity, h.names⟩,
    ⟨⟨?_, ?_⟩, ?_, ?_⟩, pack_nameLen (not_lt.mp hmask)⟩
  · rw [List.append_nil]
    exact hwritten'.tail
  · rw [List.append_nil]
    exact hwritten'.read
  · rw [List.append_nil, List.length_append]
    rfl
  · rw [List.append_nil, List.length_append]
    omega

theorem Tracks.finish (h : self.Tracks records table) (hdraft : self.Drafts table bytes) :
    (∀ next, self.finish = .ok next → bytes.length ≤ nameLenMask ∧ next.Tracks records table ∧
      next.Drafts table (bytes ++ []) ∧ next.insert.nameLen = bytes.length) ∧
      ∀ error, self.finish = .error error → nameLenMask < bytes.length := by
  unfold Staged.finish
  rw [hdraft.len]
  by_cases hmask : nameLenMask < bytes.length
  · rw [if_pos hmask]
    exact ⟨nofun, fun _ _ => hmask⟩
  · rw [if_neg hmask]
    refine ⟨fun next hnext => ?_, nofun⟩
    obtain rfl := Except.ok.inj hnext
    rw [List.append_nil]
    exact ⟨not_lt.mp hmask, ⟨h.represents, h.limit, h.capacity, h.names⟩,
      ⟨⟨hdraft.written.tail, hdraft.written.read⟩, hdraft.len, hdraft.fits⟩,
      pack_nameLen (not_lt.mp hmask)⟩

theorem Tracks.truncate (h : self.Tracks records table) (hdraft : self.Drafts table (bytes ++ more))
    (hname : self.insert.nameLen = bytes.length) (len : ℕ) :
    (∀ next, self.truncate len = .ok next → bytes.length ≤ len ∧ next.Tracks records table ∧
      next.Drafts table (bytes ++ more.take (len - bytes.length)) ∧
      next.insert.nameLen = bytes.length) ∧
      ∀ error, self.truncate len = .error error →
        len < bytes.length ∨ (bytes ++ more).length < len := by
  unfold Staged.truncate
  simp only
  rw [hdraft.len, hname]
  by_cases hrange : len < bytes.length ∨ (bytes ++ more).length < len
  · rw [if_pos hrange]
    exact ⟨nofun, fun _ _ => hrange⟩
  rw [if_neg hrange]
  rw [not_or, not_lt, not_lt] at hrange
  by_cases hshort : len < (bytes ++ more).length
  · rw [if_pos hshort]
    refine ⟨fun next hnext => ?_, nofun⟩
    obtain rfl := Except.ok.inj hnext
    have hroom := h.room hdraft.fits
    have htail := h.represents.tail_lt
    have htake : bytes ++ more.take (len - bytes.length) = (bytes ++ more).take len := by
      rw [List.take_append, List.take_of_length_le hrange.1]
    have hlength : ((bytes ++ more).take len).length = len := by
      rw [List.length_take]
      omega
    have hfits := hdraft.fits
    rw [htake]
    refine ⟨hrange.1, ⟨h.represents, h.limit, h.capacity, h.names⟩, ⟨⟨?_, ?_⟩, ?_, ?_⟩, rfl⟩
    · simp only
      rw [hlength, Arena.advance_eq htail (by omega)]
    · -- The shorter draft is the beginning of the longer one.
      have hread := hdraft.written.read
      have hsum : (bytes ++ more).length = len + ((bytes ++ more).length - len) := by omega
      rw [hsum, Circular.read_add htail (by omega)] at hread
      rw [hlength]
      have hcount := @Circular.length_read _ self.store.arena self.store.entries.tail len
        (by omega) (by omega)
      conv_rhs => rw [← hread, List.take_left' hcount]
    · simp only
      rw [hlength]
    · rw [hlength]
      omega
  · rw [if_neg hshort]
    refine ⟨fun next hnext => ?_, nofun⟩
    obtain rfl := Except.ok.inj hnext
    have hall : more.take (len - bytes.length) = more := by
      rw [List.length_append] at hshort
      exact List.take_of_length_le (by omega)
    rw [hall]
    exact ⟨hrange.1, h, hdraft, hname⟩

theorem Tracks.commit (h : self.Tracks records table) {entry : Entry}
    (hdraft : self.Drafts table entry.data) (hname : self.insert.nameLen = entry.name.length)
    (hmask : entry.name.length ≤ nameLenMask) (hfits : entry.size ≤ table.limit) :
    ∃ records', self.commit.Tracks records' (table.publish entry hfits) := by
  have hslot : (Slot.pack self.store.entries.tail self.insert.nameLen).nameLen =
      entry.name.length := by
    rw [hname]
    exact pack_nameLen hmask
  unfold Staged.commit
  rw [hdraft.len]
  exact h.publish rfl hslot hdraft.written.read hdraft.written.tail hfits hmask

theorem Tracks.duplicate (h : self.Tracks records table) (index : ℕ) :
    (∀ next, self.duplicate index = .ok next →
      ∃ records', next.Tracks records' (table.duplicate index)) ∧
      ∀ error, self.duplicate index = .error error → table.duplicate index = table := by
  have hlimit := h.limit
  unfold Staged.duplicate Table.duplicate
  cases hslot : records[index]? with
  | none =>
    have hnone := field_eq_none h hslot
    have hentry : self.store.tryEntry index = none := by
      have hfield := h.represents.field_eq index
      rw [show table.entries[index]? = none from hnone] at hfield
      exact Option.map_eq_none_iff.mp hfield
    rw [hnone, hentry]
    refine ⟨fun next hnext => ?_, fun _ _ => rfl⟩
    split at hnext <;> cases hnext
  | some slot =>
    obtain ⟨entry, between, hentry, hmem, hname, hstart, hread, hbetween, hsum⟩ :=
      h.entry_of_record hslot
    have hmask := h.names entry hmem
    have hfits := h.fits hmem
    have hsize : entry.size ≤ table.limit := by
      rw [Entry.size_eq]
      exact hfits
    rw [hentry, h.represents.tryEntry_eq hentry hslot, if_neg (by omega)]
    refine ⟨fun next hnext => ?_, nofun⟩
    obtain rfl := Except.ok.inj hnext
    have htracks : ({ self with
        insert := self.insert.begin self.store.entries.tail } : Staged).Tracks records table :=
      ⟨h.represents, h.limit, h.capacity, h.names⟩
    obtain ⟨hcopy, hwritten, hlen, hframe⟩ :=
      htracks.copyFrom rfl hstart hread hbetween hsum hfits
    have hslotLen : (Slot.pack self.store.entries.tail slot.nameLen).nameLen =
        entry.name.length := by
      rw [hname]
      exact pack_nameLen hmask
    simp only
    rw [Table.insert, dif_pos hsize]
    rw [← congrArg Entries.tail hframe.entries] at hslotLen ⊢
    exact hcopy.publish rfl hslotLen hwritten.read hwritten.tail hsize hmask

/-- Every operation of a table is the operation of the queue. -/
theorem Simulates.apply (h : Simulates session stage) (op : Op) :
    Simulates (session.apply op) (stage.apply op) := by
  obtain ⟨records, htracks⟩ := h.tracks
  cases op with
  | setLimit limit =>
    obtain ⟨records', hnext⟩ := htracks.setLimit limit
    exact .ready hnext
  | reject => exact .ready htracks.reject
  | rollback => exact .ready htracks.rollback
  | duplicate index =>
    obtain ⟨hok, herror⟩ := htracks.duplicate index
    simp only [Session.apply, Stage.apply]
    cases hduplicate : session.table.duplicate index with
    | ok next =>
      obtain ⟨records', hnext⟩ := hok next hduplicate
      exact .ready hnext
    | error error =>
      rw [herror error hduplicate]
      exact .ready htracks
  | begin =>
    obtain ⟨hok, herror⟩ := htracks.tryBegin
    simp only [Session.apply, Stage.apply]
    cases hbegin : session.table.tryBegin with
    | ok next =>
      obtain ⟨begun, hbegun, hnext, hdraft⟩ := hok next hbegin
      rw [hbegun]
      exact .name hnext hdraft
    | error error =>
      rw [herror error hbegin]
      exact .ready htracks
  | write slices =>
    cases h with
    | ready h => exact .ready h
    | @name state stage records h hdraft =>
      obtain ⟨hok, herror⟩ := h.writeSlices hdraft.written hdraft.len slices
      simp only [Session.apply, Stage.apply, NameStage.write]
      cases hwrite : state.writeSlices slices with
      | ok next =>
        obtain ⟨hfits, hnext, hwritten, hlen, -⟩ := hok next hwrite
        rw [dif_pos hfits]
        exact .name hnext ⟨hwritten, hlen, hfits⟩
      | error error =>
        rw [dif_neg (not_le.mpr (herror error hwrite))]
        exact .name h hdraft
    | @value state stage records h hdraft hname hmask =>
      obtain ⟨hok, herror⟩ := h.writeSlices hdraft.written hdraft.len slices
      have hlength : (stage.name ++ stage.value ++ slices.flatten).length =
          stage.name.length + (stage.value ++ slices.flatten).length := by
        rw [List.append_assoc, List.length_append]
      simp only [Session.apply, Stage.apply, ValueStage.write]
      cases hwrite : state.writeSlices slices with
      | ok next =>
        obtain ⟨hfits, hnext, hwritten, hlen, hframe⟩ := hok next hwrite
        have hfits' := hfits
        rw [hlength] at hfits'
        rw [dif_pos hfits']
        rw [List.append_assoc] at hwritten hlen hfits
        exact .value hnext ⟨hwritten, hlen, hfits⟩ (hframe.nameLen.trans hname) hmask
      | error error =>
        have hnot := herror error hwrite
        rw [hlength] at hnot
        rw [dif_neg (not_le.mpr hnot)]
        exact .value h hdraft hname hmask
  | retract writes =>
    cases h with
    | ready h => exact .ready h
    | name h hdraft =>
      obtain ⟨hnext, hwritten, hlen, -⟩ := h.retract hdraft.written hdraft.len hdraft.fits writes
      exact .name hnext ⟨hwritten, hlen, hdraft.fits⟩
    | value h hdraft hname hmask =>
      obtain ⟨hnext, hwritten, hlen, hframe⟩ :=
        h.retract hdraft.written hdraft.len hdraft.fits writes
      exact .value hnext ⟨hwritten, hlen, hdraft.fits⟩ (hframe.nameLen.trans hname) hmask
  | copyName index =>
    cases h with
    | ready h => exact .ready h
    | value h hdraft hname hmask => exact .value h hdraft hname hmask
    | @name state stage records h hdraft =>
      obtain ⟨hok, herror⟩ := h.copyName index
      simp only [Session.apply, Stage.apply]
      cases hcopy : state.copyName index with
      | ok next =>
        obtain ⟨entry, hentry, hnext, hcopied, hname, hmask⟩ := hok next hcopy
        obtain ⟨value, hvalue, htable, hvname, hvvalue⟩ := stage.copy_of_field hentry
        rw [hvalue]
        refine .value (htable ▸ hnext) ?_ (hvname ▸ hname) (hvname ▸ hmask)
        rw [htable, hvname, hvvalue]
        exact hcopied
      | error error =>
        rw [stage.copy_of_not_field (herror error hcopy)]
        exact .name h hdraft
  | replaceName first second =>
    cases h with
    | ready h => exact .ready h
    | value h hdraft hname hmask => exact .value h hdraft hname hmask
    | @name state stage records h hdraft =>
      obtain ⟨hok, herror⟩ := h.replaceName first second
      simp only [Session.apply, Stage.apply, NameStage.setName]
      cases hreplace : state.replaceName first second with
      | ok next =>
        obtain ⟨hmask, hnext, hreplaced, hname⟩ := hok next hreplace
        have hfits := hreplaced.fits
        rw [List.append_nil] at hfits
        rw [if_neg (not_lt.mpr hmask), dif_pos hfits]
        exact .value hnext hreplaced hname hmask
      | error error =>
        by_cases hmask : nameLenMask < (first ++ second).length
        · rw [if_pos hmask]
          exact .name h hdraft
        · have hnot := (herror error hreplace).resolve_left hmask
          rw [if_neg hmask, dif_neg (not_le.mpr hnot)]
          exact .name h hdraft
  | finish =>
    cases h with
    | ready h => exact .ready h
    | value h hdraft hname hmask => exact .value h hdraft hname hmask
    | @name state stage records h hdraft =>
      obtain ⟨hok, herror⟩ := h.finish hdraft
      simp only [Session.apply, Stage.apply, NameStage.finish]
      cases hfinish : state.finish with
      | ok next =>
        obtain ⟨hmask, hnext, hfinished, hname⟩ := hok next hfinish
        rw [if_neg (not_lt.mpr hmask)]
        exact .value hnext hfinished hname hmask
      | error error =>
        rw [if_pos (herror error hfinish)]
        exact .name h hdraft
  | truncate len =>
    cases h with
    | ready h => exact .ready h
    | name h hdraft => exact .name h hdraft
    | @value state stage records h hdraft hname hmask =>
      obtain ⟨hok, herror⟩ := h.truncate hdraft hname len
      simp only [Session.apply, Stage.apply, ValueStage.truncate]
      cases htruncate : state.truncate len with
      | ok next =>
        obtain ⟨hle, hnext, htruncated, hname'⟩ := hok next htruncate
        rw [if_neg (not_lt.mpr hle)]
        exact .value hnext htruncated hname' hmask
      | error error =>
        rcases herror error htruncate with hless | hmore
        · rw [if_pos hless]
          exact .value h hdraft hname hmask
        · rw [List.length_append] at hmore
          rw [if_neg (by omega)]
          refine .value h ?_ hname hmask
          show state.Drafts stage.table
            (stage.name ++ stage.value.take (len - stage.name.length))
          rw [List.take_of_length_le (show stage.value.length ≤ len - stage.name.length by omega)]
          exact hdraft
  | commit =>
    cases h with
    | ready h => exact .ready h
    | name h hdraft => exact .name h hdraft
    | @value state stage records h hdraft hname hmask =>
      obtain ⟨records', hnext⟩ := @Tracks.commit _ _ _ h ⟨stage.name, stage.value⟩ hdraft hname
        hmask stage.fits
      exact .ready hnext

theorem simulates_run (h : Simulates session stage) (ops : List Op) :
    Simulates (session.run ops) (stage.run ops) := by
  induction ops generalizing session stage with
  | nil => exact h
  | cons op ops ih => exact ih (h.apply op)

/-! ## Correctness -/

/-- What is being written in a stage: the bytes of a name, or of a name and a value. -/
def Stage.draft : Stage → Bytes
  | .ready _ => []
  | .name stage => stage.name
  | .value stage => stage.name ++ stage.value

/-- An operation on a draft leaves the queue. -/
theorem Stage.apply_table {op : Op} (hop : op.isDraft) (stage : Stage) :
    (stage.apply op).table = stage.table := by
  cases op with
  | begin =>
    simp only [Stage.apply]
    cases hbegin : stage.table.tryBegin with
    | none => rfl
    | some next => exact (Table.tryBegin_eq_some hbegin).1
  | write slices =>
    cases stage with
    | ready table => rfl
    | name stage =>
      simp only [Stage.apply, Stage.table]
      cases hwrite : stage.write slices.flatten with
      | ok next => exact (NameStage.of_write_ok hwrite).1
      | error overflow => rfl
    | value stage =>
      simp only [Stage.apply, Stage.table]
      cases hwrite : stage.write slices.flatten with
      | ok next => exact (ValueStage.of_write_ok hwrite).1
      | error overflow => rfl
  | copyName index =>
    cases stage with
    | ready table => rfl
    | value stage => rfl
    | name stage =>
      simp only [Stage.apply, Stage.table]
      cases hfield : stage.table.field index with
      | none => rw [stage.copy_of_not_field hfield]
      | some entry =>
        obtain ⟨next, hnext, htable, -⟩ := stage.copy_of_field hfield
        rw [hnext]
        exact htable
  | replaceName first second =>
    cases stage with
    | ready table => rfl
    | value stage => rfl
    | name stage =>
      simp only [Stage.apply, Stage.table, NameStage.setName]
      split_ifs <;> rfl
  | finish =>
    cases stage with
    | ready table => rfl
    | value stage => rfl
    | name stage =>
      simp only [Stage.apply, Stage.table, NameStage.finish]
      split_ifs <;> rfl
  | truncate len =>
    cases stage with
    | ready table => rfl
    | name stage => rfl
    | value stage =>
      simp only [Stage.apply, Stage.table, ValueStage.truncate]
      split <;> rfl
  | rollback => rfl
  | retract writes => rfl
  | setLimit limit => cases hop
  | reject => cases hop
  | duplicate index => cases hop
  | commit => cases hop

/-- A table in a stage has the fields and the size of the queue of a stage, and its operations evict
what has to go. -/
structure Refines (session : Session) (stage : Stage) : Prop where
  field : ∀ index, session.table.store.field index = stage.table.entries[index]?
  len : session.table.store.entries.len = stage.table.entries.length
  size : session.table.store.entries.size =
    (stage.table.entries.map fun entry => entry.name.length + entry.value.length + 32).sum
  limit : session.table.store.entries.limit = stage.table.limit
  size_le : session.table.store.entries.size ≤ session.table.store.entries.limit
  draft : ∀ op, op.isDraft → ∀ index,
    (session.apply op).table.store.field index = session.table.store.field index
  setLimit : ∀ limit, Table.Retains (min limit stage.table.capacity) stage.table.entries
    (stage.apply (.setLimit limit)).table.entries
  commit : ∀ value, stage = .value value → ∃ kept,
    (stage.apply .commit).table.entries = ⟨value.name, value.value⟩ :: kept ∧
      Table.Retains (stage.table.limit - (value.name.length + value.value.length + 32))
        stage.table.entries kept
  duplicate : ∀ index entry, stage.table.entries[index]? = some entry → ∃ kept,
    (stage.apply (.duplicate index)).table.entries = entry :: kept ∧
      Table.Retains (stage.table.limit - entry.size) stage.table.entries kept
  overflow : session.phase ≠ .ready → ∀ slices : List Bytes,
    stage.table.limit < (stage.draft ++ slices.flatten).length + 32 →
      session.apply (.write slices) = session
  reject : (stage.apply .reject).table.entries = []

theorem Simulates.overflow (h : Simulates session stage) (hphase : session.phase ≠ .ready)
    {slices : List Bytes}
    (hfull : stage.table.limit < (stage.draft ++ slices.flatten).length + entryOverhead) :
    session.apply (.write slices) = session := by
  cases h with
  | ready h => exact absurd rfl hphase
  | @name state stage records h hdraft =>
    obtain ⟨hok, -⟩ := h.writeSlices hdraft.written hdraft.len slices
    simp only [Session.apply]
    cases hwrite : state.writeSlices slices with
    | ok next => exact absurd (hok next hwrite).1 (not_le.mpr hfull)
    | error error => rfl
  | @value state stage records h hdraft hname hmask =>
    obtain ⟨hok, -⟩ := h.writeSlices hdraft.written hdraft.len slices
    simp only [Session.apply]
    cases hwrite : state.writeSlices slices with
    | ok next => exact absurd (hok next hwrite).1 (not_le.mpr hfull)
    | error error => rfl

theorem Simulates.field_eq (h : Simulates session stage) (index : ℕ) :
    session.table.store.field index = stage.table.entries[index]? := by
  obtain ⟨records, h⟩ := h.tracks
  exact h.represents.field_eq index

theorem Simulates.refines (h : Simulates session stage) : Refines session stage := by
  obtain ⟨records, htracks⟩ := h.tracks
  have hrep := htracks.represents
  refine ⟨h.field_eq, hrep.len_eq, hrep.size_eq, htracks.limit, ?_, fun op hop index => ?_,
    fun limit => stage.table.retains_setLimit limit, ?_, fun index entry hentry => ?_,
    fun hphase slices hfull => h.overflow hphase hfull, rfl⟩
  · rw [hrep.size_eq, htracks.limit]
    exact stage.table.size_le
  · rw [(h.apply op).field_eq, Stage.apply_table hop, h.field_eq]
  · rintro value rfl
    exact value.table.retains_publish ⟨value.name, value.value⟩ value.fits
  · have hfits : entry.size ≤ stage.table.limit :=
      (size_le_totalSize (List.mem_of_getElem? hentry)).trans stage.table.size_le
    have happly : stage.apply (.duplicate index) = .ready (stage.table.publish entry hfits) := by
      have hfield : stage.table.field index = some entry := hentry
      simp only [Stage.apply, Table.duplicate, hfield, Table.insert, dif_pos hfits]
    rw [happly]
    exact stage.table.retains_publish entry hfits

/-- Every run of a table that was planned for a capacity is a run of the queue. -/
theorem Session.staged_refines {capacity : ℕ} {layout : Layout}
    (hlayout : Layout.new 2 8 0 capacity = .ok layout) (limit : ℕ) (ops : List Op) :
    Refines ((Session.new layout limit).run ops)
      ((Stage.ready (Table.new capacity limit)).run ops) :=
  (simulates_run (simulates_new limit hlayout) ops).refines

/-- A copied name of an entry that its own insertion evicts. -/
theorem Session.staged_refines_evicted :
    ∃ layout, Layout.new 2 8 0 64 = .ok layout ∧
      Refines ((Session.new layout 64).run
          [.begin, .write [[97, 98]], .finish, .write [[99]], .commit, .begin, .copyName 0,
            .write [[100]], .commit])
        ((Stage.ready (Table.new 64 64)).run
          [.begin, .write [[97, 98]], .finish, .write [[99]], .commit, .begin, .copyName 0,
            .write [[100]], .commit]) :=
  ⟨_, rfl, Session.staged_refines rfl 64 _⟩

end Staged

end Sark.Compress
