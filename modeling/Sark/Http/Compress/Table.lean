import Sark.Http.H1.Value
import Sark.Library.Transducer

/-!
# The dynamic table

The table that HPACK and QPACK share (`http/src/payload/compress/dynamic`): a queue of fields whose
sizes never add up to more than a limit, which itself never exceeds the capacity the table was
planned with. The entries stand here newest first, as they are indexed; the ring of bytes and the
ring of slots that hold them are one level below.

An insertion goes through stages. A `NameStage` is a table with a name being written behind its
last entry, a `ValueStage` one whose name is complete; neither is visible to a lookup before it is
committed. Both keep room for the overhead of the entry they will become.

* `Table.publish_entries`: what an insertion leaves, without the bound on the number of slots.
-/

namespace Sark.Compress

/-- `dynamic::ENTRY_OVERHEAD`. -/
def entryOverhead : ℕ :=
  32

/-- The longest name a slot can describe: `field::NAME_LEN_MASK`. -/
def nameLenMask : ℕ :=
  2 ^ 27 - 1

/-- A field of the table. -/
@[ext]
structure Entry where
  name : Bytes
  value : Bytes
  deriving DecidableEq, Repr

/-- `state::Size::get`: what an entry counts for. -/
def Entry.size (self : Entry) : ℕ :=
  self.name.length + self.value.length + entryOverhead

/-- What a sequence of entries counts for. -/
def totalSize (entries : List Entry) : ℕ :=
  (entries.map Entry.size).sum

/-- The loops that remove the oldest entry as long as there is one and the table is too full. -/
def evict (full : List Entry → Bool) (entries : List Entry) : List Entry :=
  if entries ≠ [] ∧ full entries then evict full entries.dropLast else entries
termination_by entries.length
decreasing_by
  have := List.length_pos_iff.mpr ‹_ ∧ _›.1
  rw [List.length_dropLast]
  omega

@[simp]
theorem totalSize_nil : totalSize [] = 0 := rfl

@[simp]
theorem totalSize_cons (entry : Entry) (entries : List Entry) :
    totalSize (entry :: entries) = entry.size + totalSize entries := rfl

theorem totalSize_le_of_isPrefix {older entries : List Entry} (h : older <+: entries) :
    totalSize older ≤ totalSize entries := by
  obtain ⟨rest, rfl⟩ := h
  simp [totalSize]

theorem entryOverhead_mul_length_le (entries : List Entry) :
    entryOverhead * entries.length ≤ totalSize entries := by
  induction entries with
  | nil => simp
  | cons entry entries ih =>
    rw [totalSize_cons, List.length_cons, Nat.mul_succ, Entry.size]
    omega

theorem size_le_totalSize {entry : Entry} {entries : List Entry} (h : entry ∈ entries) :
    entry.size ≤ totalSize entries :=
  List.single_le_sum (by simp) _ (List.mem_map_of_mem h)

/-! ## Eviction -/

section Eviction

variable {full : List Entry → Bool}

theorem evict_isPrefix (entries : List Entry) : evict full entries <+: entries := by
  fun_induction evict full entries with
  | case1 entries h ih => exact ih.trans (List.dropLast_prefix entries)
  | case2 entries h => exact List.prefix_refl entries

theorem evict_eq_nil_or (entries : List Entry) :
    evict full entries = [] ∨ full (evict full entries) = false := by
  fun_induction evict full entries with
  | case1 entries h ih => exact ih
  | case2 entries h =>
    by_cases hnil : entries = []
    · exact Or.inl hnil
    · exact Or.inr (by simpa [hnil] using h)

theorem evict_of_not {entries : List Entry} (h : full entries = false) :
    evict full entries = entries := by
  rw [evict, if_neg (by simp [h])]

/-- Eviction stops as soon as it may: no longer lead of the entries is not full. -/
theorem isPrefix_evict {lead entries : List Entry} (hlead : lead <+: entries)
    (hfull : full lead = false) : lead <+: evict full entries := by
  fun_induction evict full entries with
  | case1 entries h ih =>
    obtain ⟨rest, rfl⟩ := hlead
    -- The lead is not everything, as that is full.
    have hrest : rest ≠ [] := by
      rintro rfl
      rw [List.append_nil, hfull] at h
      exact Bool.false_ne_true h.2
    refine ih ?_
    rw [List.dropLast_append_of_ne_nil hrest]
    exact List.prefix_append lead _
  | case2 entries h => exact hlead

theorem evict_congr {full' : List Entry → Bool} {entries : List Entry}
    (h : ∀ older, older <+: entries → older ≠ [] → full older = full' older) :
    evict full entries = evict full' entries := by
  fun_induction evict full entries with
  | case1 entries hfull ih =>
    have hfull' : full' entries := by
      rw [← h entries (List.prefix_refl entries) hfull.1]
      exact hfull.2
    rw [ih fun older hlead => h older (hlead.trans (List.dropLast_prefix entries)),
      evict.eq_1 full' entries, if_pos ⟨hfull.1, hfull'⟩]
  | case2 entries hfull =>
    rw [evict, if_neg]
    rintro ⟨hne, hfull'⟩
    exact hfull ⟨hne, (h entries (List.prefix_refl entries) hne).trans hfull'⟩

end Eviction

/-! ## The table -/

/-- `table::Table`: the entries, newest first, under the two bounds. -/
structure Table where
  entries : List Entry
  limit : ℕ
  capacity : ℕ
  size_le : totalSize entries ≤ limit
  limit_le : limit ≤ capacity
  deriving DecidableEq, Repr

namespace Table

/-- `Plan::try_table`. -/
def new (capacity limit : ℕ) : Table where
  entries := []
  limit := min limit capacity
  capacity := capacity
  size_le := Nat.zero_le _
  limit_le := Nat.min_le_right limit capacity

/-- `Table::current_size`. -/
def currentSize (self : Table) : ℕ :=
  totalSize self.entries

/-- `layout.period`: the number of slots. -/
def period (self : Table) : ℕ :=
  1 + (self.capacity / entryOverhead - 1)

/-- `Table::field`. -/
def field (self : Table) (index : ℕ) : Option Entry :=
  self.entries[index]?

/-- The criterion of `Pop::oldest`. -/
def overLimit (limit : ℕ) (entries : List Entry) : Bool :=
  limit < totalSize entries

/-- The criterion of `Ready::admit`. -/
def overFull (limit period add : ℕ) (entries : List Entry) : Bool :=
  limit < totalSize entries + add || period ≤ entries.length

theorem totalSize_evict_overLimit (limit : ℕ) (entries : List Entry) :
    totalSize (evict (overLimit limit) entries) ≤ limit := by
  rcases @evict_eq_nil_or (overLimit limit) entries with h | h
  · simp [h]
  · simpa [overLimit] using h

theorem totalSize_evict_overFull {limit period add : ℕ} (hadd : add ≤ limit) (entries : List Entry) :
    totalSize (evict (overFull limit period add) entries) + add ≤ limit := by
  rcases @evict_eq_nil_or (overFull limit period add) entries with h | h
  · simpa [h] using hadd
  · simp only [overFull, Bool.or_eq_false_iff, decide_eq_false_iff_not, not_lt] at h
    exact h.1

/-- `Edit::set_limit`: the new limit, and as many of the newest entries as it has room for. -/
def setLimit (self : Table) (limit : ℕ) : Table where
  entries := evict (overLimit (min limit self.capacity)) self.entries
  limit := min limit self.capacity
  capacity := self.capacity
  size_le := totalSize_evict_overLimit _ _
  limit_le := Nat.min_le_right limit self.capacity

/-- `Edit::reject`: nothing is left of the entries. -/
def reject (self : Table) : Table where
  entries := []
  limit := self.limit
  capacity := self.capacity
  size_le := Nat.zero_le _
  limit_le := self.limit_le

/-- `Edit::publish`: the oldest entries make room for one that fits the limit. -/
def publish (self : Table) (entry : Entry) (hfits : entry.size ≤ self.limit) : Table where
  entries := entry :: evict (overFull self.limit self.period entry.size) self.entries
  limit := self.limit
  capacity := self.capacity
  size_le := by
    have := @totalSize_evict_overFull self.limit self.period entry.size hfits self.entries
    rw [totalSize_cons]
    omega
  limit_le := self.limit_le

section Fields

variable (self : Table)

@[simp]
theorem setLimit_limit (limit : ℕ) : (self.setLimit limit).limit = min limit self.capacity := rfl

@[simp]
theorem setLimit_capacity (limit : ℕ) : (self.setLimit limit).capacity = self.capacity := rfl

@[simp]
theorem reject_entries : self.reject.entries = [] := rfl

@[simp]
theorem reject_limit : self.reject.limit = self.limit := rfl

@[simp]
theorem reject_capacity : self.reject.capacity = self.capacity := rfl

@[simp]
theorem publish_limit (entry : Entry) (h : entry.size ≤ self.limit) :
    (self.publish entry h).limit = self.limit := rfl

end Fields

/-- `kept` is the longest lead of the entries that has room: the oldest entries that have to go are
gone, and no other. -/
structure Retains (room : ℕ) (entries kept : List Entry) : Prop where
  lead : kept <+: entries
  fits : totalSize kept ≤ room
  longest : ∀ lead, lead <+: entries → totalSize lead ≤ room → lead <+: kept

/-- The slots never run out before the bytes do, so an insertion evicts for its size alone. -/
theorem publish_entries (self : Table) (entry : Entry) (hfits : entry.size ≤ self.limit) :
    (self.publish entry hfits).entries =
      entry :: evict (fun entries => self.limit < totalSize entries + entry.size) self.entries := by
  rw [publish, List.cons.injEq]
  refine ⟨rfl, evict_congr fun older hlead hne => ?_⟩
  rw [overFull, Bool.or_eq_left_iff_imp, decide_eq_true_iff]
  intro hslots
  rw [decide_eq_true_iff]
  -- `period` slots of at least the overhead each, and one more, exceed the limit.
  have hsize := entryOverhead_mul_length_le older
  have hcapacity := self.limit_le
  have hentry : entryOverhead ≤ entry.size := Nat.le_add_left _ _
  have hpos := List.length_pos_iff.mpr hne
  simp only [period, entryOverhead] at *
  omega

theorem retains_setLimit (self : Table) (limit : ℕ) :
    Retains (min limit self.capacity) self.entries (self.setLimit limit).entries := by
  refine ⟨evict_isPrefix _, totalSize_evict_overLimit _ _, fun lead hlead hfits => ?_⟩
  exact isPrefix_evict hlead (by simpa [overLimit] using hfits)

theorem retains_publish (self : Table) (entry : Entry) (hfits : entry.size ≤ self.limit) :
    ∃ kept, (self.publish entry hfits).entries = entry :: kept ∧
      Retains (self.limit - entry.size) self.entries kept := by
  refine ⟨_, self.publish_entries entry hfits, evict_isPrefix _, ?_, fun lead hlead hroom => ?_⟩
  · have hsize := (self.publish entry hfits).size_le
    rw [publish_entries, totalSize_cons, publish_limit] at hsize
    omega
  · refine isPrefix_evict hlead ?_
    rw [decide_eq_false_iff_not]
    omega

/-! ## Insertion in stages -/

/-- `insert::Error`, less the failures of the byte ring. -/
inductive InsertError
  | capacity (required limit : ℕ)
  | index (index len : ℕ)
  | name (actual limit : ℕ)
  deriving DecidableEq, Repr

end Table

/-- `write::Error`: the draft does not fit the table. -/
structure Overflow where
  required : ℕ
  limit : ℕ
  deriving DecidableEq, Repr

/-- `stages::Name`. -/
structure NameStage where
  table : Table
  name : Bytes
  fits : name.length + entryOverhead ≤ table.limit

/-- `stages::Value`. -/
structure ValueStage where
  table : Table
  name : Bytes
  value : Bytes
  fits : name.length + value.length + entryOverhead ≤ table.limit

/-- `stages::Ready::begin`: there is no draft in a table that has no room for an empty entry. -/
def Table.tryBegin (self : Table) : Option NameStage :=
  if h : entryOverhead ≤ self.limit then some ⟨self, [], by simpa using h⟩ else none

namespace NameStage

/-- `Writer::write_slice` on a name. -/
def write (self : NameStage) (bytes : Bytes) : Except Overflow NameStage :=
  if h : (self.name ++ bytes).length + entryOverhead ≤ self.table.limit then
    .ok ⟨self.table, self.name ++ bytes, h⟩
  else .error ⟨(self.name ++ bytes).length + entryOverhead, self.table.limit⟩

/-- `Name::copy`: the name of an entry fits wherever the entry did. -/
def copy (self : NameStage) (index : ℕ) : Except Table.InsertError ValueStage :=
  match h : self.table.field index with
  | none => .error (.index index self.table.entries.length)
  | some entry =>
    .ok ⟨self.table, entry.name, [], by
      have hle := size_le_totalSize (List.mem_of_getElem? h)
      have hsize := self.table.size_le
      simp only [Entry.size, List.length_nil] at *
      omega⟩

/-- `Name::set_name`. -/
def setName (self : NameStage) (name : Bytes) : Except Table.InsertError ValueStage :=
  if nameLenMask < name.length then .error (.name name.length nameLenMask)
  else if h : name.length + entryOverhead ≤ self.table.limit then
    .ok ⟨self.table, name, [], by simpa using h⟩
  else .error (.capacity (name.length + entryOverhead) self.table.limit)

/-- `Name::finish`. -/
def finish (self : NameStage) : Except Table.InsertError ValueStage :=
  if nameLenMask < self.name.length then .error (.name self.name.length nameLenMask)
  else .ok ⟨self.table, self.name, [], by simpa using self.fits⟩

/-- `Name::discard`. -/
def discard (self : NameStage) : Table :=
  self.table

end NameStage

namespace ValueStage

/-- `Writer::write_slice` on a value. -/
def write (self : ValueStage) (bytes : Bytes) : Except Overflow ValueStage :=
  if h : self.name.length + (self.value ++ bytes).length + entryOverhead ≤ self.table.limit then
    .ok ⟨self.table, self.name, self.value ++ bytes, h⟩
  else .error ⟨self.name.length + (self.value ++ bytes).length + entryOverhead, self.table.limit⟩

/-- `Value::commit`. -/
def commit (self : ValueStage) : Table :=
  self.table.publish ⟨self.name, self.value⟩ self.fits

/-- `Value::discard`. -/
def discard (self : ValueStage) : Table :=
  self.table

end ValueStage

/-! ## What the stages do -/

theorem NameStage.lawfulSink_write : LawfulSink NameStage.write fun _ => True where
  nil := by
    intro stage _
    simp [NameStage.write, stage.fits]
  valid_of_ok := fun _ => trivial
  append_ok := by
    intro stage next first second h
    unfold NameStage.write at h
    split at h
    · obtain rfl := Except.ok.inj h
      simp [NameStage.write]
    · contradiction
  append_error := by
    intro stage error first second h
    unfold NameStage.write at h
    split at h
    · contradiction
    · rw [List.length_append] at *
      refine ⟨_, dif_neg ?_⟩
      simp only [List.length_append]
      omega

theorem ValueStage.lawfulSink_write : LawfulSink ValueStage.write fun _ => True where
  nil := by
    intro stage _
    simp [ValueStage.write, stage.fits]
  valid_of_ok := fun _ => trivial
  append_ok := by
    intro stage next first second h
    unfold ValueStage.write at h
    split at h
    · obtain rfl := Except.ok.inj h
      simp [ValueStage.write]
    · contradiction
  append_error := by
    intro stage error first second h
    unfold ValueStage.write at h
    split at h
    · contradiction
    · rw [List.length_append] at *
      refine ⟨_, dif_neg ?_⟩
      simp only [List.length_append]
      omega

theorem Table.tryBegin_eq_some {table : Table} {stage : NameStage} (h : table.tryBegin = some stage) :
    stage.table = table ∧ stage.name = [] := by
  unfold tryBegin at h
  split at h
  · obtain rfl := Option.some.inj h
    exact ⟨rfl, rfl⟩
  · contradiction

theorem Table.tryBegin_eq_none {table : Table} (h : table.tryBegin = none) :
    table.limit < entryOverhead := by
  unfold tryBegin at h
  split at h
  · contradiction
  next hlimit => exact not_le.mp hlimit

theorem NameStage.of_write_ok {stage next : NameStage} {bytes : Bytes} (h : stage.write bytes = .ok next) :
    next.table = stage.table ∧ next.name = stage.name ++ bytes := by
  unfold NameStage.write at h
  split at h
  · obtain rfl := Except.ok.inj h
    exact ⟨rfl, rfl⟩
  · contradiction

theorem NameStage.of_write_error {stage : NameStage} {bytes : Bytes} {error : Overflow}
    (h : stage.write bytes = .error error) :
    stage.table.limit < (stage.name ++ bytes).length + entryOverhead := by
  unfold NameStage.write at h
  split at h
  · contradiction
  next hfits => exact not_le.mp hfits

theorem ValueStage.of_write_ok {stage next : ValueStage} {bytes : Bytes} (h : stage.write bytes = .ok next) :
    next.table = stage.table ∧ next.name = stage.name ∧ next.value = stage.value ++ bytes := by
  unfold ValueStage.write at h
  split at h
  · obtain rfl := Except.ok.inj h
    exact ⟨rfl, rfl, rfl⟩
  · contradiction

theorem ValueStage.of_write_error {stage : ValueStage} {bytes : Bytes} {error : Overflow}
    (h : stage.write bytes = .error error) :
    stage.table.limit < stage.name.length + (stage.value ++ bytes).length + entryOverhead := by
  unfold ValueStage.write at h
  split at h
  · contradiction
  next hfits => exact not_le.mp hfits

theorem NameStage.copy_of_field (self : NameStage) {index : ℕ} {entry : Entry}
    (h : self.table.field index = some entry) :
    ∃ next, self.copy index = .ok next ∧
      next.table = self.table ∧ next.name = entry.name ∧ next.value = [] := by
  unfold copy
  split
  next hnone => simp [h] at hnone
  next found hfound =>
    obtain rfl := Option.some.inj (h.symm.trans hfound)
    exact ⟨_, rfl, rfl, rfl, rfl⟩

theorem NameStage.copy_of_not_field (self : NameStage) {index : ℕ}
    (h : self.table.field index = none) :
    self.copy index = .error (.index index self.table.entries.length) := by
  unfold copy
  split
  · rfl
  next found hfound => simp [h] at hfound

theorem NameStage.setName_of_fits (self : NameStage) {name : Bytes} (hmask : name.length ≤ nameLenMask)
    (hfits : name.length + entryOverhead ≤ self.table.limit) :
    ∃ next, self.setName name = .ok next ∧
      next.table = self.table ∧ next.name = name ∧ next.value = [] := by
  refine ⟨⟨self.table, name, [], by simpa using hfits⟩, ?_, rfl, rfl, rfl⟩
  rw [setName, if_neg (not_lt.mpr hmask), dif_pos hfits]

theorem NameStage.setName_of_not_fits (self : NameStage) {name : Bytes}
    (hmask : name.length ≤ nameLenMask)
    (hfits : ¬(name.length + entryOverhead ≤ self.table.limit)) :
    self.setName name = .error (.capacity (name.length + entryOverhead) self.table.limit) := by
  rw [setName, if_neg (not_lt.mpr hmask), dif_neg hfits]

theorem NameStage.finish_of_le (self : NameStage) (hmask : self.name.length ≤ nameLenMask) :
    ∃ next, self.finish = .ok next ∧
      next.table = self.table ∧ next.name = self.name ∧ next.value = [] := by
  refine ⟨⟨self.table, self.name, [], by simpa using self.fits⟩, ?_, rfl, rfl, rfl⟩
  rw [finish, if_neg (not_lt.mpr hmask)]

/-- What an insertion means: an entry that does not fit the limit empties the table. -/
def Table.insert (self : Table) (entry : Entry) : Table :=
  if h : entry.size ≤ self.limit then self.publish entry h else self.reject

theorem ValueStage.commit_eq_insert (self : ValueStage) :
    self.commit = self.table.insert ⟨self.name, self.value⟩ :=
  (dif_pos self.fits).symm

@[simp]
theorem Table.insert_limit (self : Table) (entry : Entry) :
    (self.insert entry).limit = self.limit := by
  unfold insert
  split <;> rfl

@[simp]
theorem Table.insert_capacity (self : Table) (entry : Entry) :
    (self.insert entry).capacity = self.capacity := by
  unfold insert
  split <;> rfl

end Sark.Compress
