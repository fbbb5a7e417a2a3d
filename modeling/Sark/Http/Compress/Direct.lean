import Sark.Http.Compress.Storage
import Sark.Library.Directory

/-!
# Tables with an index

The table of an encoder (`table/edit/input.rs`, `table/search.rs`, `index/`). Its entries are
inserted whole, and two directories find them again by the hash of the name and by the hash of the
name and the value.

* `Direct.simulates_run`: every run of a table is a run of the queue, and the directories contain
  its entries and nothing else.
* `Direct.indexed_fifo`: what that means for the fields, the directories and a search.
-/

namespace Sark.Compress

/-! ## Hashes -/

/-- `hash::Digest`. -/
structure Digest where
  name : ℕ
  exact : ℕ
  deriving DecidableEq, Repr

/-- `hash::Seed`: the hash of a name, and that of the hash of a name and a value. -/
structure Seed where
  name : Bytes → ℕ
  exact : ℕ → Bytes → ℕ

/-- `Seed::digest`. -/
def Seed.digest (self : Seed) (field : Entry) : Digest :=
  let name := self.name field.name
  ⟨name, self.exact name field.value⟩

/-! ## The index -/

/-- `index::State`, with its directories. -/
structure Index (D : Type) where
  name : D
  exact : D

/-- `records::Direct`. -/
structure Record where
  slot : Slot
  digest : Digest
  deriving DecidableEq, Repr

variable {D : Type} [Directory D]

/-- `Remove::remove`. -/
def Index.remove (self : Index D) (digest : Digest) (physical : ℕ) : Index D :=
  ⟨Directory.remove self.name digest.name physical,
    Directory.remove self.exact digest.exact physical⟩

/-- `Insert::insert`, for both directories. -/
def Index.insert (self : Index D) (digest : Digest) (physical : ℕ) : Index D :=
  ⟨Directory.insert self.name digest.name physical,
    Directory.insert self.exact digest.exact physical⟩

/-- `index::raw::Clear::reset`. -/
def Index.clear (self : Index D) : Index D :=
  ⟨Directory.clear self.name, Directory.clear self.exact⟩

/-- `mode::Direct`. -/
instance : Slotted Record where
  slot := Record.slot

instance : Kind Record (Index D) where
  remove index record physical := index.remove record.digest physical

/-- `edit::Error`. -/
inductive EditError
  | length (name value : ℕ)
  | name (actual limit : ℕ)
  | capacity (required limit : ℕ)
  deriving DecidableEq, Repr

/-- `edit::Change`. -/
inductive Change
  | inserted
  | cleared (error : EditError)
  deriving DecidableEq, Repr

/-- `table::Table<mode::Direct>`. -/
structure Direct (D : Type) where
  store : Store Record (Index D)
  seed : Seed

/-- `record::Match<usize>`. -/
structure Match (I : Type) where
  exact : Option I
  name : Option I
  deriving DecidableEq, Repr

namespace Direct

/-- `Plan::try_table`. -/
def new (layout : Layout) (limit : ℕ) (seed : Seed) (index : Index D) : Direct D :=
  ⟨Store.new layout limit ⟨⟨0, 0⟩, ⟨0, 0⟩⟩ index, seed⟩

/-! ## Insertion -/

/-- `Input::try_size`: the length of the data. -/
def trySize (self : Direct D) (name value : ℕ) : Except EditError ℕ :=
  if nameLenMask < name then .error (.name name nameLenMask)
  else if 2 ^ 64 ≤ name + value then .error (.length name value)
  else if 2 ^ 64 ≤ name + value + entryOverhead then .error (.length name value)
  else if self.store.entries.limit < name + value + entryOverhead then
    .error (.capacity (name + value + entryOverhead) self.store.entries.limit)
  else .ok (name + value)

/-- `PartsMut::clear`. -/
def clear (self : Direct D) : Direct D :=
  { self with store := { self.store.clear with index := self.store.index.clear } }

/-- `Ready::encode`: the bytes of a field behind all entries, its slot, and where it ends. -/
def encode (store : Store Record (Index D)) (field : Entry) :
    Store Record (Index D) × Slot × ℕ :=
  let start := store.entries.tail
  let slot := Slot.pack start field.name.length
  let (arena, cursor) := Arena.write store.arena start field.name
  let (arena, tail) := Arena.write arena cursor field.value
  ({ store with arena }, slot, tail)

/-- `Ready::finish`, `Insert::insert` and `Push::commit`: an entry in a table that has room. -/
def place (store : Store Record (Index D)) (field : Entry) (digest : Digest) (size : ℕ) :
    Store Record (Index D) :=
  let (store, slot, tail) := encode store field
  let physical := store.nextPhysical
  let store := store.push ⟨slot, digest⟩ size tail
  { store with index := store.index.insert digest physical }

/-- `Input::insert`, of a field whose data has a length. -/
def input (self : Direct D) (field : Entry) (digest : Digest) (size : ℕ) : Direct D :=
  { self with
    store := place (self.store.makeRoom size self.store.entries.len) field digest size }

/-- `Edit::insert`. -/
def insert (self : Direct D) (name value : Bytes) : Direct D × Change :=
  match self.trySize name.length value.length with
  | .error error => (self.clear, .cleared error)
  | .ok size => (self.input ⟨name, value⟩ (self.seed.digest ⟨name, value⟩) size, .inserted)

/-- `Edit::set_limit`. -/
def setLimit (self : Direct D) (limit : ℕ) : Direct D :=
  let store := self.store.setLimit limit
  { self with store := store.trim store.entries.len }

/-! ## Search -/

/-- Where an entry at a position of the ledger ends. -/
def stop (self : Direct D) (relative physical : ℕ) : Option ℕ :=
  if relative = 0 then some self.store.entries.tail
  else
    self.store.ledger[Arena.position self.store.layout.period physical
      (self.store.layout.period - 1)]?.map fun newer => newer.slot.start

/-- `Lookup::get`: the relative index and the field at a position of the ledger. -/
def lookup (self : Direct D) (physical : ℕ) : Option (ℕ × Entry) := do
  let store := self.store
  let count := store.layout.period
  let relative := Arena.position count physical (count - store.entries.front)
  let record ← store.ledger[physical]?
  let stop ← self.stop relative physical
  let distance := Arena.distance record.slot.start stop store.layout.arenaLen
  let size :=
    if distance = 0 ∧ store.entries.len = 1 then store.entries.size - entryOverhead else distance
  let start := Arena.advance store.arena record.slot.start record.slot.nameLen
  some (relative, ⟨Arena.stored store.arena record.slot.start record.slot.nameLen,
    Arena.stored store.arena start (size - record.slot.nameLen)⟩)

variable {I : Type}

/-- `index::Search::find`. -/
def find (self : Direct D) (positions : List ℕ) (accept : ℕ → Entry → Option I) : Option I :=
  (best none (positions.filterMap fun physical =>
    (self.lookup physical).bind fun (relative, field) =>
      (accept relative field).map (relative, ·))).map Prod.snd

/-- `Search::find_exact`. -/
def findExact (self : Direct D) (field : Entry) (retained : ℕ) (map : ℕ → Option I) : Option I :=
  self.find (Directory.scan self.store.index.exact (self.seed.digest field).exact)
    fun relative found =>
      if relative < retained ∧ found.name = field.name ∧ found.value = field.value then map relative
      else none

/-- `Search::find_needle`. -/
def findNeedle (self : Direct D) (name : Bytes) (retained : ℕ) (map : ℕ → Option I) : Option I :=
  self.find (Directory.scan self.store.index.name (self.seed.name name)) fun relative found =>
    if relative < retained ∧ found.name = name then map relative else none

/-- `Search::both`. -/
def both (self : Direct D) (field : Entry) (retained : ℕ) (map : ℕ → Option I) : Match I :=
  match self.findExact field retained map with
  | some exact => ⟨some exact, some exact⟩
  | none => ⟨none, self.findNeedle field.name retained map⟩

/-- `Search::get`. -/
def search (self : Direct D) (name value : Bytes) : Match ℕ :=
  self.both ⟨name, value⟩ self.store.entries.len some

/-! ## Runs -/

/-- `edit::Edit`. -/
inductive Op
  | insert (name value : Bytes)
  | setLimit (limit : ℕ)
  deriving DecidableEq, Repr

/-- An operation. -/
def apply (self : Direct D) : Op → Direct D
  | .insert name value => (self.insert name value).1
  | .setLimit limit => self.setLimit limit

/-- A sequence of operations. -/
def run (self : Direct D) (ops : List Op) : Direct D :=
  ops.foldl apply self

/-! ## The queue -/

/-- What an operation does to the queue: an entry that does not fit, or whose name is longer than a
slot can say, empties it. -/
def Op.queued (table : Table) : Op → Table
  | .insert name value =>
    if nameLenMask < name.length then table.reject else table.insert ⟨name, value⟩
  | .setLimit limit => table.setLimit limit

/-- What a sequence of operations does to the queue. -/
def queued (table : Table) (ops : List Op) : Table :=
  ops.foldl Op.queued table

/-! ## A table is a queue -/

/-- The record that a position of the ledger is occupied by. -/
def occupied (store : Store Record (Index D)) (records : List Record) (physical : ℕ) :
    Option Record :=
  if physical < store.layout.period then
    records[Circular.distance store.layout.period store.entries.front physical]?
  else none

/-- The directories contain the occupied positions, each under the hashes of its record. -/
structure Indexed {R : Type} (keys : D → ℕ → Option ℕ) (digest : R → Digest) (index : Index D)
    (occupied : ℕ → Option R) : Prop where
  name : ∀ physical,
    keys index.name physical = (occupied physical).map fun record => (digest record).name
  exact : ∀ physical,
    keys index.exact physical = (occupied physical).map fun record => (digest record).exact

namespace Indexed

variable {R : Type} {keys : D → ℕ → Option ℕ} {count : ℕ} {digest : R → Digest} {index : Index D}
  {occupied : ℕ → Option R}

theorem insert (hlawful : Directory.Lawful D count keys) (h : Indexed keys digest index occupied)
    {physical : ℕ} (hcount : physical < count) (hfree : occupied physical = none) (record : R) :
    Indexed keys digest (index.insert (digest record) physical)
      (Function.update occupied physical (some record)) := by
  have hname := hlawful.insert index.name (digest record).name physical hcount
    (by rw [h.name, hfree]; rfl)
  have hexact := hlawful.insert index.exact (digest record).exact physical hcount
    (by rw [h.exact, hfree]; rfl)
  constructor
  · intro other
    rw [Index.insert, hname, Function.update_apply, Function.update_apply, h.name]
    split <;> rfl
  · intro other
    rw [Index.insert, hexact, Function.update_apply, Function.update_apply, h.exact]
    split <;> rfl

theorem remove (hlawful : Directory.Lawful D count keys) (h : Indexed keys digest index occupied)
    {physical : ℕ} {record : R} (hrecord : occupied physical = some record) :
    Indexed keys digest (index.remove (digest record) physical)
      (Function.update occupied physical none) := by
  have hname := hlawful.remove index.name (digest record).name physical
    (by rw [h.name, hrecord]; rfl)
  have hexact := hlawful.remove index.exact (digest record).exact physical
    (by rw [h.exact, hrecord]; rfl)
  constructor
  · intro other
    rw [Index.remove, hname, Function.update_apply, Function.update_apply, h.name]
    split <;> rfl
  · intro other
    rw [Index.remove, hexact, Function.update_apply, Function.update_apply, h.exact]
    split <;> rfl

theorem clear (hlawful : Directory.Lawful D count keys) (digest : R → Digest) (index : Index D) :
    Indexed keys digest index.clear fun _ => none := by
  constructor
  · intro physical
    rw [Index.clear, hlawful.clear]
    rfl
  · intro physical
    rw [Index.clear, hlawful.clear]
    rfl

end Indexed

/-! ### Positions -/

section Positions

variable {store : Store Record (Index D)} {records : List Record} {entries : List Entry}

@[simp]
theorem occupied_nil (store : Store Record (Index D)) : occupied store [] = fun _ => none := by
  funext physical
  simp [occupied]

theorem occupied_cell (h : store.Represents 1 records entries) {index : ℕ}
    (hindex : index < store.layout.period) :
    occupied store records (Circular.cell store.layout.period store.entries.front index) =
      records[index]? := by
  have hlt := Circular.cell_lt (show store.entries.front < max store.layout.period 1 by
    have := h.front_lt
    omega) (show index ≤ store.layout.period by omega)
  rw [occupied, if_pos (by omega), Circular.distance_cell h.front_lt hindex]

theorem front_lt_max (h : store.Represents 1 records entries) :
    store.entries.front < max store.layout.period 1 := by
  have hfront := h.front_lt
  omega

theorem distance_eq_iff (h : store.Represents 1 records entries) {index physical : ℕ}
    (hindex : index < store.layout.period) (hphysical : physical < store.layout.period) :
    Circular.distance store.layout.period store.entries.front physical = index ↔
      physical = Circular.cell store.layout.period store.entries.front index := by
  constructor
  · rintro rfl
    exact (Circular.cell_distance h.front_lt hphysical).symm
  · rintro rfl
    exact Circular.distance_cell h.front_lt hindex

/-- The oldest position is free once its entry is gone. -/
theorem occupied_popLast (h : store.Represents 1 records entries) {record : Record}
    (hrecord : records[entries.length - 1]? = some record) :
    occupied store.popLast records.dropLast =
      Function.update (occupied store records)
        (Circular.cell store.layout.period store.entries.front (store.entries.len - 1)) none := by
  obtain ⟨hpop, -, hlayout, -, -, -, hends⟩ := h.popLast_spec hrecord
  have hlength := h.records_length
  have hlen := h.len_eq
  have hle := h.len_le
  obtain ⟨hlast, -⟩ := List.getElem?_eq_some_iff.mp hrecord
  have hpos : 0 < store.entries.len := by omega
  funext physical
  rw [Function.update_apply]
  by_cases hphysical : physical < store.layout.period
  · have hiff := distance_eq_iff h (show store.entries.len - 1 < store.layout.period by omega)
      hphysical
    by_cases hnil : entries.dropLast = []
    · -- The only entry is gone.
      have hnone : records.dropLast = [] := by
        rw [← List.length_eq_zero_iff, hpop.holds.length_eq, hnil]
        rfl
      rw [hnone, occupied_nil]
      split
      · rfl
      · next hother =>
        rw [occupied, if_pos hphysical]
        refine (List.getElem?_eq_none ?_).symm
        have hsingle : entries.length - 1 = 0 := by
          rw [← List.length_dropLast, hnil]
          rfl
        by_contra hlt
        exact hother (hiff.mp (by omega))
    · rw [occupied, occupied, hlayout, (hends hnil).2, if_pos hphysical, if_pos hphysical,
        List.getElem?_dropLast]
      by_cases hat : physical =
          Circular.cell store.layout.period store.entries.front (store.entries.len - 1)
      · rw [if_pos hat, hiff.mpr hat, if_neg (by omega)]
      · rw [if_neg hat]
        split
        · rfl
        · next hge =>
          refine (List.getElem?_eq_none ?_).symm
          have hne : ¬ _ = _ := fun heq => hat (hiff.mp heq)
          omega
  · have hcell := Circular.cell_lt (front_lt_max h)
      (show store.entries.len - 1 ≤ store.layout.period by omega)
    rw [occupied, occupied, hlayout, if_neg hphysical, if_neg hphysical, if_neg (by omega)]

/-- The next position is occupied once its entry is there. -/
theorem occupied_push (h : store.Represents 1 records entries)
    (hfree : store.entries.len < store.layout.period) (record : Record) (data tail : ℕ) :
    occupied (store.push record data tail) (record :: records) =
      Function.update (occupied store records) store.nextPhysical (some record) := by
  have hnext := h.nextPhysical_lt
  have hfront := h.front_lt
  have hlength := h.records_length
  funext physical
  rw [Function.update_apply, occupied, occupied]
  show (if physical < store.layout.period then
    (record :: records)[Circular.distance store.layout.period store.nextPhysical physical]?
    else none) = _
  by_cases hphysical : physical < store.layout.period
  · rw [if_pos hphysical, if_pos hphysical]
    by_cases hat : physical = store.nextPhysical
    · rw [if_pos hat, hat, Circular.distance_self]
      rfl
    · rw [if_neg hat]
      by_cases hempty : store.entries.len = 0
      · obtain rfl := List.length_eq_zero_iff.mp (hlength.trans hempty)
        rw [List.getElem?_nil]
        refine List.getElem?_eq_none ?_
        simp only [Store.nextPhysical, hempty, if_true, Circular.distance] at *
        split <;> simp only [List.length_singleton] <;> omega
      · -- All others are one further away.
        have hdistance : Circular.distance store.layout.period store.nextPhysical physical =
            Circular.distance store.layout.period store.entries.front physical + 1 := by
          simp only [Store.nextPhysical, if_neg hempty, Circular.distance] at *
          split_ifs at * <;> omega
        rw [hdistance, List.getElem?_cons_succ]
  · rw [if_neg hphysical, if_neg hphysical, if_neg (by omega)]

theorem occupied_nextPhysical (h : store.Represents 1 records entries)
    (hfree : store.entries.len < store.layout.period) :
    occupied store records store.nextPhysical = none := by
  have hnext := h.nextPhysical_lt
  have hfront := h.front_lt
  have hlength := h.records_length
  rw [occupied, if_pos hnext]
  refine List.getElem?_eq_none ?_
  rw [hlength]
  unfold Store.nextPhysical Circular.distance at *
  split_ifs at * <;> omega

end Positions

/-! ### Search -/

/-- A table holds the entries of a queue, under its bounds, and its directories contain them. -/
structure Tracks (keys : D → ℕ → Option ℕ) (state : Direct D) (records : List Record)
    (table : Table) : Prop where
  represents : state.store.Represents 1 records table.entries
  limit : state.store.entries.limit = table.limit
  capacity : state.store.layout.capacity = table.capacity
  indexed : Indexed keys Record.digest state.store.index (occupied state.store records)
  digests : List.Forall₂ (fun record entry => record.digest = state.seed.digest entry) records
    table.entries

section Search

variable {keys : D → ℕ → Option ℕ} {self : Direct D} {records : List Record} {table : Table}

/-- A position of the ledger leads back to the entry. -/
theorem Tracks.lookup_eq (h : self.Tracks keys records table) {index : ℕ} {entry : Entry}
    (hentry : table.entries[index]? = some entry) :
    self.lookup (Circular.cell self.store.layout.period self.store.entries.front index) =
      some (index, entry) := by
  have hrep := h.represents
  have hfront := hrep.front_lt
  have hlength := hrep.records_length
  have hlen := hrep.len_le
  obtain ⟨hlt, -⟩ := List.getElem?_eq_some_iff.mp hentry
  have hindex : index < records.length := by rwa [hrep.holds.length_eq]
  have hrecord : records[index]? = some records[index] := List.getElem?_eq_getElem hindex
  generalize records[index] = record at hrecord
  obtain ⟨-, -, hstart, hzero, hnewer⟩ := hrep.holds.get hrep.data_le hrecord hentry
  have hcell : Circular.cell self.store.layout.period self.store.entries.front index <
      self.store.layout.period := by
    unfold Circular.cell
    split <;> omega
  have hrelative : Arena.position self.store.layout.period
      (Circular.cell self.store.layout.period self.store.entries.front index)
      (self.store.layout.period - self.store.entries.front) = index := by
    rw [Arena.position_eq hcell]
    unfold Circular.cell
    split <;> split <;> omega
  have hstop : self.stop index
      (Circular.cell self.store.layout.period self.store.entries.front index) =
      some (Circular.cell self.store.arena.length record.slot.start entry.data.length) := by
    unfold Direct.stop
    by_cases hfirst : index = 0
    · rw [if_pos hfirst]
      exact congrArg some (hzero hfirst).symm
    · have hbefore : index - 1 < records.length := by omega
      have hget : records[index - 1]? = some records[index - 1] := List.getElem?_eq_getElem hbefore
      have hprevious : Circular.cell self.store.layout.period
          (Circular.cell self.store.layout.period self.store.entries.front index)
          (self.store.layout.period - 1) =
          Circular.cell self.store.layout.period self.store.entries.front (index - 1) := by
        unfold Circular.cell
        split <;> split <;> split <;> omega
      rw [if_neg hfirst, Arena.position_eq hcell, hprevious, hrep.record_at _ _ hget,
        Option.map_some]
      exact congrArg some (hnewer _ hfirst hget).symm
  have hsize := hrep.dataLen_eq hentry hstart
  have hfield := hrep.stored_eq hentry hrecord
  unfold Direct.lookup
  simp only
  rw [hrelative, hrep.record_at _ _ hrecord, Option.bind_eq_bind, Option.bind_some, hstop,
    Option.bind_eq_bind, Option.bind_some]
  simp only [Slotted.slot] at hsize hfield
  rw [hsize, hfield]

variable {I : Type}

/-- A search finds the first entry that is accepted, if the positions are those of entries, and all
that may be accepted. -/
theorem Tracks.least_find (h : self.Tracks keys records table) {positions : List ℕ}
    (accept : ℕ → Entry → Option I)
    (hsound : ∀ physical ∈ positions, occupied self.store records physical ≠ none)
    (hcomplete : ∀ index entry, table.entries[index]? = some entry → accept index entry ≠ none →
      Circular.cell self.store.layout.period self.store.entries.front index ∈ positions) :
    Least table.entries.length (fun index => table.entries[index]?.bind (accept index))
      (self.find positions accept) := by
  have hrep := h.represents
  refine least_best (fun found hfound => ?_) fun index hlt result hresult => ?_
  · obtain ⟨physical, hphysical, hitem⟩ := List.mem_filterMap.mp hfound
    -- An occupied position is the one of an entry.
    have hoccupied := hsound physical hphysical
    unfold occupied at hoccupied
    split at hoccupied
    · next hlt =>
      have hdistance : Circular.distance self.store.layout.period self.store.entries.front physical
          < table.entries.length := by
        rw [← hrep.holds.length_eq]
        by_contra hge
        exact hoccupied (List.getElem?_eq_none (by omega))
      have hentry := List.getElem?_eq_getElem hdistance
      have hlookup := h.lookup_eq hentry
      rw [Circular.cell_distance hrep.front_lt hlt] at hlookup
      rw [hlookup, Option.bind_some] at hitem
      obtain ⟨result, haccept, rfl⟩ := Option.map_eq_some_iff.mp hitem
      refine ⟨hdistance, ?_⟩
      simp only [hentry, Option.bind_some, haccept]
    · exact absurd rfl hoccupied
  · have hentry := List.getElem?_eq_getElem hlt
    rw [hentry, Option.bind_some] at hresult
    refine List.mem_filterMap.mpr ⟨_, hcomplete index _ hentry (by simp [hresult]), ?_⟩
    rw [h.lookup_eq hentry, Option.bind_some]
    simp only [hresult, Option.map_some]

theorem Tracks.occupied_eq (h : self.Tracks keys records table) {index : ℕ} {entry : Entry}
    (hentry : table.entries[index]? = some entry) :
    ∃ record, occupied self.store records
        (Circular.cell self.store.layout.period self.store.entries.front index) = some record ∧
      record.digest = self.seed.digest entry := by
  have hrep := h.represents
  have hlen := hrep.len_le
  have hlength := hrep.records_length
  obtain ⟨hlt, hget⟩ := List.getElem?_eq_some_iff.mp hentry
  have hindex : index < records.length := by rwa [hrep.holds.length_eq]
  refine ⟨records[index], ?_, ?_⟩
  · rw [occupied_cell hrep (by omega), List.getElem?_eq_getElem hindex]
  · rw [← hget]
    exact h.digests.get hindex hlt

variable {count : ℕ}

theorem Tracks.least_findExact (hlawful : Directory.Lawful D count keys)
    (h : self.Tracks keys records table) (field : Entry) (retained : ℕ) (map : ℕ → Option I) :
    Least table.entries.length (fun index => table.entries[index]?.bind fun found =>
        if index < retained ∧ found.name = field.name ∧ found.value = field.value then map index
        else none)
      (self.findExact field retained map) := by
  refine h.least_find _ (fun physical hphysical => ?_) fun index entry hentry haccept => ?_
  · have hkey := hlawful.scan_sound _ _ _ hphysical
    rw [h.indexed.exact] at hkey
    exact fun hnone => hkey (by rw [hnone]; rfl)
  · have hsame : entry = field := by
      by_contra hne
      refine haccept (if_neg ?_)
      rintro ⟨-, hname, hvalue⟩
      cases entry
      cases field
      exact hne (by simp_all)
    obtain ⟨record, hrecord, hdigest⟩ := h.occupied_eq hentry
    refine hlawful.scan_complete _ _ _ ?_
    rw [h.indexed.exact, hrecord, Option.map_some, hdigest, hsame]

theorem Tracks.least_findNeedle (hlawful : Directory.Lawful D count keys)
    (h : self.Tracks keys records table) (name : Bytes) (retained : ℕ) (map : ℕ → Option I) :
    Least table.entries.length (fun index => table.entries[index]?.bind fun found =>
        if index < retained ∧ found.name = name then map index else none)
      (self.findNeedle name retained map) := by
  refine h.least_find _ (fun physical hphysical => ?_) fun index entry hentry haccept => ?_
  · have hkey := hlawful.scan_sound _ _ _ hphysical
    rw [h.indexed.name] at hkey
    exact fun hnone => hkey (by rw [hnone]; rfl)
  · have hname : entry.name = name := by
      by_contra hne
      exact haccept (if_neg fun hcase => hne hcase.2)
    obtain ⟨record, hrecord, hdigest⟩ := h.occupied_eq hentry
    refine hlawful.scan_complete _ _ _ ?_
    rw [h.indexed.name, hrecord, Option.map_some, hdigest, ← hname]
    rfl

theorem Tracks.findNeedle_eq (hlawful : Directory.Lawful D count keys)
    (h : self.Tracks keys records table) (name : Bytes) :
    self.findNeedle name self.store.entries.len some =
      table.entries.findIdx? (·.name = name) := by
  have hlen := h.represents.len_eq
  refine ((h.least_findNeedle hlawful name _ some).congr fun index hlt => ?_).unique
    (least_findIdx table.entries (·.name = name))
  simp only [List.getElem?_eq_getElem hlt, Option.bind_some, decide_eq_true_eq]
  refine if_congr ?_ rfl rfl
  exact ⟨fun hcase => hcase.2, fun hname => ⟨by omega, hname⟩⟩

/-- What a search finds: the newest entry that is the field, or the newest one with its name. -/
theorem Tracks.search_eq (hlawful : Directory.Lawful D count keys)
    (h : self.Tracks keys records table) (name value : Bytes) :
    self.search name value =
      ⟨table.entries.findIdx? (· = ⟨name, value⟩),
        (table.entries.findIdx? (· = ⟨name, value⟩)).or
          (table.entries.findIdx? (·.name = name))⟩ := by
  have hlen := h.represents.len_eq
  have hexact : self.findExact ⟨name, value⟩ self.store.entries.len some =
      table.entries.findIdx? (· = ⟨name, value⟩) := by
    refine ((h.least_findExact hlawful ⟨name, value⟩ _ some).congr fun index hlt => ?_).unique
      (least_findIdx table.entries (· = ⟨name, value⟩))
    simp only [List.getElem?_eq_getElem hlt, Option.bind_some, decide_eq_true_eq]
    refine if_congr ?_ rfl rfl
    constructor
    · rintro ⟨-, hname, hvalue⟩
      exact Entry.ext hname hvalue
    · intro hsame
      rw [hsame]
      exact ⟨by omega, rfl, rfl⟩
  rw [search, both, hexact]
  cases table.entries.findIdx? (· = ⟨name, value⟩) with
  | none => simp only [h.findNeedle_eq hlawful, Option.none_or]
  | some index => rfl

end Search

/-! ### Operations -/

section Operations

variable {keys : D → ℕ → Option ℕ} {count : ℕ} {self : Direct D} {records : List Record}
  {table : Table}

theorem kept (hlawful : Directory.Lawful D count keys) (records : List Record) :
    Store.Represents.Kept 1 fun (store : Store Record (Index D)) (left : List Record) =>
      Indexed keys Record.digest store.index (occupied store left) ∧ left <+: records := by
  intro store left entries hrep hne ⟨hindexed, hlead⟩
  obtain ⟨record, hrecord⟩ := hrep.exists_oldest hne
  obtain ⟨-, -, -, -, -, hindex, -⟩ := hrep.popLast_spec hrecord
  have hlen := hrep.len_le
  have hlength := hrep.records_length
  have hcount := hrep.len_eq
  have hpos := List.length_pos_iff.mpr hne
  have hoccupied : occupied store left (Circular.cell store.layout.period store.entries.front
      (store.entries.len - 1)) = some record := by
    rw [occupied_cell hrep (by omega), hcount, hrecord]
  refine ⟨?_, (List.dropLast_prefix left).trans hlead⟩
  rw [occupied_popLast hrep hrecord, hindex]
  exact hindexed.remove hlawful hoccupied

/-- The records that are left after an eviction have the digests of the entries that are left. -/
theorem Tracks.digests_of_isPrefix (h : self.Tracks keys records table) {left : List Record}
    {entries : List Entry} (hrecords : left <+: records) (hentries : entries <+: table.entries)
    (hlength : left.length = entries.length) :
    List.Forall₂ (fun record entry => record.digest = self.seed.digest entry) left entries := by
  rw [List.prefix_iff_eq_take.mp hrecords, List.prefix_iff_eq_take.mp hentries, hlength]
  exact List.forall₂_take _ h.digests

theorem tracks_new {layout : Layout} {width indexed capacity : ℕ} (limit : ℕ) (seed : Seed)
    {index : Index D} (hlayout : Layout.new 1 width indexed capacity = .ok layout)
    (hindex : Indexed keys Record.digest index fun _ => none) :
    (Direct.new layout limit seed index).Tracks keys [] (Table.new capacity limit) := by
  obtain ⟨hplanned, rfl⟩ := Layout.planned_of_new Nat.one_pos hlayout
  refine ⟨Store.represents_new hplanned limit _ _, rfl, rfl, ?_, .nil⟩
  rw [occupied_nil]
  exact hindex

theorem Tracks.clear (hlawful : Directory.Lawful D count keys)
    (h : self.Tracks keys records table) : self.clear.Tracks keys [] table.reject := by
  refine ⟨h.represents.clear.setIndex _, h.limit, h.capacity, ?_, .nil⟩
  rw [occupied_nil]
  exact .clear hlawful Record.digest self.store.index

theorem Tracks.setLimit (hlawful : Directory.Lawful D count keys)
    (h : self.Tracks keys records table) (limit : ℕ) :
    ∃ records', (self.setLimit limit).Tracks keys records' (table.setLimit limit) := by
  obtain ⟨records', hrep, hlimit, hlayout, hindexed, hlead⟩ :=
    (h.represents.setLimit limit).trim (kept hlawful records) self.store.entries.len
      ⟨h.indexed, List.prefix_refl records⟩ h.represents.len_eq.ge
  have hmin : (self.store.setLimit limit).entries.limit = min limit table.capacity := by
    rw [← h.capacity]
    rfl
  rw [hmin] at hrep hlimit
  exact ⟨records', hrep, hlimit, (congrArg Layout.capacity hlayout).trans h.capacity, hindexed,
    h.digests_of_isPrefix hlead (evict_isPrefix table.entries) hrep.holds.length_eq⟩

section Place

variable {store : Store Record (Index D)} {entries : List Entry}

theorem encode_eq (h : store.Represents 1 records entries) (field : Entry)
    (hroom : field.data.length ≤ store.arena.length) :
    encode store field =
      ({ store with arena := Circular.write store.arena store.entries.tail field.data },
        Slot.pack store.entries.tail field.name.length,
        Circular.cell store.arena.length store.entries.tail field.data.length) := by
  have htail := h.tail_lt
  rw [Entry.data, List.length_append] at hroom
  have hlength := Circular.length_write (show store.entries.tail ≤ store.arena.length by omega)
    (show field.name.length ≤ store.arena.length by omega)
  have hcell := Circular.cell_lt htail (show field.name.length ≤ store.arena.length by omega)
  unfold encode
  simp only
  rw [Arena.write_eq htail (by omega)]
  simp only
  rw [Arena.write_eq (by rwa [hlength]) (by rw [hlength]; omega), hlength,
    Circular.write_append htail hroom, Circular.cell_cell htail hroom, Entry.data,
    List.length_append]

/-- An entry in a table that has room for it: its bytes, its record and its members. -/
theorem place_spec (hlawful : Directory.Lawful D count keys)
    (h : store.Represents 1 records entries)
    (hindexed : Indexed keys Record.digest store.index (occupied store records))
    (hcount : store.layout.capacity / entryOverhead ≤ count) (field : Entry) (digest : Digest)
    (hroom : totalSize (field :: entries) ≤ store.layout.capacity)
    (hmask : field.name.length ≤ nameLenMask) :
    ∃ slot, (place store field digest field.data.length).Represents 1 (⟨slot, digest⟩ :: records)
        (field :: entries) ∧
      Indexed keys Record.digest (place store field digest field.data.length).index
        (occupied (place store field digest field.data.length) (⟨slot, digest⟩ :: records)) ∧
      (place store field digest field.data.length).entries.limit = store.entries.limit ∧
      (place store field digest field.data.length).layout = store.layout := by
  have hdata := totalSize_eq (field :: entries)
  have harena := h.arena_ge
  rw [dataSize_cons, List.length_cons] at hdata
  -- There is room for the bytes and for the record.
  have hbytes : dataSize entries + 0 + field.data.length ≤ store.arena.length := by
    simp only [entryOverhead] at *
    omega
  have hslots : store.entries.len + 1 ≤ store.layout.capacity / entryOverhead := by
    have hmany := entryOverhead_mul_length_le (field :: entries)
    rw [h.len_eq, Nat.le_div_iff_mul_le (by simp [entryOverhead])]
    rw [List.length_cons, Nat.mul_comm] at hmany
    omega
  have hperiod := h.planned.period_eq
  have hfree : store.entries.len < store.layout.period := by omega
  have hnext := h.nextPhysical_lt
  have htail := h.tail_lt
  have hlength := Circular.length_write (show store.entries.tail ≤ store.arena.length by omega)
    (show field.data.length ≤ store.arena.length by omega)
  have hwrite := h.write hbytes (Circular.cell_zero htail).symm
  have hpush := @Store.Represents.push Record (Index D) _ _ _ 1 records entries hwrite
    ⟨Slot.pack store.entries.tail field.name.length, digest⟩ field (Nat.mod_eq_of_lt (by omega))
    (Circular.read_write_self htail (by omega)) (by rwa [hlength]) (fun _ => rfl) hroom
  have hmember := @Indexed.insert D _ Record keys count Record.digest store.index (occupied store records) hlawful
    hindexed store.nextPhysical (by omega) (occupied_nextPhysical h hfree)
    ⟨Slot.pack store.entries.tail field.name.length, digest⟩
  have hoccupied := occupied_push h hfree ⟨Slot.pack store.entries.tail field.name.length, digest⟩
    field.data.length
    (Circular.cell store.arena.length store.entries.tail field.data.length)
  unfold place
  rw [encode_eq h field (by omega)]
  refine ⟨Slot.pack store.entries.tail field.name.length, ?_, ?_, rfl, rfl⟩
  · simp only [hlength] at hpush
    exact hpush.setIndex _
  · rw [← hoccupied] at hmember
    exact hmember

end Place

theorem Tracks.input (hlawful : Directory.Lawful D count keys)
    (h : self.Tracks keys records table) (hcount : table.capacity / entryOverhead ≤ count)
    (field : Entry) (hfits : field.size ≤ table.limit) (hmask : field.name.length ≤ nameLenMask) :
    ∃ records', (self.input field (self.seed.digest field) field.data.length).Tracks keys records'
      (table.publish field hfits) := by
  obtain ⟨records', hrep, hlimit, hlayout, hindexed, hlead⟩ :=
    h.represents.makeRoom (kept hlawful records) self.store.entries.len field.data.length
      ⟨h.indexed, List.prefix_refl records⟩ h.represents.len_eq.ge
  have hperiod : self.store.layout.period = table.period := by
    rw [h.represents.planned.period_eq, h.capacity]
    rfl
  have hcapacity := (congrArg Layout.capacity hlayout).trans h.capacity
  have hbound := (table.publish field hfits).size_le.trans table.limit_le
  rw [h.limit, hperiod, ← field.size_eq] at hrep
  obtain ⟨slot, hplace, hmembers, hlimit', hlayout'⟩ := place_spec hlawful hrep hindexed
    (by rwa [hcapacity]) field (self.seed.digest field) (by rw [hcapacity]; exact hbound) hmask
  exact ⟨_, hplace, hlimit'.trans (hlimit.trans h.limit),
    (congrArg Layout.capacity hlayout').trans hcapacity, hmembers,
    .cons rfl (h.digests_of_isPrefix hlead (evict_isPrefix table.entries) hrep.holds.length_eq)⟩

theorem Tracks.trySize (h : self.Tracks keys records table) (field : Entry) :
    (∀ size, self.trySize field.name.length field.value.length = .ok size →
      size = field.data.length ∧ field.size ≤ table.limit ∧ field.name.length ≤ nameLenMask) ∧
      ∀ error, self.trySize field.name.length field.value.length = .error error →
        nameLenMask < field.name.length ∨ table.limit < field.size := by
  have hlimit := h.represents.limit_le
  have hcapacity := h.represents.planned.capacity_lt
  rw [h.limit] at hlimit
  unfold Direct.trySize
  rw [h.limit, Entry.data, List.length_append, Entry.size]
  constructor
  · intro size hok
    split_ifs at hok
    obtain rfl := Except.ok.inj hok
    omega
  · intro error herror
    split_ifs at herror <;> simp only [entryOverhead] at * <;> omega

theorem Tracks.apply (hlawful : Directory.Lawful D count keys)
    (h : self.Tracks keys records table) (hcount : table.capacity / entryOverhead ≤ count)
    (op : Op) : ∃ records', (self.apply op).Tracks keys records' (op.queued table) := by
  cases op with
  | setLimit limit => exact h.setLimit hlawful limit
  | insert name value =>
    obtain ⟨hok, herror⟩ := h.trySize ⟨name, value⟩
    simp only [Direct.apply, Direct.insert, Op.queued]
    cases hsize : self.trySize name.length value.length with
    | ok size =>
      obtain ⟨rfl, hfits, hmask⟩ := hok size hsize
      rw [if_neg (not_lt.mpr hmask), Table.insert, dif_pos hfits]
      exact h.input hlawful hcount ⟨name, value⟩ hfits hmask
    | error error =>
      -- Whatever is wrong with a field, it empties the table.
      have hqueue : (if nameLenMask < name.length then table.reject
          else table.insert ⟨name, value⟩) = table.reject := by
        rcases herror error hsize with hmask | hfits
        · rw [if_pos hmask]
        · rw [Table.insert, dif_neg (not_le.mpr hfits), ite_self]
      rw [hqueue]
      exact ⟨[], h.clear hlawful⟩

@[simp]
theorem Op.queued_capacity (table : Table) (op : Op) : (op.queued table).capacity = table.capacity := by
  cases op with
  | insert name value =>
    simp only [Op.queued]
    split <;> simp
  | setLimit limit => rfl

@[simp]
theorem apply_seed (self : Direct D) (op : Op) : (self.apply op).seed = self.seed := by
  cases op with
  | insert name value =>
    simp only [apply, insert]
    split <;> rfl
  | setLimit limit => rfl

theorem Tracks.run (hlawful : Directory.Lawful D count keys)
    (h : self.Tracks keys records table) (hcount : table.capacity / entryOverhead ≤ count)
    (ops : List Op) : ∃ records', (self.run ops).Tracks keys records' (queued table ops) := by
  induction ops generalizing self records table with
  | nil => exact ⟨records, h⟩
  | cons op ops ih =>
    obtain ⟨records', hnext⟩ := h.apply hlawful hcount op
    exact ih hnext (by rwa [Op.queued_capacity])

end Operations

/-! ## Correctness -/

/-- A table has the fields and the size of a queue, its directories contain the entries of the
queue and nothing else, and a search finds the newest entry there is to find. -/
structure Refines (keys : D → ℕ → Option ℕ) (state : Direct D) (table : Table) : Prop where
  field : ∀ index, state.store.field index = table.entries[index]?
  len : state.store.entries.len = table.entries.length
  size : state.store.entries.size = totalSize table.entries
  limit : state.store.entries.limit = table.limit
  size_le : totalSize table.entries ≤ table.limit
  named : ∀ physical hash, keys state.store.index.name physical = some hash ↔
    ∃ index entry, table.entries[index]? = some entry ∧
      state.store.physical index = some physical ∧ state.seed.name entry.name = hash
  exact : ∀ physical hash, keys state.store.index.exact physical = some hash ↔
    ∃ index entry, table.entries[index]? = some entry ∧
      state.store.physical index = some physical ∧ (state.seed.digest entry).exact = hash
  search : ∀ name value, state.search name value =
    ⟨table.entries.findIdx? (· = ⟨name, value⟩),
      (table.entries.findIdx? (· = ⟨name, value⟩)).or (table.entries.findIdx? (·.name = name))⟩
  inserted : ∀ name value, name.length ≤ nameLenMask →
    name.length + value.length + entryOverhead ≤ table.limit → ∃ kept,
      (Op.queued table (.insert name value)).entries = ⟨name, value⟩ :: kept ∧
        Table.Retains (table.limit - (name.length + value.length + entryOverhead)) table.entries kept
  cleared : ∀ name value, nameLenMask < name.length ∨
    table.limit < name.length + value.length + entryOverhead →
      (Op.queued table (.insert name value)).entries = []
  limited : ∀ limit, Table.Retains (min limit table.capacity) table.entries
    (Op.queued table (.setLimit limit)).entries

section Correctness

variable {keys : D → ℕ → Option ℕ} {count : ℕ} {self : Direct D} {records : List Record}
  {table : Table}

theorem Tracks.occupied_iff (h : self.Tracks keys records table) (physical : ℕ) (digest : Digest) :
    (occupied self.store records physical).map Record.digest = some digest ↔
      ∃ index entry, table.entries[index]? = some entry ∧
        self.store.physical index = some physical ∧ self.seed.digest entry = digest := by
  have hrep := h.represents
  have hlen := hrep.len_eq
  constructor
  · intro hoccupied
    obtain ⟨record, hrecord, rfl⟩ := Option.map_eq_some_iff.mp hoccupied
    unfold occupied at hrecord
    split at hrecord
    · next hlt =>
      obtain ⟨hindex, -⟩ := List.getElem?_eq_some_iff.mp hrecord
      rw [hrep.holds.length_eq] at hindex
      have hentry := List.getElem?_eq_getElem hindex
      obtain ⟨found, hfound, hdigest⟩ := h.occupied_eq hentry
      have hcell := Circular.cell_distance hrep.front_lt hlt
      rw [hcell, occupied, if_pos hlt, hrecord] at hfound
      obtain rfl := Option.some.inj hfound
      refine ⟨_, _, hentry, ?_, hdigest.symm⟩
      rw [hrep.physical_eq (by omega), hcell]
    · cases hrecord
  · rintro ⟨index, entry, hentry, hphysical, rfl⟩
    obtain ⟨record, hrecord, hdigest⟩ := h.occupied_eq hentry
    have hindex := (List.getElem?_eq_some_iff.mp hentry).1
    rw [hrep.physical_eq (by omega)] at hphysical
    rw [← Option.some.inj hphysical, hrecord, Option.map_some, hdigest]

theorem Op.cleared {name value : Bytes} (h : nameLenMask < name.length ∨
    table.limit < name.length + value.length + entryOverhead) :
    (Op.queued table (.insert name value)).entries = [] := by
  unfold Op.queued
  simp only
  split
  · rfl
  · next hmask =>
    have hfits := h.resolve_left hmask
    have hsize : ¬(⟨name, value⟩ : Entry).size ≤ table.limit := not_le.mpr hfits
    rw [Table.insert, dif_neg hsize]
    rfl

theorem Op.inserted {name value : Bytes} (hmask : name.length ≤ nameLenMask)
    (hfits : name.length + value.length + entryOverhead ≤ table.limit) :
    Op.queued table (.insert name value) = table.publish ⟨name, value⟩ hfits := by
  unfold Op.queued
  simp only
  have hsize : (⟨name, value⟩ : Entry).size ≤ table.limit := hfits
  rw [if_neg (not_lt.mpr hmask), Table.insert, dif_pos hsize]

theorem Tracks.refines (hlawful : Directory.Lawful D count keys)
    (h : self.Tracks keys records table) : self.Refines keys table := by
  have hrep := h.represents
  refine ⟨hrep.field_eq, hrep.len_eq, hrep.size_eq, h.limit, table.size_le, fun physical hash => ?_,
    fun physical hash => ?_, h.search_eq hlawful, fun name value hmask hfits => ?_,
    fun name value => Op.cleared, fun limit => table.retains_setLimit limit⟩
  · rw [h.indexed.name, Option.map_eq_some_iff]
    constructor
    · rintro ⟨record, hrecord, rfl⟩
      obtain ⟨index, entry, hentry, hphysical, hdigest⟩ :=
        (h.occupied_iff physical record.digest).mp (by rw [hrecord]; rfl)
      exact ⟨index, entry, hentry, hphysical, congrArg Digest.name hdigest⟩
    · rintro ⟨index, entry, hentry, hphysical, rfl⟩
      obtain ⟨record, hrecord, hdigest⟩ := Option.map_eq_some_iff.mp
        ((h.occupied_iff physical _).mpr ⟨index, entry, hentry, hphysical, rfl⟩)
      exact ⟨record, hrecord, congrArg Digest.name hdigest⟩
  · rw [h.indexed.exact, Option.map_eq_some_iff]
    constructor
    · rintro ⟨record, hrecord, rfl⟩
      obtain ⟨index, entry, hentry, hphysical, hdigest⟩ :=
        (h.occupied_iff physical record.digest).mp (by rw [hrecord]; rfl)
      exact ⟨index, entry, hentry, hphysical, congrArg Digest.exact hdigest⟩
    · rintro ⟨index, entry, hentry, hphysical, rfl⟩
      obtain ⟨record, hrecord, hdigest⟩ := Option.map_eq_some_iff.mp
        ((h.occupied_iff physical _).mpr ⟨index, entry, hentry, hphysical, rfl⟩)
      exact ⟨record, hrecord, congrArg Digest.exact hdigest⟩
  · rw [Op.inserted hmask hfits]
    exact table.retains_publish ⟨name, value⟩ hfits

/-- Every run of a table that was planned for a capacity is a run of the queue, for every index
that is lawful for the number of its entries and empty at first. -/
theorem indexed_fifo {layout : Layout} {indexed capacity : ℕ} {keys : D → ℕ → Option ℕ}
    {index : Index D} (hlayout : Layout.new 1 24 indexed capacity = .ok layout)
    (hlawful : Directory.Lawful D (capacity / 32) keys)
    (hempty : ∀ physical, keys index.name physical = none ∧ keys index.exact physical = none)
    (seed : Seed) (limit : ℕ) (ops : List Op) :
    ((Direct.new layout limit seed index).run ops).Refines keys
      (queued (Table.new capacity limit) ops) := by
  have hnew := tracks_new limit seed hlayout
    (⟨fun physical => (hempty physical).1, fun physical => (hempty physical).2⟩ : Indexed keys
      Record.digest index fun _ => none)
  obtain ⟨records, hrun⟩ := hnew.run hlawful le_rfl ops
  exact hrun.refines hlawful

/-- A table of two entries that all have the same hashes. -/
theorem indexed_fifo_collisions :
    ((Direct.new ⟨100, 72, 136, 68, 3⟩ 100 ⟨fun _ => 0, fun _ _ => 0⟩
      (⟨⟨[]⟩, ⟨[]⟩⟩ : Index Directory.Listed)).run
        [.insert [97] [], .insert [98] [], .insert [97] []]).Refines Directory.Listed.keys
      (queued (Table.new 100 100) [.insert [97] [], .insert [98] [], .insert [97] []]) := by
  have hlayout : Layout.new 1 24 64 100 = .ok ⟨100, 72, 136, 68, 3⟩ := rfl
  exact indexed_fifo hlayout (Directory.Listed.lawful (100 / 32)) (fun _ => ⟨rfl, rfl⟩) _ 100 _

/-- A name that is too long for a slot empties the table, whatever room there is. -/
theorem Tracks.field_eq_none_of_long (hlawful : Directory.Lawful D count keys)
    (h : self.Tracks keys records table) (hcount : table.capacity / entryOverhead ≤ count)
    {name : Bytes} (hname : nameLenMask < name.length) (value : Bytes) (index : ℕ) :
    (self.run [.insert name value]).store.field index = none := by
  obtain ⟨records, hrun⟩ := h.run hlawful hcount [.insert name value]
  have hclear : (queued table [.insert name value]).entries = [] := Op.cleared (.inl hname)
  rw [hrun.represents.field_eq, hclear]
  rfl

/-- A name that is too long for a slot, in a table that has room for it: the queue would retain the
entry, and the table is empty. -/
theorem clears_of_length {name : Bytes} (hname : name.length = 2 ^ 27) :
    Layout.new 1 24 (2 ^ 27) (2 ^ 27 + 64) =
        .ok ⟨134217792, 100663344, 234881072, 134217760, 4194306⟩ ∧
      ((Direct.new ⟨134217792, 100663344, 234881072, 134217760, 4194306⟩ (2 ^ 27 + 64)
        ⟨fun _ => 0, fun _ _ => 0⟩ (⟨⟨[]⟩, ⟨[]⟩⟩ : Index Directory.Listed)).run
          [.insert name []]).store.field 0 = none ∧
      ((Table.new (2 ^ 27 + 64) (2 ^ 27 + 64)).insert ⟨name, []⟩).field 0 = some ⟨name, []⟩ := by
  have hlayout : Layout.new 1 24 (2 ^ 27) (2 ^ 27 + 64) =
      .ok ⟨134217792, 100663344, 234881072, 134217760, 4194306⟩ := by
    simp [Layout.new, entryOverhead]
  have hnew := tracks_new (2 ^ 27 + 64) ⟨fun _ => 0, fun _ _ => 0⟩ hlayout
    (⟨fun _ => rfl, fun _ => rfl⟩ : Indexed Directory.Listed.keys Record.digest
      (⟨⟨[]⟩, ⟨[]⟩⟩ : Index Directory.Listed) fun _ => none)
  have hlong : nameLenMask < name.length := by
    rw [hname, nameLenMask]
    omega
  have hfits : (⟨name, []⟩ : Entry).size ≤ (Table.new (2 ^ 27 + 64) (2 ^ 27 + 64)).limit := by
    rw [Entry.size, hname, List.length_nil, entryOverhead]
    show 2 ^ 27 + 0 + 32 ≤ min (2 ^ 27 + 64) (2 ^ 27 + 64)
    omega
  refine ⟨hlayout, hnew.field_eq_none_of_long
    (Directory.Listed.lawful ((Table.new (2 ^ 27 + 64) (2 ^ 27 + 64)).capacity / entryOverhead))
    le_rfl hlong [] 0, ?_⟩
  rw [Table.insert, dif_pos hfits]
  rfl

theorem long_name_clears :
    Layout.new 1 24 (2 ^ 27) (2 ^ 27 + 64) =
        .ok ⟨134217792, 100663344, 234881072, 134217760, 4194306⟩ ∧
      ((Direct.new ⟨134217792, 100663344, 234881072, 134217760, 4194306⟩ (2 ^ 27 + 64)
        ⟨fun _ => 0, fun _ _ => 0⟩ (⟨⟨[]⟩, ⟨[]⟩⟩ : Index Directory.Listed)).run
          [.insert (List.replicate (2 ^ 27) 97) []]).store.field 0 = none ∧
      ((Table.new (2 ^ 27 + 64) (2 ^ 27 + 64)).insert ⟨List.replicate (2 ^ 27) 97, []⟩).field 0 =
        some ⟨List.replicate (2 ^ 27) 97, []⟩ :=
  clears_of_length List.length_replicate

end Correctness

end Direct

end Sark.Compress
