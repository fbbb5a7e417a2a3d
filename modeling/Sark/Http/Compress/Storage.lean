import Sark.Http.Compress.Table
import Sark.Library.Circular

/-!
# The storage of a dynamic table

How the entries of a table are laid out (`table/ring.rs`, `table/slot.rs`, `table/state/`,
`table/view/`, `plan/layout.rs`): their bytes in a ring, the newest behind all others, and a record
for each of them in a ledger, which is a ring in the other direction. A record says where an entry
starts and how long its name is; the entry ends where the next newer one starts.

Both layouts of a table are here, the one of the decoders, whose insertions come in fragments, and
the one of the encoders, which has an index.

* `Store.Represents`: the ring and the ledger hold a list of entries.
* `Represents.tryEntry_eq`: what a lookup finds.
* `Represents.trim`, `Represents.makeRoom`: what the loops that evict leave.
* `Represents.push`: an entry whose bytes are in the ring.
-/

namespace Sark.Compress

/-! ## Rings -/

namespace Arena

/-- `Ring::stored`. -/
def stored (arena : Bytes) (start len : ℕ) : Bytes :=
  if len = 0 then []
  else
    let first := min len (arena.length - start)
    (arena.drop start).take first ++ arena.take (len - first)

/-- `Ring::advance`. -/
def advance (arena : Bytes) (start len : ℕ) : ℕ :=
  if arena.length = 0 then 0
  else
    let tail := arena.length - start
    if tail ≤ len then len - tail else start + len

/-- `Buf::write`. -/
def write (arena : Bytes) (start : ℕ) (bytes : Bytes) : Bytes × ℕ :=
  if bytes = [] then (arena, start)
  else
    let first := min bytes.length (arena.length - start)
    let arena := Circular.blit arena start (bytes.take first)
    let arena := Circular.blit arena 0 (bytes.drop first)
    (arena, advance arena start bytes.length)

/-- `Buf::copy`: as many bytes at a time as neither end of the ring is in the way of. In a ring
without bytes there is nothing to copy. -/
def copy (arena : Bytes) (source target left : ℕ) : Bytes × ℕ :=
  if left = 0 then (arena, target)
  else
    let chunk := min (min left (arena.length - source)) (arena.length - target)
    if _hchunk : chunk = 0 then (arena, target)
    else
      let next := Circular.blit arena target ((arena.drop source).take chunk)
      copy next (advance next source chunk) (advance next target chunk) (left - chunk)
  termination_by left

/-- `Cursor::distance`. -/
def distance (self stop capacity : ℕ) : ℕ :=
  if self ≤ stop then stop - self else capacity - self + stop

/-- `state::position`. -/
def position (count start offset : ℕ) : ℕ :=
  let suffix := count - start
  if offset < suffix then start + offset else offset - suffix

end Arena

/-! ## Layouts -/

/-- `plan::Error`, less the failures of the allocation. -/
inductive PlanError
  | capacity (actual maximum : ℕ)
  | bytes (data arenas maximum : ℕ)
  | ledger (entries width maximum : ℕ)
  | leading (ledger indexed maximum : ℕ)
  | arena (leading bytes maximum : ℕ)
  deriving DecidableEq, Repr

/-- `layout::Layout`, less the layout of the index. -/
structure Layout where
  capacity : ℕ
  ledgerLen : ℕ
  arenaStart : ℕ
  arenaLen : ℕ
  period : ℕ
  deriving DecidableEq, Repr

/-- `Layout::new`, for a number of arenas, the width of a record, and the bytes of the index. -/
def Layout.new (arenas width indexed capacity : ℕ) : Except PlanError Layout :=
  let maximum := 2 ^ 32 - 1
  let data := capacity - entryOverhead
  let entries := capacity / entryOverhead
  if maximum < capacity then .error (.capacity capacity maximum)
  else if maximum < data * arenas then .error (.bytes data arenas maximum)
  else if maximum < entries * width then .error (.ledger entries width maximum)
  else if maximum < entries * width + indexed then
    .error (.leading (entries * width) indexed maximum)
  else if maximum < entries * width + indexed + data * arenas then
    .error (.arena (entries * width + indexed) (data * arenas) maximum)
  else .ok {
    capacity
    ledgerLen := entries * width
    arenaStart := entries * width + indexed
    arenaLen := data * arenas
    period := 1 + (entries - 1) }

/-- A layout that a plan has admitted. -/
structure Layout.Planned (layout : Layout) (arenas : ℕ) : Prop where
  arenas_pos : 0 < arenas
  arenaLen_eq : layout.arenaLen = (layout.capacity - entryOverhead) * arenas
  period_eq : layout.period = 1 + (layout.capacity / entryOverhead - 1)
  capacity_lt : layout.capacity < 2 ^ 32

theorem Layout.planned_of_new {arenas width indexed capacity : ℕ} {layout : Layout}
    (harenas : 0 < arenas) (h : Layout.new arenas width indexed capacity = .ok layout) :
    layout.Planned arenas ∧ layout.capacity = capacity := by
  unfold Layout.new at h
  simp only at h
  split_ifs at h with hcapacity
  obtain rfl := Except.ok.inj h
  exact ⟨⟨harenas, rfl, rfl, by simp only; omega⟩, rfl⟩

/-! ## The state of a table -/

/-- `slot::Slot`. The name of an entry is never longer than the bits that its length has. -/
structure Slot where
  start : ℕ
  nameLen : ℕ
  deriving DecidableEq, Repr

/-- `Slot::pack`. -/
def Slot.pack (start nameLen : ℕ) : Slot :=
  ⟨start, nameLen % (nameLenMask + 1)⟩

/-- `state::Entries`: the position of the newest record, their number, the end of the newest entry,
and the sizes. -/
structure Entries where
  front : ℕ
  len : ℕ
  tail : ℕ
  size : ℕ
  limit : ℕ
  deriving DecidableEq, Repr

/-- `Entries::reset`. -/
def Entries.reset (self : Entries) : Entries :=
  if self.len = 0 then { self with front := 0, tail := 0 } else self

/-- `Entries::clear`. -/
def Entries.clear (self : Entries) : Entries :=
  { self with front := 0, len := 0, tail := 0, size := 0 }

/-- What a layout retains for an entry (`mode::Private::Record`). -/
class Slotted (R : Type) where
  slot : R → Slot

/-- How a layout indexes its records (`mode::Private::Index`). -/
class Kind (R I : Type) where
  /-- The index without the member at a position of the ledger. -/
  remove : I → R → ℕ → I

/-- `storage::PartsMut`: the state of a table, its ledger, its index and its ring of bytes. -/
structure Store (R I : Type) where
  layout : Layout
  entries : Entries
  ledger : List R
  index : I
  arena : Bytes

namespace Store

variable {R I : Type} [Slotted R] [Kind R I]

/-- `State::new`, with everything in the block at zero. -/
def new (layout : Layout) (limit : ℕ) (zero : R) (index : I) : Store R I where
  layout := layout
  entries := ⟨0, 0, 0, 0, min limit layout.capacity⟩
  ledger := List.replicate (layout.capacity / entryOverhead) zero
  index := index
  arena := List.replicate layout.arenaLen 0

/-- `Entries::set_limit`. -/
def setLimit (self : Store R I) (limit : ℕ) : Store R I :=
  { self with entries := { self.entries with limit := min limit self.layout.capacity } }

/-- `Index::physical`. -/
def physical (self : Store R I) (index : ℕ) : Option ℕ :=
  if self.entries.len ≤ index then none
  else some (Arena.position self.layout.period self.entries.front index)

/-- The end of an entry: the start of the next newer one, or the end of them all. -/
def stop (self : Store R I) (index : ℕ) : Option ℕ :=
  if index = 0 then some self.entries.tail
  else (self.physical (index - 1)).bind fun physical =>
    self.ledger[physical]?.map fun newer => (Slotted.slot newer).start

/-- `View::size`: the length of the data of an entry. -/
def size (self : Store R I) (index : ℕ) (slot : Slot) : Option ℕ := do
  let stop ← self.stop index
  if self.arena.length = 0 ∧ (slot.start ≠ 0 ∨ stop ≠ 0) ∨
      self.arena.length ≠ 0 ∧ (self.arena.length ≤ slot.start ∨ self.arena.length ≤ stop) then none
  else
    let distance := Arena.distance slot.start stop self.layout.arenaLen
    if distance ≠ 0 ∨ self.entries.len ≠ 1 then some distance
    else some (self.entries.size - entryOverhead)

/-- `View::try_entry`: an entry, its record, and the length of its data. -/
def tryEntry (self : Store R I) (index : ℕ) : Option (Entry × R × ℕ) := do
  let physical ← self.physical index
  let record ← self.ledger[physical]?
  let slot := Slotted.slot record
  let dataLen ← self.size index slot
  if dataLen < slot.nameLen then none
  else
    let start := Arena.advance self.arena slot.start slot.nameLen
    some (⟨Arena.stored self.arena slot.start slot.nameLen,
      Arena.stored self.arena start (dataLen - slot.nameLen)⟩, record, dataLen)

/-- `Table::field`. -/
def field (self : Store R I) (index : ℕ) : Option Entry :=
  (self.tryEntry index).map Prod.fst

/-- `View::slot`, the record of an entry. -/
def record (self : Store R I) (index : ℕ) : Option R :=
  (self.physical index).bind fun physical => self.ledger[physical]?

/-- `Pop::last` and `Pop::commit`: the table without its oldest entry. There is always a record at
the positions that are read. -/
def popLast (self : Store R I) : Store R I :=
  let len := self.entries.len - 1
  let physical := Arena.position self.layout.period self.entries.front len
  match self.ledger[physical]? with
  | none => self
  | some record =>
    let start := (Slotted.slot record).start
    let stop :=
      if len = 0 then self.entries.tail
      else
        match self.ledger[Arena.position self.layout.period self.entries.front (len - 1)]? with
        | none => self.entries.tail
        | some newer => (Slotted.slot newer).start
    let distance := Arena.distance start stop self.layout.arenaLen
    let size := if distance = 0 ∧ len = 0 then 0 else self.entries.size - entryOverhead - distance
    { self with
      entries := { self.entries with len, size }.reset
      index := Kind.remove self.index record physical }

/-- `Pop::oldest` and the loops over it: eviction down to the limit. The number of entries bounds
the turns. -/
def trim (self : Store R I) : ℕ → Store R I
  | 0 => self
  | turns + 1 =>
    if self.entries.len = 0 ∨ self.entries.size ≤ self.entries.limit then self
    else self.popLast.trim turns

/-- `Ready::admit` and the loops over it: eviction until there is room for an entry with that much
data. -/
def makeRoom (self : Store R I) (data : ℕ) : ℕ → Store R I
  | 0 => self
  | turns + 1 =>
    if self.entries.len ≠ 0 ∧
        (self.entries.limit < self.entries.size + (data + entryOverhead) ∨
          self.layout.period ≤ self.entries.len) then
      self.popLast.makeRoom data turns
    else self

/-- The position of the next record. -/
def nextPhysical (self : Store R I) : ℕ :=
  if self.entries.len = 0 then 0
  else if self.entries.front = 0 then self.layout.period - 1
  else self.entries.front - 1

/-- `Ready::finish` and `Push::commit`: a record and the end of its entry. -/
def push (self : Store R I) (record : R) (data tail : ℕ) : Store R I :=
  { self with
    entries := {
      front := self.nextPhysical
      len := self.entries.len + 1
      tail
      size := self.entries.size + entryOverhead + data
      limit := self.entries.limit }
    ledger := self.ledger.set self.nextPhysical record }

/-- `State::clear`. -/
def clear (self : Store R I) : Store R I :=
  { self with entries := self.entries.clear }

end Store

/-! ## Rings are circular buffers -/

namespace Arena

variable {arena bytes : Bytes} {start len source target between : ℕ}

theorem stored_eq (arena : Bytes) (start len : ℕ) :
    stored arena start len = Circular.read arena start len := by
  unfold stored Circular.read
  split
  · next hlen => simp [hlen]
  · have htake : (arena.drop start).take (min len (arena.length - start)) =
        (arena.drop start).take len := by
      rw [← List.length_drop, ← List.take_eq_take_min]
    have hrest : len - min len (arena.length - start) = len - (arena.length - start) := by omega
    simp only [htake, hrest]

theorem advance_eq (hstart : start < max arena.length 1) (hlen : len ≤ arena.length) :
    advance arena start len = Circular.cell arena.length start len := by
  simp only [advance, Circular.cell]
  split <;> split <;> try split
  all_goals omega

theorem distance_eq (self stop capacity : ℕ) :
    distance self stop capacity = Circular.distance capacity self stop :=
  rfl

theorem position_eq {count offset : ℕ} (hstart : start < count) :
    position count start offset = Circular.cell count start offset := by
  simp only [position, Circular.cell]
  split <;> split <;> omega

theorem advance_congr {other : Bytes} (h : other.length = arena.length) (start len : ℕ) :
    advance other start len = advance arena start len := by
  simp only [advance, h]

theorem write_eq (hstart : start < max arena.length 1) (hbytes : bytes.length ≤ arena.length) :
    write arena start bytes =
      (Circular.write arena start bytes, Circular.cell arena.length start bytes.length) := by
  unfold write
  split
  · next hnil =>
    rw [hnil, Circular.write_nil, List.length_nil, Circular.cell_zero hstart]
  · have hlength := Circular.length_write (show start ≤ arena.length by omega) hbytes
    rw [← advance_eq hstart hbytes, ← advance_congr hlength]
    rfl

theorem blit_eq {chunk : ℕ} (hsource : source + chunk ≤ arena.length)
    (htarget : target + chunk ≤ arena.length) :
    Circular.blit arena target ((arena.drop source).take chunk) =
      Circular.write arena target (Circular.read arena source chunk) := by
  have hread : Circular.read arena source chunk = (arena.drop source).take chunk := by
    have hnone : chunk - (arena.length - source) = 0 := by omega
    rw [Circular.read, hnone, List.take_zero, List.append_nil]
  have hlength : ((arena.drop source).take chunk).length = chunk := by
    rw [List.length_take, List.length_drop]
    omega
  have hmin : min chunk (arena.length - target) = chunk := by omega
  rw [hread, Circular.write, hlength, hmin]
  simp only [List.take_of_length_le hlength.le, List.drop_of_length_le hlength.le]
  simp [Circular.blit]

/-- Copying to what is behind the source, at most one turn, is reading and writing. -/
theorem copy_eq (hsource : source < max arena.length 1)
    (hturn : len + between + len ≤ arena.length)
    (htarget : target = Circular.cell arena.length source (len + between)) :
    copy arena source target len =
      (Circular.write arena target (Circular.read arena source len),
        Circular.cell arena.length target len) := by
  have hlt : target < max arena.length 1 := by
    rw [htarget]
    exact Circular.cell_lt hsource (by omega)
  induction hleft : len using Nat.strong_induction_on generalizing arena source target len between with
  | h left ih =>
  subst hleft
  unfold copy
  split
  · next hlen =>
    subst hlen
    rw [Circular.read_zero, Circular.write_nil, Circular.cell_zero hlt]
  next hlen =>
  generalize hchunk : min (min len (arena.length - source)) (arena.length - target) = chunk
  have hpos : chunk ≠ 0 := by omega
  rw [dif_neg hpos]
  have hread : (Circular.read arena source chunk).length = chunk :=
    Circular.length_read (by omega) (by omega)
  rw [blit_eq (by omega) (by omega)]
  generalize hnext : Circular.write arena target (Circular.read arena source chunk) = next
  have hsize : next.length = arena.length := by
    rw [← hnext, Circular.length_write (by omega) (by omega)]
  have hsource' : Circular.cell arena.length source chunk < max arena.length 1 :=
    Circular.cell_lt hsource (by omega)
  have htarget' : Circular.cell arena.length target chunk =
      Circular.cell arena.length (Circular.cell arena.length source chunk)
        (len - chunk + (between + chunk)) := by
    rw [Circular.cell_cell hsource (by omega), htarget, Circular.cell_cell hsource (by omega)]
    congr 1
    omega
  simp only
  rw [advance_eq (by omega) (by omega), advance_eq (by omega) (by omega), hsize]
  -- The rest of the source is not where the chunk went.
  have hrest : Circular.read next (Circular.cell arena.length source chunk) (len - chunk) =
      Circular.read arena (Circular.cell arena.length source chunk) (len - chunk) := by
    rw [← hnext]
    refine @Circular.read_write_of_disjoint _ _ _ _ _ target between hsource' (by omega) ?_
    rw [htarget, Circular.cell_cell hsource (by omega)]
    congr 1
    omega
  rw [@ih (len - chunk) (by omega) next (len - chunk) _ _ (between + chunk) (by rwa [hsize])
    (by omega) (by rw [hsize, htarget']) (by rw [hsize]; exact Circular.cell_lt hlt (by omega))
    rfl, hsize, hrest]
  have hsum : chunk + (len - chunk) = len := by omega
  rw [Circular.cell_cell hlt (by omega), hsum, ← hnext]
  refine Prod.ext ?_ rfl
  have happend := @Circular.write_append _ arena (Circular.read arena source chunk) target
    (Circular.read arena (Circular.cell arena.length source chunk) (len - chunk)) hlt
    (by rw [hread, Circular.length_read (by omega) (by omega)]; omega)
  rw [hread] at happend
  simp only
  rw [happend, ← Circular.read_add hsource (by omega), hsum]

end Arena

/-! ## What a store holds -/

/-- The bytes of an entry as they stand in the ring. -/
def Entry.data (self : Entry) : Bytes :=
  self.name ++ self.value

theorem Entry.size_eq (self : Entry) : self.size = self.data.length + entryOverhead := by
  rw [size, data, List.length_append]

/-- The bytes of some entries. -/
def dataSize (entries : List Entry) : ℕ :=
  (entries.map fun entry => entry.data.length).sum

@[simp]
theorem dataSize_nil : dataSize [] = 0 := rfl

@[simp]
theorem dataSize_cons (entry : Entry) (entries : List Entry) :
    dataSize (entry :: entries) = entry.data.length + dataSize entries := rfl

theorem totalSize_eq (entries : List Entry) :
    totalSize entries = dataSize entries + entryOverhead * entries.length := by
  induction entries with
  | nil => rfl
  | cons entry entries ih =>
    rw [totalSize_cons, dataSize_cons, List.length_cons, Entry.size_eq, ih, Nat.mul_succ]
    omega

section Holds

variable {R I : Type} [Slotted R] [Kind R I]

/-- Some records, newest first, hold some entries, the newest of which ends at a position. -/
inductive Holds (arena : Bytes) : ℕ → List R → List Entry → Prop
  | nil {stop : ℕ} : stop < max arena.length 1 → Holds arena stop [] []
  | cons {record : R} {records : List R} {entry : Entry} {entries : List Entry} :
      (Slotted.slot record).nameLen = entry.name.length →
      Circular.read arena (Slotted.slot record).start entry.data.length = entry.data →
      Holds arena (Slotted.slot record).start records entries →
      Holds arena (Circular.cell arena.length (Slotted.slot record).start entry.data.length)
        (record :: records) (entry :: entries)

namespace Holds

variable {arena bytes : Bytes} {stop target between : ℕ} {records : List R}
  {entries : List Entry} {record : R} {entry : Entry}

theorem length_eq (h : Holds arena stop records entries) : records.length = entries.length := by
  induction h with
  | nil => rfl
  | cons _ _ _ ih => rw [List.length_cons, List.length_cons, ih]

theorem stop_lt (h : Holds arena stop records entries) (hle : dataSize entries ≤ arena.length) :
    stop < max arena.length 1 := by
  induction h with
  | nil hstop => exact hstop
  | cons hname hread hrest ih =>
    rw [dataSize_cons] at hle
    exact Circular.cell_lt (ih (by omega)) (by omega)

theorem write (h : Holds arena stop records entries)
    (hturn : dataSize entries + between + bytes.length ≤ arena.length)
    (htarget : target = Circular.cell arena.length stop between) (hstop : target ≤ arena.length) :
    Holds (Circular.write arena target bytes) stop records entries := by
  have hlength := Circular.length_write hstop (show bytes.length ≤ arena.length by omega)
  induction h generalizing between with
  | nil hstop =>
    refine .nil ?_
    rwa [hlength]
  | @cons record records entry entries hname hread hrest ih =>
    rw [dataSize_cons] at hturn
    have hstart := hrest.stop_lt (by omega)
    rw [Circular.cell_cell hstart (by omega)] at htarget
    rw [← hlength]
    refine .cons hname ?_ (ih (by omega) htarget)
    rw [Circular.read_write_of_disjoint hstart (by omega) htarget, hread]

theorem dropLast (h : Holds arena stop records entries)
    (hle : dataSize entries ≤ arena.length) :
    Holds arena stop records.dropLast entries.dropLast := by
  induction h with
  | nil hstop => exact .nil hstop
  | @cons record records entry entries hname hread hrest ih =>
    have hstop := Holds.stop_lt (.cons hname hread hrest) hle
    rw [dataSize_cons] at hle
    have hlength := hrest.length_eq
    cases records with
    | nil =>
      obtain rfl := List.length_eq_zero_iff.mp hlength.symm
      exact .nil hstop
    | cons older records =>
      cases entries with
      | nil => cases hlength
      | cons oldest entries => exact .cons hname hread (ih (by omega))

theorem get (h : Holds arena stop records entries) (hle : dataSize entries ≤ arena.length)
    {index : ℕ} (hrecord : records[index]? = some record) (hentry : entries[index]? = some entry) :
    (Slotted.slot record).nameLen = entry.name.length ∧
      Circular.read arena (Slotted.slot record).start entry.data.length = entry.data ∧
      (Slotted.slot record).start < max arena.length 1 ∧
      (index = 0 → Circular.cell arena.length (Slotted.slot record).start entry.data.length = stop) ∧
      ∀ newer, index ≠ 0 → records[index - 1]? = some newer →
        Circular.cell arena.length (Slotted.slot record).start entry.data.length =
          (Slotted.slot newer).start := by
  induction h generalizing index with
  | nil => cases hrecord
  | @cons first records newest entries hname hread hrest ih =>
    rw [dataSize_cons] at hle
    cases index with
    | zero =>
      obtain rfl := Option.some.inj hrecord
      obtain rfl := Option.some.inj hentry
      exact ⟨hname, hread, hrest.stop_lt (by omega), fun _ => rfl, fun _ hne => absurd rfl hne⟩
    | succ index =>
      obtain ⟨hname', hread', hstart, hzero, hnewer⟩ := ih (by omega) hrecord hentry
      refine ⟨hname', hread', hstart, nofun, fun newer _ hget => ?_⟩
      rw [Nat.add_sub_cancel] at hget
      cases index with
      | zero =>
        obtain rfl := Option.some.inj hget
        exact hzero rfl
      | succ index => exact hnewer newer (Nat.succ_ne_zero index) hget

/-- The newer entries are between the entry at an index and the end of them all. -/
theorem behind (h : Holds arena stop records entries) (hle : dataSize entries ≤ arena.length)
    {index : ℕ} (hrecord : records[index]? = some record) (hentry : entries[index]? = some entry) :
    ∃ between, stop = Circular.cell arena.length (Slotted.slot record).start
        (entry.data.length + between) ∧ entry.data.length + between ≤ dataSize entries := by
  induction h generalizing index with
  | nil => cases hrecord
  | @cons first records newest entries hname hread hrest ih =>
    rw [dataSize_cons] at hle
    cases index with
    | zero =>
      obtain rfl := Option.some.inj hrecord
      obtain rfl := Option.some.inj hentry
      exact ⟨0, rfl, by rw [dataSize_cons]; omega⟩
    | succ index =>
      obtain ⟨between, hbetween, hsum⟩ := ih (by omega) hrecord hentry
      have hstart := (hrest.get (by omega) hrecord hentry).2.2.1
      refine ⟨between + newest.data.length, ?_, ?_⟩
      · rw [hbetween, Circular.cell_cell hstart (by omega), Nat.add_assoc]
      · rw [dataSize_cons]
        omega

end Holds

end Holds

namespace Store

section Represents

variable {R I : Type} [Slotted R] [Kind R I]

/-- A store holds some entries, newest first, by some records. -/
structure Represents (store : Store R I) (arenas : ℕ) (records : List R) (entries : List Entry) :
    Prop where
  planned : store.layout.Planned arenas
  arena_length : store.arena.length = store.layout.arenaLen
  ledger_length : store.ledger.length = store.layout.capacity / entryOverhead
  front_lt : store.entries.front < store.layout.period
  len_eq : store.entries.len = entries.length
  record_at : ∀ index record, records[index]? = some record →
    store.ledger[Circular.cell store.layout.period store.entries.front index]? = some record
  size_eq : store.entries.size = totalSize entries
  size_le : totalSize entries ≤ store.layout.capacity
  limit_le : store.entries.limit ≤ store.layout.capacity
  holds : Holds store.arena store.entries.tail records entries

theorem represents_new {layout : Layout} {arenas : ℕ} (hlayout : layout.Planned arenas) (limit : ℕ)
    (zero : R) (index : I) : (new layout limit zero index).Represents arenas [] [] where
  planned := hlayout
  arena_length := by simp [new]
  ledger_length := by simp [new]
  front_lt := by
    simp only [new, hlayout.period_eq]
    omega
  len_eq := rfl
  record_at := by
    intro index record hrecord
    cases hrecord
  size_eq := rfl
  size_le := Nat.zero_le _
  limit_le := Nat.min_le_right limit layout.capacity
  holds := .nil (by simp only [new]; omega)

namespace Represents

variable {store : Store R I} {arenas : ℕ} {records : List R} {entries : List Entry}

theorem records_length (h : store.Represents arenas records entries) :
    records.length = store.entries.len := by
  rw [h.holds.length_eq, h.len_eq]

/-- One arena has room for the bytes of all entries, which are fewer for every entry more. -/
theorem dataSize_le (h : store.Represents arenas records entries) :
    dataSize entries + entryOverhead * entries.length ≤ store.layout.capacity := by
  have hsize := h.size_le
  rwa [totalSize_eq] at hsize

theorem arena_ge (h : store.Represents arenas records entries) :
    store.layout.capacity - entryOverhead ≤ store.arena.length := by
  rw [h.arena_length, h.planned.arenaLen_eq]
  exact Nat.le_mul_of_pos_right _ h.planned.arenas_pos

theorem data_le (h : store.Represents arenas records entries) :
    dataSize entries ≤ store.arena.length := by
  have hdata := h.dataSize_le
  have harena := h.arena_ge
  cases entries with
  | nil => exact Nat.zero_le _
  | cons entry entries =>
    rw [List.length_cons, Nat.mul_succ] at hdata
    omega

theorem tail_lt (h : store.Represents arenas records entries) :
    store.entries.tail < max store.arena.length 1 :=
  h.holds.stop_lt h.data_le

theorem len_le (h : store.Represents arenas records entries) :
    store.entries.len ≤ store.layout.period := by
  have hdata := h.dataSize_le
  rw [h.len_eq, h.planned.period_eq]
  simp only [entryOverhead] at hdata ⊢
  omega

theorem physical_eq (h : store.Represents arenas records entries) {index : ℕ}
    (hindex : index < store.entries.len) :
    store.physical index =
      some (Circular.cell store.layout.period store.entries.front index) := by
  have hlen := h.len_le
  rw [physical, if_neg (by omega), Arena.position_eq h.front_lt]

theorem record_eq (h : store.Represents arenas records entries) (index : ℕ) :
    store.record index = records[index]? := by
  unfold Store.record
  by_cases hindex : index < store.entries.len
  · have hlt : index < records.length := by rwa [h.records_length]
    have hget : records[index]? = some records[index] := List.getElem?_eq_getElem hlt
    rw [h.physical_eq hindex, Option.bind_some, hget, h.record_at index _ hget]
  · rw [physical, if_pos (by omega), Option.bind_none,
      List.getElem?_eq_none (by rw [h.records_length]; omega)]

/-- The distance between the ends of an entry is its length, or the entry is the only one and fills
the ring. -/
theorem distance_eq (h : store.Represents arenas records entries) {index start : ℕ} {entry : Entry}
    (hentry : entries[index]? = some entry) (hstart : start < max store.arena.length 1) :
    Arena.distance start (Circular.cell store.arena.length start entry.data.length)
        store.layout.arenaLen = entry.data.length ∨
      Arena.distance start (Circular.cell store.arena.length start entry.data.length)
        store.layout.arenaLen = 0 ∧ entries = [entry] := by
  rw [Arena.distance_eq, ← h.arena_length]
  have hdata := h.dataSize_le
  have harena := h.arena_ge
  have hmem := List.mem_of_getElem? hentry
  have hle : entry.data.length ≤ dataSize entries :=
    List.single_le_sum (by simp) _ (List.mem_map_of_mem hmem)
  have hpos := List.length_pos_of_mem hmem
  simp only [entryOverhead] at hdata harena
  by_cases hfull : entry.data.length < store.arena.length
  · exact .inl (Circular.distance_cell (by omega) hfull)
  · -- Only a single entry leaves no byte of an arena.
    have hsame : entry.data.length = store.arena.length := by omega
    have hself : Circular.cell store.arena.length start entry.data.length = start := by
      rw [hsame]
      unfold Circular.cell
      split <;> omega
    rw [hself, Circular.distance_self]
    by_cases hzero : store.arena.length = 0
    · exact .inl (by omega)
    · have hone : entries.length = 1 := by omega
      obtain ⟨only, rfl⟩ := List.length_eq_one_iff.mp hone
      obtain rfl := List.mem_singleton.mp hmem
      exact .inr ⟨rfl, rfl⟩

theorem dataLen_eq (h : store.Represents arenas records entries) {index start : ℕ} {entry : Entry}
    (hentry : entries[index]? = some entry) (hstart : start < max store.arena.length 1) :
    (if Arena.distance start (Circular.cell store.arena.length start entry.data.length)
        store.layout.arenaLen = 0 ∧ store.entries.len = 1 then store.entries.size - entryOverhead
      else Arena.distance start (Circular.cell store.arena.length start entry.data.length)
        store.layout.arenaLen) = entry.data.length := by
  rcases h.distance_eq hentry hstart with hdistance | ⟨hdistance, hsingle⟩
  · rw [hdistance]
    split
    · next hcase =>
      rw [h.size_eq]
      -- The only entry has no data.
      obtain ⟨only, hsingle⟩ := List.length_eq_one_iff.mp (h.len_eq.symm.trans hcase.2)
      rw [hsingle] at hentry
      have honly : entry = only := List.mem_singleton.mp (List.mem_of_getElem? hentry)
      rw [hsingle, totalSize_cons, totalSize_nil, Entry.size_eq, ← honly, hcase.1]
      rfl
    · rfl
  · rw [hdistance, if_pos, h.size_eq, hsingle, totalSize_cons, totalSize_nil, Entry.size_eq]
    · simp
    · rw [h.len_eq, hsingle]
      simp

theorem stored_eq (h : store.Represents arenas records entries) {index : ℕ} {entry : Entry}
    {record : R} (hentry : entries[index]? = some entry) (hrecord : records[index]? = some record) :
    (⟨Arena.stored store.arena (Slotted.slot record).start (Slotted.slot record).nameLen,
      Arena.stored store.arena (Arena.advance store.arena (Slotted.slot record).start
        (Slotted.slot record).nameLen) (entry.data.length - (Slotted.slot record).nameLen)⟩ :
      Entry) = entry := by
  obtain ⟨hname, hread, hstart, -⟩ := h.holds.get h.data_le hrecord hentry
  have hle : entry.data.length ≤ store.arena.length := by
    have hmem : entry.data.length ≤ dataSize entries :=
      List.single_le_sum (by simp) _ (List.mem_map_of_mem (List.mem_of_getElem? hentry))
    exact hmem.trans h.data_le
  have hdata : entry.data.length = entry.name.length + entry.value.length := by
    rw [Entry.data, List.length_append]
  rw [hname, Arena.stored_eq, Arena.stored_eq, Arena.advance_eq hstart (by omega)]
  have hvalue : entry.data.length - entry.name.length = entry.value.length := by omega
  rw [hdata, Circular.read_add hstart (by omega), Entry.data] at hread
  obtain ⟨hfirst, hsecond⟩ := List.append_inj hread
    (by rw [Circular.length_read (by omega) (by omega)])
  rw [hvalue, hfirst, hsecond]

/-- A lookup finds the entry at an index, its record, and the length of its data. -/
theorem tryEntry_eq (h : store.Represents arenas records entries) {index : ℕ} {entry : Entry}
    {record : R} (hentry : entries[index]? = some entry) (hrecord : records[index]? = some record) :
    store.tryEntry index = some (entry, record, entry.data.length) := by
  obtain ⟨hlt, -⟩ := List.getElem?_eq_some_iff.mp hentry
  have hindex : index < store.entries.len := by rwa [h.len_eq]
  obtain ⟨hname, -, hstart, hzero, hnewer⟩ := h.holds.get h.data_le hrecord hentry
  have hle : entry.data.length ≤ store.arena.length := by
    have hmem : entry.data.length ≤ dataSize entries :=
      List.single_le_sum (by simp) _ (List.mem_map_of_mem (List.mem_of_getElem? hentry))
    exact hmem.trans h.data_le
  -- Where the entry stops, as the view finds it.
  have hstop : store.stop index =
      some (Circular.cell store.arena.length (Slotted.slot record).start entry.data.length) := by
    unfold Store.stop
    by_cases hfirst : index = 0
    · rw [if_pos hfirst, hzero hfirst]
    · have hlength := h.records_length
      have hbefore : index - 1 < records.length := by omega
      have hget : records[index - 1]? = some records[index - 1] := List.getElem?_eq_getElem hbefore
      rw [if_neg hfirst, h.physical_eq (by omega), Option.bind_some, h.record_at _ _ hget,
        Option.map_some, hnewer _ hfirst hget]
  have hlast := Circular.cell_lt hstart hle
  have hsize : store.size index (Slotted.slot record) = some entry.data.length := by
    have hlen := h.dataLen_eq hentry hstart
    unfold Store.size
    rw [hstop, Option.bind_eq_bind, Option.bind_some, if_neg (by omega)]
    simp only
    split_ifs at hlen ⊢ <;> first | omega | rw [hlen]
  have hdata : entry.data.length = entry.name.length + entry.value.length := by
    rw [Entry.data, List.length_append]
  have hfield := h.stored_eq hentry hrecord
  unfold Store.tryEntry
  rw [h.physical_eq hindex, Option.bind_eq_bind, Option.bind_some, h.record_at index _ hrecord,
    Option.bind_eq_bind, Option.bind_some]
  simp only
  rw [hsize, Option.bind_some, if_neg (by omega), hfield]

theorem field_eq (h : store.Represents arenas records entries) (index : ℕ) :
    store.field index = entries[index]? := by
  unfold Store.field
  by_cases hindex : index < entries.length
  · have hentry : entries[index]? = some entries[index] := List.getElem?_eq_getElem hindex
    have hlt : index < records.length := by rwa [h.holds.length_eq]
    have hrecord : records[index]? = some records[index] := List.getElem?_eq_getElem hlt
    rw [h.tryEntry_eq hentry hrecord, hentry, Option.map_some]
  · have hphysical : store.physical index = none := by
      rw [physical, if_pos (by rw [h.len_eq]; omega)]
    rw [tryEntry, hphysical, List.getElem?_eq_none (by omega)]
    rfl

/-! ### Eviction -/

theorem totalSize_dropLast_add (entries : List Entry) (entry : Entry) :
    totalSize (entries ++ [entry]) = totalSize entries + entry.size := by
  simp [totalSize]

/-- What removing the oldest entry does. -/
theorem popLast_spec (h : store.Represents arenas records entries) {record : R}
    (hrecord : records[entries.length - 1]? = some record) :
    store.popLast.Represents arenas records.dropLast entries.dropLast ∧
      store.popLast.entries.limit = store.entries.limit ∧
      store.popLast.layout = store.layout ∧ store.popLast.ledger = store.ledger ∧
      store.popLast.arena = store.arena ∧
      store.popLast.index = Kind.remove store.index record
        (Circular.cell store.layout.period store.entries.front (store.entries.len - 1)) ∧
      (entries.dropLast ≠ [] → store.popLast.entries.tail = store.entries.tail ∧
        store.popLast.entries.front = store.entries.front) := by
  have hlen := h.len_eq
  have hlength := h.records_length
  obtain ⟨hlast, -⟩ := List.getElem?_eq_some_iff.mp hrecord
  have hpos : entries.length ≠ 0 := by
    intro hzero
    omega
  have hlelen := h.len_le
  obtain ⟨older, oldest, rfl⟩ : ∃ older oldest, entries = older ++ [oldest] :=
    ⟨entries.dropLast, entries.getLast (by simpa using hpos),
      (List.dropLast_append_getLast _).symm⟩
  rw [List.length_append, List.length_singleton, Nat.add_sub_cancel] at hrecord
  rw [List.length_append, List.length_singleton] at hlen
  have hlen' : store.entries.len - 1 = older.length := by omega
  have hentry : (older ++ [oldest])[older.length]? = some oldest := by simp
  obtain ⟨hname, hread, hstart, hzero, hnewer⟩ := h.holds.get h.data_le hrecord hentry
  -- Where the oldest entry stops.
  have hstop : (if older.length = 0 then store.entries.tail
      else
        match store.ledger[Arena.position store.layout.period store.entries.front
          (older.length - 1)]? with
        | none => store.entries.tail
        | some newer => (Slotted.slot newer).start) =
      Circular.cell store.arena.length (Slotted.slot record).start oldest.data.length := by
    by_cases hfirst : older.length = 0
    · rw [if_pos hfirst, hzero hfirst]
    · have hbefore : older.length - 1 < records.length := by omega
      have hget : records[older.length - 1]? = some records[older.length - 1] :=
        List.getElem?_eq_getElem hbefore
      rw [if_neg hfirst, Arena.position_eq h.front_lt, h.record_at _ _ hget]
      exact (hnewer _ hfirst hget).symm
  have hold := h.record_at _ _ hrecord
  have hpop : store.popLast = { store with
      entries := ({ store.entries with
        len := older.length, size := totalSize older } : Entries).reset
      index := Kind.remove store.index record
        (Circular.cell store.layout.period store.entries.front older.length) } := by
    unfold Store.popLast
    simp only [hlen']
    rw [Arena.position_eq h.front_lt, hold]
    simp only
    rw [hstop, h.size_eq, totalSize_dropLast_add, Entry.size_eq]
    have hsize : (if Arena.distance (Slotted.slot record).start
        (Circular.cell store.arena.length (Slotted.slot record).start oldest.data.length)
        store.layout.arenaLen = 0 ∧ older.length = 0 then 0
        else totalSize older + (oldest.data.length + entryOverhead) - entryOverhead -
          Arena.distance (Slotted.slot record).start
            (Circular.cell store.arena.length (Slotted.slot record).start oldest.data.length)
            store.layout.arenaLen) = totalSize older := by
      rcases h.distance_eq hentry hstart with hdistance | ⟨hdistance, hsingle⟩
      · rw [hdistance]
        split
        · next hcase =>
          rw [List.length_eq_zero_iff.mp hcase.2, totalSize_nil]
        · omega
      · have hnil : older = [] := by
          cases older with
          | nil => rfl
          | cons first rest => simp at hsingle
        rw [hdistance, hnil]
        simp
    rw [hsize]
  have hdrop : (older ++ [oldest]).dropLast = older := List.dropLast_concat
  rw [hpop, hdrop, hlen']
  have hholds : Holds store.arena store.entries.tail records.dropLast older := by
    have hholds := h.holds.dropLast h.data_le
    rwa [hdrop] at hholds
  have htotal : totalSize older ≤ store.layout.capacity := by
    have hsize := h.size_le
    rw [totalSize_dropLast_add] at hsize
    omega
  have hrecords : ∀ index found, records.dropLast[index]? = some found →
      store.ledger[Circular.cell store.layout.period store.entries.front index]? = some found := by
    intro index found hfound
    have hmem := (List.getElem?_eq_some_iff.mp hfound).1
    rw [List.length_dropLast] at hmem
    rw [List.getElem?_dropLast, if_pos hmem] at hfound
    exact h.record_at index found hfound
  refine ⟨?_, ?_, rfl, rfl, rfl, rfl, fun hne => ?_⟩
  · unfold Entries.reset
    by_cases hnil : older.length = 0
    · -- The last entry is gone, so the ring begins at its beginning.
      obtain rfl := List.length_eq_zero_iff.mp hnil
      have hnone : records.dropLast = [] := List.length_eq_zero_iff.mp hholds.length_eq
      rw [hnone]
      rw [if_pos (by simp)]
      refine ⟨h.planned, h.arena_length, h.ledger_length, ?_, rfl, nofun, rfl, Nat.zero_le _,
        h.limit_le, .nil ?_⟩
      · have := h.front_lt
        simp only
        omega
      · simp only
        omega
    · rw [if_neg (by simpa using hnil)]
      exact ⟨h.planned, h.arena_length, h.ledger_length, h.front_lt, rfl, hrecords, rfl, htotal,
        h.limit_le, hholds⟩
  · unfold Entries.reset
    split <;> rfl
  · unfold Entries.reset
    rw [if_neg (by simpa using hne)]
    exact ⟨rfl, rfl⟩

theorem exists_oldest (h : store.Represents arenas records entries) (hne : entries ≠ []) :
    ∃ record, records[entries.length - 1]? = some record := by
  have hpos := List.length_pos_iff.mpr hne
  have hlt : entries.length - 1 < records.length := by
    rw [h.holds.length_eq]
    omega
  exact ⟨records[entries.length - 1], List.getElem?_eq_getElem hlt⟩

section Loops

/-- What holds of a store and its records, and goes on to hold when the oldest entry is removed. -/
def Kept (arenas : ℕ) (kept : Store R I → List R → Prop) : Prop :=
  ∀ (store : Store R I) (records : List R) (entries : List Entry),
    store.Represents arenas records entries → entries ≠ [] → kept store records →
    kept store.popLast records.dropLast

variable {kept : Store R I → List R → Prop}

/-- The loop that evicts down to the limit. -/
theorem trim (hkept : Kept arenas kept) (turns : ℕ)
    (h : store.Represents arenas records entries) (hstore : kept store records)
    (hturns : entries.length ≤ turns) :
    ∃ records', (store.trim turns).Represents arenas records'
        (evict (Table.overLimit store.entries.limit) entries) ∧
      (store.trim turns).entries.limit = store.entries.limit ∧
      (store.trim turns).layout = store.layout ∧ kept (store.trim turns) records' := by
  induction turns generalizing store records entries with
  | zero =>
    obtain rfl := List.length_eq_zero_iff.mp (Nat.le_zero.mp hturns)
    rw [evict, if_neg (by simp)]
    exact ⟨records, h, rfl, rfl, hstore⟩
  | succ turns ih =>
    unfold Store.trim
    rw [evict]
    by_cases hfull : entries ≠ [] ∧ Table.overLimit store.entries.limit entries = true
    · obtain ⟨hne, hover⟩ := hfull
      have hsize : store.entries.limit < store.entries.size := by
        rw [h.size_eq]
        simpa [Table.overLimit] using hover
      have hlen : store.entries.len ≠ 0 := by
        rw [h.len_eq]
        simpa using hne
      rw [if_neg (by omega), if_pos ⟨hne, hover⟩]
      obtain ⟨record, hrecord⟩ := h.exists_oldest hne
      obtain ⟨hpop, hlimit, hlayout, -⟩ := h.popLast_spec hrecord
      have hless : entries.dropLast.length ≤ turns := by
        rw [List.length_dropLast]
        omega
      obtain ⟨records', hrep, hlimit', hlayout', hrest⟩ :=
        ih hpop (hkept store records entries h hne hstore) hless
      rw [hlimit] at hrep hlimit'
      exact ⟨records', hrep, hlimit', hlayout'.trans hlayout, hrest⟩
    · have hstop : store.entries.len = 0 ∨ store.entries.size ≤ store.entries.limit := by
        by_cases hnil : entries = []
        · exact .inl (by rw [h.len_eq, hnil]; rfl)
        · refine .inr ?_
          rw [h.size_eq]
          simpa [Table.overLimit, hnil] using hfull
      rw [if_pos hstop, if_neg hfull]
      exact ⟨records, h, rfl, rfl, hstore⟩

/-- The loop that evicts for an entry. -/
theorem makeRoom (hkept : Kept arenas kept) (turns data : ℕ)
    (h : store.Represents arenas records entries) (hstore : kept store records)
    (hturns : entries.length ≤ turns) :
    ∃ records', (store.makeRoom data turns).Represents arenas records'
        (evict (Table.overFull store.entries.limit store.layout.period (data + entryOverhead))
          entries) ∧
      (store.makeRoom data turns).entries.limit = store.entries.limit ∧
      (store.makeRoom data turns).layout = store.layout ∧
      kept (store.makeRoom data turns) records' := by
  induction turns generalizing store records entries with
  | zero =>
    obtain rfl := List.length_eq_zero_iff.mp (Nat.le_zero.mp hturns)
    rw [evict, if_neg (by simp)]
    exact ⟨records, h, rfl, rfl, hstore⟩
  | succ turns ih =>
    unfold Store.makeRoom
    rw [evict]
    have hiff : (store.entries.len ≠ 0 ∧
        (store.entries.limit < store.entries.size + (data + entryOverhead) ∨
          store.layout.period ≤ store.entries.len)) ↔
        entries ≠ [] ∧ Table.overFull store.entries.limit store.layout.period
          (data + entryOverhead) entries = true := by
      rw [h.len_eq, h.size_eq]
      simp [Table.overFull]
    by_cases hfull : entries ≠ [] ∧ Table.overFull store.entries.limit store.layout.period
        (data + entryOverhead) entries = true
    · have hne := hfull.1
      rw [if_pos (hiff.mpr hfull), if_pos hfull]
      obtain ⟨record, hrecord⟩ := h.exists_oldest hne
      obtain ⟨hpop, hlimit, hlayout, -⟩ := h.popLast_spec hrecord
      have hless : entries.dropLast.length ≤ turns := by
        rw [List.length_dropLast]
        omega
      obtain ⟨records', hrep, hlimit', hlayout', hrest⟩ :=
        ih hpop (hkept store records entries h hne hstore) hless
      rw [hlimit, hlayout] at hrep
      exact ⟨records', hrep, hlimit'.trans hlimit, hlayout'.trans hlayout, hrest⟩
    · rw [if_neg fun hcase => hfull (hiff.mp hcase), if_neg hfull]
      exact ⟨records, h, rfl, rfl, hstore⟩

end Loops

/-! ### Insertion -/

theorem nextPhysical_lt (h : store.Represents arenas records entries) :
    store.nextPhysical < store.layout.period := by
  have hfront := h.front_lt
  unfold Store.nextPhysical
  split
  · omega
  split <;> omega

theorem cell_nextPhysical (h : store.Represents arenas records entries) {index : ℕ}
    (hindex : index < store.entries.len) (hlen : store.entries.len < store.layout.period) :
    Circular.cell store.layout.period store.nextPhysical (index + 1) =
      Circular.cell store.layout.period store.entries.front index := by
  have hfront := h.front_lt
  unfold Store.nextPhysical Circular.cell
  split
  · omega
  split <;> split <;> split <;> omega

/-- An entry whose bytes are in the ring where its record says, behind the other ones. -/
theorem push (h : store.Represents arenas records entries) {record : R} {entry : Entry}
    (hname : (Slotted.slot record).nameLen = entry.name.length)
    (hread : Circular.read store.arena (Slotted.slot record).start entry.data.length = entry.data)
    (hstart : (Slotted.slot record).start < max store.arena.length 1)
    (hbehind : entries ≠ [] → (Slotted.slot record).start = store.entries.tail)
    (hroom : totalSize (entry :: entries) ≤ store.layout.capacity) :
    (store.push record entry.data.length
        (Circular.cell store.arena.length (Slotted.slot record).start entry.data.length)).Represents
      arenas (record :: records) (entry :: entries) := by
  have hlen := h.len_eq
  have hnext := h.nextPhysical_lt
  have hcount : entryOverhead * (entries.length + 1) ≤ store.layout.capacity :=
    (entryOverhead_mul_length_le (entry :: entries)).trans hroom
  have hperiod := h.planned.period_eq
  simp only [entryOverhead] at hcount hperiod
  have hslots : store.entries.len < store.layout.capacity / 32 := by omega
  have hfree : store.entries.len < store.layout.period := by omega
  refine ⟨h.planned, h.arena_length, ?_, hnext, ?_, ?_, ?_, hroom, h.limit_le, ?_⟩
  · simp only [Store.push, List.length_set]
    exact h.ledger_length
  · simp only [Store.push, List.length_cons]
    omega
  · intro index found hfound
    simp only [Store.push]
    cases index with
    | zero =>
      obtain rfl := Option.some.inj hfound
      rw [Circular.cell_zero (by omega), List.getElem?_set_self]
      rw [h.ledger_length]
      simp only [entryOverhead]
      omega
    | succ index =>
      rw [List.getElem?_cons_succ] at hfound
      have hindex : index < store.entries.len := by
        rw [← h.records_length]
        exact (List.getElem?_eq_some_iff.mp hfound).1
      have hcell := h.cell_nextPhysical hindex hfree
      have hne : store.nextPhysical ≠
          Circular.cell store.layout.period store.nextPhysical (index + 1) := by
        unfold Circular.cell
        split <;> omega
      rw [List.getElem?_set_ne hne, hcell]
      exact h.record_at index found hfound
  · simp only [Store.push, totalSize_cons, Entry.size_eq, h.size_eq]
    omega
  · simp only [Store.push]
    refine .cons hname hread ?_
    by_cases hnil : entries = []
    · subst hnil
      obtain rfl := List.length_eq_zero_iff.mp h.holds.length_eq
      exact .nil hstart
    · rw [hbehind hnil]
      exact h.holds

theorem write (h : store.Represents arenas records entries) {target between : ℕ} {bytes : Bytes}
    (hturn : dataSize entries + between + bytes.length ≤ store.arena.length)
    (htarget : target = Circular.cell store.arena.length store.entries.tail between) :
    ({ store with arena := Circular.write store.arena target bytes } : Store R I).Represents arenas
      records entries := by
  have hlt : target < max store.arena.length 1 := by
    rw [htarget]
    exact Circular.cell_lt h.tail_lt (by omega)
  refine ⟨h.planned, ?_, h.ledger_length, h.front_lt, h.len_eq, h.record_at, h.size_eq, h.size_le,
    h.limit_le, h.holds.write hturn htarget (by omega)⟩
  simp only
  rw [Circular.length_write (by omega) (by omega), h.arena_length]

theorem clear (h : store.Represents arenas records entries) :
    store.clear.Represents arenas [] [] := by
  have hfront := h.front_lt
  refine ⟨h.planned, h.arena_length, h.ledger_length, ?_, rfl, nofun, rfl, Nat.zero_le _,
    h.limit_le, .nil ?_⟩
  · simp only [Store.clear, Entries.clear]
    omega
  · simp only [Store.clear, Entries.clear]
    omega

theorem setIndex (h : store.Represents arenas records entries) (index : I) :
    ({ store with index } : Store R I).Represents arenas records entries :=
  ⟨h.planned, h.arena_length, h.ledger_length, h.front_lt, h.len_eq, h.record_at, h.size_eq,
    h.size_le, h.limit_le, h.holds⟩

theorem setLimit (h : store.Represents arenas records entries) (limit : ℕ) :
    (store.setLimit limit).Represents arenas records entries :=
  ⟨h.planned, h.arena_length, h.ledger_length, h.front_lt, h.len_eq, h.record_at, h.size_eq,
    h.size_le, Nat.min_le_right _ _, h.holds⟩

end Represents

end Represents

end Store

end Sark.Compress
