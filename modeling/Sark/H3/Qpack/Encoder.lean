import Sark.H3.Qpack.Decoder

/-!
# The table of an encoder

The dynamic table of a QPACK encoder over a run (`h3/src/qpack/encoder/`): the peer's settings allow
a capacity, a capacity is planned and set, and field sections insert entries in transactions, which
are committed or not.

* `Session.run_kept`: what is kept over any run.
* `Session.capacity_planning`: the check of a capacity agrees with what setting it evicts, and a
  reference is resolved to the live entry with its absolute index.
-/

namespace Sark.Qpack

open Compress (Direct Entry Index Record Seed Layout entryOverhead evict)
open Compress.Delta (Buffer Draft Fault Ending Position)
open Metadata (PrefixedInt.encodedLen)

/-- `Reference::from_count`, of a count that is not zero. -/
def Reference.ofCount (count : ℕ) : Option Reference :=
  if h : 0 < count then some ⟨count, h⟩ else none

/-- `Reference::new`. -/
def Reference.new (absolute : ℕ) : Option Reference :=
  (checkedAdd 1 absolute).bind ofCount

theorem Reference.count_of_new {absolute : ℕ} {index : Reference}
    (h : Reference.new absolute = some index) :
    index.count = absolute + 1 ∧ index.count < 2 ^ 64 := by
  obtain ⟨count, hcount, hindex⟩ := Option.bind_eq_some_iff.mp h
  rw [checkedAdd] at hcount
  split_ifs at hcount with hlt
  obtain rfl := Option.some.inj hcount
  rw [Reference.ofCount] at hindex
  split_ifs at hindex
  obtain rfl := Option.some.inj hindex
  exact ⟨Nat.add_comm 1 absolute, hlt⟩

namespace Encoder

open Dynamics (Core View CapacityError ReferenceError answer)

/-- `dynamics::Table<mode::Direct>`. -/
structure Table (D : Type) where
  entries : Direct D
  core : Core

/-- `encoder::Delta`, less the range of its counts. -/
structure Delta (D E : Type) where
  base : ℕ
  next : ℕ
  floor : ℕ
  wireLen : ℕ
  inner : Draft D E

variable {D E : Type} [Directory D] [Directory E]

namespace Table

/-- `Table::view`. -/
def view (self : Table D) : View Record (Index D) :=
  ⟨self.entries.store, self.core⟩

/-- `Table::try_new`, of a layout that is planned. -/
def tryNew (layout : Layout) (seed : Seed) (index : Index D) (max : ℕ) : Table D :=
  ⟨.new layout max seed index, ⟨min max layout.capacity, 0⟩⟩

/-- `Table::allow`. -/
def allow (self : Table D) (maximum : ℕ) : Table D :=
  { self with core := { self.core with maxCapacity := maximum } }

/-- `Table::maximum`. -/
def maximum (self : Table D) : ℕ :=
  self.core.maximum self.entries.store.layout.capacity

/-- `Table::check_floor`. -/
def checkFloor (self : Table D) (capacity floor : ℕ) : Except CapacityError Unit :=
  self.view.checkFloor capacity floor

/-- `Table::set_limit`. -/
def setLimit (self : Table D) (capacity : ℕ) : Table D :=
  { self with entries := self.entries.setLimit capacity }

end Table

namespace Delta

/-- `Delta::try_new`. A buffer for other bounds is not used again. -/
def tryNew (fresh : ℕ → Index E) (table : Table D) (floor : ℕ) (buffer : Option (Buffer E)) :
    Option (Delta D E) :=
  let bytes := table.entries.store.entries.limit
  let entries := bytes / entryOverhead
  let staged :=
    match buffer with
    | none => Buffer.tryNew bytes entries (fresh entries)
    | some staged =>
      if staged.bytes = bytes ∧ staged.entries = entries then some staged
      else Buffer.tryNew bytes entries (fresh entries)
  staged.map fun staged =>
    { base := table.core.insertCount
      next := table.core.insertCount
      floor
      wireLen := 0
      inner := .new table.entries staged }

/-- `Delta::reference`. -/
def reference (base : ℕ) : Position → Option Reference
  | .base relative => (Fallible.sub base relative).bind Reference.ofCount
  | .staged ordinal => (checkedAdd base ordinal).bind Reference.new

/-- What an insertion adds to the length of the instructions. -/
def wire (self : Delta D E) (field : Entry) : Option ℕ := do
  let len ← checkedAdd (PrefixedInt.encodedLen 5 field.name.length) field.name.length
  let len ← checkedAdd len (PrefixedInt.encodedLen 7 field.value.length)
  let len ← checkedAdd len field.value.length
  checkedAdd self.wireLen len

/-- `Query::try_insert`. A field that does not fit is not inserted, which is not an error. -/
def tryInsert (self : Delta D E) (field : Entry) : Except Fault (Delta D E) :=
  match Reference.new self.next with
  | none => .ok self
  | some index =>
    match self.wire field with
    | none => .ok self
    | some wireLen =>
      match self.inner.tryAdmit field fun position =>
          (reference self.base position).any (·.absolute < self.floor) with
      | .ok inner => .ok { self with inner, next := index.count, wireLen }
      | .error (.failure (.fault cause)) => .error cause
      | .error _ => .ok self

/-- `Delta::protect`. -/
def protect (self : Delta D E) (index : Reference) : Delta D E :=
  { self with floor := min self.floor index.absolute }

/-- What a section does with its transaction. -/
inductive Op
  | insert (field : Entry)
  | protect (index : Reference)

/-- One operation. -/
def apply (self : Delta D E) : Op → Except Fault (Delta D E)
  | .insert field => self.tryInsert field
  | .protect index => .ok (self.protect index)

/-- The operations of a section, up to one that fails. -/
def run (self : Delta D E) : List Op → Delta D E × Option Fault
  | [] => (self, none)
  | op :: ops =>
    match self.apply op with
    | .ok next => next.run ops
    | .error cause => (self, some cause)

/-- The entries that were inserted, oldest first. -/
def inserted (self : Delta D E) : List Entry :=
  self.inner.pending.records.map self.inner.pending.fieldOf

end Delta

/-! ## Runs -/

/-- A table, the buffer that is kept for the next transaction, and all insertions that were
committed. -/
structure Session (D E : Type) where
  table : Table D
  staged : Option (Buffer E)
  history : List Entry

/-- What happens to a table: the settings of the peer, a capacity that is planned over a floor and
committed, and a field section. -/
inductive Step
  | allow (maximum : ℕ)
  | limit (capacity floor : ℕ)
  | fieldSection (floor : ℕ) (ops : List Delta.Op) (ending : Ending)

namespace Session

/-- A new table. -/
def new (layout : Layout) (seed : Seed) (index : Index D) (max : ℕ) : Session D E :=
  ⟨.tryNew layout seed index max, none, []⟩

/-- How a section ends. One that has failed is rolled back; a transaction that is dropped leaves its
buffer as it is. -/
def finish (self : Session D E) (delta : Delta D E) (ending : Ending) : Session D E :=
  match ending with
  | .commit =>
    ⟨⟨delta.inner.commit.1, self.table.core.commit delta.next⟩, some delta.inner.commit.2,
      self.history ++ delta.inserted⟩
  | .rollback =>
    { self with
      table := { self.table with entries := delta.inner.rollback.1 }
      staged := some delta.inner.rollback.2 }
  | .drop =>
    { self with
      table := { self.table with entries := delta.inner.table }
      staged := some delta.inner.pending }

/-- One step. -/
def step (fresh : ℕ → Index E) (self : Session D E) : Step → Session D E
  | .allow maximum => { self with table := self.table.allow maximum }
  | .limit capacity floor =>
    match self.table.checkFloor capacity floor with
    | .ok _ => { self with table := self.table.setLimit capacity }
    | .error _ => self
  | .fieldSection floor ops ending =>
    match Delta.tryNew fresh self.table floor self.staged with
    | none => { self with staged := none }
    | some delta =>
      match delta.run ops with
      | (delta, none) => self.finish delta ending
      | (delta, some _) => self.finish delta .rollback

/-- A run. -/
def run (fresh : ℕ → Index E) (self : Session D E) (steps : List Step) : Session D E :=
  steps.foldl (step fresh) self

end Session

/-! ## What a section keeps -/

section Kept

open Compress.Delta.Draft (drafts_new)
open Compress.Delta.Buffer (holds_tryNew)

variable {keys : D → ℕ → Option ℕ} {keys' : E → ℕ → Option ℕ} {fresh : ℕ → Index E}
  {records : List Record} {queue : Compress.Table} {fields : List Entry}

/-- The queue that a transaction shows, and how many entries it has inserted. -/
structure Delta.Drafts (keys : D → ℕ → Option ℕ) (keys' : E → ℕ → Option ℕ) (table : Table D)
    (records : List Record) (queue : Compress.Table) (delta : Delta D E) (fields : List Entry) :
    Prop where
  drafts : delta.inner.Drafts keys keys' records queue fields
  table_eq : delta.inner.table = table.entries
  next_eq : delta.next = table.core.insertCount + fields.length
  next_lt : delta.next < 2 ^ 64

/-- The buffer that is kept holds some entries. -/
def Holds (keys' : E → ℕ → Option ℕ) (seed : Seed) (staged : Option (Buffer E)) : Prop :=
  ∀ buffer ∈ staged, ∃ fields, buffer.Holds keys' seed fields

/-- A new index has no members. -/
def Empties (keys' : E → ℕ → Option ℕ) (fresh : ℕ → Index E) : Prop :=
  ∀ entries ordinal, keys' (fresh entries).name ordinal = none ∧
    keys' (fresh entries).exact ordinal = none

theorem Delta.drafts_tryNew {table : Table D} {floor : ℕ} {staged : Option (Buffer E)}
    {delta : Delta D E} (hlawful' : ∀ count, Directory.Lawful E count keys')
    (hempties : Empties keys' fresh) (h : table.entries.Tracks keys records queue)
    (hlt : table.core.insertCount < 2 ^ 64) (hholds : Holds keys' table.entries.seed staged)
    (hdelta : Delta.tryNew fresh table floor staged = some delta) :
    delta.Drafts keys keys' table records queue [] := by
  obtain ⟨buffer, hbuffer, rfl⟩ := Option.map_eq_some_iff.mp hdelta
  have hnew : ∀ {bytes entries buffer}, Buffer.tryNew bytes entries (fresh entries) = some buffer →
      ∃ fields, buffer.Holds keys' table.entries.seed fields := fun hnew =>
    ⟨[], (holds_tryNew hnew (hempties _)).1⟩
  obtain ⟨fields, hfields⟩ : ∃ fields, buffer.Holds keys' table.entries.seed fields := by
    cases staged with
    | none => exact hnew hbuffer
    | some kept =>
      dsimp only at hbuffer
      split at hbuffer
      · obtain rfl := Option.some.inj hbuffer
        exact hholds _ rfl
      · exact hnew hbuffer
  exact ⟨drafts_new (hlawful' _) h hfields, rfl, rfl, hlt⟩

theorem Delta.Drafts.tryInsert {table : Table D} {delta next : Delta D E}
    (hlawful' : ∀ count, Directory.Lawful E count keys')
    (h : delta.Drafts keys keys' table records queue fields) {field : Entry}
    (hnext : delta.tryInsert field = .ok next) :
    ∃ fields', next.Drafts keys keys' table records queue fields' := by
  rw [Delta.tryInsert] at hnext
  split at hnext
  next =>
    obtain rfl := Except.ok.inj hnext
    exact ⟨fields, h⟩
  next index hindex =>
    split at hnext
    next =>
      obtain rfl := Except.ok.inj hnext
      exact ⟨fields, h⟩
    next wireLen hwire =>
      split at hnext
      next inner hinner =>
        obtain rfl := Except.ok.inj hnext
        obtain ⟨hdrafts, htable, -⟩ := h.drafts.insertWith (hlawful' _) hinner
        obtain ⟨hcount, hlt⟩ := Reference.count_of_new hindex
        have hlength := h.next_eq
        refine ⟨fields ++ [field], hdrafts, htable.trans h.table_eq, ?_, hlt⟩
        rw [List.length_append, List.length_singleton]
        dsimp only
        omega
      next => exact absurd hnext (by simp)
      next =>
        obtain rfl := Except.ok.inj hnext
        exact ⟨fields, h⟩

theorem Delta.Drafts.run {table : Table D} {delta : Delta D E}
    (hlawful' : ∀ count, Directory.Lawful E count keys')
    (h : delta.Drafts keys keys' table records queue fields) (ops : List Delta.Op) :
    ∃ fields', (delta.run ops).1.Drafts keys keys' table records queue fields' := by
  induction ops generalizing delta fields with
  | nil => exact ⟨fields, h⟩
  | cons op ops ih =>
    rw [Delta.run]
    split
    next next hnext =>
      cases op with
      | insert field =>
        obtain ⟨fields', hfields⟩ := h.tryInsert hlawful' hnext
        exact ih hfields
      | protect index =>
        obtain rfl := Except.ok.inj hnext
        exact ih ⟨h.drafts, h.table_eq, h.next_eq, h.next_lt⟩
    next cause hcause => exact ⟨fields, h⟩

omit [Directory D] [Directory E] in
theorem Delta.Drafts.inserted_eq {table : Table D} {delta : Delta D E}
    (h : delta.Drafts keys keys' table records queue fields) : delta.inserted = fields := by
  have hstores := h.drafts.holds.stores
  rw [Delta.inserted]
  generalize delta.inner.pending.records = pending at hstores
  clear h
  induction hstores with
  | nil => rfl
  | cons hstore _ ih => rw [List.map_cons, hstore.field, ih]

theorem foldl_insert_isPrefix (queue : Compress.Table) (fields : List Entry) :
    (fields.foldl Compress.Table.insert queue).entries <+: fields.reverse ++ queue.entries := by
  induction fields generalizing queue with
  | nil => exact List.prefix_refl _
  | cons field fields ih =>
    rw [List.foldl_cons, List.reverse_cons, List.append_assoc, List.singleton_append]
    exact (ih _).trans ((List.prefix_append_right_inj _).mpr (Dynamics.insert_isPrefix queue field))

/-- The entries of a table are the newest of all insertions, and every one of these is counted. -/
structure Session.Kept (keys : D → ℕ → Option ℕ) (keys' : E → ℕ → Option ℕ) (capacity : ℕ)
    (session : Session D E) : Prop where
  tracks : ∃ records queue, session.table.entries.Tracks keys records queue ∧
    queue.capacity = capacity ∧ queue.entries <+: session.history.reverse
  count_eq : session.table.core.insertCount = session.history.length
  count_lt : session.table.core.insertCount < 2 ^ 64
  holds : Holds keys' session.table.entries.seed session.staged

variable {capacity : ℕ} {session : Session D E}

/-- What is kept when a section ends. -/
theorem Session.Kept.finish (hlawful : Directory.Lawful D (capacity / entryOverhead) keys)
    (hlawful' : ∀ count, Directory.Lawful E count keys')
    (h : session.Kept keys keys' capacity) {delta : Delta D E}
    (hcapacity : queue.capacity = capacity) (hnewest : queue.entries <+: session.history.reverse)
    (hdelta : delta.Drafts keys keys' session.table records queue fields) (ending : Ending) :
    (session.finish delta ending).Kept keys keys' capacity := by
  have hdrafts := hdelta.drafts
  have htracks := hdrafts.tracks
  have hcount := h.count_eq
  cases ending with
  | commit =>
    obtain ⟨records', hcommit, hseed⟩ := hdrafts.commit hlawful (hcapacity ▸ le_rfl)
    have hinserted := hdelta.inserted_eq
    refine ⟨⟨records', _, hcommit,
      (Draft.foldl_insert_capacity queue fields).trans hcapacity, ?_⟩, ?_, hdelta.next_lt, ?_⟩
    · show _ <+: (session.history ++ delta.inserted).reverse
      rw [hinserted, List.reverse_append]
      exact (foldl_insert_isPrefix queue fields).trans
        ((List.prefix_append_right_inj _).mpr hnewest)
    · show delta.next = (session.history ++ delta.inserted).length
      rw [hinserted, List.length_append, hdelta.next_eq, hcount]
    · rintro buffer hbuffer
      obtain rfl := Option.some.inj hbuffer
      refine ⟨fields, ?_⟩
      show delta.inner.pending.Holds keys' delta.inner.commit.1.seed fields
      rw [hseed]
      exact hdrafts.holds
  | rollback =>
    refine ⟨⟨records, queue, htracks, hcapacity, hnewest⟩, hcount, h.count_lt, ?_⟩
    rintro buffer hbuffer
    obtain rfl := Option.some.inj hbuffer
    exact ⟨[], (hdrafts.holds.clear (hlawful' _)).1⟩
  | drop =>
    refine ⟨⟨records, queue, htracks, hcapacity, hnewest⟩, hcount, h.count_lt, ?_⟩
    rintro buffer hbuffer
    obtain rfl := Option.some.inj hbuffer
    exact ⟨fields, hdrafts.holds⟩

theorem Session.Kept.step (hlawful : Directory.Lawful D (capacity / entryOverhead) keys)
    (hlawful' : ∀ count, Directory.Lawful E count keys') (hempties : Empties keys' fresh)
    (h : session.Kept keys keys' capacity) (step : Step) :
    (session.step fresh step).Kept keys keys' capacity := by
  obtain ⟨records, queue, htracks, hcapacity, hnewest⟩ := h.tracks
  cases step with
  | allow maximum => exact ⟨h.tracks, h.count_eq, h.count_lt, h.holds⟩
  | limit limit floor =>
    rw [Session.step]
    split
    next =>
      obtain ⟨records', hnext⟩ := htracks.setLimit hlawful limit
      exact ⟨⟨records', _, hnext, hcapacity, (Compress.evict_isPrefix _).trans hnewest⟩,
        h.count_eq, h.count_lt, h.holds⟩
    next => exact h
  | fieldSection floor ops ending =>
    rw [Session.step]
    split
    next => exact ⟨h.tracks, h.count_eq, h.count_lt, nofun⟩
    next delta hdelta =>
      have hnew := Delta.drafts_tryNew hlawful' hempties htracks h.count_lt h.holds hdelta
      obtain ⟨fields, hfields⟩ := hnew.run hlawful' ops
      split
      next next hrun =>
        rw [hrun] at hfields
        exact h.finish hlawful hlawful' hcapacity hnewest hfields ending
      next next cause hrun =>
        rw [hrun] at hfields
        exact h.finish hlawful hlawful' hcapacity hnewest hfields .rollback

/-- What is kept over a run. -/
theorem Session.run_kept (hlawful : Directory.Lawful D (capacity / entryOverhead) keys)
    (hlawful' : ∀ count, Directory.Lawful E count keys') (hempties : Empties keys' fresh)
    (h : session.Kept keys keys' capacity) (steps : List Step) :
    (session.run fresh steps).Kept keys keys' capacity := by
  induction steps generalizing session with
  | nil => exact h
  | cons step steps ih => exact ih (h.step hlawful hlawful' hempties step)

theorem Session.kept_new {layout : Layout} {indexed : ℕ} {index : Index D} (seed : Seed) (max : ℕ)
    (hlayout : Layout.new 1 24 indexed capacity = .ok layout)
    (hempty : ∀ physical, keys index.name physical = none ∧ keys index.exact physical = none) :
    (Session.new layout seed index max : Session D E).Kept keys keys' capacity :=
  ⟨⟨[], .new capacity max, Compress.Direct.tracks_new max seed hlayout
    ⟨fun physical => (hempty physical).1, fun physical => (hempty physical).2⟩, rfl,
      List.prefix_refl _⟩, rfl, Nat.two_pow_pos 64, nofun⟩

/-! ## Capacities -/

/-- The check of a capacity says what setting it would evict, and references are resolved to the
live entries. -/
structure Session.Plans (session : Session D E) : Prop where
  checkFloor_eq_ok_iff : ∀ capacity floor, session.table.checkFloor capacity floor = .ok () ↔
    capacity ≤ session.table.maximum ∧ ∀ absolute entry,
      session.table.view.live absolute = some entry →
        (session.table.setLimit capacity).view.live absolute = none → absolute < floor
  refers : session.table.view.Refers session.history

theorem Session.Kept.plans (hlawful : Directory.Lawful D (capacity / entryOverhead) keys)
    (h : session.Kept keys keys' capacity) : session.Plans := by
  obtain ⟨records, queue, htracks, -, hnewest⟩ := h.tracks
  have hshows : session.table.view.Shows session.history :=
    .of_represents htracks.represents hnewest h.count_eq
  have hcount := h.count_eq
  have hlen : session.table.view.entries.entries.len = queue.entries.length :=
    htracks.represents.len_eq
  have hresident := hshows.resident_le
  refine ⟨fun limit floor => ?_, hshows.refers h.count_lt⟩
  have hcheck : session.table.checkFloor limit floor = .ok () ↔ _ :=
    Dynamics.checkFloor_iff htracks.represents (by omega) h.count_lt
  rw [hcheck]
  refine and_congr_right fun hmaximum => ?_
  -- A capacity that is allowed is the new limit as it is.
  have hcapacity : min limit queue.capacity = limit := by
    rw [← htracks.capacity]
    exact Nat.min_eq_left (hmaximum.trans (Nat.min_le_right _ _))
  have hkept : (queue.setLimit limit).entries =
      evict (Compress.Table.overLimit limit) queue.entries := by
    show evict (Compress.Table.overLimit (min limit queue.capacity)) queue.entries = _
    rw [hcapacity]
  have hle : (evict (Compress.Table.overLimit limit) queue.entries).length ≤
      queue.entries.length := (Compress.evict_isPrefix _).length_le
  obtain ⟨records', hnext⟩ := htracks.setLimit hlawful limit
  have hshows' : (session.table.setLimit limit).view.Shows session.history :=
    .of_represents hnext.represents ((Compress.evict_isPrefix _).trans hnewest) h.count_eq
  have hlen' : (session.table.setLimit limit).view.entries.entries.len =
      (evict (Compress.Table.overLimit limit) queue.entries).length :=
    hnext.represents.len_eq.trans (congrArg List.length hkept)
  constructor
  · intro hall absolute entry hlive hdead
    rw [hshows.live_eq, hlen] at hlive
    rw [hshows'.live_eq, hlen'] at hdead
    split_ifs at hlive with hold
    obtain ⟨hlt, -⟩ := List.getElem?_eq_some_iff.mp hlive
    split_ifs at hdead with hnew
    · exact absurd (hlive.symm.trans hdead) (by simp)
    · have hoffset := hall (absolute - (session.history.length - queue.entries.length)) (by omega)
      omega
  · intro hall offset hoffset
    have hlt : session.table.core.insertCount - queue.entries.length + offset <
        session.history.length := by omega
    refine hall _ session.history[session.table.core.insertCount - queue.entries.length + offset]
      ?_ ?_
    · rw [hshows.live_eq, hlen, if_pos (by omega)]
      exact List.getElem?_eq_getElem hlt
    · rw [hshows'.live_eq, hlen']
      exact if_neg (by omega)

/-- In every run of an encoder's table that was planned for a capacity, for every index that is
lawful for the number of its entries and empty at first, the check of a capacity agrees with what
setting it evicts, and references are resolved to the live entries; so they are in every run of a
decoder's table. -/
theorem Session.capacity_planning {layout : Layout} {indexed : ℕ} {index : Index D}
    (hlayout : Layout.new 1 24 indexed capacity = .ok layout)
    (hlawful : Directory.Lawful D (capacity / entryOverhead) keys)
    (hlawful' : ∀ count, Directory.Lawful E count keys')
    (hempty : ∀ physical, keys index.name physical = none ∧ keys index.exact physical = none)
    (hempties : Empties keys' fresh) (seed : Seed) (max : ℕ) (steps : List Step) :
    ((Session.new layout seed index max).run fresh steps).Plans ∧
      ∀ {width indexed capacity : ℕ} {layout : Layout} (limit max : ℕ),
        Layout.new 2 width indexed capacity = .ok layout → ∀ steps : List Decoder.Step,
          ((Decoder.Session.new layout limit max).run steps).table.view.Refers
            ((Decoder.Session.new layout limit max).run steps).history :=
  ⟨(run_kept hlawful hlawful' hempties (kept_new seed max hlayout hempty) steps).plans hlawful,
    fun limit max hlayout => Decoder.Session.run_refers limit max hlayout⟩

/-- A capacity for one of two entries, planned below the floor of the newer one. -/
theorem Session.capacity_planning_two :
    ((Session.new ⟨100, 72, 136, 68, 3⟩ ⟨fun _ => 0, fun _ _ => 0⟩
      (⟨⟨[]⟩, ⟨[]⟩⟩ : Index Directory.Listed) 100 : Session _ Directory.Listed).run
        (fun _ => ⟨⟨[]⟩, ⟨[]⟩⟩)
        [.fieldSection 0 [.insert ⟨[97], [98]⟩, .insert ⟨[99], []⟩] .commit, .limit 40 1]).Plans ∧
      ∀ {width indexed capacity : ℕ} {layout : Layout} (limit max : ℕ),
        Layout.new 2 width indexed capacity = .ok layout → ∀ steps : List Decoder.Step,
          ((Decoder.Session.new layout limit max).run steps).table.view.Refers
            ((Decoder.Session.new layout limit max).run steps).history := by
  have hlayout : Layout.new 1 24 64 100 = .ok ⟨100, 72, 136, 68, 3⟩ := rfl
  exact Session.capacity_planning hlayout (Directory.Listed.lawful (100 / 32))
    Directory.Listed.lawful (fun _ => ⟨rfl, rfl⟩) (fun _ _ => ⟨rfl, rfl⟩) _ 100 _

end Kept

end Encoder

end Sark.Qpack
