import Sark.Http.Compress.Direct

/-!
# Transactions on a table

A transaction on the table of an encoder (`table/delta/`): its entries stand in a buffer of their
own, with their own directories, and of the entries of the table it only counts how many it would
evict. Its searches look at the buffer first and at what is left of the table then.

* `Delta.Session.simulates_commit`: whatever a transaction shows is what the table shows once the
  transaction is committed, the names that go with some exact matches apart.
-/

namespace Sark.Compress.Delta

/-! ## Errors -/

/-- `delta::Position`. -/
inductive Position
  | base (relative : ℕ)
  | staged (ordinal : ℕ)
  deriving DecidableEq, Repr

/-- `delta::Fault`, less the one that nothing raises. -/
inductive Fault
  | remove (current removed : ℕ)
  | counter (position : Position) (current : ℕ)
  | missing (position : Position)
  | exhausted (size limit : ℕ)
  deriving DecidableEq, Repr

/-- `delta::Failure`, less the one that nothing raises. -/
inductive Failure
  | length (name value : ℕ)
  | capacity (required limit : ℕ)
  | name (actual limit : ℕ)
  | entries (len limit : ℕ)
  | bytes (required limit : ℕ)
  | fault (cause : Fault)
  deriving DecidableEq, Repr

/-- `delta::Error`: a failure, or an eviction that is not accepted. -/
inductive Error
  | failure (cause : Failure)
  | eviction (position : Position)
  deriving DecidableEq, Repr

/-! ## The buffer -/

/-- `buffer::record::Record`. -/
structure Pending where
  digest : Digest
  start : ℕ
  nameEnd : ℕ
  stop : ℕ
  deriving DecidableEq, Repr

/-- `buffer::Storage`: the records and the bytes that are published, and the directories. -/
structure Buffer (E : Type) where
  records : List Pending
  data : Bytes
  index : Index E
  bytes : ℕ
  entries : ℕ

namespace Buffer

variable {E : Type} [Directory E] {I : Type}

/-- `Storage::try_new`, where the allocation succeeds. -/
def tryNew (bytes entries : ℕ) (index : Index E) : Option (Buffer E) :=
  if 2 ^ 32 ≤ bytes ∨ 2 ^ 32 ≤ entries then none else some ⟨[], [], index, bytes, entries⟩

/-- `Storage::clear`. -/
def clear (self : Buffer E) : Buffer E :=
  if self.records.length = 0 then self
  else { self with index := self.index.clear, records := [], data := [] }

/-- `Entry::into_parts`, the field. -/
def fieldOf (self : Buffer E) (record : Pending) : Entry :=
  ⟨(self.data.drop record.start).take (record.nameEnd - record.start),
    (self.data.drop record.nameEnd).take (record.stop - record.nameEnd)⟩

/-- `Storage::get`: a field and the length of its data. -/
def get (self : Buffer E) (ordinal : ℕ) : Option (Entry × ℕ) :=
  self.records[ordinal]?.map fun record => (self.fieldOf record, record.stop - record.start)

/-- `Append::try_prepare`. -/
def tryPrepare (self : Buffer E) (field : Entry) (digest : Digest) (size : ℕ) :
    Except Failure Pending :=
  let used := self.data.length
  if nameLenMask < field.name.length then .error (.name field.name.length nameLenMask)
  else if self.entries ≤ self.records.length then
    .error (.entries self.records.length self.entries)
  else if 2 ^ 64 ≤ used + size then .error (.length field.name.length field.value.length)
  else if self.bytes < used + size then .error (.bytes (used + size) self.bytes)
  else .ok ⟨digest, used, used + field.name.length, used + size⟩

/-- `Ready::commit`. -/
def append (self : Buffer E) (field : Entry) (record : Pending) : Buffer E :=
  { self with
    records := self.records ++ [record]
    data := self.data ++ (field.name ++ field.value)
    index := self.index.insert record.digest self.records.length }

/-- `Storage::find`, with `Lookup::get`. -/
def find (self : Buffer E) (positions : List ℕ) (accept : ℕ → Entry → Option I) : Option I :=
  if self.records.length = 0 then none
  else
    (best none (positions.filterMap fun ordinal =>
      self.records[ordinal]?.bind fun record =>
        (accept ordinal (self.fieldOf record)).map
          (self.records.length - ordinal - 1, ·))).map Prod.snd

/-- `buffer::Search::exact`. -/
def exact (self : Buffer E) (field : Entry) (digest : Digest) (oldest : ℕ)
    (map : ℕ → Option I) : Option I :=
  self.find (Directory.scan self.index.exact digest.exact) fun ordinal found =>
    if oldest ≤ ordinal ∧ found.name = field.name ∧ found.value = field.value then map ordinal
    else none

/-- `buffer::Search::needle`. -/
def needle (self : Buffer E) (name : Bytes) (hash oldest : ℕ) (map : ℕ → Option I) : Option I :=
  self.find (Directory.scan self.index.name hash) fun ordinal found =>
    if oldest ≤ ordinal ∧ found.name = name then map ordinal else none

/-- `buffer::Search::both`. -/
def both (self : Buffer E) (field : Entry) (digest : Digest) (oldest : ℕ)
    (map : ℕ → Option I) : Match I :=
  match self.exact field digest oldest map with
  | some exact => ⟨some exact, some exact⟩
  | none => ⟨none, self.needle field.name digest.name oldest map⟩

end Buffer

/-! ## Evictions -/

/-- `delta::Evictions`. -/
structure Evictions where
  size : ℕ
  base : ℕ
  staged : ℕ
  deriving DecidableEq, Repr

/-- `delta::Draft`, with its owner. -/
structure Draft (D E : Type) where
  table : Direct D
  pending : Buffer E
  evicted : Evictions

namespace Evictions

variable {D E : Type} [Directory D] [Directory E]

/-- The entry that `Evictions::next` evicts: its position, its size, and the count that it is
added to. -/
def oldest (self : Evictions) (table : Direct D) (pending : Buffer E) :
    Except Failure (Option (Position × ℕ × ℕ)) :=
  let count := table.store.entries.len
  if self.base < count then
    let relative := count - self.base - 1
    match table.store.tryEntry relative with
    | none => .error (.fault (.missing (.base relative)))
    | some (_, _, size) => .ok (some (.base relative, size + entryOverhead, self.base))
  else if self.staged < pending.records.length then
    match pending.get self.staged with
    | none => .error (.fault (.missing (.staged self.staged)))
    | some (_, size) => .ok (some (.staged self.staged, size + entryOverhead, self.staged))
  else .ok none

/-- `Evictions::next`. -/
def next (self : Evictions) (table : Direct D) (pending : Buffer E) :
    Except Failure (Option (Position × Evictions)) := do
  match ← self.oldest table pending with
  | none => .ok none
  | some (position, size, current) =>
    if 2 ^ 32 ≤ current + 1 then .error (.fault (.counter position current))
    else if self.size < size then .error (.fault (.remove self.size size))
    else
      match position with
      | .base _ => .ok (some (position, ⟨self.size - size, current + 1, self.staged⟩))
      | .staged _ => .ok (some (position, ⟨self.size - size, self.base, current + 1⟩))

/-- `Evictions::try_evict`. The number of entries bounds the turns. -/
def tryEvict (self : Evictions) (table : Direct D) (pending : Buffer E) (available : ℕ)
    (accept : Position → Bool) : ℕ → Except Error Evictions
  | 0 =>
    if self.size ≤ available then .ok self
    else .error (.failure (.fault (.exhausted self.size available)))
  | turns + 1 =>
    if self.size ≤ available then .ok self
    else
      match self.next table pending with
      | .error cause => .error (.failure cause)
      | .ok none => .error (.failure (.fault (.exhausted self.size available)))
      | .ok (some (position, next)) =>
        if accept position then next.tryEvict table pending available accept turns
        else .error (.eviction position)

/-- `Evictions::evict`: every eviction is accepted. -/
def evict (self : Evictions) (table : Direct D) (pending : Buffer E) (available turns : ℕ) :
    Except Error Evictions :=
  self.tryEvict table pending available (fun _ => true) turns

/-- `Evictions::added`. -/
def added (self : Evictions) (size : ℕ) : Evictions :=
  { self with size := self.size + (size + entryOverhead) }

end Evictions

/-! ## Drafts -/

namespace Draft

variable {D E : Type} [Directory D] [Directory E] {I : Type}

/-- `Draft::new`. -/
def new (table : Direct D) (pending : Buffer E) : Draft D E :=
  ⟨table, pending.clear, ⟨table.store.entries.size, 0, 0⟩⟩

/-- `Change::prepare`: the length of the data, and what may be left of the entries. -/
def prepare (table : Direct D) (field : Entry) : Except Failure (ℕ × ℕ) :=
  let name := field.name.length
  let value := field.value.length
  let limit := table.store.entries.limit
  if 2 ^ 64 ≤ name + value then .error (.length name value)
  else if 2 ^ 64 ≤ name + value + entryOverhead then .error (.length name value)
  else if limit < name + value + entryOverhead then
    .error (.capacity (name + value + entryOverhead) limit)
  else .ok (name + value, limit - (name + value + entryOverhead))

/-- `Query::try_insert` and `Query::try_admit`, for the evictions that they make. -/
def insertWith (self : Draft D E) (field : Entry)
    (evict : Evictions → ℕ → ℕ → Except Error Evictions) : Except Error (Draft D E) := do
  let (size, available) ← (prepare self.table field).mapError .failure
  let evicted ← evict self.evicted available
    (self.table.store.entries.len + self.pending.records.length)
  let record ← (self.pending.tryPrepare field (self.table.seed.digest field) size).mapError .failure
  .ok { self with pending := self.pending.append field record, evicted := evicted.added size }

/-- `Query::try_insert`. -/
def tryInsert (self : Draft D E) (field : Entry) : Except Error (Draft D E) :=
  self.insertWith field fun evicted available turns =>
    evicted.evict self.table self.pending available turns

/-- `Query::try_admit`. It asks for every position once. -/
def tryAdmit (self : Draft D E) (field : Entry) (accept : Position → Bool) :
    Except Error (Draft D E) :=
  self.insertWith field fun evicted available turns =>
    evicted.tryEvict self.table self.pending available accept turns

/-- `Change::relative`. -/
def relative (self : Draft D E) (position : Position) : Option ℕ :=
  let len := self.pending.records.length
  match position with
  | .base relative =>
    if len < self.evicted.staged then none else some (len - self.evicted.staged + relative)
  | .staged ordinal => if len < ordinal + 1 then none else some (len - ordinal - 1)

/-- `Change::base_len`. -/
def baseLen (self : Draft D E) : Option ℕ :=
  if self.table.store.entries.len < self.evicted.base then none
  else some (self.table.store.entries.len - self.evicted.base)

/-- `Change::exact`. -/
def exact (self : Draft D E) (field : Entry) (map : Position → Option I) : Option I :=
  match self.pending.exact field (self.table.seed.digest field) self.evicted.staged
    fun ordinal => map (.staged ordinal) with
  | some staged => some staged
  | none =>
    self.baseLen.bind fun baseLen =>
      self.table.findExact field baseLen fun relative => map (.base relative)

/-- `Change::needle`. -/
def needle (self : Draft D E) (name : Bytes) (map : Position → Option I) : Option I :=
  match self.pending.needle name (self.table.seed.name name) self.evicted.staged
    fun ordinal => map (.staged ordinal) with
  | some staged => some staged
  | none =>
    self.baseLen.bind fun baseLen =>
      self.table.findNeedle name baseLen fun relative => map (.base relative)

/-- `Change::both`. -/
def both (self : Draft D E) (field : Entry) (map : Position → Option I) : Match I :=
  let staged := self.pending.both field (self.table.seed.digest field) self.evicted.staged
    fun ordinal => map (.staged ordinal)
  if staged.exact.isSome then staged
  else
    match self.baseLen with
    | none => staged
    | some baseLen =>
      let base := self.table.both field baseLen fun relative => map (.base relative)
      ⟨base.exact, staged.name.or base.name⟩

/-- `Query::both_index`. -/
def bothIndex (self : Draft D E) (field : Entry) : Match ℕ :=
  self.both field self.relative

/-- `Query::exact_index`. -/
def exactIndex (self : Draft D E) (field : Entry) : Option ℕ :=
  self.exact field self.relative

/-- `Draft::needle_index`. -/
def needleIndex (self : Draft D E) (name : Bytes) : Option ℕ :=
  self.needle name self.relative

/-- `Draft::rollback` and `Commit::rollback`. -/
def rollback (self : Draft D E) : Direct D × Buffer E :=
  (self.table, self.pending.clear)

/-- `Commit::apply`. -/
def commit (self : Draft D E) : Direct D × Buffer E :=
  (self.pending.records.foldl (fun table record =>
    table.input (self.pending.fieldOf record) record.digest (record.stop - record.start)) self.table,
    self.pending)

end Draft

/-! ## Sessions -/

/-- `Query::try_insert` and `Query::try_admit`. -/
inductive Op
  | tryInsert (field : Entry)
  | tryAdmit (field : Entry) (accept : Position → Bool)

/-- How a transaction ends. -/
inductive Ending
  | commit
  | rollback
  | drop
  deriving DecidableEq, Repr

/-- What happens to a table and a buffer: a change of the table itself, or a transaction. -/
inductive Step
  | edit (op : Direct.Op)
  | transact (ops : List Op) (ending : Ending)

namespace Draft

variable {D E : Type} [Directory D] [Directory E]

/-- An operation. A failure leaves the draft as it is. -/
def apply (self : Draft D E) (op : Op) : Draft D E :=
  match op with
  | .tryInsert field => (self.tryInsert field).toOption.getD self
  | .tryAdmit field accept => (self.tryAdmit field accept).toOption.getD self

/-- A sequence of operations. -/
def run (self : Draft D E) (ops : List Op) : Draft D E :=
  ops.foldl apply self

end Draft

/-- A table, and the buffer for its transactions. -/
structure Session (D E : Type) where
  table : Direct D
  pending : Buffer E

namespace Session

variable {D E : Type} [Directory D] [Directory E]

/-- A transaction that is going on. -/
def draft (self : Session D E) (ops : List Op) : Draft D E :=
  (Draft.new self.table self.pending).run ops

/-- A change of the table, or a transaction. -/
def apply (self : Session D E) : Step → Session D E
  | .edit op => { self with table := self.table.apply op }
  | .transact ops .commit => ⟨(self.draft ops).commit.1, (self.draft ops).commit.2⟩
  | .transact ops .rollback => ⟨(self.draft ops).rollback.1, (self.draft ops).rollback.2⟩
  | .transact ops .drop => ⟨(self.draft ops).table, (self.draft ops).pending⟩

/-- A sequence of changes. -/
def run (self : Session D E) (steps : List Step) : Session D E :=
  steps.foldl apply self

end Session

/-! ## The buffer holds entries -/

variable {D E : Type} [Directory D] [Directory E]

/-- A record of a buffer is for an entry. -/
structure Buffer.Stores (seed : Seed) (buffer : Buffer E) (record : Pending) (entry : Entry) :
    Prop where
  nameEnd_le : record.nameEnd ≤ record.stop
  stop_le : record.stop ≤ buffer.data.length
  field : buffer.fieldOf record = entry
  size : record.stop - record.start = entry.data.length
  digest : record.digest = seed.digest entry

/-- A buffer holds some entries, oldest first. -/
structure Buffer.Holds (keys : E → ℕ → Option ℕ) (seed : Seed) (buffer : Buffer E)
    (fields : List Entry) : Prop where
  stores : List.Forall₂ (buffer.Stores seed) buffer.records fields
  indexed : Direct.Indexed keys Pending.digest buffer.index fun ordinal => buffer.records[ordinal]?
  records_le : buffer.records.length ≤ buffer.entries
  entries_lt : buffer.entries < 2 ^ 32

namespace Buffer

variable {keys : E → ℕ → Option ℕ} {seed : Seed} {buffer : Buffer E} {fields : List Entry}

theorem holds_tryNew {bytes entries : ℕ} {index : Index E} (h : tryNew bytes entries index = some buffer)
    (hindex : ∀ physical, keys index.name physical = none ∧ keys index.exact physical = none) :
    buffer.Holds keys seed [] ∧ buffer.entries = entries := by
  unfold tryNew at h
  split at h
  · cases h
  · next hbounds =>
    obtain rfl := Option.some.inj h
    exact ⟨⟨.nil, ⟨fun physical => (hindex physical).1, fun physical => (hindex physical).2⟩,
      Nat.zero_le _, not_le.mp fun hle => hbounds (.inr hle)⟩, rfl⟩

namespace Holds

theorem length_eq (h : buffer.Holds keys seed fields) : buffer.records.length = fields.length :=
  h.stores.length_eq

theorem clear (hlawful : Directory.Lawful E buffer.entries keys) (h : buffer.Holds keys seed fields) :
    buffer.clear.Holds keys seed [] ∧ buffer.clear.entries = buffer.entries := by
  unfold Buffer.clear
  by_cases hnone : buffer.records.length = 0
  · rw [if_pos hnone]
    have hfields : fields = [] := by
      rw [← List.length_eq_zero_iff, ← h.length_eq, hnone]
    exact ⟨hfields ▸ h, rfl⟩
  · rw [if_neg hnone]
    exact ⟨⟨.nil, .clear hlawful Pending.digest buffer.index, Nat.zero_le _, h.entries_lt⟩, rfl⟩

theorem get (h : buffer.Holds keys seed fields) {ordinal : ℕ} {entry : Entry}
    (hentry : fields[ordinal]? = some entry) :
    ∃ record, buffer.records[ordinal]? = some record ∧ buffer.Stores seed record entry := by
  obtain ⟨hlt, rfl⟩ := List.getElem?_eq_some_iff.mp hentry
  have hordinal : ordinal < buffer.records.length := by rwa [h.length_eq]
  exact ⟨buffer.records[ordinal], List.getElem?_eq_getElem hordinal, h.stores.get hordinal hlt⟩

theorem get_eq (h : buffer.Holds keys seed fields) {ordinal : ℕ} {entry : Entry}
    (hentry : fields[ordinal]? = some entry) :
    buffer.get ordinal = some (entry, entry.data.length) := by
  obtain ⟨record, hrecord, hstores⟩ := h.get hentry
  rw [Buffer.get, hrecord, Option.map_some, hstores.field, hstores.size]

theorem stores_append {record : Pending} {entry : Entry} (h : buffer.Stores seed record entry)
    (field : Entry) (added : Pending) : (buffer.append field added).Stores seed record entry := by
  have hname := h.nameEnd_le
  have hstop := h.stop_le
  have hpart : ∀ first last, last ≤ buffer.data.length →
      ((buffer.data ++ (field.name ++ field.value)).drop first).take (last - first) =
        (buffer.data.drop first).take (last - first) := by
    intro first last hlast
    by_cases hfirst : first ≤ last
    · rw [List.drop_append_of_le_length (hfirst.trans hlast),
        List.take_append_of_le_length (by rw [List.length_drop]; omega)]
    · rw [show last - first = 0 by omega, List.take_zero, List.take_zero]
  refine ⟨hname, ?_, ?_, h.size, h.digest⟩
  · simp only [append, List.length_append]
    omega
  · rw [← h.field]
    simp only [fieldOf, append]
    rw [hpart _ _ (hname.trans hstop), hpart _ _ hstop]

/-- An entry that the buffer admits. -/
theorem append (hlawful : Directory.Lawful E buffer.entries keys)
    (h : buffer.Holds keys seed fields) {field : Entry} {record : Pending}
    (hrecord : buffer.tryPrepare field (seed.digest field) field.data.length = .ok record) :
    (buffer.append field record).Holds keys seed (fields ++ [field]) ∧
      field.name.length ≤ nameLenMask := by
  have hdata : field.data.length = field.name.length + field.value.length := by
    rw [Entry.data, List.length_append]
  unfold tryPrepare at hrecord
  simp only at hrecord
  split_ifs at hrecord with hmask hentries hlength hbytes
  obtain rfl := Except.ok.inj hrecord
  refine ⟨⟨?_, ?_, ?_, h.entries_lt⟩, not_lt.mp hmask⟩
  · refine List.rel_append (h.stores.imp fun record entry hstores =>
      stores_append hstores field _) (.cons ⟨?_, ?_, ?_, ?_, rfl⟩ .nil)
    · simp only
      omega
    · simp only [Buffer.append, List.length_append]
      omega
    · -- The bytes behind all others are those of the field.
      simp only [fieldOf, Buffer.append, hdata]
      have hfirst : (buffer.data ++ (field.name ++ field.value)).drop buffer.data.length =
          field.name ++ field.value := List.drop_left
      have hsecond : (buffer.data ++ (field.name ++ field.value)).drop
          (buffer.data.length + field.name.length) = field.value := by
        rw [← List.drop_drop, hfirst, List.drop_left]
      rw [hfirst, hsecond, Nat.add_sub_cancel_left, List.take_left,
        show buffer.data.length + (field.name.length + field.value.length) -
          (buffer.data.length + field.name.length) = field.value.length by omega,
        List.take_length]
    · simp only
      omega
  · have hmember := @Direct.Indexed.insert E _ Pending keys buffer.entries Pending.digest buffer.index
      (fun ordinal => buffer.records[ordinal]?) hlawful h.indexed buffer.records.length
      (not_le.mp hentries) (List.getElem?_eq_none le_rfl)
      ⟨seed.digest field, buffer.data.length, buffer.data.length + field.name.length,
        buffer.data.length + field.data.length⟩
    have hupdate : (fun ordinal => (buffer.records ++ [⟨seed.digest field, buffer.data.length,
        buffer.data.length + field.name.length, buffer.data.length + field.data.length⟩])[ordinal]?) =
        Function.update (fun ordinal => buffer.records[ordinal]?) buffer.records.length
          (some ⟨seed.digest field, buffer.data.length, buffer.data.length + field.name.length,
            buffer.data.length + field.data.length⟩) := by
      funext ordinal
      rw [Function.update_apply]
      split
      · next hat => rw [hat, List.getElem?_concat_length]
      · next hat =>
        rcases Nat.lt_or_ge ordinal buffer.records.length with hlt | hge
        · rw [List.getElem?_append_left hlt]
        · rw [List.getElem?_eq_none hge, List.getElem?_eq_none]
          rw [List.length_append, List.length_singleton]
          omega
    simp only [Buffer.append]
    rw [hupdate]
    exact hmember
  · simp only [Buffer.append, List.length_append, List.length_singleton]
    omega

/-! ### Searches in the buffer -/

variable {I : Type}

/-- A search finds the newest entry that is accepted, of those that are not evicted, if the
positions are all that may be accepted. -/
theorem least_find (h : buffer.Holds keys seed fields) {oldest : ℕ} {positions : List ℕ}
    {accept : ℕ → Entry → Option I}
    (hlive : ∀ ordinal entry, accept ordinal entry ≠ none → oldest ≤ ordinal)
    (hcomplete : ∀ ordinal entry, fields[ordinal]? = some entry → accept ordinal entry ≠ none →
      ordinal ∈ positions) :
    Least (fields.length - oldest)
      (fun rank => fields[fields.length - rank - 1]?.bind (accept (fields.length - rank - 1)))
      (buffer.find positions accept) := by
  have hlength := h.length_eq
  unfold find
  by_cases hnone : buffer.records.length = 0
  · rw [if_pos hnone]
    exact .inl ⟨rfl, fun rank hrank => by omega⟩
  rw [if_neg hnone, hlength]
  refine least_best (fun found hfound => ?_) fun rank hrank result hresult => ?_
  · obtain ⟨ordinal, -, hitem⟩ := List.mem_filterMap.mp hfound
    obtain ⟨record, hrecord, hitem⟩ := Option.bind_eq_some_iff.mp hitem
    obtain ⟨result, haccept, rfl⟩ := Option.map_eq_some_iff.mp hitem
    have hordinal := (List.getElem?_eq_some_iff.mp hrecord).1
    have hentry := List.getElem?_eq_getElem (show ordinal < fields.length by omega)
    obtain ⟨record', hrecord', hstores⟩ := h.get hentry
    obtain rfl := Option.some.inj (hrecord.symm.trans hrecord')
    rw [hstores.field] at haccept
    have hlive := hlive ordinal _ (by rw [haccept]; exact Option.some_ne_none result)
    refine ⟨by simp only; omega, ?_⟩
    simp only
    rw [show fields.length - (fields.length - ordinal - 1) - 1 = ordinal by omega, hentry,
      Option.bind_some, haccept]
  · obtain ⟨entry, hentry, haccept⟩ := Option.bind_eq_some_iff.mp hresult
    obtain ⟨record, hrecord, hstores⟩ := h.get hentry
    refine List.mem_filterMap.mpr ⟨fields.length - rank - 1, hcomplete _ entry hentry (by
      rw [haccept]; exact Option.some_ne_none result), ?_⟩
    rw [hrecord, Option.bind_some, hstores.field, haccept, Option.map_some,
      show fields.length - (fields.length - rank - 1) - 1 = rank by omega]

theorem least_exact {count : ℕ} (hlawful : Directory.Lawful E count keys)
    (h : buffer.Holds keys seed fields) (field : Entry) (oldest : ℕ) (map : ℕ → Option I) :
    Least (fields.length - oldest)
      (fun rank => fields[fields.length - rank - 1]?.bind fun found =>
        if oldest ≤ fields.length - rank - 1 ∧ found.name = field.name ∧
            found.value = field.value then map (fields.length - rank - 1) else none)
      (buffer.exact field (seed.digest field) oldest map) := by
  refine h.least_find (fun ordinal entry haccept => ?_) fun ordinal entry hentry haccept => ?_
  · by_contra hless
    exact haccept (if_neg fun hcase => hless hcase.1)
  · have hsame : entry = field := by
      by_contra hne
      exact haccept (if_neg fun hcase => hne (Entry.ext hcase.2.1 hcase.2.2))
    obtain ⟨record, hrecord, hstores⟩ := h.get hentry
    refine hlawful.scan_complete _ _ _ ?_
    rw [h.indexed.exact, hrecord, Option.map_some, hstores.digest, hsame]

theorem least_needle {count : ℕ} (hlawful : Directory.Lawful E count keys)
    (h : buffer.Holds keys seed fields) (name : Bytes) (oldest : ℕ) (map : ℕ → Option I) :
    Least (fields.length - oldest)
      (fun rank => fields[fields.length - rank - 1]?.bind fun found =>
        if oldest ≤ fields.length - rank - 1 ∧ found.name = name then
          map (fields.length - rank - 1) else none)
      (buffer.needle name (seed.name name) oldest map) := by
  refine h.least_find (fun ordinal entry haccept => ?_) fun ordinal entry hentry haccept => ?_
  · by_contra hless
    exact haccept (if_neg fun hcase => hless hcase.1)
  · have hname : entry.name = name := by
      by_contra hne
      exact haccept (if_neg fun hcase => hne hcase.2)
    obtain ⟨record, hrecord, hstores⟩ := h.get hentry
    refine hlawful.scan_complete _ _ _ ?_
    rw [h.indexed.name, hrecord, Option.map_some, hstores.digest, ← hname]
    rfl

end Holds

end Buffer

/-! ## Evictions that are counted -/

namespace Evictions

/-- The entries that a transaction shows, newest first. -/
def live (self : Evictions) (entries fields : List Entry) : List Entry :=
  (fields.drop self.staged).reverse ++ entries.take (entries.length - self.base)

/-- The counts are of entries of the table first and of the transaction then, and the size is that
of what they leave. -/
structure Counts (evicted : Evictions) (entries fields : List Entry) : Prop where
  base_le : evicted.base ≤ entries.length
  staged_le : evicted.staged ≤ fields.length
  order : 0 < evicted.staged → evicted.base = entries.length
  size : evicted.size = totalSize (evicted.live entries fields)

variable {self : Evictions} {keys : D → ℕ → Option ℕ} {keys' : E → ℕ → Option ℕ}
  {base : Direct D} {records : List Record} {table : Table} {pending : Buffer E}
  {entries fields : List Entry}

theorem length_live (h : self.Counts entries fields) :
    (self.live entries fields).length =
      fields.length - self.staged + (entries.length - self.base) := by
  rw [live, List.length_append, List.length_reverse, List.length_drop, List.length_take]
  omega

theorem live_base (self : Evictions) (size : ℕ) (fields : List Entry) {entry : Entry}
    (hbase : self.base < entries.length)
    (hentry : entries[entries.length - self.base - 1]? = some entry) :
    self.live entries fields =
      (⟨size, self.base + 1, self.staged⟩ : Evictions).live entries fields ++ [entry] := by
  obtain ⟨hlt, rfl⟩ := List.getElem?_eq_some_iff.mp hentry
  have htake : entries.take (entries.length - self.base) =
      entries.take (entries.length - (self.base + 1)) ++
        [entries[entries.length - self.base - 1]] := by
    rw [← Nat.sub_sub, ← List.take_succ_eq_append_getElem hlt]
    congr 1
    omega
  rw [live, live, htake, List.append_assoc]

theorem live_staged (self : Evictions) (size : ℕ) {entry : Entry}
    (hbase : self.base = entries.length) (hentry : fields[self.staged]? = some entry) :
    self.live entries fields =
      (⟨size, self.base, self.staged + 1⟩ : Evictions).live entries fields ++ [entry] := by
  obtain ⟨hlt, rfl⟩ := List.getElem?_eq_some_iff.mp hentry
  rw [live, live, List.drop_eq_getElem_cons hlt, List.reverse_cons, hbase, Nat.sub_self,
    List.take_zero, List.append_nil, List.append_nil]

/-- The next eviction is that of the oldest entry. -/
theorem next_spec (htracks : base.Tracks keys records table)
    (hholds : pending.Holds keys' base.seed fields) (h : self.Counts table.entries fields)
    (hne : self.live table.entries fields ≠ []) :
    ∃ position next, self.next base pending = .ok (some (position, next)) ∧
      next.Counts table.entries fields ∧
      next.live table.entries fields = (self.live table.entries fields).dropLast := by
  have hrep := htracks.represents
  have hlen := hrep.len_eq
  have hperiod := hrep.len_le
  have hcapacity := hrep.planned.capacity_lt
  have hdata := hrep.dataSize_le
  have hlength := hholds.length_eq
  have hroom := hholds.records_le
  have hbound := hholds.entries_lt
  have hbase := h.base_le
  have hstaged := h.staged_le
  have hpos := List.length_pos_iff.mpr hne
  rw [length_live h] at hpos
  simp only [entryOverhead] at hdata
  by_cases hcase : self.base < table.entries.length
  · have hrelative : table.entries.length - self.base - 1 < table.entries.length := by omega
    have hentry := List.getElem?_eq_getElem hrelative
    generalize table.entries[table.entries.length - self.base - 1] = entry at hentry
    have hindex : table.entries.length - self.base - 1 < records.length := by
      rwa [hrep.holds.length_eq]
    have htry := hrep.tryEntry_eq hentry (List.getElem?_eq_getElem hindex)
    have hlive := self.live_base (self.size - (entry.data.length + entryOverhead)) fields hcase
      hentry
    have htotal := h.size
    rw [hlive, Store.Represents.totalSize_dropLast_add, Entry.size_eq] at htotal
    refine ⟨.base (table.entries.length - self.base - 1),
      ⟨self.size - (entry.data.length + entryOverhead), self.base + 1, self.staged⟩, ?_, ?_, ?_⟩
    · unfold Evictions.next oldest
      simp only
      rw [hlen, if_pos hcase, htry]
      simp only [bind, Except.bind]
      rw [if_neg (by omega), if_neg (by omega)]
    · refine ⟨by simp only; omega, hstaged, fun hsome => ?_, by simp only; omega⟩
      have horder := h.order hsome
      omega
    · rw [hlive, List.dropLast_concat]
  · have hentry := List.getElem?_eq_getElem (show self.staged < fields.length by omega)
    generalize fields[self.staged] = entry at hentry
    have hget := hholds.get_eq hentry
    have hall : self.base = table.entries.length := by omega
    have hlive := self.live_staged (self.size - (entry.data.length + entryOverhead)) hall hentry
    have htotal := h.size
    rw [hlive, Store.Represents.totalSize_dropLast_add, Entry.size_eq] at htotal
    refine ⟨.staged self.staged,
      ⟨self.size - (entry.data.length + entryOverhead), self.base, self.staged + 1⟩, ?_, ?_, ?_⟩
    · unfold Evictions.next oldest
      simp only
      rw [hlen, if_neg hcase, if_pos (by omega), hget]
      simp only [bind, Except.bind]
      rw [if_neg (by omega), if_neg (by omega)]
    · exact ⟨hbase, by simp only; omega, fun _ => hall, by simp only; omega⟩
    · rw [hlive, List.dropLast_concat]

theorem Counts.tryEvict_spec (h : self.Counts table.entries fields)
    (htracks : base.Tracks keys records table) (hholds : pending.Holds keys' base.seed fields)
    {available turns : ℕ} {accept : Position → Bool} {next : Evictions}
    (hturns : (self.live table.entries fields).length ≤ turns)
    (hnext : self.tryEvict base pending available accept turns = .ok next) :
    next.Counts table.entries fields ∧
      next.live table.entries fields =
        Compress.evict (fun entries => available < totalSize entries)
          (self.live table.entries fields) := by
  induction turns generalizing self with
  | zero =>
    unfold tryEvict at hnext
    split_ifs at hnext
    obtain rfl := Except.ok.inj hnext
    refine ⟨h, ?_⟩
    rw [Compress.evict, if_neg]
    rintro ⟨hne, -⟩
    exact hne (List.length_eq_zero_iff.mp (Nat.le_zero.mp hturns))
  | succ turns ih =>
    unfold tryEvict at hnext
    rw [Compress.evict]
    by_cases hfits : self.size ≤ available
    · rw [if_pos hfits] at hnext
      obtain rfl := Except.ok.inj hnext
      refine ⟨h, ?_⟩
      rw [if_neg]
      rintro ⟨-, hfull⟩
      have hfull := of_decide_eq_true hfull
      rw [← h.size] at hfull
      omega
    · -- The table is too full, so there is an entry to evict.
      have hne : self.live table.entries fields ≠ [] := by
        intro hnil
        have hsize := h.size
        rw [hnil, totalSize_nil] at hsize
        omega
      obtain ⟨position, after, hafter, hcounts, hlive⟩ := next_spec htracks hholds h hne
      rw [if_neg hfits, hafter] at hnext
      simp only at hnext
      split_ifs at hnext
      rw [if_pos ⟨hne, decide_eq_true (by rw [← h.size]; omega)⟩, ← hlive]
      refine ih hcounts ?_ hnext
      rw [hlive, List.length_dropLast]
      omega

end Evictions

/-! ## A transaction is a queue -/

/-- A transaction shows the queue that its entries make of the queue of the table. -/
structure Draft.Drafts (keys : D → ℕ → Option ℕ) (keys' : E → ℕ → Option ℕ) (draft : Draft D E)
    (records : List Record) (table : Table) (fields : List Entry) : Prop where
  tracks : draft.table.Tracks keys records table
  holds : draft.pending.Holds keys' draft.table.seed fields
  counts : draft.evicted.Counts table.entries fields
  fits : ∀ field ∈ fields, field.size ≤ table.limit ∧ field.name.length ≤ nameLenMask
  queue : (fields.foldl Table.insert table).entries = draft.evicted.live table.entries fields

namespace Draft

variable {keys : D → ℕ → Option ℕ} {keys' : E → ℕ → Option ℕ} {self next : Draft D E}
  {records : List Record} {table : Table} {fields : List Entry} {count : ℕ}

theorem foldl_insert_limit (table : Table) (fields : List Entry) :
    (fields.foldl Table.insert table).limit = table.limit := by
  induction fields generalizing table with
  | nil => rfl
  | cons field fields ih => rw [List.foldl_cons, ih, Table.insert_limit]

theorem foldl_insert_capacity (table : Table) (fields : List Entry) :
    (fields.foldl Table.insert table).capacity = table.capacity := by
  induction fields generalizing table with
  | nil => rfl
  | cons field fields ih => rw [List.foldl_cons, ih, Table.insert_capacity]

theorem drafts_new {base : Direct D} {pending : Buffer E}
    (hlawful : Directory.Lawful E pending.entries keys') (h : base.Tracks keys records table)
    (hholds : pending.Holds keys' base.seed fields) :
    (Draft.new base pending).Drafts keys keys' records table [] := by
  have hlive : (⟨base.store.entries.size, 0, 0⟩ : Evictions).live table.entries [] =
      table.entries := by
    rw [Evictions.live, Nat.sub_zero, List.take_length]
    rfl
  refine ⟨h, (hholds.clear hlawful).1, ⟨Nat.zero_le _, Nat.zero_le _, nofun, ?_⟩, nofun, hlive.symm⟩
  show _ = totalSize ((⟨base.store.entries.size, 0, 0⟩ : Evictions).live table.entries [])
  rw [hlive]
  exact h.represents.size_eq

theorem of_prepare_eq_ok {base : Direct D} {field : Entry} {size available : ℕ}
    (h : prepare base field = .ok (size, available)) :
    size = field.data.length ∧ available = base.store.entries.limit - field.size ∧
      field.size ≤ base.store.entries.limit := by
  unfold prepare at h
  simp only at h
  split_ifs at h with hlength hlength' hfits
  obtain ⟨rfl, rfl⟩ := Prod.mk.inj (Except.ok.inj h)
  refine ⟨?_, rfl, not_lt.mp hfits⟩
  rw [Entry.data, List.length_append]

/-- An insertion that succeeds is one into the queue. -/
theorem Drafts.insertWith (hlawful : Directory.Lawful E self.pending.entries keys')
    (h : self.Drafts keys keys' records table fields) {field : Entry}
    {accept : Position → Bool}
    (hnext : self.insertWith field (fun evicted available turns =>
      evicted.tryEvict self.table self.pending available accept turns) = .ok next) :
    next.Drafts keys keys' records table (fields ++ [field]) ∧ next.table = self.table ∧
      next.pending.entries = self.pending.entries := by
  obtain ⟨⟨size, available⟩, hprepare, hnext⟩ := Except.bind_eq_ok_iff.mp hnext
  obtain ⟨evicted, hevict, hnext⟩ := Except.bind_eq_ok_iff.mp hnext
  obtain ⟨record, hrecord, hnext⟩ := Except.bind_eq_ok_iff.mp hnext
  obtain rfl := Except.ok.inj hnext
  have hprepare := of_prepare_eq_ok (Except.mapError_eq_ok_iff.mp hprepare)
  have hrecord := Except.mapError_eq_ok_iff.mp hrecord
  obtain ⟨rfl, rfl, hfits⟩ := hprepare
  rw [h.tracks.limit] at hfits hevict
  have hturns : (self.evicted.live table.entries fields).length ≤
      self.table.store.entries.len + self.pending.records.length := by
    rw [Evictions.length_live h.counts, h.tracks.represents.len_eq, h.holds.length_eq]
    omega
  obtain ⟨hcounts, hlive⟩ := h.counts.tryEvict_spec h.tracks h.holds hturns hevict
  obtain ⟨hholds, hmask⟩ := h.holds.append hlawful hrecord
  have hstaged := hcounts.staged_le
  have hsize := field.size_eq
  -- What is left, with the new entry in front.
  have hcons : (evicted.added field.data.length).live table.entries (fields ++ [field]) =
      field :: evicted.live table.entries fields := by
    rw [Evictions.live, Evictions.live, Evictions.added, List.drop_append_of_le_length hstaged,
      List.reverse_append, List.reverse_singleton, List.singleton_append, List.cons_append]
  refine ⟨⟨h.tracks, hholds, ⟨hcounts.base_le, ?_, hcounts.order, ?_⟩, ?_, ?_⟩, rfl, rfl⟩
  · rw [List.length_append]
    exact hstaged.trans (Nat.le_add_right _ _)
  · rw [hcons, totalSize_cons, ← hcounts.size, hsize, Evictions.added, Nat.add_comm]
  · intro found hfound
    rcases List.mem_append.mp hfound with hfound | hfound
    · exact h.fits found hfound
    · rw [List.mem_singleton.mp hfound]
      exact ⟨hfits, hmask⟩
  · have hlimit := foldl_insert_limit table fields
    have hroom : field.size ≤ (fields.foldl Table.insert table).limit := by rwa [hlimit]
    rw [List.foldl_append, List.foldl_cons, List.foldl_nil, Table.insert, dif_pos hroom,
      Table.publish_entries, hcons, hlive, h.queue, hlimit]
    refine congrArg (field :: ·) (evict_congr fun older _ _ => decide_eq_decide.mpr ?_)
    omega

theorem Drafts.apply (hlawful : Directory.Lawful E count keys')
    (h : self.Drafts keys keys' records table fields) (hcount : self.pending.entries = count)
    (op : Op) :
    ∃ fields', (self.apply op).Drafts keys keys' records table fields' ∧
      (self.apply op).table = self.table ∧ (self.apply op).pending.entries = count := by
  have hstep : ∀ (field : Entry) (accept : Position → Bool),
      ∃ fields', (((self.insertWith field fun evicted available turns =>
          evicted.tryEvict self.table self.pending available accept turns).toOption.getD
            self).Drafts keys keys' records table fields') ∧
        ((self.insertWith field fun evicted available turns =>
          evicted.tryEvict self.table self.pending available accept turns).toOption.getD
            self).table = self.table ∧
        ((self.insertWith field fun evicted available turns =>
          evicted.tryEvict self.table self.pending available accept turns).toOption.getD
            self).pending.entries = count := by
    intro field accept
    cases hnext : self.insertWith field fun evicted available turns =>
        evicted.tryEvict self.table self.pending available accept turns with
    | error error => exact ⟨fields, h, rfl, hcount⟩
    | ok next =>
      obtain ⟨hdrafts, htable, hentries⟩ := h.insertWith (hcount ▸ hlawful) hnext
      exact ⟨_, hdrafts, htable, hentries.trans hcount⟩
  cases op with
  | tryInsert field => exact hstep field fun _ => true
  | tryAdmit field accept => exact hstep field accept

theorem Drafts.run (hlawful : Directory.Lawful E count keys')
    (h : self.Drafts keys keys' records table fields) (hcount : self.pending.entries = count)
    (ops : List Op) :
    ∃ fields', (self.run ops).Drafts keys keys' records table fields' ∧
      (self.run ops).table = self.table ∧ (self.run ops).pending.entries = count := by
  induction ops generalizing self fields with
  | nil => exact ⟨fields, h, rfl, hcount⟩
  | cons op ops ih =>
    obtain ⟨fields', hnext, htable, hentries⟩ := h.apply hlawful hcount op
    obtain ⟨last, hlast, hsame, hkept⟩ := ih hnext hentries
    exact ⟨last, hlast, hsame.trans htable, hkept⟩

theorem foldl_input {base : Direct D} {buffer : Buffer E} {seed : Seed} {pending : List Pending}
    (hlawful : Directory.Lawful D count keys) (h : base.Tracks keys records table)
    (hcount : table.capacity / entryOverhead ≤ count) (hseed : base.seed = seed)
    (hstores : List.Forall₂ (buffer.Stores seed) pending fields)
    (hfits : ∀ field ∈ fields, field.size ≤ table.limit ∧ field.name.length ≤ nameLenMask) :
    ∃ records', (pending.foldl (fun table record => table.input (buffer.fieldOf record)
        record.digest (record.stop - record.start)) base).Tracks keys records'
        (fields.foldl Table.insert table) ∧
      (pending.foldl (fun table record => table.input (buffer.fieldOf record)
        record.digest (record.stop - record.start)) base).seed = seed := by
  induction hstores generalizing base records table with
  | nil => exact ⟨records, h, hseed⟩
  | @cons record field pending fields hstore hstores ih =>
    obtain ⟨⟨hsize, hmask⟩, hrest⟩ := List.forall_mem_cons.mp hfits
    obtain ⟨records', hnext⟩ := h.input hlawful hcount field hsize hmask
    have hinsert : table.insert field = table.publish field hsize := dif_pos hsize
    rw [hseed] at hnext
    rw [List.foldl_cons, List.foldl_cons, hstore.field, hstore.digest, hstore.size, hinsert]
    exact ih hnext hcount hseed hrest

theorem Drafts.commit (hlawful : Directory.Lawful D count keys)
    (h : self.Drafts keys keys' records table fields)
    (hcount : table.capacity / entryOverhead ≤ count) :
    ∃ records', self.commit.1.Tracks keys records' (fields.foldl Table.insert table) ∧
      self.commit.1.seed = self.table.seed :=
  foldl_input hlawful h.tracks hcount rfl h.holds.stores h.fits

/-! ### Searches in a transaction -/

theorem Drafts.relative_base (h : self.Drafts keys keys' records table fields) (relative : ℕ) :
    self.relative (.base relative) = some (fields.length - self.evicted.staged + relative) := by
  have hstaged := h.counts.staged_le
  have hlength := h.holds.length_eq
  unfold Draft.relative
  simp only
  rw [if_neg (by omega), hlength]

theorem Drafts.relative_staged (h : self.Drafts keys keys' records table fields) {ordinal : ℕ}
    (hordinal : ordinal < fields.length) :
    self.relative (.staged ordinal) = some (fields.length - ordinal - 1) := by
  have hlength := h.holds.length_eq
  unfold Draft.relative
  simp only
  rw [if_neg (by omega), hlength]

theorem Drafts.baseLen_eq (h : self.Drafts keys keys' records table fields) :
    self.baseLen = some (table.entries.length - self.evicted.base) := by
  have hbase := h.counts.base_le
  rw [baseLen, h.tracks.represents.len_eq, if_neg (by omega)]

theorem Drafts.live_staged (h : self.Drafts keys keys' records table fields) {rank : ℕ}
    (hrank : rank < fields.length - self.evicted.staged) :
    (self.evicted.live table.entries fields)[rank]? = fields[fields.length - rank - 1]? := by
  rw [Evictions.live, List.getElem?_append_left (by
      rw [List.length_reverse, List.length_drop]
      omega),
    List.getElem?_reverse (by
      rw [List.length_drop]
      omega), List.length_drop, List.getElem?_drop]
  congr 1
  omega

theorem Drafts.live_base (h : self.Drafts keys keys' records table fields) {relative : ℕ}
    (hrelative : relative < table.entries.length - self.evicted.base) :
    (self.evicted.live table.entries fields)[fields.length - self.evicted.staged + relative]? =
      table.entries[relative]? := by
  rw [Evictions.live, List.getElem?_append_right (by
      rw [List.length_reverse, List.length_drop]
      omega), List.length_reverse, List.length_drop, Nat.add_sub_cancel_left,
    List.getElem?_take_of_lt hrelative]

theorem Drafts.least_or (h : self.Drafts keys keys' records table fields) {p : Entry → Bool}
    {staged base : Option ℕ}
    (hstaged : Least (fields.length - self.evicted.staged)
      (fun rank => fields[fields.length - rank - 1]?.bind fun found =>
        if p found then some rank else none) staged)
    (hbase : Least (table.entries.length - self.evicted.base)
      (fun relative => table.entries[relative]?.bind fun found =>
        if p found then some (fields.length - self.evicted.staged + relative) else none) base) :
    staged.or base = (self.evicted.live table.entries fields).findIdx? p := by
  have hleast := hstaged.append hbase
  rw [← Evictions.length_live h.counts] at hleast
  refine (hleast.congr fun index hindex => ?_).unique
    (least_findIdx (self.evicted.live table.entries fields) p)
  rw [Evictions.length_live h.counts] at hindex
  split
  · next hrank => rw [h.live_staged hrank]
  · next hrank =>
    have hrelative := h.live_base (show index - (fields.length - self.evicted.staged) <
      table.entries.length - self.evicted.base by omega)
    rw [show fields.length - self.evicted.staged +
      (index - (fields.length - self.evicted.staged)) = index by omega] at hrelative ⊢
    rw [hrelative]

theorem Drafts.least_staged_exact (hlawful' : Directory.Lawful E count keys')
    (h : self.Drafts keys keys' records table fields) (field : Entry) :
    Least (fields.length - self.evicted.staged)
      (fun rank => fields[fields.length - rank - 1]?.bind fun found =>
        if decide (found = field) then some rank else none)
      (self.pending.exact field (self.table.seed.digest field) self.evicted.staged
        fun ordinal => self.relative (.staged ordinal)) := by
  refine (h.holds.least_exact hlawful' field _ _).congr fun rank hrank => ?_
  have hordinal : fields.length - rank - 1 < fields.length := by omega
  rw [List.getElem?_eq_getElem hordinal, Option.bind_some, Option.bind_some,
    h.relative_staged hordinal, show fields.length - (fields.length - rank - 1) - 1 = rank by omega]
  refine if_congr ?_ rfl rfl
  rw [decide_eq_true_iff, Entry.ext_iff]
  exact ⟨fun hcase => hcase.2, fun hsame => ⟨by omega, hsame⟩⟩

theorem Drafts.least_staged_needle (hlawful' : Directory.Lawful E count keys')
    (h : self.Drafts keys keys' records table fields) (name : Bytes) :
    Least (fields.length - self.evicted.staged)
      (fun rank => fields[fields.length - rank - 1]?.bind fun found =>
        if decide (found.name = name) then some rank else none)
      (self.pending.needle name (self.table.seed.name name) self.evicted.staged
        fun ordinal => self.relative (.staged ordinal)) := by
  refine (h.holds.least_needle hlawful' name _ _).congr fun rank hrank => ?_
  have hordinal : fields.length - rank - 1 < fields.length := by omega
  rw [List.getElem?_eq_getElem hordinal, Option.bind_some, Option.bind_some,
    h.relative_staged hordinal, show fields.length - (fields.length - rank - 1) - 1 = rank by omega]
  refine if_congr ?_ rfl rfl
  rw [decide_eq_true_iff]
  exact ⟨fun hcase => hcase.2, fun hsame => ⟨by omega, hsame⟩⟩

theorem Drafts.least_base_exact (hlawful : Directory.Lawful D count keys)
    (h : self.Drafts keys keys' records table fields) (field : Entry) :
    Least (table.entries.length - self.evicted.base)
      (fun relative => table.entries[relative]?.bind fun found =>
        if decide (found = field) then some (fields.length - self.evicted.staged + relative)
        else none)
      (self.table.findExact field (table.entries.length - self.evicted.base)
        fun relative => self.relative (.base relative)) := by
  refine ((h.tracks.least_findExact hlawful field _ _).restrict (Nat.sub_le _ _)
    fun index hindex hge => ?_).congr fun index hindex => ?_
  · rw [List.getElem?_eq_getElem hindex, Option.bind_some]
    exact if_neg fun hcase => by omega
  · rw [List.getElem?_eq_getElem (show index < table.entries.length by omega), Option.bind_some,
      Option.bind_some, h.relative_base]
    refine if_congr ?_ rfl rfl
    rw [decide_eq_true_iff, Entry.ext_iff]
    exact ⟨fun hcase => hcase.2, fun hsame => ⟨hindex, hsame⟩⟩

theorem Drafts.least_base_needle (hlawful : Directory.Lawful D count keys)
    (h : self.Drafts keys keys' records table fields) (name : Bytes) :
    Least (table.entries.length - self.evicted.base)
      (fun relative => table.entries[relative]?.bind fun found =>
        if decide (found.name = name) then some (fields.length - self.evicted.staged + relative)
        else none)
      (self.table.findNeedle name (table.entries.length - self.evicted.base)
        fun relative => self.relative (.base relative)) := by
  refine ((h.tracks.least_findNeedle hlawful name _ _).restrict (Nat.sub_le _ _)
    fun index hindex hge => ?_).congr fun index hindex => ?_
  · rw [List.getElem?_eq_getElem hindex, Option.bind_some]
    exact if_neg fun hcase => by omega
  · rw [List.getElem?_eq_getElem (show index < table.entries.length by omega), Option.bind_some,
      Option.bind_some, h.relative_base]
    refine if_congr ?_ rfl rfl
    rw [decide_eq_true_iff]
    exact ⟨fun hcase => hcase.2, fun hsame => ⟨hindex, hsame⟩⟩

theorem Drafts.exactIndex_eq {count' : ℕ} (hlawful : Directory.Lawful D count keys)
    (hlawful' : Directory.Lawful E count' keys')
    (h : self.Drafts keys keys' records table fields) (field : Entry) :
    self.exactIndex field = (self.evicted.live table.entries fields).findIdx? (· = field) := by
  rw [← h.least_or (h.least_staged_exact hlawful' field) (h.least_base_exact hlawful field)]
  rw [exactIndex, exact, h.baseLen_eq, Option.bind_some]
  cases self.pending.exact field (self.table.seed.digest field) self.evicted.staged
    fun ordinal => self.relative (.staged ordinal) with
  | none => rw [Option.none_or]
  | some index => rfl

theorem Drafts.needleIndex_eq {count' : ℕ} (hlawful : Directory.Lawful D count keys)
    (hlawful' : Directory.Lawful E count' keys')
    (h : self.Drafts keys keys' records table fields) (name : Bytes) :
    self.needleIndex name =
      (self.evicted.live table.entries fields).findIdx? (·.name = name) := by
  rw [← h.least_or (h.least_staged_needle hlawful' name) (h.least_base_needle hlawful name)]
  rw [needleIndex, needle, h.baseLen_eq, Option.bind_some]
  cases self.pending.needle name (self.table.seed.name name) self.evicted.staged
    fun ordinal => self.relative (.staged ordinal) with
  | none => rw [Option.none_or]
  | some index => rfl

/-- What a search for both finds: an exact match, and with it the name of an entry that is not
older; or the newest entry with the name. -/
theorem Drafts.bothIndex_spec {count' : ℕ} (hlawful : Directory.Lawful D count keys)
    (hlawful' : Directory.Lawful E count' keys')
    (h : self.Drafts keys keys' records table fields) (field : Entry) :
    (self.bothIndex field).exact =
        (self.evicted.live table.entries fields).findIdx? (· = field) ∧
      ((self.bothIndex field).exact = none → (self.bothIndex field).name =
        (self.evicted.live table.entries fields).findIdx? (·.name = field.name)) ∧
      ∀ index, (self.bothIndex field).exact = some index → ∃ other ≤ index,
        (self.bothIndex field).name = some other ∧ ∃ entry,
          (self.evicted.live table.entries fields)[other]? = some entry ∧
            entry.name = field.name := by
  have hexact := h.least_staged_exact hlawful' field
  have hneedle := h.least_staged_needle hlawful' field.name
  have hexact' := h.least_base_exact hlawful field
  have hneedle' := h.least_base_needle hlawful field.name
  rw [← h.least_or hexact hexact', ← h.least_or hneedle hneedle', bothIndex, both, Buffer.both,
    h.baseLen_eq]
  have hdigest : (self.table.seed.digest field).name = self.table.seed.name field.name := rfl
  rw [hdigest]
  generalize self.pending.exact field (self.table.seed.digest field) self.evicted.staged
    (fun ordinal => self.relative (.staged ordinal)) = staged at *
  generalize self.pending.needle field.name (self.table.seed.name field.name) self.evicted.staged
    (fun ordinal => self.relative (.staged ordinal)) = stagedName at *
  simp only [Direct.both]
  generalize self.table.findExact field (table.entries.length - self.evicted.base)
    (fun relative => self.relative (.base relative)) = base at *
  generalize self.table.findNeedle field.name (table.entries.length - self.evicted.base)
    (fun relative => self.relative (.base relative)) = baseName at *
  cases staged with
  | some rank =>
    refine ⟨rfl, nofun, fun index hindex => ⟨index, le_rfl, hindex, ?_⟩⟩
    obtain rfl := Option.some.inj hindex
    -- The exact match itself has the name.
    obtain ⟨rank', hrank, hplace⟩ := hexact.eq_some
    obtain ⟨entry, hentry, hsome⟩ := Option.bind_eq_some_iff.mp hplace
    simp only [Option.ite_none_right_eq_some, Option.some.injEq, decide_eq_true_eq] at hsome
    obtain ⟨rfl, rfl⟩ := hsome
    exact ⟨entry, by rw [h.live_staged hrank, hentry], rfl⟩
  | none =>
    simp only [Option.none_or, Option.isSome_none, Bool.false_eq_true, if_false]
    cases base with
    | none => exact ⟨rfl, fun _ => rfl, nofun⟩
    | some index =>
      refine ⟨rfl, nofun, fun index' hindex => ?_⟩
      obtain rfl := Option.some.inj hindex
      obtain ⟨relative, hrelative, hplace⟩ := hexact'.eq_some
      obtain ⟨entry, hentry, hsome⟩ := Option.bind_eq_some_iff.mp hplace
      simp only [Option.ite_none_right_eq_some, Option.some.injEq, decide_eq_true_eq] at hsome
      obtain ⟨rfl, rfl⟩ := hsome
      cases stagedName with
      | none => exact ⟨_, le_rfl, rfl, entry, by rw [h.live_base hrelative, hentry], rfl⟩
      | some rank =>
        obtain ⟨rank', hrank, hplace⟩ := hneedle.eq_some
        obtain ⟨named, hnamed, hsome⟩ := Option.bind_eq_some_iff.mp hplace
        simp only [Option.ite_none_right_eq_some, Option.some.injEq, decide_eq_true_eq] at hsome
        obtain ⟨hname, rfl⟩ := hsome
        exact ⟨rank', by omega, rfl, named, by rw [h.live_staged hrank, hnamed], hname⟩

/-- The entry at a position of a transaction, if it is not evicted. -/
def entry (self : Draft D E) : Position → Option Entry
  | .base relative =>
    if relative < self.table.store.entries.len - self.evicted.base then
      self.table.store.field relative
    else none
  | .staged ordinal =>
    if self.evicted.staged ≤ ordinal then (self.pending.get ordinal).map Prod.fst else none

/-- Every entry that a transaction shows has a position, and its relative index is its place. -/
theorem Drafts.entry_iff (h : self.Drafts keys keys' records table fields) (index : ℕ)
    (entry : Entry) :
    (self.evicted.live table.entries fields)[index]? = some entry ↔
      ∃ position, self.entry position = some entry ∧ self.relative position = some index := by
  have hstaged := h.counts.staged_le
  have hbase := h.counts.base_le
  have hlen := h.tracks.represents.len_eq
  constructor
  · intro hentry
    have hindex := (List.getElem?_eq_some_iff.mp hentry).1
    rw [Evictions.length_live h.counts] at hindex
    by_cases hrank : index < fields.length - self.evicted.staged
    · rw [h.live_staged hrank] at hentry
      refine ⟨.staged (fields.length - index - 1), ?_, ?_⟩
      · simp only [Draft.entry]
        rw [if_pos (by omega), h.holds.get_eq hentry, Option.map_some]
      · rw [h.relative_staged (by omega)]
        congr 1
        omega
    · have hrelative := h.live_base (show index - (fields.length - self.evicted.staged) <
        table.entries.length - self.evicted.base by omega)
      rw [show fields.length - self.evicted.staged +
        (index - (fields.length - self.evicted.staged)) = index by omega, hentry] at hrelative
      refine ⟨.base (index - (fields.length - self.evicted.staged)), ?_, ?_⟩
      · simp only [Draft.entry]
        rw [if_pos (by omega), h.tracks.represents.field_eq, ← hrelative]
      · rw [h.relative_base]
        congr 1
        omega
  · rintro ⟨position, hentry, hrelative⟩
    cases position with
    | base relative =>
      simp only [Draft.entry] at hentry
      split at hentry
      · next hless =>
        rw [h.relative_base] at hrelative
        rw [← Option.some.inj hrelative, h.live_base (by omega), ← hentry,
          h.tracks.represents.field_eq]
      · cases hentry
    | staged ordinal =>
      simp only [Draft.entry] at hentry
      split at hentry
      · next hlive =>
        obtain ⟨⟨found, size⟩, hget, rfl⟩ := Option.map_eq_some_iff.mp hentry
        have hordinal : ordinal < fields.length := by
          rw [← h.holds.length_eq]
          obtain ⟨record, hrecord, -⟩ := Option.map_eq_some_iff.mp hget
          exact (List.getElem?_eq_some_iff.mp hrecord).1
        have hfield := List.getElem?_eq_getElem hordinal
        rw [h.holds.get_eq hfield] at hget
        rw [h.relative_staged hordinal] at hrelative
        rw [← Option.some.inj hrelative, h.live_staged (by omega),
          show fields.length - (fields.length - ordinal - 1) - 1 = ordinal by omega, hfield]
        exact congrArg some (Prod.mk.inj (Option.some.inj hget)).1
      · cases hentry

end Draft

/-! ## Correctness -/

/-- A transaction shows what its table shows once it is committed: the entries at their relative
indices, the size, and what a search finds. The name that goes with an exact match is that of an
entry that is not older than the match. -/
structure Draft.Shows (draft : Draft D E) (table : Direct D) : Prop where
  base : draft.table = table
  rollback : draft.rollback.1 = table
  entry : ∀ index entry, draft.commit.1.store.field index = some entry ↔
    ∃ position, draft.entry position = some entry ∧ draft.relative position = some index
  evicted : draft.commit.1.store.entries.len + draft.evicted.base + draft.evicted.staged =
    table.store.entries.len + draft.pending.records.length
  size : draft.evicted.size = draft.commit.1.store.entries.size
  exactIndex : ∀ field,
    draft.exactIndex field = (draft.commit.1.search field.name field.value).exact
  needleIndex : ∀ name,
    draft.needleIndex name = draft.commit.1.findNeedle name draft.commit.1.store.entries.len some
  bothIndex : ∀ field,
    (draft.bothIndex field).exact = (draft.commit.1.search field.name field.value).exact ∧
      ((draft.bothIndex field).exact = none →
        draft.bothIndex field = draft.commit.1.search field.name field.value) ∧
      ∀ index, (draft.bothIndex field).exact = some index → ∃ other ≤ index,
        (draft.bothIndex field).name = some other ∧ ∃ entry,
          draft.commit.1.store.field other = some entry ∧ entry.name = field.name
  failed : ∀ field error, draft.tryInsert field = .error error →
    draft.apply (.tryInsert field) = draft
  refused : ∀ field accept error, draft.tryAdmit field accept = .error error →
    draft.apply (.tryAdmit field accept) = draft

namespace Draft

variable {keys : D → ℕ → Option ℕ} {keys' : E → ℕ → Option ℕ} {self : Draft D E}
  {records : List Record} {table : Table} {fields : List Entry} {count count' : ℕ}

theorem Drafts.shows (hlawful : Directory.Lawful D count keys)
    (hlawful' : Directory.Lawful E count' keys')
    (h : self.Drafts keys keys' records table fields)
    (hcount : table.capacity / entryOverhead ≤ count) : self.Shows self.table := by
  obtain ⟨records', hcommit, -⟩ := h.commit hlawful hcount
  have hrep := hcommit.represents
  obtain hqueue := h.queue
  have hfield : ∀ index, self.commit.1.store.field index =
      (self.evicted.live table.entries fields)[index]? := by
    intro index
    rw [hrep.field_eq, hqueue]
  have hsearch : ∀ field : Entry, self.commit.1.search field.name field.value =
      ⟨(self.evicted.live table.entries fields).findIdx? (· = field),
        ((self.evicted.live table.entries fields).findIdx? (· = field)).or
          ((self.evicted.live table.entries fields).findIdx? (·.name = field.name))⟩ := by
    intro field
    rw [hcommit.search_eq hlawful, hqueue]
  have hlength := Evictions.length_live h.counts
  have hbase := h.counts.base_le
  have hstaged := h.counts.staged_le
  refine ⟨rfl, rfl, fun index entry => ?_, ?_, ?_, fun field => ?_, fun name => ?_,
    fun field => ?_, fun field error herror => ?_, fun field accept error herror => ?_⟩
  · rw [hfield, h.entry_iff]
  · rw [hrep.len_eq, hqueue, hlength, h.tracks.represents.len_eq, h.holds.length_eq]
    omega
  · rw [hrep.size_eq, hqueue, h.counts.size]
  · rw [h.exactIndex_eq hlawful hlawful', hsearch]
  · rw [h.needleIndex_eq hlawful hlawful', hcommit.findNeedle_eq hlawful, hqueue]
  · obtain ⟨hexact, hnone, hsome⟩ := h.bothIndex_spec hlawful hlawful' field
    refine ⟨by rw [hexact, hsearch], fun hmiss => ?_, fun index hindex => ?_⟩
    · rw [hsearch, ← hexact, hmiss, Option.none_or, ← hnone hmiss, ← hmiss]
    · obtain ⟨other, hle, hname, entry, hentry, hsame⟩ := hsome index hindex
      exact ⟨other, hle, hname, entry, by rw [hfield, hentry], hsame⟩
  · rw [Draft.apply, herror]
    rfl
  · rw [Draft.apply, herror]
    rfl

end Draft

namespace Session

variable {keys : D → ℕ → Option ℕ} {keys' : E → ℕ → Option ℕ} {capacity entries : ℕ}
  {self : Session D E}

/-- A table and a buffer between two transactions. -/
structure Ready (keys : D → ℕ → Option ℕ) (keys' : E → ℕ → Option ℕ) (capacity entries : ℕ)
    (session : Session D E) : Prop where
  tracks : ∃ records table, session.table.Tracks keys records table ∧ table.capacity = capacity
  holds : ∃ fields, session.pending.Holds keys' session.table.seed fields
  entries_eq : session.pending.entries = entries

theorem Ready.draft (hlawful' : Directory.Lawful E entries keys')
    (h : self.Ready keys keys' capacity entries) (ops : List Op) :
    ∃ records table fields, (self.draft ops).Drafts keys keys' records table fields ∧
      table.capacity = capacity ∧ (self.draft ops).table = self.table ∧
      (self.draft ops).pending.entries = entries := by
  obtain ⟨⟨records, table, htracks, hcapacity⟩, ⟨fields, hholds⟩, hentries⟩ := h
  have hclear := (hholds.clear (hentries ▸ hlawful')).2
  obtain ⟨fields', hdrafts, htable, hkept⟩ :=
    (Draft.drafts_new (hentries ▸ hlawful') htracks hholds).run hlawful' (hclear.trans hentries) ops
  exact ⟨records, table, fields', hdrafts, hcapacity, htable, hkept⟩

theorem Ready.apply (hlawful : Directory.Lawful D (capacity / entryOverhead) keys)
    (hlawful' : Directory.Lawful E entries keys') (h : self.Ready keys keys' capacity entries)
    (step : Step) : (self.apply step).Ready keys keys' capacity entries := by
  cases step with
  | edit op =>
    obtain ⟨⟨records, table, htracks, hcapacity⟩, ⟨fields, hholds⟩, hentries⟩ := h
    obtain ⟨records', hnext⟩ := htracks.apply hlawful (hcapacity ▸ le_rfl) op
    refine ⟨⟨records', _, hnext, (Direct.Op.queued_capacity table op).trans hcapacity⟩,
      ⟨fields, ?_⟩, hentries⟩
    have hseed : (self.table.apply op).seed = self.table.seed := self.table.apply_seed op
    show self.pending.Holds keys' (self.table.apply op).seed fields
    rwa [hseed]
  | transact ops ending =>
    obtain ⟨records, table, fields, hdrafts, hcapacity, htable, hentries⟩ := h.draft hlawful' ops
    cases ending with
    | commit =>
      obtain ⟨records', hcommit, hseed⟩ := hdrafts.commit hlawful (hcapacity ▸ le_rfl)
      refine ⟨⟨records', _, hcommit, (Draft.foldl_insert_capacity table fields).trans hcapacity⟩,
        ⟨fields, ?_⟩, hentries⟩
      show (self.draft ops).pending.Holds keys' (self.draft ops).commit.1.seed fields
      rw [hseed]
      exact hdrafts.holds
    | rollback =>
      obtain ⟨hholds, hkept⟩ := hdrafts.holds.clear (hentries ▸ hlawful')
      exact ⟨⟨records, table, hdrafts.tracks, hcapacity⟩, ⟨[], hholds⟩, hkept.trans hentries⟩
    | drop =>
      exact ⟨⟨records, table, hdrafts.tracks, hcapacity⟩, ⟨fields, hdrafts.holds⟩, hentries⟩

theorem Ready.run (hlawful : Directory.Lawful D (capacity / entryOverhead) keys)
    (hlawful' : Directory.Lawful E entries keys') (h : self.Ready keys keys' capacity entries)
    (steps : List Step) : (self.run steps).Ready keys keys' capacity entries := by
  induction steps generalizing self with
  | nil => exact h
  | cons step steps ih => exact ih (h.apply hlawful hlawful' step)

/-- A table with one entry, and a transaction with another one of the same name. -/
def sample : Draft Directory.Listed Directory.Listed :=
  ((Session.mk (Direct.new ⟨100, 72, 136, 68, 3⟩ 100 ⟨fun _ => 0, fun _ _ => 0⟩ ⟨⟨[]⟩, ⟨[]⟩⟩)
    ⟨[], [], ⟨⟨[]⟩, ⟨[]⟩⟩, 64, 4⟩).run [.edit (.insert [97] [1])]).draft [.tryInsert ⟨[97], [2]⟩]

end Session

end Sark.Compress.Delta
