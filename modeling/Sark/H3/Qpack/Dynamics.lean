import Sark.Http.Compress.Delta
import Sark.Http.Compress.Staged
import Sark.H3.Qpack.Inputs

/-!
# Absolute indices

The dynamic tables of QPACK (`h3/src/qpack/dynamics.rs`): a table of `dynamic::table` and the number
of its insertions, by which an entry has an absolute index. The tables of the two sides differ in
how entries come into them; what is read of a table is the same.

* `Dynamics.checkFloor_iff`: the check of a capacity says whether a protected entry would
  be evicted.
* `View.Shows.preBase_eq`, `View.Shows.postBase_eq`: what a reference is resolved to.
-/

namespace Sark.Qpack

open Compress (Entry Store Slotted Kind totalSize entryOverhead evict)

namespace Dynamics

/-- `dynamics::Capacity`. -/
inductive CapacityError
  | maximum (requested maximum : ℕ)
  | count (inserted resident : ℕ)
  | absolute (oldest offset : ℕ)
  | entry (relative resident : ℕ)
  | size (name value : ℕ)
  | resident (current entry : ℕ)
  | kept (requested minimum : ℕ)
  deriving DecidableEq, Repr

/-- `dynamics::Reference`. -/
inductive ReferenceError
  | required (absolute : ℕ) (required : Reference)
  | preBase (base relative : ℕ)
  | postBase (base relative : ℕ)
  | future (absolute inserted : ℕ)
  | evicted (absolute inserted resident : ℕ)
  deriving DecidableEq, Repr

/-- `dynamics::Core`. -/
structure Core where
  maxCapacity : ℕ
  insertCount : ℕ
  deriving DecidableEq, Repr

namespace Core

/-- `Core::maximum`. -/
def maximum (self : Core) (storage : ℕ) : ℕ :=
  min self.maxCapacity storage

/-- `Core::check_limit`. -/
def checkLimit (self : Core) (capacity storage : ℕ) : Except CapacityError Unit :=
  if capacity > self.maximum storage then .error (.maximum capacity (self.maximum storage))
  else .ok ()

/-- `Core::next`, where there is a next count. -/
def next (self : Core) : Option ℕ :=
  checkedAdd self.insertCount 1

/-- `Core::commit`. -/
def commit (self : Core) (next : ℕ) : Core :=
  { self with insertCount := next }

end Core

/-- `entry_size`. -/
def entrySize (nameLen value : ℕ) : Option ℕ :=
  (checkedAdd nameLen value).bind (checkedAdd · 32)

/-- `dynamics::View`: a table, in either mode, and its count. -/
structure View (R I : Type) where
  entries : Store R I
  core : Core

variable {R I : Type} [Slotted R]

/-- The loop of `Table::check_floor`, from an entry on, for as many entries as there are left. -/
def checkEntries (entries : Store R I) (capacity floor oldest : ℕ) (offset size : ℕ) :
    ℕ → Except CapacityError Unit
  | 0 => if size > capacity then .error (.kept capacity size) else .ok ()
  | turns + 1 =>
    if size ≤ capacity then .ok ()
    else
      match checkedAdd oldest offset with
      | none => .error (.absolute oldest offset)
      | some absolute =>
        if absolute ≥ floor then .error (.kept capacity size)
        else
          let relative := entries.entries.len - offset - 1
          match entries.field relative with
          | none => .error (.entry relative entries.entries.len)
          | some entry =>
            match entrySize entry.name.length entry.value.length with
            | none => .error (.size entry.name.length entry.value.length)
            | some entrySize =>
              match Fallible.sub size entrySize with
              | none => .error (.resident size entrySize)
              | some size => checkEntries entries capacity floor oldest (offset + 1) size turns

namespace View

/-- `Table::check_floor`. -/
def checkFloor (self : View R I) (capacity floor : ℕ) : Except CapacityError Unit := do
  self.core.checkLimit capacity self.entries.layout.capacity
  match Fallible.sub self.core.insertCount self.entries.entries.len with
  | none => .error (.count self.core.insertCount self.entries.entries.len)
  | some oldest =>
    checkEntries self.entries capacity floor oldest 0 self.entries.entries.size
      self.entries.entries.len

/-- `View::resolve`. -/
def resolve (self : View R I) (required : Reference) (absolute : ℕ) :
    Except ReferenceError Entry :=
  if absolute ≥ required.count then .error (.required absolute required)
  else if absolute ≥ self.core.insertCount then .error (.future absolute self.core.insertCount)
  else
    match self.entries.field (self.core.insertCount - absolute - 1) with
    | some entry => .ok entry
    | none => .error (.evicted absolute self.core.insertCount self.entries.entries.len)

/-- `View::pre_base`. -/
def preBase (self : View R I) (required : Reference) (base relative : ℕ) :
    Except ReferenceError Entry :=
  match (Fallible.sub base relative).bind (Fallible.sub · 1) with
  | none => .error (.preBase base relative)
  | some absolute => self.resolve required absolute

/-- `View::post_base`. -/
def postBase (self : View R I) (required : Reference) (base relative : ℕ) :
    Except ReferenceError Entry :=
  match checkedAdd base relative with
  | none => .error (.postBase base relative)
  | some absolute => self.resolve required absolute

/-- The live entry with an absolute index. -/
def live (self : View R I) (absolute : ℕ) : Option Entry :=
  if absolute < self.core.insertCount then
    self.entries.field (self.core.insertCount - absolute - 1)
  else none

end View

/-! ## What a table shows -/

/-- What is resolved, by all insertions there were and the number of those that are live. -/
def answer (history : List Entry) (resident : ℕ) (required : Reference) (absolute : ℕ) :
    Except ReferenceError Entry :=
  if required.count ≤ absolute then .error (.required absolute required)
  else
    match history[absolute]? with
    | none => .error (.future absolute history.length)
    | some entry =>
      if history.length ≤ absolute + resident then .ok entry
      else .error (.evicted absolute history.length resident)

theorem insert_isPrefix (queue : Compress.Table) (entry : Entry) :
    (queue.insert entry).entries <+: entry :: queue.entries := by
  rw [Compress.Table.insert]
  split
  next hfits =>
    rw [Compress.Table.publish_entries]
    exact (List.prefix_cons_inj entry).mpr (Compress.evict_isPrefix _)
  next => exact List.nil_prefix

/-- A view shows the newest of all insertions there were. -/
structure View.Shows (view : View R I) (history : List Entry) : Prop where
  count_eq : view.core.insertCount = history.length
  resident_le : view.entries.entries.len ≤ history.length
  field_eq : ∀ index, view.entries.field index =
    if index < view.entries.entries.len then history.reverse[index]? else none

namespace View.Shows

variable {view : View R I} {history : List Entry}

/-- The live entries are the newest insertions, by the order of their insertion. -/
theorem live_eq (h : view.Shows history) (absolute : ℕ) : view.live absolute =
    if history.length ≤ absolute + view.entries.entries.len then history[absolute]? else none := by
  have hresident := h.resident_le
  rw [View.live, h.count_eq, h.field_eq]
  by_cases habsolute : absolute < history.length
  · rw [if_pos habsolute, List.getElem?_reverse (by omega)]
    have hindex : history.length - 1 - (history.length - absolute - 1) = absolute := by omega
    rw [hindex]
    by_cases hlive : history.length ≤ absolute + view.entries.entries.len
    · rw [if_pos (by omega), if_pos hlive]
    · rw [if_neg (by omega), if_neg hlive]
  · rw [if_neg habsolute, List.getElem?_eq_none (by omega), ite_self]

theorem resolve_eq (h : view.Shows history) (required : Reference) (absolute : ℕ) :
    view.resolve required absolute =
      answer history view.entries.entries.len required absolute := by
  rw [View.resolve, answer]
  by_cases hrequired : required.count ≤ absolute
  · rw [if_pos hrequired, if_pos hrequired]
  · rw [if_neg hrequired, if_neg hrequired, h.count_eq]
    have hlive := h.live_eq absolute
    rw [View.live, h.count_eq] at hlive
    by_cases habsolute : absolute < history.length
    · rw [if_pos habsolute, List.getElem?_eq_getElem habsolute] at hlive
      rw [if_neg (by omega), List.getElem?_eq_getElem habsolute, hlive]
      dsimp only
      by_cases hold : history.length ≤ absolute + view.entries.entries.len
      · rw [if_pos hold, if_pos hold]
      · rw [if_neg hold, if_neg hold]
    · rw [if_pos (by omega), List.getElem?_eq_none (by omega)]

theorem preBase_eq (h : view.Shows history) (required : Reference) (base relative : ℕ) :
    view.preBase required base relative =
      if relative < base then
        answer history view.entries.entries.len required (base - relative - 1)
      else .error (.preBase base relative) := by
  rw [View.preBase]
  by_cases hbase : relative < base
  · have hone : 1 ≤ base - relative := by omega
    rw [if_pos hbase, Fallible.sub_of_le hbase.le, Option.bind_some, Fallible.sub_of_le hone]
    exact h.resolve_eq required _
  · have hnone : (Fallible.sub base relative).bind (Fallible.sub · 1) = none := by
      rw [Option.bind_eq_none_iff]
      intro rest hrest
      obtain ⟨-, rfl⟩ := Fallible.sub_eq_some_iff.mp hrest
      exact if_neg (by omega)
    rw [if_neg hbase, hnone]

theorem postBase_eq (h : view.Shows history) (required : Reference) (base relative : ℕ) :
    view.postBase required base relative =
      if base + relative < 2 ^ 64 then
        answer history view.entries.entries.len required (base + relative)
      else .error (.postBase base relative) := by
  rw [View.postBase, checkedAdd]
  by_cases hword : base + relative < 2 ^ 64
  · rw [if_pos hword, if_pos hword]
    exact h.resolve_eq required _
  · rw [if_neg hword, if_neg hword]

theorem of_represents [Kind R I] {store : Store R I} {core : Core} {arenas : ℕ} {records : List R}
    {entries : List Entry} (h : store.Represents arenas records entries)
    (hnewest : entries <+: history.reverse) (hcount : core.insertCount = history.length) :
    View.Shows ⟨store, core⟩ history := by
  have hle := hnewest.length_le
  rw [List.length_reverse, ← h.len_eq] at hle
  refine ⟨hcount, hle, fun index => ?_⟩
  rw [h.field_eq]
  dsimp only
  by_cases hindex : index < store.entries.len
  · rw [if_pos hindex]
    obtain ⟨rest, hrest⟩ := hnewest
    rw [h.len_eq] at hindex
    rw [← hrest, List.getElem?_append_left hindex]
  · rw [if_neg hindex]
    rw [h.len_eq] at hindex
    exact List.getElem?_eq_none (by omega)

end View.Shows

theorem answer_eq_ok_iff {history : List Entry} {resident absolute : ℕ} {required : Reference}
    {entry : Entry} : answer history resident required absolute = .ok entry ↔
      absolute < required.count ∧
        (if history.length ≤ absolute + resident then history[absolute]? else none) =
          some entry := by
  rw [answer]
  by_cases hrequired : required.count ≤ absolute
  · rw [if_pos hrequired]
    exact iff_of_false (by simp) fun h => absurd h.1 (Nat.not_lt.mpr hrequired)
  · rw [if_neg hrequired]
    by_cases hold : history.length ≤ absolute + resident
    · cases hentry : history[absolute]? <;> simp [hold, Nat.not_le.mp hrequired]
    · cases hentry : history[absolute]? <;> simp [hold]

/-- A reference is resolved to the live entry with the absolute index it denotes; of all other
references it is said why there is none. -/
structure View.Refers (view : View R I) (history : List Entry) : Prop where
  live_eq : ∀ absolute, view.live absolute =
    if history.length ≤ absolute + view.entries.entries.len then history[absolute]? else none
  preBase_eq_ok_iff : ∀ required base relative entry,
    view.preBase required base relative = .ok entry ↔ ∃ absolute, base = absolute + relative + 1 ∧
      absolute < required.count ∧ view.live absolute = some entry
  postBase_eq_ok_iff : ∀ required base relative entry,
    view.postBase required base relative = .ok entry ↔
      base + relative < required.count ∧ view.live (base + relative) = some entry
  preBase_eq : ∀ required base relative, view.preBase required base relative =
    if relative < base then
      answer history view.entries.entries.len required (base - relative - 1)
    else .error (.preBase base relative)
  postBase_eq : ∀ required base relative, view.postBase required base relative =
    if base + relative < 2 ^ 64 then
      answer history view.entries.entries.len required (base + relative)
    else .error (.postBase base relative)

theorem View.Shows.refers {view : View R I} {history : List Entry} (h : view.Shows history)
    (hword : view.core.insertCount < 2 ^ 64) : view.Refers history where
  live_eq := h.live_eq
  preBase_eq := h.preBase_eq
  postBase_eq := h.postBase_eq
  preBase_eq_ok_iff required base relative entry := by
    rw [h.preBase_eq]
    by_cases hbase : relative < base
    · rw [if_pos hbase, answer_eq_ok_iff, ← h.live_eq]
      constructor
      · rintro ⟨hlt, hlive⟩
        exact ⟨base - relative - 1, by omega, hlt, hlive⟩
      · rintro ⟨absolute, rfl, hlt, hlive⟩
        have habsolute : absolute + relative + 1 - relative - 1 = absolute := by omega
        rw [habsolute]
        exact ⟨hlt, hlive⟩
    · rw [if_neg hbase]
      refine iff_of_false (by simp) ?_
      rintro ⟨absolute, rfl, -⟩
      omega
  postBase_eq_ok_iff required base relative entry := by
    rw [h.postBase_eq]
    by_cases hsum : base + relative < 2 ^ 64
    · rw [if_pos hsum, answer_eq_ok_iff, ← h.live_eq]
    · -- No entry has an index that is not a word.
      have hnone : view.live (base + relative) = none := if_neg (by omega)
      rw [if_neg hsum, hnone]
      exact iff_of_false (by simp) (by simp)

/-! ## The check of a capacity -/

section CheckFloor

open Compress (evict_of_not)
open Compress.Table (overLimit)

variable [Kind R I] {store : Store R I} {core : Core} {arenas capacity floor oldest : ℕ}
  {records : List R} {entries remaining : List Entry}

theorem evict_concat {entry : Entry}
    (h : capacity < totalSize (remaining ++ [entry])) :
    evict (overLimit capacity) (remaining ++ [entry]) = evict (overLimit capacity) remaining := by
  have hfull : remaining ++ [entry] ≠ [] ∧ overLimit capacity (remaining ++ [entry]) = true :=
    ⟨by simp, decide_eq_true h⟩
  rw [evict, if_pos hfull, List.dropLast_concat]

theorem evict_of_le (h : totalSize remaining ≤ capacity) :
    evict (overLimit capacity) remaining = remaining :=
  evict_of_not (decide_eq_false (Nat.not_lt.mpr h))

/-- The loop fails at the first entry that would be evicted though it is protected. -/
theorem checkEntries_iff (h : store.Represents arenas records entries)
    (hword : oldest + entries.length < 2 ^ 64) (hlead : remaining <+: entries) :
    checkEntries store capacity floor oldest (entries.length - remaining.length)
        (totalSize remaining) remaining.length = .ok () ↔
      ∀ offset < entries.length - (evict (overLimit capacity) remaining).length,
        entries.length - remaining.length ≤ offset → oldest + offset < floor := by
  induction remaining using List.reverseRecOn with
  | nil =>
    have hfits : ¬totalSize [] > capacity := Nat.not_lt_zero _
    rw [List.length_nil, checkEntries, if_neg hfits, evict_of_le (Nat.zero_le _)]
    refine iff_of_true rfl fun offset hlt hge => ?_
    rw [List.length_nil] at hlt
    omega
  | append_singleton remaining entry ih =>
    have hle := hlead.length_le
    rw [List.length_append, List.length_singleton] at hle
    rw [List.length_append, List.length_singleton, checkEntries]
    by_cases hfits : totalSize (remaining ++ [entry]) ≤ capacity
    · rw [if_pos hfits, evict_of_le hfits, List.length_append, List.length_singleton]
      exact iff_of_true rfl fun offset hlt hge => by omega
    · have hindex : oldest + (entries.length - (remaining.length + 1)) < 2 ^ 64 := by omega
      have hadd : checkedAdd oldest (entries.length - (remaining.length + 1)) =
          some (oldest + (entries.length - (remaining.length + 1))) := if_pos hindex
      have hkept : (evict (overLimit capacity) remaining).length ≤ remaining.length :=
        (Compress.evict_isPrefix remaining).length_le
      rw [if_neg hfits, evict_concat (Nat.not_le.mp hfits), hadd]
      dsimp only
      by_cases hfloor : oldest + (entries.length - (remaining.length + 1)) ≥ floor
      · rw [if_pos hfloor]
        refine iff_of_false (by simp) fun hall => ?_
        have hfirst := hall (entries.length - (remaining.length + 1)) (by omega) le_rfl
        omega
      · have hrelative : store.entries.len - (entries.length - (remaining.length + 1)) - 1 =
            remaining.length := by
          rw [h.len_eq]
          omega
        obtain ⟨rest, rfl⟩ := hlead
        have hfield : store.field remaining.length = some entry := by
          rw [h.field_eq, List.append_assoc, List.getElem?_append_right le_rfl, Nat.sub_self]
          rfl
        have htotal := Compress.Store.Represents.totalSize_dropLast_add remaining entry
        have hbound : totalSize (remaining ++ [entry]) < 2 ^ 64 := by
          have hpart := Compress.totalSize_le_of_isPrefix
            (List.prefix_append (remaining ++ [entry]) rest)
          have hall := h.size_le
          have hcapacity := h.planned.capacity_lt
          omega
        have hsize : entrySize entry.name.length entry.value.length = some entry.size := by
          have hentry : entry.name.length + entry.value.length + 32 = entry.size := rfl
          have hfirst : checkedAdd entry.name.length entry.value.length =
              some (entry.name.length + entry.value.length) := if_pos (by omega)
          have hsecond : checkedAdd (entry.name.length + entry.value.length) 32 =
              some entry.size := if_pos (by omega)
          rw [entrySize, hfirst, Option.bind_some, hsecond]
        have hsub : Fallible.sub (totalSize (remaining ++ [entry])) entry.size =
            some (totalSize remaining) := by
          rw [htotal, Fallible.sub_of_le (Nat.le_add_left _ _), Nat.add_sub_cancel]
        have hnext : (remaining ++ [entry] ++ rest).length - (remaining.length + 1) + 1 =
            (remaining ++ [entry] ++ rest).length - remaining.length := by omega
        rw [if_neg hfloor, hrelative, hfield]
        dsimp only
        rw [hsize]
        dsimp only
        rw [hsub]
        dsimp only
        rw [hnext, ih ⟨[entry] ++ rest, by rw [List.append_assoc]⟩]
        constructor
        · intro hall offset hlt hge
          by_cases heq : offset = (remaining ++ [entry] ++ rest).length - (remaining.length + 1)
          · omega
          · exact hall offset hlt (by omega)
        · intro hall offset hlt hge
          exact hall offset hlt (by omega)

theorem checkLimit_eq_ok_iff {storage : ℕ} :
    core.checkLimit capacity storage = .ok () ↔ capacity ≤ core.maximum storage := by
  rw [Core.checkLimit]
  split_ifs with h
  · exact iff_of_false (by simp) (Nat.not_le.mpr h)
  · exact iff_of_true rfl (Nat.not_lt.mp h)

/-- A capacity is accepted if it is one of the table and if all entries that would be evicted are in
front of the floor. -/
theorem checkFloor_iff (h : store.Represents arenas records entries)
    (hcount : entries.length ≤ core.insertCount) (hword : core.insertCount < 2 ^ 64) :
    (⟨store, core⟩ : View R I).checkFloor capacity floor = .ok () ↔
      capacity ≤ core.maximum store.layout.capacity ∧
        ∀ offset < entries.length - (evict (overLimit capacity) entries).length,
          core.insertCount - entries.length + offset < floor := by
  have holdest : Fallible.sub core.insertCount entries.length =
      some (core.insertCount - entries.length) := Fallible.sub_of_le hcount
  have hloop : checkEntries store capacity floor (core.insertCount - entries.length) 0
      (totalSize entries) entries.length = .ok () ↔
        ∀ offset < entries.length - (evict (overLimit capacity) entries).length,
          core.insertCount - entries.length + offset < floor := by
    have hall := @checkEntries_iff R I _ _ store arenas capacity floor
      (core.insertCount - entries.length) records entries entries h (by omega)
      (List.prefix_refl entries)
    rw [Nat.sub_self] at hall
    rw [hall]
    exact forall₂_congr fun offset _ => forall_prop_of_true (Nat.zero_le offset)
  rw [View.checkFloor, Except.bind_eq_ok_iff]
  simp only [h.size_eq, h.len_eq, holdest, hloop]
  constructor
  · rintro ⟨⟨⟩, hlimit, hall⟩
    exact ⟨checkLimit_eq_ok_iff.mp hlimit, hall⟩
  · rintro ⟨hmaximum, hall⟩
    exact ⟨(), checkLimit_eq_ok_iff.mpr hmaximum, hall⟩

end CheckFloor

end Dynamics

end Sark.Qpack
