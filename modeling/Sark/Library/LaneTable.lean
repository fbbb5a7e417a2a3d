import Mathlib.Data.FinEnum
import Mathlib.Data.List.ReduceOption
import Mathlib.Data.List.Perm.Subperm
import Sark.Library.ResidentHeap

/-!
# Resident records in first-in first-out lanes

A table of fixed capacity whose records live in numbered slots and may wait in one of several
lanes. A key names its slot. A record is put at the back of a lane, taken from the front, or moved
from one lane to the back of another, and it keeps its slot while it moves.

* `Sound`: the records of every lane are resident, and no record waits twice.
* `Sound.lane_eq_some_iff`: the lane of a record is the one that it waits in.
* `Sound.length_lanes_le`: two lanes together are no longer than the table.
-/

open ResidentHeap (Indexed)

/-- The slots of a table and the keys that wait in each lane, first to last. -/
structure LaneTable (K T L : Type*) where
  slots : List (Option (K × T))
  lanes : L → List K

namespace LaneTable

variable {K T L : Type*}

/-- A table without records. -/
def new (capacity : ℕ) : LaneTable K T L where
  slots := List.replicate capacity none
  lanes := fun _ => []

/-- The number of slots. -/
def capacity (table : LaneTable K T L) : ℕ := table.slots.length

/-- The resident records. -/
def records (table : LaneTable K T L) : List (K × T) := table.slots.reduceOption

/-- The number of resident records. -/
def len (table : LaneTable K T L) : ℕ := table.records.length

/-- The first record of a lane. -/
def front (table : LaneTable K T L) (lane : L) : Option K := (table.lanes lane).head?

/-- The last record of a lane. -/
def back (table : LaneTable K T L) (lane : L) : Option K := (table.lanes lane).getLast?

/-- Whether nothing waits in a lane. -/
def isVacant (table : LaneTable K T L) (lane : L) : Bool := (table.lanes lane).isEmpty

/-- Appends one lane to another and empties it. -/
def moveAll [DecidableEq L] (table : LaneTable K T L) (source target : L) : LaneTable K T L :=
  { table with
    lanes := fun lane =>
      if lane = target then table.lanes target ++ table.lanes source
      else if lane = source then []
      else table.lanes lane }

/-- Drops every record. -/
def clear (table : LaneTable K T L) : LaneTable K T L := new table.capacity

section Keys

variable [Indexed K] [DecidableEq K]

/-- The value of a resident record. -/
def get (table : LaneTable K T L) (key : K) : Option T :=
  match table.slots[Indexed.index key]? with
  | some (some (stored, value)) => if stored = key then some value else none
  | _ => none

/-- A record is in the table. -/
def Resident (table : LaneTable K T L) (key : K) : Prop := (table.get key).isSome = true

/-- Why a key has no free slot. -/
inductive Taken (K : Type*) where
  | outside (index capacity : ℕ)
  | occupied (stored : K)

/-- Whether the slot of a key is free. -/
def tryVacant (table : LaneTable K T L) (key : K) : Except (Taken K) Unit :=
  match table.slots[Indexed.index key]? with
  | none => .error (.outside (Indexed.index key) table.capacity)
  | some (some (stored, _)) => .error (.occupied stored)
  | some none => .ok ()

/-- Writes the value of a record into its slot. The lanes stay. -/
def put (table : LaneTable K T L) (key : K) (value : T) : LaneTable K T L :=
  { table with slots := table.slots.set (Indexed.index key) (some (key, value)) }

/-- Takes a record out of every lane. -/
def unlink (table : LaneTable K T L) (key : K) : LaneTable K T L :=
  { table with lanes := fun lane => (table.lanes lane).filter (· ≠ key) }

/-- Takes a record out of the table. -/
def remove (table : LaneTable K T L) (key : K) : LaneTable K T L :=
  { slots := table.slots.set (Indexed.index key) none
    lanes := fun lane => (table.lanes lane).filter (· ≠ key) }

/-- Moves a record to the back of a lane. -/
def moveToBack [DecidableEq L] (table : LaneTable K T L) (key : K) (target : L) :
    LaneTable K T L :=
  { table with
    lanes := fun lane =>
      (table.lanes lane).filter (· ≠ key) ++ if lane = target then [key] else [] }

/-- The lane that a record waits in. -/
def lane [FinEnum L] (table : LaneTable K T L) (key : K) : Option L :=
  (FinEnum.toList L).find? fun lane => key ∈ table.lanes lane

/-- The records of every lane are resident, and no record waits twice. -/
structure Sound (table : LaneTable K T L) : Prop where
  /-- A record lies in the slot that its key names. -/
  keyed : ∀ (i : ℕ) key value, table.slots[i]? = some (some (key, value)) → Indexed.index key = i
  nodup : ∀ lane, (table.lanes lane).Nodup
  /-- A record waits in one lane. -/
  apart : ∀ key lane other, key ∈ table.lanes lane → key ∈ table.lanes other → lane = other
  resident : ∀ key lane, key ∈ table.lanes lane → table.Resident key

/-! ## Reading -/

theorem get_eq_some_iff {table : LaneTable K T L} {key : K} {value : T} :
    table.get key = some value ↔
      table.slots[Indexed.index key]? = some (some (key, value)) := by
  rw [get]
  split
  · next stored found hslot =>
    rw [hslot]
    split_ifs with h
    · simp [h]
    · simp [h]
  · next hslot =>
    constructor
    · intro h
      simp at h
    · intro h
      exact absurd h (hslot key value)

theorem get_congr {table other : LaneTable K T L} {key : K}
    (h : table.slots[Indexed.index key]? = other.slots[Indexed.index key]?) :
    table.get key = other.get key := by
  rw [get, get, h]

theorem resident_of_get {table : LaneTable K T L} {key : K} {value : T}
    (h : table.get key = some value) : table.Resident key := by
  rw [Resident, h]
  rfl

theorem get_put_self {table : LaneTable K T L} {key : K} (value : T)
    (h : table.Resident key) : (table.put key value).get key = some value := by
  obtain ⟨old, hold⟩ := Option.isSome_iff_exists.mp h
  obtain ⟨hlt, -⟩ := List.getElem?_eq_some_iff.mp (get_eq_some_iff.mp hold)
  rw [get_eq_some_iff, put, List.getElem?_set_self hlt]

theorem Resident.index_ne {table : LaneTable K T L} {key other : K} (hkey : table.Resident key)
    (hother : table.Resident other) (hne : other ≠ key) :
    Indexed.index key ≠ Indexed.index other := by
  intro hslot
  obtain ⟨left, hleft⟩ := Option.isSome_iff_exists.mp hother
  obtain ⟨right, hright⟩ := Option.isSome_iff_exists.mp hkey
  rw [get_eq_some_iff] at hleft hright
  rw [hslot, hleft] at hright
  exact hne (congrArg Prod.fst (Option.some.inj (Option.some.inj hright)))

theorem get_put_of_ne {table : LaneTable K T L} {key other : K} (value : T)
    (hother : table.Resident other) (hkey : table.Resident key) (hne : other ≠ key) :
    (table.put key value).get other = table.get other := by
  apply get_congr
  rw [put, List.getElem?_set_ne (hkey.index_ne hother hne)]

theorem Resident.put_self {table : LaneTable K T L} {key : K} (value : T)
    (h : table.Resident key) : (table.put key value).Resident key :=
  resident_of_get (get_put_self value h)

theorem Resident.put {table : LaneTable K T L} {key other : K} (value : T)
    (hkey : table.Resident key) (hother : table.Resident other) :
    (table.put key value).Resident other := by
  by_cases hne : other = key
  · subst hne
    exact hkey.put_self value
  · rw [Resident, get_put_of_ne value hother hkey hne]
    exact hother

theorem not_resident_remove (table : LaneTable K T L) (key : K) :
    ¬ (table.remove key).Resident key := by
  rw [Resident, get]
  have hslot : ∀ value, (table.remove key).slots[Indexed.index key]? ≠ some (some value) := by
    intro value h
    rw [remove, List.getElem?_set, if_pos rfl] at h
    split_ifs at h
    simp at h
  split
  · next hfound => exact absurd hfound (hslot _)
  · simp

theorem Resident.remove {table : LaneTable K T L} {key other : K} (hkey : table.Resident key)
    (hother : table.Resident other) (hne : other ≠ key) : (table.remove key).Resident other := by
  have hget : (table.remove key).get other = table.get other := by
    apply get_congr
    rw [LaneTable.remove, List.getElem?_set_ne (hkey.index_ne hother hne)]
  rw [Resident, hget]
  exact hother

theorem Resident.of_put {table : LaneTable K T L} {key other : K} {value : T}
    (h : (table.put key value).Resident other) (hne : other ≠ key) : table.Resident other := by
  obtain ⟨found, hfound⟩ := Option.isSome_iff_exists.mp h
  rw [get_eq_some_iff, LaneTable.put, List.getElem?_set] at hfound
  split_ifs at hfound
  · simp only [Option.some.injEq, Prod.mk.injEq] at hfound
    exact absurd hfound.1.symm hne
  · exact resident_of_get (get_eq_some_iff.mpr hfound)

theorem Resident.of_remove {table : LaneTable K T L} {key other : K}
    (h : (table.remove key).Resident other) : table.Resident other := by
  obtain ⟨found, hfound⟩ := Option.isSome_iff_exists.mp h
  rw [get_eq_some_iff, LaneTable.remove, List.getElem?_set] at hfound
  split_ifs at hfound
  · simp at hfound
  · exact resident_of_get (get_eq_some_iff.mpr hfound)

theorem put_remove (table : LaneTable K T L) (key : K) (value : T) :
    (table.remove key).put key value = (table.put key value).unlink key := by
  simp [remove, put, unlink]

theorem remove_put (table : LaneTable K T L) (key : K) (value : T) :
    (table.put key value).remove key = table.remove key := by
  simp [remove, put]

theorem put_put (table : LaneTable K T L) (key : K) (value later : T) :
    (table.put key value).put key later = table.put key later := by
  simp [put]

omit [Indexed K] in
theorem moveToBack_unlink [DecidableEq L] (table : LaneTable K T L) (key : K) (target : L) :
    (table.unlink key).moveToBack key target = table.moveToBack key target := by
  simp [moveToBack, unlink]

omit [Indexed K] in
theorem mem_lanes_moveToBack [DecidableEq L] {table : LaneTable K T L} {key other : K}
    {target lane : L} :
    other ∈ (table.moveToBack key target).lanes lane ↔
      (other ∈ table.lanes lane ∧ other ≠ key) ∨ (other = key ∧ lane = target) := by
  simp only [moveToBack, List.mem_append, List.mem_filter, decide_eq_true_eq]
  split_ifs with h
  · simp [h]
  · simp [h]

omit [Indexed K] [DecidableEq K] in
theorem mem_lanes_moveAll [DecidableEq L] {table : LaneTable K T L} {source target lane : L}
    {key : K} (hne : source ≠ target) :
    key ∈ (table.moveAll source target).lanes lane ↔
      (key ∈ table.lanes lane ∧ lane ≠ source) ∨ (key ∈ table.lanes source ∧ lane = target) := by
  simp only [moveAll]
  split_ifs with htarget hsource
  · subst htarget
    simp [hne.symm]
  · subst hsource
    simp [hne]
  · simp [htarget, hsource]

omit [Indexed K] [DecidableEq K] in
theorem exists_mem_moveAll [DecidableEq L] {table : LaneTable K T L} {source target lane : L}
    {key : K} (hne : source ≠ target) (h : key ∈ table.lanes lane) :
    ∃ lane', key ∈ (table.moveAll source target).lanes lane' := by
  by_cases hlane : lane = source
  · exact ⟨target, (mem_lanes_moveAll hne).mpr (.inr ⟨hlane ▸ h, rfl⟩)⟩
  · exact ⟨lane, (mem_lanes_moveAll hne).mpr (.inl ⟨h, hlane⟩)⟩

/-- The lane of a record is the one that it waits in. -/
theorem Sound.lane_eq_some_iff [FinEnum L] {table : LaneTable K T L} (hsound : table.Sound)
    {key : K} {lane : L} : table.lane key = some lane ↔ key ∈ table.lanes lane := by
  constructor
  · intro h
    simpa using List.find?_some h
  · intro h
    rw [LaneTable.lane]
    cases hfind : (FinEnum.toList L).find? fun lane => key ∈ table.lanes lane with
    | none =>
      have := List.find?_eq_none.mp hfind lane (FinEnum.mem_toList lane)
      simp [h] at this
    | some other =>
      have hother : key ∈ table.lanes other := by simpa using List.find?_some hfind
      rw [hsound.apart key lane other h hother]

/-! ## The invariant -/

theorem sound_new (capacity : ℕ) : (new capacity : LaneTable K T L).Sound where
  keyed := by
    intro i key value h
    simp [new, List.getElem?_replicate] at h
  nodup := by simp [new]
  apart := by simp [new]
  resident := by simp [new]

namespace Sound

variable {table : LaneTable K T L}

theorem keyed_set (hsound : table.Sound) (key : K) (slot : Option (K × T))
    (hslot : ∀ stored value, slot = some (stored, value) → Indexed.index stored = Indexed.index key)
    (i : ℕ) (stored : K) (value : T)
    (h : (table.slots.set (Indexed.index key) slot)[i]? = some (some (stored, value))) :
    Indexed.index stored = i := by
  rw [List.getElem?_set] at h
  split_ifs at h with hi
  · subst hi
    exact hslot stored value (Option.some.inj h)
  · exact hsound.keyed i stored value h

theorem put (hsound : table.Sound) {key : K} (value : T) (hkey : table.Resident key) :
    (table.put key value).Sound where
  keyed := by
    intro i stored found h
    refine hsound.keyed_set key _ ?_ i stored found h
    rintro _ _ ⟨⟩
    rfl
  nodup := hsound.nodup
  apart := hsound.apart
  resident := by
    intro other lane hmem
    exact hkey.put value (hsound.resident other lane hmem)

/-- A free slot takes a record that waits in no lane. -/
theorem insert (hsound : table.Sound) {key : K} (value : T)
    (hfree : table.tryVacant key = .ok ()) :
    (table.put key value).Sound ∧ (table.put key value).Resident key ∧
      ¬ table.Resident key ∧
      ∀ other, table.Resident other → (table.put key value).Resident other := by
  have hslot : table.slots[Indexed.index key]? = some none := by
    rw [tryVacant] at hfree
    split at hfree <;> first | contradiction | assumption
  have hlt := (List.getElem?_eq_some_iff.mp hslot).1
  have hresident : (table.put key value).Resident key := by
    have hget : (table.put key value).get key = some value := by
      rw [get_eq_some_iff, LaneTable.put, List.getElem?_set_self hlt]
    exact resident_of_get hget
  have hothers : ∀ other, table.Resident other → (table.put key value).Resident other := by
    intro other hother
    obtain ⟨found, hfound⟩ := Option.isSome_iff_exists.mp hother
    rw [get_eq_some_iff] at hfound
    have hne : Indexed.index key ≠ Indexed.index other := by
      intro h
      rw [h, hfound] at hslot
      simp at hslot
    have hget : (table.put key value).get other = some found := by
      rw [get_eq_some_iff, LaneTable.put, List.getElem?_set_ne hne]
      exact hfound
    exact resident_of_get hget
  refine ⟨⟨?_, hsound.nodup, hsound.apart, ?_⟩, hresident, ?_, hothers⟩
  · intro i stored found h
    refine hsound.keyed_set key _ ?_ i stored found h
    rintro _ _ ⟨⟩
    rfl
  · intro other lane hmem
    exact hothers other (hsound.resident other lane hmem)
  · intro h
    obtain ⟨found, hfound⟩ := Option.isSome_iff_exists.mp h
    rw [get_eq_some_iff, hslot] at hfound
    simp at hfound

theorem unlink (hsound : table.Sound) (key : K) : (table.unlink key).Sound where
  keyed := hsound.keyed
  nodup := by
    intro lane
    exact (hsound.nodup lane).filter _
  apart := by
    intro other lane lane' h h'
    exact hsound.apart other lane lane' (List.mem_of_mem_filter h) (List.mem_of_mem_filter h')
  resident := by
    intro other lane h
    exact hsound.resident other lane (List.mem_of_mem_filter h)

theorem remove (hsound : table.Sound) {key : K} (hkey : table.Resident key) :
    (table.remove key).Sound where
  keyed := by
    intro i stored found h
    refine hsound.keyed_set key _ ?_ i stored found h
    rintro _ _ ⟨⟩
  nodup := by
    intro lane
    exact (hsound.nodup lane).filter _
  apart := by
    intro other lane lane' h h'
    exact hsound.apart other lane lane' (List.mem_of_mem_filter h) (List.mem_of_mem_filter h')
  resident := by
    intro other lane h
    have hmem := List.mem_filter.mp h
    exact hkey.remove (hsound.resident other lane hmem.1) (by simpa using hmem.2)

theorem moveToBack [DecidableEq L] (hsound : table.Sound) {key : K} (hkey : table.Resident key)
    (target : L) : (table.moveToBack key target).Sound where
  keyed := hsound.keyed
  nodup := by
    intro lane
    refine List.Nodup.append ((hsound.nodup lane).filter _) ?_ ?_
    · split_ifs <;> simp
    · intro other hmem htarget
      split_ifs at htarget
      · simp_all
      · simp at htarget
  apart := by
    intro other lane lane' h h'
    rw [mem_lanes_moveToBack] at h h'
    rcases h with ⟨hmem, hne⟩ | ⟨heq, hlane⟩
    · rcases h' with ⟨hmem', -⟩ | ⟨heq', -⟩
      · exact hsound.apart other lane lane' hmem hmem'
      · exact absurd heq' hne
    · rcases h' with ⟨-, hne'⟩ | ⟨-, hlane'⟩
      · exact absurd heq hne'
      · rw [hlane, hlane']
  resident := by
    intro other lane h
    rw [mem_lanes_moveToBack] at h
    rcases h with ⟨hmem, -⟩ | ⟨rfl, -⟩
    · exact hsound.resident other lane hmem
    · exact hkey

theorem moveAll [DecidableEq L] (hsound : table.Sound) {source target : L}
    (hne : source ≠ target) : (table.moveAll source target).Sound where
  keyed := hsound.keyed
  nodup := by
    intro lane
    simp only [LaneTable.moveAll]
    split_ifs with htarget hsource
    · refine List.Nodup.append (hsound.nodup target) (hsound.nodup source) ?_
      intro key hmem hmem'
      exact hne (hsound.apart key source target hmem' hmem)
    · exact List.nodup_nil
    · exact hsound.nodup lane
  apart := by
    intro key lane lane' h h'
    rw [mem_lanes_moveAll hne] at h h'
    rcases h with ⟨hmem, hlane⟩ | ⟨hmem, hlane⟩
    · rcases h' with ⟨hmem', -⟩ | ⟨hmem', -⟩
      · exact hsound.apart key lane lane' hmem hmem'
      · exact absurd (hsound.apart key lane source hmem hmem') hlane
    · rcases h' with ⟨hmem', hlane'⟩ | ⟨-, hlane'⟩
      · exact absurd (hsound.apart key lane' source hmem' hmem) hlane'
      · rw [hlane, hlane']
  resident := by
    intro key lane h
    rw [mem_lanes_moveAll hne] at h
    rcases h with ⟨hmem, -⟩ | ⟨hmem, -⟩
    · exact hsound.resident key lane hmem
    · exact hsound.resident key source hmem

theorem length_lanes_le (hsound : table.Sound) {lane other : L} (hne : lane ≠ other) :
    (table.lanes lane).length + (table.lanes other).length ≤ table.len := by
  have hnodup : (table.lanes lane ++ table.lanes other).Nodup := by
    refine List.Nodup.append (hsound.nodup lane) (hsound.nodup other) ?_
    intro key hmem hmem'
    exact hne (hsound.apart key lane other hmem hmem')
  have hsubset : table.lanes lane ++ table.lanes other ⊆ table.records.map Prod.fst := by
    intro key hmem
    have hresident : table.Resident key := by
      rcases List.mem_append.mp hmem with h | h
      · exact hsound.resident key lane h
      · exact hsound.resident key other h
    obtain ⟨value, hvalue⟩ := Option.isSome_iff_exists.mp hresident
    rw [get_eq_some_iff] at hvalue
    refine List.mem_map.mpr ⟨(key, value), ?_, rfl⟩
    exact List.reduceOption_mem_iff.mpr (List.mem_iff_getElem?.mpr ⟨_, hvalue⟩)
  have hle := (hnodup.subperm hsubset).length_le
  simpa [len] using hle

end Sound

end Keys

end LaneTable
