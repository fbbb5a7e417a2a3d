import Sark.H2.Conn.Registry

/-!
# The invariant of the stream registry

The counts, the index, the list of the resets and the wake queue say the same about every stream:
what each of them knows is a function of the records (`Registry.view`), and every operation changes
the record of one stream.

The callers of the registry keep a contract (`Machine.Allowed`): a duplex session is opened on an
active stream whose head is complete, it is released by the one who opened it, and the end of a
stream is queued once, behind its head.

* `Registry.Sound`, `Machine.Sound`: the invariant.
* `Machine.Sound.step`: every operation keeps it, and reaches no unreachable branch.
* `Machine.run_sound`: it holds behind every run.
-/

namespace Sark.H2

/-! ## Views -/

/-- What the index, the queue and the list of the resets know of a record. -/
inductive View
  | active
  | reset (next : Option Key)
  | closed
  deriving DecidableEq, Repr

/-- The view of a record. -/
def RecordState.view : RecordState → View
  | .active _ => .active
  | .reset pending _ => .reset pending.next
  | .closed _ => .closed

namespace Registry

/-- The view of the record of a key. -/
def view (self : Registry) (key : Key) : Option View :=
  (self.slot key).map fun record => record.state.view

theorem slot_eq_some_iff {self : Registry} {key : Key} {record : Record} :
    self.slot key = some record ↔ self.entryAt key.slot = some record ∧ record.key = key := by
  simp [slot, Option.filter_eq_some_iff]

theorem view_of_entryAt {self : Registry} {key : Key} {state : RecordState}
    (h : self.entryAt key.slot = some ⟨key, state⟩) : self.view key = some state.view := by
  rw [view, slot_eq_some_iff.mpr ⟨h, rfl⟩]
  rfl

theorem view_eq_some_iff {self : Registry} {key : Key} {view : View} :
    self.view key = some view ↔
      ∃ state, self.entryAt key.slot = some ⟨key, state⟩ ∧ state.view = view := by
  constructor
  · intro h
    obtain ⟨⟨actual, state⟩, hslot, rfl⟩ := Option.map_eq_some_iff.mp h
    obtain ⟨hentry, rfl⟩ := slot_eq_some_iff.mp hslot
    exact ⟨state, hentry, rfl⟩
  · rintro ⟨state, hentry, rfl⟩
    exact view_of_entryAt hentry

theorem entryAt_put {self : Registry} {slot : ℕ} (h : slot < self.slots.length)
    (record : Option Record) (other : ℕ) :
    (self.put slot record).entryAt other = if other = slot then record else self.entryAt other := by
  unfold entryAt put
  by_cases hother : other = slot
  · subst hother
    simp [h]
  · rw [List.getElem?_set_ne (Ne.symm hother), if_neg hother]

/-- A slot that a key may use: its record, if there is one, is the record of the key. -/
def Owns (self : Registry) (key : Key) : Prop :=
  key.slot < self.slots.length ∧ ∀ record, self.entryAt key.slot = some record → record.key = key

theorem owns_of_entryAt {self : Registry} {key : Key} {state : RecordState}
    (h : self.entryAt key.slot = some ⟨key, state⟩) : self.Owns key := by
  refine ⟨?_, fun record hrecord => ?_⟩
  · by_contra hlen
    rw [entryAt, List.getElem?_eq_none (not_lt.mp hlen)] at h
    contradiction
  · obtain rfl := Option.some.inj (h.symm.trans hrecord)
    rfl

theorem slot_put {self : Registry} {key : Key} (h : self.Owns key) (state : Option RecordState) :
    (self.put key.slot (state.map fun state => ⟨key, state⟩)).slot =
      Function.update self.slot key (state.map fun state => ⟨key, state⟩) := by
  funext other
  unfold slot
  rw [entryAt_put h.1]
  by_cases hother : other = key
  · subst hother
    rw [if_pos rfl, Function.update_self]
    cases state <;> simp
  · rw [Function.update_of_ne hother]
    by_cases hslot : other.slot = key.slot
    · -- The slot belongs to the key, so it has no record of another.
      rw [if_pos hslot]
      have hnone : (self.entryAt other.slot).filter (fun record => record.key = other) = none := by
        rw [hslot, Option.filter_eq_none_iff]
        intro record hrecord
        rw [h.2 record hrecord]
        simpa using Ne.symm hother
      rw [hnone]
      cases state with
      | none => rfl
      | some state => simp [Ne.symm hother]
    · rw [if_neg hslot]

/-- The record of a key in a registry whose slots are those of another with one slot written. -/
theorem slot_of_slots {self next : Registry} {key : Key} (howns : self.Owns key)
    {state : Option RecordState}
    (h : next.slots = (self.put key.slot (state.map fun state => ⟨key, state⟩)).slots) :
    next.slot = Function.update self.slot key (state.map fun state => ⟨key, state⟩) := by
  rw [← slot_put howns]
  funext other
  simp only [slot, entryAt, h]

theorem view_of_slots {self next : Registry} {key : Key} (howns : self.Owns key)
    {state : Option RecordState}
    (h : next.slots = (self.put key.slot (state.map fun state => ⟨key, state⟩)).slots) :
    next.view = Function.update self.view key (state.map RecordState.view) := by
  funext other
  rw [view, slot_of_slots howns h]
  by_cases hother : other = key
  · subst hother
    rw [Function.update_self, Function.update_self, Option.map_map]
    rfl
  · rw [Function.update_of_ne hother, Function.update_of_ne hother]
    rfl

/-! ## The invariant -/

/-- Whether a slot counts as an active stream of the local or of the peer side. -/
def counts (endpoint : Endpoint) (side : Bool) (slot : Option Record) : Bool :=
  match slot with
  | some ⟨key, .active _⟩ => isLocal endpoint key.id == side
  | _ => false

/-- A list of keys that is threaded through the views. -/
def Linked (view : Key → Option View) : Option Key → List Key → Prop
  | head, [] => head = none
  | head, key :: keys => head = some key ∧ ∃ next, view key = some (.reset next) ∧
      Linked view next keys

/-- The list of the resets is threaded through exactly the records that wait for their reset. -/
structure Threads (registry : Registry) (keys : List Key) : Prop where
  linked : Linked registry.view registry.pendingReset keys
  nodup : keys.Nodup
  mem : ∀ key, key ∈ keys ↔ ∃ next, registry.view key = some (.reset next)
  count : registry.resetCount = keys.length

/-- The invariant of the registry. -/
structure Sound (endpoint : Endpoint) (registry : Registry) : Prop where
  /-- A record is in the slot of its key. -/
  slot : ∀ slot record, registry.entryAt slot = some record → record.key.slot = slot
  /-- The index has the streams that are active or wait for their reset. -/
  index : ∀ key, key ∈ registry.byId ↔
    registry.view key = some .active ∨ ∃ next, registry.view key = some (.reset next)
  /-- An id is in the index at most once. -/
  ids : (registry.byId.map Key.id).Nodup
  /-- The count of the local streams. -/
  locals : registry.localCount = registry.slots.countP (counts endpoint true)
  /-- The count of the streams of the peer. -/
  peers : registry.peerCount = registry.slots.countP (counts endpoint false)
  /-- The list of the resets. -/
  resets : ∃ keys, registry.Threads keys
  /-- The wake queue. -/
  wakes : registry.sendWakes.Nodup ∧ ∀ key ∈ registry.sendWakes, registry.view key = some .active

theorem Linked.congr {view view' : Key → Option View} {keys : List Key}
    (h : ∀ key ∈ keys, view' key = view key) {head : Option Key} (hlinked : Linked view head keys) :
    Linked view' head keys := by
  induction keys generalizing head with
  | nil => exact hlinked
  | cons key keys ih =>
    obtain ⟨rfl, next, hview, hrest⟩ := hlinked
    refine ⟨rfl, next, (h key List.mem_cons_self).trans hview, ?_⟩
    exact ih (fun other hother => h other (List.mem_cons_of_mem key hother)) hrest

theorem counts_map (endpoint : Endpoint) (side : Bool) (key : Key) (state : Option RecordState) :
    counts endpoint side (state.map fun state => ⟨key, state⟩) =
      (decide (state.map RecordState.view = some .active) && isLocal endpoint key.id == side) := by
  cases state with
  | none => rfl
  | some state => cases state <;> simp [counts, RecordState.view]

theorem Owns.entryAt_eq {self : Registry} {key : Key} (h : self.Owns key) :
    ∃ state : Option RecordState, self.entryAt key.slot = state.map (fun state => ⟨key, state⟩) ∧
      self.view key = state.map RecordState.view := by
  cases hentry : self.entryAt key.slot with
  | none => exact ⟨none, rfl, by simp [view, slot, hentry]⟩
  | some record =>
    obtain ⟨actual, state⟩ := record
    obtain rfl : actual = key := h.2 _ hentry
    exact ⟨some state, rfl, view_of_entryAt hentry⟩

theorem countP_put {self : Registry} {slot : ℕ} (h : slot < self.slots.length)
    (record : Option Record) (p : Option Record → Bool) :
    (self.put slot record).slots.countP p + (if p (self.entryAt slot) then 1 else 0) =
      self.slots.countP p + (if p record then 1 else 0) := by
  have hentry : self.entryAt slot = self.slots[slot] := by
    rw [entryAt, List.getElem?_eq_getElem h]
    rfl
  have hpos : p self.slots[slot] = true → 0 < self.slots.countP p := by
    intro hp
    exact List.countP_pos_iff.mpr ⟨_, List.getElem_mem h, hp⟩
  rw [put, List.countP_set h, hentry]
  by_cases hp : p self.slots[slot] = true
  · have := hpos hp
    rw [if_pos hp]
    omega
  · rw [if_neg hp]
    omega

@[simp]
theorem increment_slots (self : Registry) (endpoint : Endpoint) (id : StreamId) :
    (self.increment endpoint id).slots = self.slots := by
  unfold increment
  split <;> rfl

section Sound

variable {endpoint : Endpoint} {self : Registry}

theorem sound_new (capacity : ℕ) : Sound endpoint (.new capacity) := by
  have hentry (slot : ℕ) : (new capacity).entryAt slot = none := by
    unfold entryAt new
    rw [List.getElem?_replicate]
    split <;> rfl
  have hview (key : Key) : (new capacity).view key = none := by
    simp [view, Registry.slot, hentry]
  have hcount (side : Bool) : (new capacity).slots.countP (counts endpoint side) = 0 := by
    rw [List.countP_eq_zero]
    intro slot hslot
    obtain ⟨-, rfl⟩ := List.mem_replicate.mp hslot
    simp [counts]
  refine ⟨?_, ?_, List.nodup_nil, (hcount true).symm, (hcount false).symm,
    ⟨[], ⟨rfl, List.nodup_nil, ?_, rfl⟩⟩, List.nodup_nil, nofun⟩
  · simp [hentry]
  · intro key
    simp only [hview]
    simp [new]
  · simp [hview]

theorem Sound.slot_put (h : self.Sound endpoint) {key : Key} (howns : self.Owns key)
    (state : Option RecordState) (slot : ℕ) (record : Record)
    (hrecord : (self.put key.slot (state.map fun state => ⟨key, state⟩)).entryAt slot =
      some record) : record.key.slot = slot := by
  rw [entryAt_put howns.1] at hrecord
  split at hrecord
  next hslot =>
    obtain ⟨state', -, rfl⟩ := Option.map_eq_some_iff.mp hrecord
    exact hslot.symm
  next => exact h.slot slot record hrecord

theorem Sound.entryAt_of_mem (h : self.Sound endpoint) {key : Key} (hmem : key ∈ self.byId) :
    ∃ state, self.entryAt key.slot = some ⟨key, state⟩ ∧ state.view ≠ .closed := by
  rcases (h.index key).mp hmem with hview | ⟨next, hview⟩
  · obtain ⟨state, hentry, hstate⟩ := view_eq_some_iff.mp hview
    exact ⟨state, hentry, by simp [hstate]⟩
  · obtain ⟨state, hentry, hstate⟩ := view_eq_some_iff.mp hview
    exact ⟨state, hentry, by simp [hstate]⟩

theorem Sound.nodup_byId (h : self.Sound endpoint) : self.byId.Nodup :=
  h.ids.of_map

theorem countP_put_state {key : Key} (howns : self.Owns key) (state : Option RecordState)
    (side : Bool) :
    (self.put key.slot (state.map fun state => ⟨key, state⟩)).slots.countP (counts endpoint side) +
        (if self.view key = some .active ∧ isLocal endpoint key.id = side then 1 else 0) =
      self.slots.countP (counts endpoint side) +
        (if state.map RecordState.view = some .active ∧ isLocal endpoint key.id = side
          then 1 else 0) := by
  have hcount := countP_put howns.1 (state.map fun state => ⟨key, state⟩) (counts endpoint side)
  obtain ⟨old, hold, hview⟩ := howns.entryAt_eq
  rw [hold, counts_map, counts_map] at hcount
  rw [hview]
  simpa using hcount

/-- A record that changes while the other structures know the same of it. -/
theorem Sound.put_same (h : self.Sound endpoint) {key : Key} (howns : self.Owns key)
    {state : Option RecordState}
    (hstate : ∀ view, view ≠ .closed →
      (state.map RecordState.view = some view ↔ self.view key = some view)) :
    (self.put key.slot (state.map fun state => ⟨key, state⟩)).Sound endpoint := by
  have hknown (other : Key) (view : View) (hview : view ≠ .closed) :
      (self.put key.slot (state.map fun state => ⟨key, state⟩)).view other = some view ↔
        self.view other = some view := by
    rw [view_of_slots howns rfl]
    by_cases hother : other = key
    · subst hother
      rw [Function.update_self]
      exact hstate view hview
    · rw [Function.update_of_ne hother]
  have hcount (side : Bool) :
      (self.put key.slot (state.map fun state => ⟨key, state⟩)).slots.countP
        (counts endpoint side) = self.slots.countP (counts endpoint side) := by
    have := @countP_put_state endpoint self key howns state side
    simp only [hstate .active (by simp)] at this
    omega
  have hreset (other : Key) (next : Option Key) := hknown other (.reset next) (by simp)
  obtain ⟨keys, hkeys⟩ := h.resets
  refine ⟨h.slot_put howns state, ?_, h.ids, ?_, ?_,
    ⟨keys, ⟨?_, hkeys.nodup, ?_, hkeys.count⟩⟩, h.wakes.1, ?_⟩
  · intro other
    simp only [hknown other .active (by simp), hreset]
    exact h.index other
  · rw [hcount]
    exact h.locals
  · rw [hcount]
    exact h.peers
  · refine hkeys.linked.congr fun other hother => ?_
    obtain ⟨next, hnext⟩ := (hkeys.mem other).mp hother
    rw [hnext]
    exact (hreset other next).mpr hnext
  · intro other
    simp only [hreset]
    exact hkeys.mem other
  · exact fun other hother => (hknown other .active (by simp)).mpr (h.wakes.2 other hother)

theorem Sound.slot_of_slots (h : self.Sound endpoint) {next : Registry} {key : Key}
    (howns : self.Owns key) {state : Option RecordState}
    (hslots : next.slots = (self.put key.slot (state.map fun state => ⟨key, state⟩)).slots)
    (slot : ℕ) (record : Record) (hrecord : next.entryAt slot = some record) :
    record.key.slot = slot := by
  refine h.slot_put howns state slot record ?_
  rw [← hrecord, entryAt, entryAt, hslots]

/-- A stream is opened in a vacant slot. -/
theorem Sound.insert (h : self.Sound endpoint) {id : StreamId} {slot : ℕ}
    (hvacant : self.slots[slot]? = some none) (hid : self.find id = none) (stream : Lifecycle) :
    (self.insert endpoint id slot stream).Sound endpoint := by
  have hentry : self.entryAt slot = none := by rw [entryAt, hvacant]; rfl
  have howns : self.Owns ⟨id, slot⟩ :=
    ⟨(List.getElem?_eq_some_iff.mp hvacant).1, by simp [hentry]⟩
  have hnone : self.view ⟨id, slot⟩ = none := by simp [view, Registry.slot, hentry]
  have hfresh : ∀ key ∈ self.byId, key.id ≠ id := by
    simpa [find] using hid
  generalize hinsert : self.insert endpoint id slot stream = next
  obtain ⟨hslots, hbyId, hwakes, hpending, hreset, hlocal, hpeer⟩ :
      next.slots = (self.put slot (some ⟨⟨id, slot⟩, .active stream.active⟩)).slots ∧
      next.byId = ⟨id, slot⟩ :: self.byId ∧ next.sendWakes = self.sendWakes ∧
      next.pendingReset = self.pendingReset ∧ next.resetCount = self.resetCount ∧
      next.localCount = self.localCount + (if isLocal endpoint id = true then 1 else 0) ∧
      next.peerCount = self.peerCount + (if isLocal endpoint id = false then 1 else 0) := by
    subst hinsert
    unfold Registry.insert increment
    cases isLocal endpoint id <;> exact ⟨rfl, rfl, rfl, rfl, rfl, rfl, rfl⟩
  have hview := @view_of_slots self next ⟨id, slot⟩ howns (some (.active stream.active)) hslots
  have hcount (side : Bool) := @countP_put_state endpoint self ⟨id, slot⟩ howns
    (some (.active stream.active)) side
  simp only [hnone, Option.map_some] at hcount
  -- The key was not known before.
  have hother (key : Key) (view : View) (hkey : self.view key = some view) :
      next.view key = some view := by
    rw [hview, Function.update_of_ne, hkey]
    rintro rfl
    simp [hnone] at hkey
  obtain ⟨keys, hkeys⟩ := h.resets
  refine ⟨@Sound.slot_of_slots _ _ h next _ howns (some _) hslots, ?_, ?_, ?_, ?_,
    ⟨keys, ⟨?_, hkeys.nodup, ?_, hreset.trans hkeys.count⟩⟩, hwakes ▸ h.wakes.1, ?_⟩
  · intro key
    rw [hbyId, hview, List.mem_cons, h.index]
    by_cases hkey : key = ⟨id, slot⟩
    · subst hkey
      simp [RecordState.view]
    · simp [hkey, Function.update_of_ne]
  · rw [hbyId, List.map_cons, List.nodup_cons]
    refine ⟨?_, h.ids⟩
    rw [List.mem_map]
    rintro ⟨key, hkey, heq⟩
    exact hfresh key hkey heq
  · have := hcount true
    rw [hlocal, hslots, h.locals]
    simpa [RecordState.view] using this.symm
  · have := hcount false
    rw [hpeer, hslots, h.peers]
    simpa [RecordState.view] using this.symm
  · rw [hpending]
    refine hkeys.linked.congr fun key hkey => ?_
    obtain ⟨link, hlink⟩ := (hkeys.mem key).mp hkey
    rw [hlink]
    exact hother key _ hlink
  · intro key
    rw [hkeys.mem, hview]
    by_cases hkey : key = ⟨id, slot⟩
    · subst hkey
      simp [hnone, RecordState.view]
    · rw [Function.update_of_ne hkey]
  · rw [hwakes]
    exact fun key hkey => hother key _ (h.wakes.2 key hkey)

theorem view_closed (left : Option Closed) (view : View) (h : view ≠ .closed) :
    (left.map RecordState.closed).map RecordState.view ≠ some view := by
  cases left with
  | none => simp
  | some owner => simpa [RecordState.view] using h.symm

theorem known_of_closed {next : Registry} {key : Key} {left : Option Closed}
    (hview : next.view =
      Function.update self.view key ((left.map RecordState.closed).map RecordState.view))
    (other : Key) (view : View) (hclosed : view ≠ .closed) :
    next.view other = some view ↔ other ≠ key ∧ self.view other = some view := by
  rw [hview]
  by_cases hother : other = key
  · subst hother
    rw [Function.update_self]
    exact iff_of_false (view_closed left view hclosed) (fun hand => hand.1 rfl)
  · rw [Function.update_of_ne hother]
    simp [hother]

/-- An active stream leaves the index, the queue and the counts. -/
theorem Sound.remove (h : self.Sound endpoint) {key : Key} {active : Active}
    (hentry : self.entryAt key.slot = some ⟨key, .active active⟩) (reset : Bool) :
    ∃ next, self.remove endpoint key ⟨key, .active active⟩ reset = some next ∧
      next.Sound endpoint ∧ next.slots = (self.put key.slot (((active.peer.retire reset).map
        RecordState.closed).map fun state => ⟨key, state⟩)).slots := by
  have howns := owns_of_entryAt hentry
  have hactive : self.view key = some .active := view_of_entryAt hentry
  obtain ⟨next, hremove⟩ : ∃ next, self.remove endpoint key ⟨key, .active active⟩ reset = some next :=
    ⟨_, rfl⟩
  refine ⟨next, hremove, ?_⟩
  obtain ⟨hslots, hbyId, hwakes, hpending, hreset, hlocal, hpeer⟩ :
      next.slots = (self.put key.slot (((active.peer.retire reset).map
        RecordState.closed).map fun state => ⟨key, state⟩)).slots ∧
      next.byId = self.byId.erase key ∧ next.sendWakes = self.sendWakes.erase key ∧
      next.pendingReset = self.pendingReset ∧ next.resetCount = self.resetCount ∧
      next.localCount = self.localCount - (if isLocal endpoint key.id = true then 1 else 0) ∧
      next.peerCount = self.peerCount - (if isLocal endpoint key.id = false then 1 else 0) := by
    obtain rfl := Option.some.inj hremove
    unfold decrement
    cases isLocal endpoint key.id <;>
      refine ⟨?_, rfl, rfl, rfl, rfl, rfl, rfl⟩ <;> rw [Option.map_map] <;> rfl
  refine ⟨?_, hslots⟩
  have hview := view_of_slots howns hslots
  have hleft := view_closed (active.peer.retire reset)
  have hcount (side : Bool) := @countP_put_state endpoint self key howns
    ((active.peer.retire reset).map RecordState.closed) side
  simp only [hactive, hleft .active (by simp), false_and, if_false, true_and] at hcount
  have hknown := @known_of_closed self next key _ hview
  have hresetting (other : Key) (link : Option Key) : next.view other = some (.reset link) ↔
      self.view other = some (.reset link) := by
    rw [hknown other _ (by simp)]
    refine ⟨And.right, fun hlink => ⟨?_, hlink⟩⟩
    rintro rfl
    simp [hactive] at hlink
  obtain ⟨keys, hkeys⟩ := h.resets
  refine ⟨h.slot_of_slots howns hslots, ?_, ?_, ?_, ?_,
    ⟨keys, ⟨?_, hkeys.nodup, ?_, hreset.trans hkeys.count⟩⟩, ?_, ?_⟩
  · intro other
    rw [hbyId, h.nodup_byId.mem_erase_iff, h.index]
    simp only [hknown other _ (View.noConfusion : View.active ≠ .closed),
      hknown other _ (View.noConfusion : View.reset _ ≠ .closed)]
    rw [and_or_left, exists_and_left]
  · rw [hbyId]
    exact (List.Sublist.map Key.id List.erase_sublist).nodup h.ids
  · have := hcount true
    rw [hlocal, hslots, h.locals]
    omega
  · have := hcount false
    rw [hpeer, hslots, h.peers]
    omega
  · rw [hpending]
    refine hkeys.linked.congr fun other hother => ?_
    obtain ⟨link, hlink⟩ := (hkeys.mem other).mp hother
    rw [hlink]
    exact (hresetting other link).mpr hlink
  · intro other
    rw [hkeys.mem]
    simp only [hresetting]
  · rw [hwakes]
    exact h.wakes.1.erase key
  · intro other hother
    rw [hwakes, h.wakes.1.mem_erase_iff] at hother
    exact (hknown other _ (by simp)).mpr ⟨hother.1, h.wakes.2 other hother.2⟩

/-- An active stream waits for its reset. -/
theorem Sound.reset (h : self.Sound endpoint) {key : Key} {active : Active}
    (hentry : self.entryAt key.slot = some ⟨key, .active active⟩) (error : UInt32) (notify : Bool) :
    ∃ next, self.reset endpoint key ⟨key, .active active⟩ error notify = some next ∧
      next.Sound endpoint ∧ next.slots = (self.put key.slot
        (some ⟨key, .reset ⟨error, self.pendingReset⟩ (active.peer.retire notify)⟩)).slots := by
  have howns := owns_of_entryAt hentry
  have hactive : self.view key = some .active := view_of_entryAt hentry
  obtain ⟨next, hnext⟩ :
      ∃ next, self.reset endpoint key ⟨key, .active active⟩ error notify = some next := ⟨_, rfl⟩
  refine ⟨next, hnext, ?_⟩
  obtain ⟨hslots, hbyId, hwakes, hpending, hreset, hlocal, hpeer⟩ :
      next.slots = (self.put key.slot
        (some ⟨key, .reset ⟨error, self.pendingReset⟩ (active.peer.retire notify)⟩)).slots ∧
      next.byId = self.byId ∧ next.sendWakes = self.sendWakes.erase key ∧
      next.pendingReset = some key ∧ next.resetCount = self.resetCount + 1 ∧
      next.localCount = self.localCount - (if isLocal endpoint key.id = true then 1 else 0) ∧
      next.peerCount = self.peerCount - (if isLocal endpoint key.id = false then 1 else 0) := by
    obtain rfl := Option.some.inj hnext
    unfold decrement
    cases isLocal endpoint key.id <;> exact ⟨rfl, rfl, rfl, rfl, rfl, rfl, rfl⟩
  refine ⟨?_, hslots⟩
  have hview := @view_of_slots self next key howns (some _) hslots
  simp only [Option.map_some, RecordState.view] at hview
  have hcount (side : Bool) := @countP_put_state endpoint self key howns
    (some (.reset ⟨error, self.pendingReset⟩ (active.peer.retire notify))) side
  simp only [hactive, Option.map_some, RecordState.view, Option.some.injEq, reduceCtorEq, false_and,
    if_false, true_and] at hcount
  have hother (other : Key) (hne : other ≠ key) : next.view other = self.view other := by
    rw [hview, Function.update_of_ne hne]
  have hself : next.view key = some (.reset self.pendingReset) := by
    rw [hview, Function.update_self]
  obtain ⟨keys, hkeys⟩ := h.resets
  -- An active stream is not on the list of the resets.
  have hfresh : key ∉ keys := by
    rw [hkeys.mem]
    rintro ⟨link, hlink⟩
    simp [hactive] at hlink
  refine ⟨@Sound.slot_of_slots _ _ h next _ howns (some _) hslots, ?_, hbyId ▸ h.ids, ?_, ?_,
    ⟨key :: keys, ⟨⟨hpending, _, hself, ?_⟩, hkeys.nodup.cons hfresh, ?_, ?_⟩⟩, ?_, ?_⟩
  · intro other
    rw [hbyId, h.index]
    by_cases hne : other = key
    · subst hne
      simp [hself, hactive]
    · rw [hother other hne]
  · have := hcount true
    rw [hlocal, hslots, h.locals]
    omega
  · have := hcount false
    rw [hpeer, hslots, h.peers]
    omega
  · refine hkeys.linked.congr fun other hmem => hother other ?_
    rintro rfl
    exact hfresh hmem
  · intro other
    rw [List.mem_cons, hkeys.mem]
    by_cases hne : other = key
    · subst hne
      simp [hself]
    · simp [hne, hother other hne]
  · rw [hreset, hkeys.count]
    rfl
  · rw [hwakes]
    exact h.wakes.1.erase key
  · intro other hmem
    rw [hwakes, h.wakes.1.mem_erase_iff] at hmem
    rw [hother other hmem.1]
    exact h.wakes.2 other hmem.2

/-- The reset at the head of the list is committed. -/
theorem Sound.commitReset (h : self.Sound endpoint) :
    ∃ next, self.commitReset = some next ∧ next.Sound endpoint ∧
      (next = self ∨ ∃ key state owner,
        self.entryAt key.slot = some ⟨key, .reset state owner⟩ ∧
        next.slots = (self.put key.slot ((owner.map RecordState.closed).map
          fun state => ⟨key, state⟩)).slots) := by
  obtain ⟨keys, hkeys⟩ := h.resets
  cases keys with
  | nil =>
    have hnone : self.pendingReset = none := hkeys.linked
    exact ⟨self, by rw [Registry.commitReset, hnone], h, Or.inl rfl⟩
  | cons key keys =>
    obtain ⟨hhead, link, hlink, hrest⟩ := hkeys.linked
    obtain ⟨state, hentry, hstate⟩ := view_eq_some_iff.mp hlink
    obtain ⟨pending, owner, rfl⟩ : ∃ pending owner, state = .reset pending owner := by
      cases state <;> simp_all [RecordState.view]
    obtain rfl : pending.next = link := by simpa [RecordState.view] using hstate
    have howns := owns_of_entryAt hentry
    have hmem : key ∈ self.byId := (h.index key).mpr (Or.inr ⟨_, hlink⟩)
    obtain ⟨next, hnext⟩ : ∃ next, self.commitReset = some next := by
      simp only [Registry.commitReset, hhead, hmem, if_true, hentry]
      exact ⟨_, rfl⟩
    obtain ⟨hslots, hbyId, hwakes, hpending, hreset, hlocal, hpeer⟩ :
        next.slots = (self.put key.slot ((owner.map RecordState.closed).map
          fun state => ⟨key, state⟩)).slots ∧
        next.byId = self.byId.erase key ∧ next.sendWakes = self.sendWakes ∧
        next.pendingReset = pending.next ∧ next.resetCount = self.resetCount - 1 ∧
        next.localCount = self.localCount ∧ next.peerCount = self.peerCount := by
      simp only [Registry.commitReset, hhead, hmem, if_true, hentry] at hnext
      obtain rfl := Option.some.inj hnext
      refine ⟨?_, rfl, rfl, rfl, rfl, rfl, rfl⟩
      rw [Option.map_map]
      rfl
    refine ⟨next, hnext, ?_, Or.inr ⟨key, pending, owner, hentry, hslots⟩⟩
    have hview := view_of_slots howns hslots
    have hleft := view_closed owner
    have hcount (side : Bool) := @countP_put_state endpoint self key howns
      (owner.map RecordState.closed) side
    simp only [hlink, hleft .active (by simp), Option.some.injEq, reduceCtorEq, false_and,
      if_false] at hcount
    have hknown := @known_of_closed self next key _ hview
    have hnodup := List.nodup_cons.mp hkeys.nodup
    refine ⟨h.slot_of_slots howns hslots, ?_, ?_, ?_, ?_,
      ⟨keys, ⟨?_, hnodup.2, ?_, ?_⟩⟩, hwakes ▸ h.wakes.1, ?_⟩
    · intro other
      rw [hbyId, h.nodup_byId.mem_erase_iff, h.index]
      simp only [hknown other _ (View.noConfusion : View.active ≠ .closed),
        hknown other _ (View.noConfusion : View.reset _ ≠ .closed)]
      rw [and_or_left, exists_and_left]
    · rw [hbyId]
      exact (List.Sublist.map Key.id List.erase_sublist).nodup h.ids
    · have := hcount true
      rw [hlocal, hslots, h.locals]
      omega
    · have := hcount false
      rw [hpeer, hslots, h.peers]
      omega
    · rw [hpending]
      refine hrest.congr fun other hother => ?_
      rw [hview, Function.update_of_ne]
      rintro rfl
      exact hnodup.1 hother
    · intro other
      simp only [hknown other _ (View.noConfusion : View.reset _ ≠ .closed)]
      rw [exists_and_left, ← hkeys.mem, List.mem_cons]
      constructor
      · intro hother
        refine ⟨?_, Or.inr hother⟩
        rintro rfl
        exact hnodup.1 hother
      · rintro ⟨hne, rfl | hother⟩
        · exact absurd rfl hne
        · exact hother
    · rw [hreset, hkeys.count, List.length_cons, Nat.add_sub_cancel]
    · intro other hother
      rw [hwakes] at hother
      have hactive := h.wakes.2 other hother
      refine (hknown other _ (by simp)).mpr ⟨?_, hactive⟩
      rintro rfl
      simp [hlink] at hactive

theorem Sound.withWakes (h : self.Sound endpoint) {wakes : List Key} (hnodup : wakes.Nodup)
    (hwakes : ∀ key ∈ wakes, self.view key = some .active) :
    Sound endpoint { self with sendWakes := wakes } := by
  obtain ⟨keys, hkeys⟩ := h.resets
  exact ⟨h.slot, h.index, h.ids, h.locals, h.peers,
    ⟨keys, ⟨hkeys.linked, hkeys.nodup, hkeys.mem, hkeys.count⟩⟩, hnodup, hwakes⟩

/-- An active record is written with another window, and the stream may be queued. -/
theorem Sound.wake (h : self.Sound endpoint) {slot : ℕ} {key : Key} {active : Active}
    (hentry : self.entryAt slot = some ⟨key, .active active⟩) (window : Window) :
    (self.wake slot key active window).Sound endpoint := by
  obtain rfl : key.slot = slot := h.slot slot _ hentry
  have howns := owns_of_entryAt hentry
  have hactive : self.view key = some .active := view_of_entryAt hentry
  have hput := @Sound.put_same _ _ h key howns
    (some (.active ⟨active.state, active.peer, window⟩)) (by
      intro view _
      simp [hactive, RecordState.view])
  unfold Registry.wake
  dsimp only
  split
  next hqueue =>
    simp only [Bool.and_eq_true, Bool.not_eq_true', List.contains_eq_mem, decide_eq_false_iff_not]
      at hqueue
    have hview : (self.put key.slot
        (some ⟨key, .active ⟨active.state, active.peer, window⟩⟩)).view key = some .active :=
      view_of_entryAt (by rw [entryAt_put howns.1, if_pos rfl])
    refine hput.withWakes ?_ ?_
    · exact hput.wakes.1.append (List.nodup_singleton key) (by simpa using hqueue.2)
    · intro other hother
      rcases List.mem_append.mp hother with hother | hother
      · exact hput.wakes.2 other hother
      · rw [List.mem_singleton] at hother
        subst hother
        exact hview
  next => exact hput

theorem Sound.addSend (h : self.Sound endpoint) (id : StreamId) (delta : ℕ) :
    (self.addSend id delta).Sound endpoint := by
  unfold Registry.addSend
  split
  · exact h
  · split
    next hentry =>
      split
      · split
        · exact h
        · exact h.wake hentry _
      · exact h
    · exact h

theorem Sound.adjustFrom (h : self.Sound endpoint) (delta : ℤ) (slot count : ℕ) :
    (self.adjustFrom delta slot count).Sound endpoint := by
  induction count generalizing self slot with
  | zero => exact h
  | succ count ih =>
    rw [Registry.adjustFrom]
    split
    next hentry =>
      split
      · exact h
      · exact ih (h.wake hentry _) _
    · exact ih h _

theorem Sound.adjustSend (h : self.Sound endpoint) (delta : ℤ) :
    (self.adjustSend delta).Sound endpoint := by
  unfold Registry.adjustSend
  split
  · exact h
  · exact h.adjustFrom delta 0 _

theorem Sound.pollWake (h : self.Sound endpoint) : self.pollWake.Sound endpoint :=
  h.withWakes h.wakes.1.tail fun key hkey => h.wakes.2 key (List.mem_of_mem_tail hkey)

end Sound

/-! ## What the application is owed -/

/-- Whether the record of a key has a property. -/
def known (self : Registry) (f : RecordState → Bool) (key : Key) : Bool :=
  (self.slot key).any fun record => f record.state

theorem known_of_entryAt {self : Registry} {f : RecordState → Bool} {key : Key}
    {state : RecordState} (h : self.entryAt key.slot = some ⟨key, state⟩) :
    self.known f key = f state := by
  rw [known, slot_eq_some_iff.mpr ⟨h, rfl⟩]
  rfl

theorem known_eq_true_iff {self : Registry} {f : RecordState → Bool} {key : Key} :
    self.known f key = true ↔
      ∃ state, self.entryAt key.slot = some ⟨key, state⟩ ∧ f state = true := by
  constructor
  · intro h
    unfold known at h
    cases hslot : self.slot key with
    | none => simp [hslot] at h
    | some record =>
      obtain ⟨actual, state⟩ := record
      obtain ⟨hentry, rfl⟩ := slot_eq_some_iff.mp hslot
      exact ⟨state, hentry, by simpa [hslot] using h⟩
  · rintro ⟨state, hentry, hf⟩
    rw [known_of_entryAt hentry, hf]

theorem known_of_slots {self next : Registry} {key : Key} (howns : self.Owns key)
    {state : Option RecordState}
    (h : next.slots = (self.put key.slot (state.map fun state => ⟨key, state⟩)).slots)
    (f : RecordState → Bool) :
    next.known f = Function.update (self.known f) key (state.any f) := by
  funext other
  rw [known, slot_of_slots howns h]
  by_cases hother : other = key
  · subst hother
    rw [Function.update_self, Function.update_self]
    cases state <;> rfl
  · rw [Function.update_of_ne hother, Function.update_of_ne hother]
    rfl

end Registry

/-- Whether a duplex session holds an active stream. -/
def Live.isDuplex : Live → Bool
  | .duplex | .duplexEnd => true
  | _ => false

/-- Whether the end of an active stream is queued. -/
def Live.isEnded : Live → Bool
  | .end | .duplexEnd => true
  | _ => false

/-- Whether a duplex session holds a closed stream. -/
def Closed.isDuplex : Closed → Bool
  | .duplex | .duplexEnd | .duplexReset => true
  | _ => false

theorem Live.isDuplex_retire (self : Live) (reset : Bool) :
    (self.retire reset).any Closed.isDuplex = self.isDuplex := by
  cases self <;> cases reset <;> rfl

namespace RecordState

/-- Whether a duplex session holds a stream. -/
def isDuplex : RecordState → Bool
  | .active live => live.peer.isDuplex
  | .reset _ owner => owner.any Closed.isDuplex
  | .closed owner => owner.isDuplex

/-- Whether the end of a stream is queued while it is active. -/
def isEnding : RecordState → Bool
  | .active live => live.peer.isEnded
  | _ => false

end RecordState

end Sark.H2
