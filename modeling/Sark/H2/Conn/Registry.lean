import Mathlib.Data.List.Nodup
import Mathlib.Tactic

/-!
# The stream registry of a connection

The records of the streams are in a slab; an index maps the ids of the streams that are active or
wait for their reset to the slots of their records, a list threaded through the records holds the
resets that wait, and a queue holds the streams whose send window was opened again. A record
outlives its stream while an event or a duplex session of the application still refers to it.

The slab is a list of slots, the index a list of keys and the queue a list of keys: what they do is
what their abstract types do. Which vacant slot an insertion gets is left open (`Answer`).
A result `none` is a branch that the source marks as unreachable.

* `Registry.edit`, `Registry.removeKey`, `Registry.beginReset`, `Registry.commitReset`,
  `Registry.release`: the operations on records.
* `Machine.step`: every operation of a connection on its registry and its history.
-/

namespace Sark.H2

/-! ## Stream ids -/

/-- `Endpoint`. -/
inductive Endpoint
  | server
  | client
  deriving DecidableEq, Repr

/-- `stream::Id::MAX`. -/
def maxId : ℕ := 0x7fffffff

/-- `stream::Nonzero`. -/
structure StreamId where
  raw : ℕ
  pos : 0 < raw
  le : raw ≤ maxId
  deriving DecidableEq, Repr

namespace StreamId

/-- `Id::is_client`. -/
def isClient (self : StreamId) : Bool :=
  self.raw % 2 == 1

/-- `Id::is_server`. -/
def isServer (self : StreamId) : Bool :=
  self.raw % 2 == 0

/-- `Nonzero::FIRST_CLIENT`. -/
def firstClient : StreamId :=
  ⟨1, by decide, by decide⟩

/-- `Nonzero::FIRST_SERVER`. -/
def firstServer : StreamId :=
  ⟨2, by decide, by decide⟩

/-- `Id::new` two ids later. -/
def succ (self : StreamId) : Option StreamId :=
  if h : self.raw + 2 ≤ maxId then some ⟨self.raw + 2, by omega, h⟩ else none

end StreamId

/-- `stream::Key`. -/
structure Key where
  id : StreamId
  slot : ℕ
  deriving DecidableEq, Repr

/-! ## History -/

/-- `Past`. -/
inductive Past
  | closed
  | idle
  deriving DecidableEq, Repr

/-- `History`. The connection itself is the last id before the peer opened a stream. -/
structure History where
  nextLocal : Option StreamId
  lastPeer : ℕ
  deriving DecidableEq, Repr

/-- `History::is_peer`. -/
def isPeer (endpoint : Endpoint) (id : StreamId) : Bool :=
  match endpoint with
  | .server => id.isClient
  | .client => id.isServer

/-- `History::is_local`. -/
def isLocal (endpoint : Endpoint) (id : StreamId) : Bool :=
  !isPeer endpoint id

namespace History

/-- `History::new`. -/
def new (endpoint : Endpoint) : History :=
  match endpoint with
  | .server => ⟨some .firstServer, 0⟩
  | .client => ⟨some .firstClient, 0⟩

/-- `History::classify`. -/
def classify (self : History) (endpoint : Endpoint) (id : StreamId) : Past :=
  let opened :=
    if isPeer endpoint id then decide (id.raw ≤ self.lastPeer)
    else
      match self.nextLocal with
      | none => true
      | some next => decide (id.raw < next.raw)
  if opened then .closed else .idle

/-- `History::peer`: whether the peer may open a stream. -/
def peer (self : History) (endpoint : Endpoint) (id : StreamId) : Bool :=
  isPeer endpoint id && decide (self.lastPeer < id.raw)

/-- `Peer::commit`. -/
def commitPeer (self : History) (id : StreamId) : History :=
  ⟨self.nextLocal, id.raw⟩

/-- `Next::commit`. -/
def commitLocal (self : History) (id : StreamId) : History :=
  ⟨id.succ, self.lastPeer⟩

end History

/-! ## Records -/

/-- `stream::State`. -/
inductive StreamState
  | idle
  | reservedLocal
  | reservedRemote
  | open
  | halfClosedLocal
  | halfClosedRemote
  | closed
  deriving DecidableEq, Repr

/-- `stream::Section`. -/
inductive Section
  | initial
  | trailing
  deriving DecidableEq, Repr

/-- `n as i32`. -/
def toI32 (n : ℤ) : ℤ :=
  n.bmod (2 ^ 32)

/-- `flow::Window`. -/
structure Window where
  value : ℤ
  committed : ℤ
  deriving DecidableEq, Repr

namespace Window

/-- `Window::MAX`. -/
def max : ℤ := 0x7fffffff

/-- `Window::is_stalled`. -/
def isStalled (self : Window) : Bool :=
  decide (self.value ≤ 0)

/-- `Window::increase`. -/
def increase (self : Window) (inc : ℕ) : Option Window :=
  if max < self.committed + inc then none
  else some ⟨toI32 (self.value + inc), toI32 (self.committed + inc)⟩

/-- `Window::adjust`. -/
def adjust (self : Window) (delta : ℤ) : Option Window :=
  if max < self.committed + delta ∨ self.value + delta < -2 ^ 31 then none
  else some ⟨toI32 (self.value + delta), toI32 (self.committed + delta)⟩

end Window

/-- `store::Live`: what an active stream still owes to the application. -/
inductive Live
  | initial
  | trailing
  | duplex
  | end
  | duplexEnd
  deriving DecidableEq, Repr

/-- `store::Closed`: what a closed stream still owes to the application. -/
inductive Closed
  | duplex
  | end
  | duplexEnd
  | reset
  | duplexReset
  deriving DecidableEq, Repr

/-- `store::Notice`. -/
inductive Notice
  | end
  | reset
  | cancel
  | duplex
  deriving DecidableEq, Repr

/-- `Live::retire`. -/
def Live.retire : Live → Bool → Option Closed
  | .initial, false | .trailing, false => none
  | .duplex, false => some .duplex
  | .end, false => some .end
  | .duplexEnd, false => some .duplexEnd
  | .initial, true | .trailing, true | .end, true => some .reset
  | .duplex, true | .duplexEnd, true => some .duplexReset

/-- `Closed::release`: what is still owed. -/
def Closed.release : Closed → Notice → Option (Option Closed)
  | .end, .end | .end, .cancel | .reset, .reset | .reset, .cancel | .duplex, .duplex => some none
  | .duplexEnd, .end | .duplexEnd, .cancel => some (some .duplex)
  | .duplexReset, .reset | .duplexReset, .cancel => some (some .duplex)
  | .duplexEnd, .duplex => some (some .end)
  | .duplexReset, .duplex => some (some .reset)
  | .end, .duplex | .reset, .duplex => none
  | phase, _ => some (some phase)

/-- `Active`, with the fields that the registry reads. -/
structure Active where
  state : StreamState
  peer : Live
  sendWindow : Window
  deriving DecidableEq, Repr

/-- `Active::section`. -/
def Active.section (self : Active) : Section :=
  match self.peer with
  | .initial => .initial
  | _ => .trailing

/-- What a caller does to an active record through its borrow. -/
inductive Touch
  | assign (state : StreamState) (window : Window)
  | completeHead
  | queueEnd
  deriving DecidableEq, Repr

/-- `Active::complete_head` and `Active::queue_end`, and the fields that are written directly. -/
def Active.touch (self : Active) : Touch → Option Active
  | .assign state window => some ⟨state, self.peer, window⟩
  | .completeHead =>
    match self.peer with
    | .initial => some ⟨self.state, .trailing, self.sendWindow⟩
    | _ => some self
  | .queueEnd =>
    match self.peer with
    | .trailing => some ⟨self.state, .end, self.sendWindow⟩
    | .duplex => some ⟨self.state, .duplexEnd, self.sendWindow⟩
    | _ => none

/-- `store::ResetState`. -/
structure ResetState where
  error : UInt32
  next : Option Key
  deriving DecidableEq, Repr

/-- `store::State`. -/
inductive RecordState
  | active (active : Active)
  | reset (reset : ResetState) (owner : Option Closed)
  | closed (owner : Closed)
  deriving DecidableEq, Repr

namespace RecordState

/-- `State::close`: what is left of the record. -/
def close (self : RecordState) (reset : Bool) : Option (Option Closed) :=
  match self with
  | .active live => some (live.peer.retire reset)
  | .reset _ owner => some owner
  | .closed _ => none

/-- `State::release`: what is left of the record. -/
def release (self : RecordState) (notice : Notice) : Option (Option RecordState) :=
  match self with
  | .active live =>
    let peer : Option Live :=
      match live.peer, notice with
      | .end, .end | .end, .cancel => some .trailing
      | .duplexEnd, .end | .duplexEnd, .cancel => some .duplex
      | .duplex, .duplex => some .trailing
      | .duplexEnd, .duplex => some .end
      | _, .duplex => none
      | phase, _ => some phase
    peer.map fun peer => some (.active ⟨live.state, peer, live.sendWindow⟩)
  | .reset pending (some owner) =>
    (owner.release notice).map fun left => some (.reset pending left)
  | .reset pending none =>
    match notice with
    | .duplex => none
    | _ => some (some (.reset pending none))
  | .closed owner => (owner.release notice).map fun left => left.map .closed

/-- `State::hold_duplex`. -/
def holdDuplex (self : RecordState) : Option RecordState :=
  match self with
  | .active live =>
    match live.peer with
    | .trailing => some (.active ⟨live.state, .duplex, live.sendWindow⟩)
    | .end => some (.active ⟨live.state, .duplexEnd, live.sendWindow⟩)
    | _ => none
  | _ => none

end RecordState

/-- `store::Record`. The link of the wake queue is the queue itself. -/
structure Record where
  key : Key
  state : RecordState
  deriving DecidableEq, Repr

/-! ## The registry -/

/-- `Registry`, with the fields of its `Store`. -/
structure Registry where
  byId : List Key
  slots : List (Option Record)
  localCount : ℕ
  peerCount : ℕ
  sendWakes : List Key
  pendingReset : Option Key
  resetCount : ℕ
  deriving DecidableEq, Repr

/-- `store::Action`. -/
inductive Action
  | keep
  | remove
  | reset (error : UInt32) (notify : Bool)
  deriving DecidableEq, Repr

/-- An edit of a visit: what it does to the record, and what it asks for unless it fails. -/
structure Edit where
  touches : List Touch
  action : Option Action
  deriving DecidableEq, Repr

/-- What the slab answers to an insertion. -/
inductive Answer
  | full
  | identityExhausted
  | vacant (slot : ℕ)
  deriving DecidableEq, Repr

/-- `stream::Lifecycle` and the window that a new record starts with. -/
structure Lifecycle where
  state : StreamState
  peerSection : Section
  send : ℕ
  ended : Bool
  deriving DecidableEq, Repr

/-- The record that a stream starts with. -/
def Lifecycle.active (self : Lifecycle) : Active :=
  let peer :=
    if self.ended then Live.end
    else
      match self.peerSection with
      | .initial => Live.initial
      | .trailing => Live.trailing
  ⟨self.state, peer, ⟨toI32 self.send, toI32 self.send⟩⟩

namespace Registry

/-- `Registry::try_new`. -/
def new (capacity : ℕ) : Registry :=
  ⟨[], List.replicate capacity none, 0, 0, [], none, 0⟩

/-- `slab::Store::entry_at`. -/
def entryAt (self : Registry) (slot : ℕ) : Option Record :=
  self.slots[slot]?.join

/-- `Store::slot`. -/
def slot (self : Registry) (key : Key) : Option Record :=
  (self.entryAt key.slot).filter fun record => record.key = key

/-- `flat::Table::occupied` by id. -/
def find (self : Registry) (id : StreamId) : Option Key :=
  self.byId.find? fun key => key.id = id

/-- The slab with a record written to a slot. -/
def put (self : Registry) (slot : ℕ) (record : Option Record) : Registry :=
  { self with slots := self.slots.set slot record }

/-- The count of the initiator of a stream is one more. -/
def increment (self : Registry) (endpoint : Endpoint) (id : StreamId) : Registry :=
  if isLocal endpoint id then { self with localCount := self.localCount + 1 }
  else { self with peerCount := self.peerCount + 1 }

/-- The count of the initiator of a stream is one less. -/
def decrement (self : Registry) (endpoint : Endpoint) (id : StreamId) : Registry :=
  if isLocal endpoint id then { self with localCount := self.localCount - 1 }
  else { self with peerCount := self.peerCount - 1 }

/-- `Wake::clear`. -/
def clear (self : Registry) (key : Key) : Registry :=
  { self with sendWakes := self.sendWakes.erase key }

/-- `slab::Store::try_vacant`: the slab hands out nothing but a vacant slot. -/
def tryVacant (self : Registry) : Answer → Except Answer ℕ
  | .vacant slot => if self.slots[slot]? = some none then .ok slot else .error .full
  | answer => .error answer

/-- `flat::Table::entry`: whether the index has room for an id. -/
def hasRoom (self : Registry) : Bool :=
  decide (self.byId.length < self.slots.length)

/-- `Vacant::insert`. -/
def insert (self : Registry) (endpoint : Endpoint) (id : StreamId) (slot : ℕ) (stream : Lifecycle) :
    Registry :=
  ({ self.put slot (some ⟨⟨id, slot⟩, .active stream.active⟩) with
    byId := ⟨id, slot⟩ :: self.byId }).increment endpoint id

/-- `store::finish`. -/
def finish (self : Registry) (key : Key) (record : Record) (reset : Bool) : Option Registry :=
  (record.state.close reset).map fun left =>
    { self.put key.slot (left.map fun owner => ⟨record.key, .closed owner⟩) with
      byId := self.byId.erase key }

/-- `Transition::remove`. -/
def remove (self : Registry) (endpoint : Endpoint) (key : Key) (record : Record) (reset : Bool) :
    Option Registry :=
  ((self.clear key).finish key record reset).map fun self => self.decrement endpoint key.id

/-- `Transition::reset`, and the list of the resets behind it. -/
def reset (self : Registry) (endpoint : Endpoint) (key : Key) (record : Record) (error : UInt32)
    (notify : Bool) : Option Registry :=
  match record.state with
  | .active active =>
    let state := RecordState.reset ⟨error, self.pendingReset⟩ (active.peer.retire notify)
    let self := ((self.clear key).put key.slot (some ⟨record.key, state⟩)).decrement endpoint key.id
    some { self with pendingReset := some key, resetCount := self.resetCount + 1 }
  | _ => none

/-- `Store::edit`. -/
def edit (self : Registry) (endpoint : Endpoint) (key : Key) (record : Record) (edit : Edit) :
    Option Registry :=
  match record.state with
  | .active active =>
    (edit.touches.foldlM Active.touch active).bind fun active =>
      let record : Record := ⟨record.key, .active active⟩
      let self := self.put key.slot (some record)
      match edit.action with
      | none | some .keep => some self
      | some .remove => self.remove endpoint key record false
      | some (.reset error notify) => self.reset endpoint key record error notify
  | _ => some self

/-- `Store::entry`: the active record of a key. -/
def entry (self : Registry) (key : Key) : Option Record :=
  if key ∈ self.byId then
    (self.entryAt key.slot).filter fun record =>
      match record.state with
      | .active _ => true
      | _ => false
  else none

/-- `Registry::remove_key`. -/
def removeKey (self : Registry) (endpoint : Endpoint) (key : Key) (reset : Bool) : Option Registry :=
  match self.entry key with
  | none => some self
  | some record => self.remove endpoint key record reset

/-- `Registry::begin_reset`. -/
def beginReset (self : Registry) (endpoint : Endpoint) (key : Key) (error : UInt32) :
    Option Registry :=
  match self.entry key with
  | none => some self
  | some record => self.reset endpoint key record error false

/-- `Registry::reset` and `Pending::commit`. -/
def commitReset (self : Registry) : Option Registry :=
  match self.pendingReset with
  | none => some self
  | some key =>
    if key ∈ self.byId then
      match self.entryAt key.slot with
      | some ⟨actual, .reset state owner⟩ =>
        ({ self with pendingReset := state.next, resetCount := self.resetCount - 1 }).finish key
          ⟨actual, .reset state owner⟩ false
      | _ => some self
    else some self

/-- `Store::release`. -/
def release (self : Registry) (key : Key) (notice : Notice) : Option Registry :=
  match self.slot key with
  | none => some self
  | some record =>
    (record.state.release notice).map fun left =>
      self.put key.slot (left.map fun state => ⟨record.key, state⟩)

/-- `Store::hold_duplex`. -/
def holdDuplex (self : Registry) (key : Key) : Option Registry :=
  match self.slot key with
  | none => some self
  | some record =>
    record.state.holdDuplex.map fun state => self.put key.slot (some ⟨record.key, state⟩)

/-- `Store::active_mut` and what its caller does. -/
def touch (self : Registry) (key : Key) (touches : List Touch) : Option Registry :=
  match self.slot key with
  | some ⟨actual, .active active⟩ =>
    (touches.foldlM Active.touch active).map fun active =>
      self.put key.slot (some ⟨actual, .active active⟩)
  | _ => some self

/-- `Wake::update` behind its edit: a stream whose window was opened again is queued, once. -/
def wake (self : Registry) (slot : ℕ) (key : Key) (active : Active) (window : Window) : Registry :=
  let next := self.put slot (some ⟨key, .active ⟨active.state, active.peer, window⟩⟩)
  if active.sendWindow.isStalled && !window.isStalled && !next.sendWakes.contains key then
    { next with sendWakes := next.sendWakes ++ [key] }
  else next

/-- `Registry::add_send`. An update that fails leaves the record as it is. -/
def addSend (self : Registry) (id : StreamId) (delta : ℕ) : Registry :=
  match self.find id with
  | none => self
  | some key =>
    match self.entryAt key.slot with
    | some ⟨actual, .active active⟩ =>
      if actual = key ∧ active.state ≠ .reservedRemote then
        match active.sendWindow.increase delta with
        | none => self
        | some window => self.wake key.slot actual active window
      else self
    | _ => self

/-- The loop of `Registry::adjust_send` over the slots from `slot` on. -/
def adjustFrom (self : Registry) (delta : ℤ) (slot : ℕ) : ℕ → Registry
  | 0 => self
  | count + 1 =>
    match self.entryAt slot with
    | some ⟨key, .active active⟩ =>
      match active.sendWindow.adjust delta with
      | none => self
      | some window => (self.wake slot key active window).adjustFrom delta (slot + 1) count
    | _ => self.adjustFrom delta (slot + 1) count

/-- `Registry::adjust_send`. -/
def adjustSend (self : Registry) (delta : ℤ) : Registry :=
  if self.localCount + self.peerCount = 0 then self
  else self.adjustFrom delta 0 self.slots.length

/-- `Registry::poll_wake`. -/
def pollWake (self : Registry) : Registry :=
  { self with sendWakes := self.sendWakes.tail }

end Registry

/-! ## Operations -/

/-- What a caller does with an admission: a stream that may be opened is opened, refused or left. -/
inductive Opening
  | open (stream : Lifecycle)
  | refuse
  | leave
  deriving DecidableEq, Repr

/-- The operations of a connection on its registry and its history. -/
inductive Op
  | admitPeer (id : StreamId) (limit : ℕ) (edit : Edit) (answer : Answer) (opening : Opening)
      (refuse : Bool)
  | openLocal (limit : ℕ) (answer : Answer) (stream : Lifecycle) (encoded : Bool)
  | visit (id : StreamId) (edit : Edit)
  | removeKey (key : Key) (reset : Bool)
  | beginReset (key : Key) (error : UInt32)
  | commitReset
  | release (key : Key) (notice : Notice)
  | holdDuplex (key : Key)
  | touch (key : Key) (touches : List Touch)
  | addSend (id : StreamId) (delta : ℕ)
  | adjustSend (delta : ℤ)
  | pollWake
  deriving DecidableEq, Repr

/-- A connection. The fields behind the history are not in the source: they record the streams that
were opened on either side, the keys that a duplex session holds, and those whose end was queued. -/
structure Machine where
  registry : Registry
  history : History
  openedPeer : List StreamId
  openedLocal : List StreamId
  held : List Key
  ended : List Key
  deriving DecidableEq, Repr

namespace Machine

/-- A new connection. -/
def new (endpoint : Endpoint) (capacity : ℕ) : Machine :=
  ⟨.new capacity, .new endpoint, [], [], [], []⟩

/-- The connection with a registry of which only records changed. -/
def withRegistry (self : Machine) (registry : Registry) : Machine :=
  { self with registry }

/-- The connection behind touches of a key. -/
def noteEnd (self : Machine) (key : Key) (touches : List Touch) : Machine :=
  if Touch.queueEnd ∈ touches then { self with ended := key :: self.ended } else self

/-- A stream of the peer is committed to the history. -/
def commitPeer (self : Machine) (id : StreamId) : Machine :=
  { self with history := self.history.commitPeer id, openedPeer := id :: self.openedPeer }

/-- A stream is opened in a slot. -/
def insert (self : Machine) (endpoint : Endpoint) (id : StreamId) (slot : ℕ) (stream : Lifecycle) :
    Machine :=
  { self with
    registry := self.registry.insert endpoint id slot stream
    ended := if stream.ended then ⟨id, slot⟩ :: self.ended else self.ended }

/-- An edit of the record of an indexed key. -/
def edit (self : Machine) (endpoint : Endpoint) (key : Key) (edit : Edit) : Option Machine :=
  match self.registry.entryAt key.slot with
  | none => some self
  | some record =>
    (self.registry.edit endpoint key record edit).map fun registry =>
      (self.withRegistry registry).noteEnd key edit.touches

/-- `Registry::admit` and what the caller does with the admission. -/
def admitPeer (self : Machine) (endpoint : Endpoint) (id : StreamId) (limit : ℕ) (edit : Edit)
    (answer : Answer) (opening : Opening) (refuse : Bool) : Option Machine :=
  match self.registry.find id with
  | some key => self.edit endpoint key edit
  | none =>
    if self.history.classify endpoint id ≠ .idle then some self
    else if !self.history.peer endpoint id then some self
    else
      -- `Admission::Full`: the caller may still commit the id.
      let full := if refuse then self.commitPeer id else self
      if !self.registry.hasRoom then some full
      else if limit ≤ self.registry.peerCount then some full
      else
        match self.registry.tryVacant answer with
        | .error .full => some full
        | .error _ => some self
        | .ok slot =>
          match opening with
          | .open stream => some ((self.insert endpoint id slot stream).commitPeer id)
          | .refuse => some (self.commitPeer id)
          | .leave => some self

/-- `Headers::open` of a local stream: it is removed again if its head cannot be encoded. -/
def openLocal (self : Machine) (endpoint : Endpoint) (limit : ℕ) (answer : Answer)
    (stream : Lifecycle) (encoded : Bool) : Option Machine :=
  match self.history.nextLocal with
  | none => some self
  | some id =>
    if limit ≤ self.registry.localCount then some self
    else if (self.registry.find id).isSome then some self
    else if !self.registry.hasRoom then some self
    else
      match self.registry.tryVacant answer with
      | .error _ => some self
      | .ok slot =>
        let next := self.insert endpoint id slot stream
        if encoded then
          some { next with
            history := next.history.commitLocal id, openedLocal := id :: next.openedLocal }
        else
          (next.registry.removeKey endpoint ⟨id, slot⟩ false).map next.withRegistry

/-- One operation. -/
def step (self : Machine) (endpoint : Endpoint) : Op → Option Machine
  | .admitPeer id limit edit answer opening refuse =>
    self.admitPeer endpoint id limit edit answer opening refuse
  | .openLocal limit answer stream encoded => self.openLocal endpoint limit answer stream encoded
  | .visit id edit =>
    match self.registry.find id with
    | none => some self
    | some key => self.edit endpoint key edit
  | .removeKey key reset => (self.registry.removeKey endpoint key reset).map self.withRegistry
  | .beginReset key error => (self.registry.beginReset endpoint key error).map self.withRegistry
  | .commitReset => self.registry.commitReset.map self.withRegistry
  | .release key notice =>
    (self.registry.release key notice).map fun registry =>
      { self with
        registry
        held := if notice = .duplex then self.held.erase key else self.held }
  | .holdDuplex key =>
    (self.registry.holdDuplex key).map fun registry =>
      { self with registry, held := key :: self.held }
  | .touch key touches =>
    (self.registry.touch key touches).map fun registry =>
      (self.withRegistry registry).noteEnd key touches
  | .addSend id delta => some (self.withRegistry (self.registry.addSend id delta))
  | .adjustSend delta => some (self.withRegistry (self.registry.adjustSend delta))
  | .pollWake => some (self.withRegistry self.registry.pollWake)

/-- A run of operations. -/
def run (self : Machine) (endpoint : Endpoint) (ops : List Op) : Option Machine :=
  ops.foldlM (fun machine op => machine.step endpoint op) self

end Machine

end Sark.H2
