import Sark.H2.Conn.Message
import Sark.H2.Hpack.Evolution
import Sark.H2.Hpack.Fragments

/-!
# Header blocks of the peer

A header block comes in one HEADERS frame, or in a HEADERS frame and CONTINUATION frames
(`h2/src/conn/machine/decoder/headers`). In one frame, the section is judged before its stream gets
a record; a chain inserts a record first, and completes or resets it with its last frame. A block
whose stream is refused or reset is still decoded, since all blocks share one table.

* `Intake.whole`, `Intake.begin`, `Intake.continuation`: the two ways of a block.
* `Intake.chain_eq`: what a chain does is decided by the block as a whole.
* `Intake.cut_eq_whole`: a block that is cut does what the block in one frame does.
-/

namespace Sark.H2

open Hpack (Decoder Admission)

/-- The errors that a header block resets its stream with. -/
inductive BlockReset
  | error (error : ErrorCode)
  | refusedStream
  deriving DecidableEq, Repr

/-- `headers::Action`. -/
inductive BlockAction
  | deliver
  | reset (error : BlockReset)
  deriving DecidableEq, Repr

/-- `headers::Pending`, with the number of CONTINUATION frames so far. -/
structure ChainHead where
  stream : StreamId
  boundary : Boundary
  «section» : Section
  action : BlockAction
  continuations : ℕ
  deriving DecidableEq, Repr

/-- `Continuation::LIMIT`. -/
def continuationLimit : ℕ :=
  64

/-- `conn::Error`, the errors of a header block. What is wrong inside a block is left out. -/
inductive BlockError
  | eventFull
  | decodeFull
  | headerList (used incoming limit : ℕ)
  | hpack
  | state
  | idle (id : StreamId)
  | peer (actual : StreamId) (last : ℕ)
  | exhausted (id : StreamId)
  | connection (error : ConnError)
  | limit (actual limit : ℕ)
  | empty
  | unexpected
  deriving DecidableEq, Repr

/-- The errors that only ask to try again: there is no free event, or no buffer for the fields. -/
def BlockError.isPressure : BlockError → Bool
  | .eventFull | .decodeFull => true
  | _ => false

/-- What an application is told. A reset tells whether the section was rejected. -/
inductive BlockEvent
  | headers (id : StreamId) (final : Final) (fields : List Compress.Entry) (boundary : Boundary)
      (part : Section)
  | reset (id : StreamId) (error : BlockReset) (rejected : Bool)
  deriving DecidableEq, Repr

/-- `headers::state::Mode`. What the consumer of a block takes does not reach the phase of the
decoder, so that a block that is dropped is decoded as one that is stored. -/
inductive Coding
  | idle (decoder : Decoder)
  | active (head : ChainHead) (block : Hpack.Block) (wireLen : ℕ)

/-- What the validation makes of the fields of a section. The first section that a server takes is a
request, which is no interim response. -/
structure Rules where
  final : Endpoint → Section → List Compress.Entry → Admission → Final
  isInterim_server (fields : List Compress.Entry) (admission : Admission) :
    (final .server .initial fields admission).isInterim = false

/-- The parts of a connection that a header block reads and changes. -/
structure Intake where
  endpoint : Endpoint
  history : History
  entries : StreamId → Option Inbound
  indexed : ℕ
  capacity : ℕ
  localCount : ℕ
  peerCount : ℕ
  limit : ℕ
  window : Window
  goaway : Bool
  keeps : Bool
  coding : Coding
  headerCap : ℕ
  events : List BlockEvent
  eventCapacity : ℕ
  resets : List (StreamId × BlockReset)

/-- What becomes of a stream id at the front of a block: its record, or how it is opened. -/
inductive Arrival
  | active (record : Inbound)
  | «open»
  | refuse
  | reset
  deriving DecidableEq, Repr

namespace Intake

/-! ## Streams -/

/-- The connection with another record of an active stream. -/
def update (self : Intake) (id : StreamId) (record : Inbound) : Intake :=
  { self with entries := Function.update self.entries id (some record) }

/-- `Vacant::insert`. -/
def insert (self : Intake) (id : StreamId) (record : Inbound) : Intake :=
  let isOwn := isLocal self.endpoint id
  { self with
    entries := Function.update self.entries id (some record)
    indexed := self.indexed + 1
    localCount := if isOwn then self.localCount + 1 else self.localCount
    peerCount := if isOwn then self.peerCount else self.peerCount + 1 }

/-- `Transition::remove`, and `store::finish`. -/
def remove (self : Intake) (id : StreamId) : Intake :=
  let isOwn := isLocal self.endpoint id
  { self with
    entries := Function.update self.entries id none
    indexed := self.indexed - 1
    localCount := if isOwn then self.localCount - 1 else self.localCount
    peerCount := if isOwn then self.peerCount else self.peerCount - 1 }

/-- `Peer::commit`. -/
def commitPeer (self : Intake) (id : StreamId) : Intake :=
  { self with history := self.history.commitPeer id }

/-- `Outbound::reset`: room for one reset is kept behind the limit of the output, which is checked
in front of every frame. -/
def writeReset (self : Intake) (id : StreamId) (error : BlockReset) : Intake :=
  { self with resets := self.resets ++ [(id, error)] }

/-- `Events::push`, of an event that was asked for. -/
def push (self : Intake) (event : BlockEvent) : Intake :=
  { self with events := self.events ++ [event] }

/-- Whether no event is free. -/
def isFull (self : Intake) : Bool :=
  decide (self.eventCapacity ≤ self.events.length)

/-- `Transition::reset` and `State::finish_reset`: no other reset is waiting, so that this one is
written at once and the record is removed. -/
def finishReset (self : Intake) (id : StreamId) (error : BlockReset) (notify : Option Bool) :
    Intake :=
  let self := (self.remove id).writeReset id error
  match notify with
  | none => self
  | some rejected => self.push (.reset id error rejected)

/-- `Registry::admit`, and the choice of `handle` behind it. -/
def opening (self : Intake) (id : StreamId) (answer : Answer) : Except BlockError Arrival :=
  match self.entries id with
  | some record => .ok (.active record)
  | none =>
    if self.history.classify self.endpoint id ≠ .idle then .ok .reset
    else if !self.history.peer self.endpoint id then .error (.peer id self.history.lastPeer)
    else
      let full : Except BlockError Arrival :=
        match self.endpoint with
        | .client => .error (.idle id)
        | .server => .ok .refuse
      if self.capacity ≤ self.indexed then full
      else if self.limit ≤ self.peerCount then full
      else
        match answer with
        | .full => full
        | .identityExhausted => .error (.exhausted id)
        | .vacant _ =>
          match self.endpoint with
          | .client => .error (.idle id)
          | .server => .ok (if self.goaway then .refuse else .open)

/-- The section of a record that does not go on behind its trailers. -/
def actionOf (record : Inbound) (boundary : Boundary) : BlockAction :=
  if record.section = .trailing ∧ boundary = .more then .reset (.error .protocolError)
  else .deliver

/-- `complete`, and what its caller does with the disposition. -/
def complete (self : Intake) (id : StreamId) (record : Inbound) (final : Final)
    (fields : List Compress.Entry) (boundary : Boundary) (part : Section) :
    Except BlockError Intake :=
  match record.complete self.endpoint final boundary part self.keeps with
  | .error error => .error (.connection error)
  | .ok (.keep next) => .ok ((self.update id next).push (.headers id final fields boundary part))
  | .ok .remove => .ok ((self.remove id).push (.headers id final fields boundary part))
  | .ok (.reset error) =>
    let notify := decide (self.endpoint = .client ∨ record.section = .trailing)
    .ok (self.finishReset id (.error error) (if notify then some final.isRejected else none))

/-! ## One frame -/

/-- `Blocks::admit`. -/
def admitWire (self : Intake) (used incoming : ℕ) : Except BlockError ℕ :=
  if self.headerCap < used ∨ self.headerCap - used < incoming then
    .error (.headerList used incoming self.headerCap)
  else .ok (used + incoming)

/-- `Blocks::discard`. -/
def drop (self : Intake) (block : Bytes) : Except BlockError Intake :=
  match self.admitWire 0 block.length with
  | .error error => .error error
  | .ok _ =>
    match self.coding with
    | .active .. => .error .state
    | .idle decoder =>
      match decoder.discard block with
      | .error _ => .error .hpack
      | .ok decoder => .ok { self with coding := .idle decoder }

/-- `Blocks::prepare`: the connection with the decoder behind the block, what the validation makes
of its fields, and the fields. `lease` is the answer of the pool. -/
def prepare (self : Intake) (rules : Rules) (part : Section) (block : Bytes) (lease : Bool) :
    Except BlockError (Intake × Final × List Compress.Entry) :=
  if self.isFull then .error .eventFull
  else
    match self.admitWire 0 block.length with
    | .error error => .error error
    | .ok _ =>
      if lease = false then .error .decodeFull
      else
        match self.coding with
        | .active .. => .error .state
        | .idle decoder =>
          match decoder.decodeLimit block with
          | .error _ => .error .hpack
          | .ok (decoder, admission, fields) =>
            .ok ({ self with coding := .idle decoder },
              rules.final self.endpoint part fields admission, fields)

/-- `handle` with END_HEADERS: a block in one frame. -/
def whole (self : Intake) (rules : Rules) (id : StreamId) (boundary : Boundary) (block : Bytes)
    (answer : Answer) (lease : Bool) : Except BlockError Intake :=
  match self.opening id answer with
  | .error error => .error error
  | .ok (.active record) =>
    match actionOf record boundary with
    | .reset error =>
      if self.isFull then .error .eventFull
      else (self.drop block).map fun next => next.finishReset id error (some false)
    | .deliver =>
      match self.prepare rules record.section block lease with
      | .error error => .error error
      | .ok (next, final, fields) => next.complete id record final fields boundary record.section
  | .ok .refuse =>
    (self.drop block).map fun next => (next.commitPeer id).writeReset id .refusedStream
  | .ok .reset =>
    (self.drop block).map fun next => next.writeReset id (.error .streamClosed)
  | .ok .open =>
    match self.prepare rules .initial block lease with
    | .error error => .error error
    | .ok (next, final, fields) =>
      match Inbound.openRemote self.window final boundary self.keeps with
      | .error error => .ok ((next.commitPeer id).writeReset id (.error error))
      | .ok record =>
        .ok (((next.insert id record).commitPeer id).push
          (.headers id final fields boundary .initial))

/-! ## Chains -/

/-- `Blocks::feed_parts`. -/
def feed (self : Intake) (part : Bytes) : Except BlockError Intake :=
  match self.coding with
  | .idle _ => .error .state
  | .active head block wireLen =>
    match self.admitWire wireLen part.length with
    | .error error => .error error
    | .ok wireLen =>
      match block.decode part with
      | .error _ => .error .hpack
      | .ok block => .ok { self with coding := .active head block wireLen }

/-- `Blocks::begin`: a block that is dropped needs no buffer. -/
def start (self : Intake) (head : ChainHead) (part : Bytes) (lease : Bool) :
    Except BlockError Intake :=
  match self.coding with
  | .active .. => .error .state
  | .idle decoder =>
    if head.action = .deliver ∧ lease = false then .error .decodeFull
    else { self with coding := .active head (.new decoder) 0 }.feed part

/-- `handle` without END_HEADERS: the first frame of a chain. -/
def begin (self : Intake) (id : StreamId) (boundary : Boundary) (part : Bytes) (answer : Answer)
    (lease : Bool) : Except BlockError Intake :=
  match self.opening id answer with
  | .error error => .error error
  | .ok (.active record) =>
    self.start ⟨id, boundary, record.section, actionOf record boundary, 0⟩ part lease
  | .ok .open =>
    (self.start ⟨id, boundary, .initial, .deliver, 0⟩ part lease).map fun next =>
      (next.insert id (.new self.window)).commitPeer id
  | .ok .refuse =>
    (self.start ⟨id, boundary, .initial, .reset .refusedStream, 0⟩ part lease).map fun next =>
      next.commitPeer id
  | .ok .reset =>
    self.start ⟨id, boundary, .initial, .reset (.error .streamClosed), 0⟩ part lease

/-- The end of `run`, behind a decoded block. -/
def close (self : Intake) (rules : Rules) (head : ChainHead) (admission : Admission)
    (fields : List Compress.Entry) : Except BlockError Intake :=
  match head.action with
  | .reset error =>
    match self.entries head.stream with
    | some _ => .ok (self.finishReset head.stream error (some false))
    | none => .ok (self.writeReset head.stream error)
  | .deliver =>
    match self.entries head.stream with
    | some record =>
      self.complete head.stream record
        (rules.final self.endpoint head.section fields admission) fields head.boundary
        head.section
    | none =>
      match self.history.classify self.endpoint head.stream with
      | .closed => .ok self
      | .idle => .error (.idle head.stream)

/-- A chain at its end, with what was decoded. -/
def closeWith (self : Intake) (rules : Rules) (head : ChainHead)
    (decoded : Option (Decoder × Admission × List Compress.Entry)) : Except BlockError Intake :=
  match decoded with
  | none => .error .hpack
  | some (decoder, admission, fields) =>
    { self with coding := .idle decoder }.close rules head admission fields

/-- `run` at the last frame: `Blocks::resume` or `Blocks::finish_drop`, and what becomes of the
stream. -/
def last (self : Intake) (rules : Rules) (head : ChainHead) (part : Bytes) :
    Except BlockError Intake :=
  let emits := head.action = .deliver ∨ (self.entries head.stream).isSome
  if emits ∧ self.isFull then .error .eventFull
  else
    match self.feed part with
    | .error error => .error error
    | .ok next =>
      match next.coding with
      | .idle _ => .error .state
      | .active _ block _ => next.closeWith rules head block.finish.toOption

/-- `run` on a CONTINUATION frame, with the checks of `continuation_frame`. -/
def continuation (self : Intake) (rules : Rules) (part : Bytes) (final : Bool) :
    Except BlockError Intake :=
  match self.coding with
  | .idle _ => .error .unexpected
  | .active head block wireLen =>
    let actual := head.continuations + 1
    if part = [] ∧ final = false then .error .empty
    else if continuationLimit < actual then .error (.limit actual continuationLimit)
    else if final then self.last rules head part
    else
      { self with coding := .active { head with continuations := actual } block wireLen }.feed part

/-- A block that is cut into a HEADERS frame and CONTINUATION frames, the last one with `tail`. -/
def cut (self : Intake) (rules : Rules) (id : StreamId) (boundary : Boundary) (first : Bytes)
    (middle : List Bytes) (tail : Bytes) (answer : Answer) (lease : Bool) :
    Except BlockError Intake :=
  self.begin id boundary first answer lease >>= fun next =>
    middle.foldlM (fun next part => next.continuation rules part false) next >>= fun next =>
      next.continuation rules tail true

/-! ## The decoder -/

end Intake

theorem toOption_of_tracks {σ : Type} {outcome : Except (Hpack.Modes.Failure Empty) (Decoder × σ)}
    {meaning : Option Decoder} (h : Hpack.Modes.Tracks outcome Prod.fst meaning) :
    outcome.toOption.map Prod.fst = meaning := by
  cases outcome with
  | ok result => exact h.symm
  | error failure =>
    cases failure with
    | decode cause => exact h.symm
    | sink cause => exact cause.elim

theorem toOption_discard (decoder : Decoder) (block : Bytes) :
    (decoder.discard block).toOption = (decoder.decodeLimit block).toOption.map Prod.fst := by
  have hstored := toOption_of_tracks
    (Hpack.Modes.emit.block_tracks decoder ⟨decoder.budget, []⟩ block)
  have hdropped := toOption_of_tracks
    (Hpack.Modes.discard.block_tracks decoder ⟨Hpack.Budget.new none, ()⟩ block)
  have hemit := decoder.decodeLimit_eq_emit block
  rw [Decoder.decodeTo] at hemit
  have hlimit : (decoder.decodeLimit block).toOption.map Prod.fst =
      (Hpack.Modes.emit.block decoder ⟨decoder.budget, []⟩ block).toOption.map Prod.fst := by
    rw [← Except.toOption_mapError (decoder.decodeLimit block) Hpack.Modes.Failure.decode, ← hemit]
    cases Hpack.Modes.emit.block decoder ⟨decoder.budget, []⟩ block <;> rfl
  rw [hlimit, hstored.trans hdropped.symm, Decoder.discard]
  cases Hpack.Modes.discard.block decoder ⟨Hpack.Budget.new none, ()⟩ block with
  | ok result => rfl
  | error failure =>
    cases failure with
    | decode cause => rfl
    | sink cause => exact cause.elim

theorem toOption_decode (decoder : Decoder) (parts : List Bytes) :
    (parts.foldlM Hpack.Block.decode (.new decoder) >>= Hpack.Block.finish).toOption =
      (decoder.decodeLimit parts.flatten).toOption := by
  ext result
  rw [Except.toOption_eq_some_iff, Except.toOption_eq_some_iff]
  exact Hpack.Block.decode_fragments_iff decoder parts result

namespace Intake

variable {conn : Intake} {rules : Rules} {head : ChainHead} {decoder : Decoder}

theorem admitWire_eq {used incoming : ℕ} (h : used + incoming ≤ conn.headerCap) :
    conn.admitWire used incoming = .ok (used + incoming) := by
  rw [admitWire, if_neg (by omega)]

theorem feed_active {block : Hpack.Block} {wireLen : ℕ} {part : Bytes}
    (h : wireLen + part.length ≤ conn.headerCap) :
    { conn with coding := .active head block wireLen }.feed part =
      match block.decode part with
      | .error _ => .error .hpack
      | .ok block => .ok { conn with coding := .active head block (wireLen + part.length) } := by
  rw [feed]
  dsimp only
  rw [show ({ conn with coding := .active head block wireLen } : Intake).admitWire wireLen
    part.length = .ok (wireLen + part.length) from admitWire_eq h]

/-- What a chain does behind its first frame is decided by what is decoded. -/
theorem chain_eq {block : Hpack.Block} {wireLen : ℕ} {middle : List Bytes} {tail : Bytes}
    (hmiddle : ∀ part ∈ middle, part ≠ [])
    (hcount : head.continuations + middle.length < continuationLimit)
    (hlen : wireLen + (middle ++ [tail]).flatten.length ≤ conn.headerCap)
    (hroom : head.action = .deliver ∨ (conn.entries head.stream).isSome → conn.isFull = false) :
    (middle.foldlM (fun next part => next.continuation rules part false)
        { conn with coding := .active head block wireLen } >>= fun next =>
      next.continuation rules tail true) =
      conn.closeWith rules head
        ((middle ++ [tail]).foldlM Hpack.Block.decode block >>= Hpack.Block.finish).toOption := by
  induction middle generalizing head block wireLen with
  | nil =>
    have htail : wireLen + tail.length ≤ conn.headerCap := by simpa using hlen
    have hlimit : ¬ continuationLimit < head.continuations + 1 := by
      simpa [Nat.not_lt] using hcount
    have hemits : ¬ ((head.action = .deliver ∨ (conn.entries head.stream).isSome) ∧
        conn.isFull = true) := fun h => by simp [hroom h.1] at h
    rw [List.foldlM_nil, pure_bind, continuation]
    dsimp only
    rw [if_neg (by simp), if_neg hlimit, if_pos rfl, last]
    dsimp only
    refine (if_neg hemits).trans ?_
    rw [feed_active htail, List.nil_append, List.foldlM_cons]
    cases block.decode tail with
    | error cause => rfl
    | ok block => rfl
  | cons part middle ih =>
    have hpart : part ≠ [] := hmiddle part List.mem_cons_self
    have hflat : (part :: middle ++ [tail]).flatten.length =
        part.length + (middle ++ [tail]).flatten.length := by
      rw [List.cons_append, List.flatten_cons, List.length_append]
    rw [List.length_cons] at hcount
    have hlimit : ¬ continuationLimit < head.continuations + 1 := by omega
    rw [List.foldlM_cons, List.cons_append, List.foldlM_cons, continuation]
    dsimp only
    rw [if_neg (by simp [hpart]), if_neg hlimit, if_neg (by simp), feed_active (by omega)]
    cases block.decode part with
    | error cause => rfl
    | ok next =>
      exact @ih { head with continuations := head.continuations + 1 } _ _
        (fun other hother => hmiddle other (List.mem_cons_of_mem _ hother))
        (by dsimp only; omega) (by omega) hroom

/-- What a whole chain does, if its first frame has left the rest of the connection as `next` is. -/
theorem start_chain (hidle : conn.coding = .idle decoder) (next : Intake) {wrap : Intake → Intake}
    (hwrap : ∀ coding, wrap { conn with coding } = { next with coding })
    (hcap : next.headerCap = conn.headerCap) (hfresh : head.continuations = 0) {first : Bytes}
    {middle : List Bytes} {tail : Bytes} (hmiddle : ∀ part ∈ middle, part ≠ [])
    (hcount : middle.length < continuationLimit)
    (hlen : (first :: (middle ++ [tail])).flatten.length ≤ conn.headerCap) {lease : Bool}
    (hlease : head.action = .deliver → lease = true)
    (hroom : head.action = .deliver ∨ (next.entries head.stream).isSome → next.isFull = false) :
    ((conn.start head first lease).map wrap >>= fun next =>
      middle.foldlM (fun next part => next.continuation rules part false) next >>= fun next =>
        next.continuation rules tail true) =
      next.closeWith rules head
        (decoder.decodeLimit (first :: (middle ++ [tail])).flatten).toOption := by
  have hneeds : ¬ (head.action = .deliver ∧ lease = false) := fun h => by
    simp [hlease h.1] at h
  rw [List.flatten_cons, List.length_append] at hlen
  rw [start, hidle]
  dsimp only
  rw [if_neg hneeds, feed_active (by omega), ← toOption_decode, List.foldlM_cons]
  cases (Hpack.Block.new decoder).decode first with
  | error cause => rfl
  | ok block =>
    have hchain := @chain_eq next rules head block (0 + first.length) middle tail hmiddle
      (by omega) (by omega) hroom
    rw [← hwrap] at hchain
    exact hchain

/-! ## Records -/

/-- A chain completes the record that its first frame opened with what one frame opens it with. -/
theorem complete_new (window : Window) {final : Final} (hinterim : final.isInterim = false)
    (boundary : Boundary) (queued : Bool) :
    (Inbound.new window).complete .server final boundary .initial queued =
      match Inbound.openRemote window final boundary queued with
      | .error error => .ok (.reset error)
      | .ok record => .ok (.keep record) := by
  rw [Inbound.openRemote.eq_def, Inbound.complete]
  by_cases hrejected : final.isRejected = true
  · rw [if_pos (.inl hrejected), if_pos hrejected]
  have hno : ¬ (final.isRejected = true ∨ final.isInterim = true ∧ boundary = .end) := by
    simp [hrejected, hinterim]
  have hmethod : (Inbound.new window).method.getD .other = .other := rfl
  rw [if_neg hno, if_neg hrejected, Inbound.account, hmethod]
  cases boundary with
  | more =>
    simp only [Inbound.new, StreamState.recv, StreamState.directional, Except.map, hinterim]
    cases final.content .other with
    | error error => rfl
    | ok opened =>
      obtain ⟨content, remaining⟩ := opened
      dsimp only
      cases content.receive remaining 0 (Boundary.more == .end) with
      | error error => rfl
      | ok left => cases queued <;> rfl
  | «end» =>
    simp only [Inbound.new, StreamState.recv, StreamState.directional, Except.map, hinterim]
    cases final.content .other with
    | error error => rfl
    | ok opened =>
      obtain ⟨content, remaining⟩ := opened
      dsimp only
      cases content.receive remaining 0 (Boundary.end == .end) with
      | error error => rfl
      | ok left => cases queued <;> rfl

theorem remove_insert {id : StreamId} (h : conn.entries id = none) (record : Inbound) :
    (conn.insert id record).remove id = conn := by
  have hentries : Function.update (Function.update conn.entries id (some record)) id none =
      conn.entries := by
    rw [Function.update_idem, ← h, Function.update_eq_self]
  rw [insert, remove]
  dsimp only
  rw [hentries]
  cases isLocal conn.endpoint id <;> rfl

theorem of_opening {id : StreamId} {answer : Answer} {arrival : Arrival}
    (h : conn.opening id answer = .ok arrival) :
    (∀ record, arrival = .active record → conn.entries id = some record) ∧
      ((∀ record, arrival ≠ .active record) → conn.entries id = none) ∧
      (arrival = .open → conn.endpoint = .server) := by
  rw [opening] at h
  cases hentry : conn.entries id with
  | some record =>
    rw [hentry] at h
    rw [← Except.ok.inj h]
    refine ⟨fun other heq => ?_, fun hne => absurd rfl (hne record), fun heq => nomatch heq⟩
    rw [Arrival.active.inj heq]
  | none =>
    rw [hentry] at h
    dsimp only at h
    refine ⟨fun record heq => ?_, fun _ => rfl, fun heq => ?_⟩
    · subst heq
      split_ifs at h
      all_goals (cases hend : conn.endpoint <;> cases answer <;> simp_all)
    · subst heq
      split_ifs at h
      all_goals (cases hend : conn.endpoint <;> cases answer <;> simp_all)

theorem drop_eq (hidle : conn.coding = .idle decoder) {block : Bytes}
    (hlen : block.length ≤ conn.headerCap) :
    conn.drop block = ((decoder.decodeLimit block).toOption.map Prod.fst).elim (.error .hpack)
      fun decoder => .ok { conn with coding := .idle decoder } := by
  rw [← toOption_discard, drop, admitWire_eq (by omega), hidle]
  dsimp only
  cases decoder.discard block <;> rfl

theorem prepare_eq (hidle : conn.coding = .idle decoder) {block : Bytes}
    (hlen : block.length ≤ conn.headerCap) (hroom : conn.isFull = false) (part : Section) :
    conn.prepare rules part block true =
      (decoder.decodeLimit block).toOption.elim (.error .hpack) fun decoded =>
        .ok ({ conn with coding := .idle decoded.1 },
          rules.final conn.endpoint part decoded.2.2 decoded.2.1, decoded.2.2) := by
  rw [prepare, if_neg (by simp [hroom]), admitWire_eq (by omega), hidle]
  dsimp only
  rw [if_neg (by simp)]
  cases decoder.decodeLimit block <;> rfl

/-- What becomes of a record that a chain opened. It is removed without a notice. -/
theorem complete_opened {id : StreamId} (hendpoint : conn.endpoint = .server) (window : Window)
    (boundary : Boundary) (admission : Admission) (fields : List Compress.Entry) :
    conn.complete id (.new window) (rules.final conn.endpoint .initial fields admission) fields
        boundary .initial =
      match Inbound.openRemote window (rules.final conn.endpoint .initial fields admission) boundary
          conn.keeps with
      | .error error => .ok ((conn.remove id).writeReset id (.error error))
      | .ok record =>
        .ok ((conn.update id record).push (.headers id
          (rules.final conn.endpoint .initial fields admission) fields boundary .initial)) := by
  rw [complete, hendpoint, complete_new _ (rules.isInterim_server fields admission)]
  cases Inbound.openRemote window (rules.final .server .initial fields admission) boundary
      conn.keeps <;> rfl

/-- The end of a chain that opened its stream is the end of one frame that opens it. -/
theorem close_opened {id : StreamId} (hentry : conn.entries id = none)
    (hendpoint : conn.endpoint = .server) (coding : Coding) (boundary : Boundary)
    (admission : Admission) (fields : List Compress.Entry) :
    ({ (conn.insert id (.new conn.window)).commitPeer id with coding } : Intake).close rules
        ⟨id, boundary, .initial, .deliver, 0⟩ admission fields =
      match Inbound.openRemote conn.window
          (rules.final conn.endpoint .initial fields admission) boundary conn.keeps with
      | .error error =>
        .ok (({ conn with coding }.commitPeer id).writeReset id (.error error))
      | .ok record =>
        .ok ((({ conn with coding }.insert id record).commitPeer id).push
          (.headers id (rules.final conn.endpoint .initial fields admission) fields boundary
            .initial)) := by
  obtain ⟨base, hbase⟩ : ∃ base : Intake, base =
    { (conn.insert id (.new conn.window)).commitPeer id with coding } := ⟨_, rfl⟩
  have hrecord : base.entries id = some (.new conn.window) := by
    rw [hbase]
    exact Function.update_self id _ conn.entries
  have hendpoint' : base.endpoint = conn.endpoint := by rw [hbase]; rfl
  have hkeeps : base.keeps = conn.keeps := by rw [hbase]; rfl
  have hremove : base.remove id = { conn with coding }.commitPeer id := by
    rw [hbase]
    exact congrArg (fun next : Intake => next.commitPeer id)
      (@remove_insert { conn with coding } id hentry (.new conn.window))
  have hupdate (record : Inbound) :
      base.update id record = ({ conn with coding }.insert id record).commitPeer id := by
    have hentries : Function.update (Function.update conn.entries id (some (.new conn.window))) id
        (some record) = Function.update conn.entries id (some record) := Function.update_idem _ _ _
    rw [hbase]
    exact congrArg (fun entries => ({ ({ conn with coding }.insert id record).commitPeer id with
      entries } : Intake)) hentries
  rw [← hbase, close]
  dsimp only
  rw [hrecord]
  dsimp only
  rw [complete_opened (hendpoint'.trans hendpoint), hendpoint', hkeeps]
  cases Inbound.openRemote conn.window (rules.final conn.endpoint .initial fields admission)
      boundary conn.keeps with
  | error error =>
    dsimp only
    rw [hremove]
  | ok record =>
    dsimp only
    rw [hupdate]

theorem map_self {ε α : Type} (result : Except ε α) : (result.map fun value => value) = result := by
  cases result <;> rfl

/-! ## Cut blocks -/

section Cut

variable {id : StreamId} {boundary : Boundary} {first tail : Bytes} {middle : List Bytes}
  {answer : Answer} {lease : Bool}

variable (hidle : conn.coding = .idle decoder) (hmiddle : ∀ part ∈ middle, part ≠ [])
  (hcount : middle.length < continuationLimit)
  (hlen : (first :: (middle ++ [tail])).flatten.length ≤ conn.headerCap)

include hidle hmiddle hcount hlen

theorem cut_active {record : Inbound} (hopening : conn.opening id answer = .ok (.active record))
    (hpressure : ∀ error, conn.whole rules id boundary (first :: (middle ++ [tail])).flatten answer
      lease = .error error → error.isPressure = false) :
    conn.cut rules id boundary first middle tail answer lease =
      conn.whole rules id boundary (first :: (middle ++ [tail])).flatten answer lease := by
  have hentry := (of_opening hopening).1 record rfl
  rw [whole, hopening] at hpressure ⊢
  rw [cut, begin, hopening]
  dsimp only at hpressure ⊢
  have hroom : conn.isFull = false := by
    by_contra hfull
    rw [Bool.not_eq_false] at hfull
    cases haction : actionOf record boundary with
    | deliver =>
      rw [haction, prepare, if_pos hfull] at hpressure
      exact absurd (hpressure _ rfl) (by decide)
    | reset error =>
      rw [haction] at hpressure
      dsimp only at hpressure
      rw [if_pos hfull] at hpressure
      exact absurd (hpressure _ rfl) (by decide)
  have hlease : actionOf record boundary = .deliver → lease = true := by
    intro haction
    by_contra hno
    rw [Bool.not_eq_true] at hno
    rw [haction, prepare, if_neg (by simp [hroom]), admitWire_eq (by omega)] at hpressure
    dsimp only at hpressure
    rw [if_pos hno] at hpressure
    exact absurd (hpressure _ rfl) (by decide)
  rw [← map_self (conn.start _ first lease),
    start_chain hidle conn (fun _ => rfl) rfl rfl hmiddle hcount hlen hlease fun _ => hroom,
    closeWith.eq_def]
  cases haction : actionOf record boundary with
  | deliver =>
    rw [hlease haction, prepare_eq hidle hlen hroom]
    cases decoder.decodeLimit (first :: (middle ++ [tail])).flatten with
    | error cause => rfl
    | ok decoded =>
      dsimp only [Except.toOption_ok, Option.elim]
      rw [close]
      dsimp only
      rw [hentry]
  | reset error =>
    dsimp only
    rw [if_neg (by simp [hroom]), drop_eq hidle hlen]
    cases decoder.decodeLimit (first :: (middle ++ [tail])).flatten with
    | error cause => rfl
    | ok decoded =>
      dsimp only [Except.toOption_ok, Option.elim]
      rw [close]
      dsimp only
      rw [hentry]
      rfl

/-- A block for a stream that is refused or over. -/
theorem cut_drop {arrival : Arrival} (hopening : conn.opening id answer = .ok arrival)
    (harrival : arrival = .refuse ∨ arrival = .reset) :
    conn.cut rules id boundary first middle tail answer lease =
      conn.whole rules id boundary (first :: (middle ++ [tail])).flatten answer lease := by
  have hentry : conn.entries id = none := by
    refine (of_opening hopening).2.1 fun record heq => ?_
    rcases harrival with rfl | rfl <;> exact nomatch heq
  have hno (error : BlockReset) : BlockAction.reset error = .deliver → lease = true :=
    fun heq => nomatch heq
  rw [whole, cut, begin, hopening]
  rcases harrival with rfl | rfl
  · have hsilent (next : Intake) (hnext : next.entries = conn.entries) :
        BlockAction.reset .refusedStream = .deliver ∨ (next.entries id).isSome →
          next.isFull = false := fun h => by simp [hnext, hentry] at h
    dsimp only
    rw [start_chain hidle (conn.commitPeer id) (fun _ => rfl) rfl rfl hmiddle hcount hlen
      (hno _) (hsilent _ rfl), closeWith.eq_def, drop_eq hidle hlen]
    cases decoder.decodeLimit (first :: (middle ++ [tail])).flatten with
    | error cause => rfl
    | ok decoded =>
      dsimp only [Except.toOption_ok, Option.elim]
      rw [close]
      dsimp only [commitPeer]
      rw [hentry]
      rfl
  · have hsilent : BlockAction.reset (.error .streamClosed) = .deliver ∨
        (conn.entries id).isSome → conn.isFull = false := fun h => by simp [hentry] at h
    dsimp only
    rw [← map_self (conn.start _ first lease), start_chain hidle conn (fun _ => rfl) rfl rfl
      hmiddle hcount hlen (hno _) hsilent, closeWith.eq_def, drop_eq hidle hlen]
    cases decoder.decodeLimit (first :: (middle ++ [tail])).flatten with
    | error cause => rfl
    | ok decoded =>
      dsimp only [Except.toOption_ok, Option.elim]
      rw [close]
      dsimp only
      rw [hentry]
      rfl

theorem cut_open (hopening : conn.opening id answer = .ok .open)
    (hpressure : ∀ error, conn.whole rules id boundary (first :: (middle ++ [tail])).flatten answer
      lease = .error error → error.isPressure = false) :
    conn.cut rules id boundary first middle tail answer lease =
      conn.whole rules id boundary (first :: (middle ++ [tail])).flatten answer lease := by
  obtain ⟨-, hentry, hendpoint⟩ := of_opening hopening
  have hentry : conn.entries id = none := hentry fun record heq => nomatch heq
  have hendpoint : conn.endpoint = .server := hendpoint rfl
  rw [whole, hopening] at hpressure ⊢
  rw [cut, begin, hopening]
  dsimp only at hpressure ⊢
  have hroom : conn.isFull = false := by
    by_contra hfull
    rw [Bool.not_eq_false] at hfull
    rw [prepare, if_pos hfull] at hpressure
    exact absurd (hpressure _ rfl) (by decide)
  have hlease : lease = true := by
    by_contra hno
    rw [Bool.not_eq_true] at hno
    rw [prepare, if_neg (by simp [hroom]), admitWire_eq (by omega)] at hpressure
    dsimp only at hpressure
    rw [if_pos hno] at hpressure
    exact absurd (hpressure _ rfl) (by decide)
  rw [start_chain hidle ((conn.insert id (.new conn.window)).commitPeer id) (fun _ => rfl) rfl
    rfl hmiddle hcount hlen (fun _ => hlease) (fun _ => hroom), closeWith.eq_def, hlease,
    prepare_eq hidle hlen hroom]
  cases decoder.decodeLimit (first :: (middle ++ [tail])).flatten with
  | error cause => rfl
  | ok decoded =>
    obtain ⟨decoder, admission, fields⟩ := decoded
    dsimp only [Except.toOption_ok, Option.elim]
    exact close_opened hentry hendpoint _ _ _ _

end Cut

/-! ## Blocks over the limit -/

theorem admitWire_error {used incoming : ℕ} (h : conn.headerCap < used + incoming) :
    conn.admitWire used incoming = .error (.headerList used incoming conn.headerCap) := by
  rw [admitWire, if_pos (by omega)]

theorem feed_cases (block : Hpack.Block) (wireLen : ℕ) (part : Bytes) :
    (∃ error, { conn with coding := .active head block wireLen }.feed part = .error error) ∨
      wireLen + part.length ≤ conn.headerCap ∧
        ∃ next, { conn with coding := .active head block wireLen }.feed part =
          .ok { conn with coding := .active head next (wireLen + part.length) } := by
  by_cases hlen : wireLen + part.length ≤ conn.headerCap
  · rw [feed_active hlen]
    cases block.decode part with
    | error cause => exact .inl ⟨_, rfl⟩
    | ok next => exact .inr ⟨hlen, next, rfl⟩
  · left
    rw [feed]
    dsimp only
    rw [show ({ conn with coding := .active head block wireLen } : Intake).admitWire wireLen
      part.length = _ from admitWire_error (not_le.mp hlen)]
    exact ⟨_, rfl⟩

/-- A chain does not reach its end if its block is over the limit. -/
theorem chain_oversize {block : Hpack.Block} {wireLen : ℕ} {middle : List Bytes} {tail : Bytes}
    (hlen : conn.headerCap < wireLen + (middle ++ [tail]).flatten.length) :
    ∃ error, (middle.foldlM (fun next part => next.continuation rules part false)
        { conn with coding := .active head block wireLen } >>= fun next =>
      next.continuation rules tail true) = .error error := by
  induction middle generalizing head block wireLen with
  | nil =>
    have htail : conn.headerCap < wireLen + tail.length := by simpa using hlen
    rw [List.foldlM_nil, pure_bind, continuation]
    dsimp only
    rw [if_neg (by simp)]
    by_cases hlimit : continuationLimit < head.continuations + 1
    · rw [if_pos hlimit]
      exact ⟨_, rfl⟩
    rw [if_neg hlimit, if_pos rfl, last]
    dsimp only
    split_ifs with hemits
    · exact ⟨_, rfl⟩
    rcases @feed_cases conn head block wireLen tail with ⟨error, herror⟩ | ⟨hle, -⟩
    · rw [herror]
      exact ⟨error, rfl⟩
    · omega
  | cons part middle ih =>
    have hflat : (part :: middle ++ [tail]).flatten.length =
        part.length + (middle ++ [tail]).flatten.length := by
      rw [List.cons_append, List.flatten_cons, List.length_append]
    rw [List.foldlM_cons, continuation]
    dsimp only
    by_cases hempty : part = [] ∧ false = false
    · rw [if_pos hempty]
      exact ⟨_, rfl⟩
    by_cases hlimit : continuationLimit < head.continuations + 1
    · rw [if_neg hempty, if_pos hlimit]
      exact ⟨_, rfl⟩
    rw [if_neg hempty, if_neg hlimit, if_neg (by simp)]
    rcases @feed_cases conn { head with continuations := head.continuations + 1 } block wireLen
      part with ⟨error, herror⟩ | ⟨-, next, hnext⟩
    · rw [herror]
      exact ⟨error, rfl⟩
    · rw [hnext]
      exact ih (by omega)

/-- A block over the limit ends the connection with an error in both ways. -/
theorem oversize_errors (hidle : conn.coding = .idle decoder) (id : StreamId) (boundary : Boundary)
    {first tail : Bytes} {middle : List Bytes} (answer : Answer) (lease : Bool)
    (hlen : conn.headerCap < (first :: (middle ++ [tail])).flatten.length) :
    (∃ error, conn.whole rules id boundary (first :: (middle ++ [tail])).flatten answer lease =
      .error error) ∧
    ∃ error, conn.cut rules id boundary first middle tail answer lease = .error error := by
  have hdrop : ∃ error, conn.drop (first :: (middle ++ [tail])).flatten = .error error := by
    rw [drop, admitWire_error (by omega)]
    exact ⟨_, rfl⟩
  have hprepare (part : Section) : ∃ error,
      conn.prepare rules part (first :: (middle ++ [tail])).flatten lease = .error error := by
    rw [prepare, admitWire_error (by omega)]
    split_ifs <;> exact ⟨_, rfl⟩
  have hchain (head : ChainHead) (wrap : Intake → Intake) (next : Intake)
      (hwrap : ∀ coding, wrap { conn with coding } = { next with coding })
      (hcap : next.headerCap = conn.headerCap) :
      ∃ error, ((conn.start head first lease).map wrap >>= fun next =>
        middle.foldlM (fun next part => next.continuation rules part false) next >>= fun next =>
          next.continuation rules tail true) = .error error := by
    rw [start, hidle]
    dsimp only
    split_ifs
    · exact ⟨_, rfl⟩
    rcases @feed_cases conn head (.new decoder) 0 first with ⟨error, herror⟩ | ⟨-, block, hblock⟩
    · rw [herror]
      exact ⟨error, rfl⟩
    · rw [List.flatten_cons, List.length_append] at hlen
      have herror := @chain_oversize next rules head block (0 + first.length) middle tail (by omega)
      rw [← hwrap] at herror
      rw [hblock]
      exact herror
  have hself (head : ChainHead) := hchain head (fun next => next) conn (fun _ => rfl) rfl
  obtain ⟨dropped, hdropped⟩ := hdrop
  rw [whole, cut, begin]
  cases conn.opening id answer with
  | error error => exact ⟨⟨error, rfl⟩, error, rfl⟩
  | ok arrival =>
    cases arrival with
    | active record =>
      refine ⟨?_, ?_⟩
      · dsimp only
        cases actionOf record boundary with
        | reset error =>
          dsimp only
          rw [hdropped]
          split_ifs <;> exact ⟨_, rfl⟩
        | deliver =>
          obtain ⟨error, herror⟩ := hprepare record.section
          dsimp only
          rw [herror]
          exact ⟨error, rfl⟩
      · have herror := hself ⟨id, boundary, record.section, actionOf record boundary, 0⟩
        rwa [map_self] at herror
    | «open» =>
      obtain ⟨error, herror⟩ := hprepare .initial
      refine ⟨⟨error, ?_⟩, hchain _ _ ((conn.insert id (.new conn.window)).commitPeer id)
        (fun _ => rfl) rfl⟩
      dsimp only
      rw [herror]
    | refuse =>
      refine ⟨⟨dropped, ?_⟩, hchain _ _ (conn.commitPeer id) (fun _ => rfl) rfl⟩
      dsimp only
      rw [hdropped]
      rfl
    | reset =>
      refine ⟨⟨dropped, ?_⟩, ?_⟩
      · dsimp only
        rw [hdropped]
        rfl
      · have herror := hself ⟨id, boundary, .initial, .reset (.error .streamClosed), 0⟩
        rwa [map_self] at herror

/-- A block that is cut does to a connection what the block in one frame does: the same error, or
the same connection, with its events, its resets, its records and its table. -/
theorem cut_eq_whole (hidle : conn.coding = .idle decoder) (id : StreamId) (boundary : Boundary)
    {first tail : Bytes} {middle : List Bytes} (hmiddle : ∀ part ∈ middle, part ≠ [])
    (hcount : middle.length < continuationLimit) (answer : Answer) (lease : Bool)
    (hpressure : ∀ error, conn.whole rules id boundary (first :: (middle ++ [tail])).flatten answer
      lease = .error error → error.isPressure = false) :
    ((first :: (middle ++ [tail])).flatten.length ≤ conn.headerCap →
      conn.cut rules id boundary first middle tail answer lease =
        conn.whole rules id boundary (first :: (middle ++ [tail])).flatten answer lease) ∧
    (conn.headerCap < (first :: (middle ++ [tail])).flatten.length →
      (∃ error, conn.whole rules id boundary (first :: (middle ++ [tail])).flatten answer lease =
        .error error) ∧
      ∃ error, conn.cut rules id boundary first middle tail answer lease = .error error) := by
  refine ⟨fun hlen => ?_, oversize_errors hidle id boundary answer lease⟩
  cases hopening : conn.opening id answer with
  | error error =>
    rw [whole, cut, begin, hopening]
    rfl
  | ok arrival =>
    cases arrival with
    | active record => exact cut_active hidle hmiddle hcount hlen hopening hpressure
    | «open» => exact cut_open hidle hmiddle hcount hlen hopening hpressure
    | refuse => exact cut_drop hidle hmiddle hcount hlen hopening (.inl rfl)
    | reset => exact cut_drop hidle hmiddle hcount hlen hopening (.inr rfl)

/-! ## A block for a stream that is over -/

/-- Rules that reject every section. -/
def rejecting : Rules where
  final _ _ _ _ := .rejected none
  isInterim_server _ _ := rfl

/-- A server whose first stream is ended. -/
def ended : Intake where
  endpoint := .server
  history := ⟨some .firstServer, 1⟩
  entries := fun _ => none
  indexed := 0
  capacity := 4
  localCount := 0
  peerCount := 0
  limit := 4
  window := ⟨65535, 65535⟩
  goaway := false
  keeps := true
  coding := .idle Hpack.Decoder.fresh
  headerCap := 64
  events := []
  eventCapacity := 4
  resets := []

theorem whole_ended :
    ∃ next, ended.whole rejecting .firstClient .more Hpack.Decoder.sample (.vacant 0) true =
      .ok next := by
  have hdiscard : (Hpack.Decoder.fresh.discard Hpack.Decoder.sample).toOption.isSome := by
    decide +kernel
  obtain ⟨decoder, hdecoder⟩ := Option.isSome_iff_exists.mp hdiscard
  have hopening : ended.opening .firstClient (.vacant 0) = .ok .reset := rfl
  rw [toOption_discard] at hdecoder
  refine ⟨{ ended with coding := .idle decoder }.writeReset .firstClient (.error .streamClosed), ?_⟩
  rw [whole, hopening]
  dsimp only
  rw [@drop_eq ended Hpack.Decoder.fresh rfl _ (by decide), hdecoder]
  rfl

/-- The same block in three frames. -/
theorem cut_eq_whole_ended :
    ∃ next, ended.whole rejecting .firstClient .more Hpack.Decoder.sample (.vacant 0) true =
      .ok next ∧
      ended.cut rejecting .firstClient .more [0x3f, 0x03, 0x40] [[0x01, 0x61]] [0x01, 0x62]
        (.vacant 0) true = .ok next := by
  obtain ⟨next, hnext⟩ := whole_ended
  have hpressure (error : BlockError) (herror : ended.whole rejecting .firstClient .more
      ([0x3f, 0x03, 0x40] :: ([[0x01, 0x61]] ++ [[0x01, 0x62]])).flatten (.vacant 0) true =
        .error error) : error.isPressure = false := by
    exact absurd (hnext.symm.trans herror) (by simp)
  have hcut := (@cut_eq_whole ended rejecting Hpack.Decoder.fresh rfl .firstClient .more
    [0x3f, 0x03, 0x40] [0x01, 0x62] [[0x01, 0x61]] (by decide) (by decide) (.vacant 0) true
    hpressure).1 (by decide)
  exact ⟨next, hnext, hcut.trans hnext⟩

/-- With an empty frame between the others, the chain is an error of the connection. -/
theorem cut_empty :
    ∃ next, ended.whole rejecting .firstClient .more Hpack.Decoder.sample (.vacant 0) true =
      .ok next ∧
      (Hpack.Decoder.sample :: ([[]] ++ [[]])).flatten = Hpack.Decoder.sample ∧
      ended.cut rejecting .firstClient .more Hpack.Decoder.sample [[]] [] (.vacant 0) true =
        .error .empty := by
  obtain ⟨next, hnext⟩ := whole_ended
  have hdecode : ((Hpack.Block.new Hpack.Decoder.fresh).decode Hpack.Decoder.sample).toOption.isSome
      := by decide +kernel
  have hopening : ended.opening .firstClient (.vacant 0) = .ok .reset := rfl
  obtain ⟨block, hblock⟩ := Option.isSome_iff_exists.mp hdecode
  have hstart (head : ChainHead) : ended.start head Hpack.Decoder.sample true =
      .ok { ended with coding := .active head block (0 + Hpack.Decoder.sample.length) } := by
    rw [start, show ended.coding = .idle Hpack.Decoder.fresh from rfl]
    dsimp only
    rw [if_neg (by simp), feed_active (by decide), Except.toOption_eq_some_iff.mp hblock]
  refine ⟨next, hnext, rfl, ?_⟩
  rw [cut, begin, hopening]
  dsimp only
  rw [hstart]
  rfl

end Intake

end Sark.H2
