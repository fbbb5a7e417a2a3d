import Sark.H2.Flow.Send
import Sark.H2.Hpack.Encoder

/-!
# Settings of the peer

A SETTINGS frame of the peer (`h2/src/conn/machine/decoder/settings.rs`). The parameters are walked
once to check them and once to change the send windows; the encoder of header blocks is told the
table sizes, and the frame is acknowledged. What may be refused for a while is asked for first: an
idle encoder, room for the acknowledgement and a free event.

* `Walk.run_spec`: what a walk over the parameters finds.
* `Plane.adjustAll_spec`: the send windows change by the difference of the first and the last value.
* `Conn.Reachable.sound`: what every reachable connection keeps to.
* `Conn.settings_atomic`: a frame is applied as a whole, or not at all.
-/

open Sark.H2.Frame

namespace Sark.H2

open Flow Outputs
open Hpack.Encode (Encoder)

/-- `numbers::SettingId`. -/
inductive SettingId
  | headerTableSize
  | enablePush
  | maxConcurrentStreams
  | initialWindowSize
  | maxFrameSize
  | maxHeaderListSize
  | enableConnectProtocol
  deriving DecidableEq, Repr

/-- `SettingId::from_u16`. -/
def SettingId.fromU16 (value : ℕ) : Option SettingId :=
  if value = 0x1 then some .headerTableSize
  else if value = 0x2 then some .enablePush
  else if value = 0x3 then some .maxConcurrentStreams
  else if value = 0x4 then some .initialWindowSize
  else if value = 0x5 then some .maxFrameSize
  else if value = 0x6 then some .maxHeaderListSize
  else if value = 0x8 then some .enableConnectProtocol
  else none

/-- `config::Settings`. -/
structure Settings where
  headerTableSize : ℕ
  enablePush : Bool
  maxConcurrentStreams : Option ℕ
  initialWindowSize : ℕ
  maxFrameSize : Limit
  maxHeaderListSize : Option ℕ
  enableConnectProtocol : Bool
  deriving DecidableEq, Repr

/-- `conn::Error`, the errors of a SETTINGS frame. The errors of the output are `ε`. -/
inductive SettingsError (ε : Type)
  | headerBusy
  | full (error : ε)
  | eventFull (used limit : ℕ)
  | setting (id : SettingId) (value : ℕ)
  | adjust (error : AdjustError)
  | connection (actual : ℕ)
  | size (actual : ℕ)
  | initial (kind : Kind) (flags : UInt8) (stream : ℕ)
  deriving DecidableEq, Repr

/-- The errors that only ask to try again. -/
def SettingsError.isPressure {ε : Type} : SettingsError ε → Bool
  | .headerBusy | .full _ | .eventFull .. => true
  | _ => false

namespace Settings

/-- `Settings::DEFAULT`. -/
def default : Settings where
  headerTableSize := 4096
  enablePush := true
  maxConcurrentStreams := none
  initialWindowSize := 65535
  maxFrameSize := .default
  maxHeaderListSize := none
  enableConnectProtocol := false

/-- `Settings::apply`. -/
def apply {ε : Type} (self : Settings) (id : SettingId) (value : ℕ) :
    Except (SettingsError ε) Settings :=
  match id with
  | .headerTableSize => .ok { self with headerTableSize := value }
  | .enablePush =>
    if value = 0 then .ok { self with enablePush := false }
    else if value = 1 then .ok { self with enablePush := true }
    else .error (.setting id value)
  | .maxConcurrentStreams => .ok { self with maxConcurrentStreams := some value }
  | .initialWindowSize =>
    if value > 0x7fffffff then .error (.setting id value)
    else .ok { self with initialWindowSize := value }
  | .maxFrameSize =>
    if h : 16384 ≤ value ∧ value ≤ 0x00ffffff then
      .ok { self with maxFrameSize := ⟨value, h.1, h.2⟩ }
    else .error (.setting id value)
  | .maxHeaderListSize => .ok { self with maxHeaderListSize := some value }
  | .enableConnectProtocol =>
    if value = 0 then .ok { self with enableConnectProtocol := false }
    else if value = 1 then .ok { self with enableConnectProtocol := true }
    else .error (.setting id value)

/-- The value of a parameter, where it has one. -/
def raw (self : Settings) : SettingId → Option ℕ
  | .headerTableSize => some self.headerTableSize
  | .enablePush => some self.enablePush.toNat
  | .maxConcurrentStreams => self.maxConcurrentStreams
  | .initialWindowSize => some self.initialWindowSize
  | .maxFrameSize => some self.maxFrameSize.value
  | .maxHeaderListSize => self.maxHeaderListSize
  | .enableConnectProtocol => some self.enableConnectProtocol.toNat

theorem raw_of_apply {ε : Type} {self next : Settings} {id : SettingId} {value : ℕ}
    (h : (self.apply id value : Except (SettingsError ε) Settings) = .ok next) (other : SettingId) :
    next.raw other = if other = id then some value else self.raw other := by
  cases id <;> simp only [apply] at h
  case headerTableSize | maxConcurrentStreams | maxHeaderListSize =>
    rw [← Except.ok.inj h]
    cases other <;> rfl
  all_goals
    split_ifs at h <;> rw [← Except.ok.inj h] <;> cases other <;> simp_all [raw]

theorem initialWindowSize_le_of_apply {ε : Type} {self next : Settings} {value : ℕ}
    (h : (self.apply .initialWindowSize value : Except (SettingsError ε) Settings) = .ok next) :
    value ≤ 0x7fffffff := by
  rw [apply] at h
  split_ifs at h with hvalue
  exact not_lt.mp hvalue

end Settings

/-- The parameters of a payload. -/
def readParams : Bytes → List (Option SettingId × ℕ)
  | a :: b :: c :: d :: e :: f :: rest =>
    (SettingId.fromU16 (BigEndian.ofBytes [a, b]), BigEndian.ofBytes [c, d, e, f]) ::
      readParams rest
  | _ => []

/-- The values of a parameter, from the first to the last. -/
def valuesOf (id : SettingId) (params : List (Option SettingId × ℕ)) : List ℕ :=
  params.filterMap fun param => if param.1 = some id then some param.2 else none

/-! ## The walk -/

/-- What the walk over the parameters has found. -/
structure Walk where
  next : Settings
  minimum : Option ℕ
  adjust : Bool
  deriving DecidableEq, Repr

namespace Walk

variable {ε : Type}

/-- One parameter. -/
def step (endpoint : Endpoint) (self : Walk) (param : Option SettingId × ℕ) :
    Except (SettingsError ε) Walk :=
  match param.1 with
  | none => .ok self
  | some id =>
    let value := param.2
    if endpoint = .client ∧ id = .enablePush ∧ value ≠ 0 then .error (.setting id value)
    else
      (self.next.apply id value).map fun next =>
        { next
          minimum :=
            if id = .headerTableSize then
              some ((self.minimum.map fun minimum => min minimum value).getD value)
            else self.minimum
          adjust :=
            self.adjust || (id == .initialWindowSize && value != self.next.initialWindowSize) }

/-- The first loop of `apply`. -/
def run (endpoint : Endpoint) : Walk → List (Option SettingId × ℕ) → Except (SettingsError ε) Walk
  | self, [] => .ok self
  | self, param :: params => (self.step endpoint param).bind fun next => next.run endpoint params

end Walk

/-! ## The windows -/

/-- The slots of a registry, with the send windows of its active streams and the streams that are
woken. -/
structure Plane (K : Type) where
  slots : List (Option K)
  sends : Sends K
  wakes : List K

namespace Plane

variable {K : Type} [DecidableEq K]

/-- `Wake::update`, of the window of a stream. -/
def updateAt (self : Plane K) (delta : ℤ) (key : K) : Except AdjustError (Plane K) :=
  match self.sends.streams key with
  | none => .ok self
  | some window =>
    (window.adjust delta).map fun next =>
      { self with
        sends := self.sends.step (.adjustStream key delta)
        wakes :=
          if window.value ≤ 0 ∧ (0 : ℤ) < next.value ∧ key ∉ self.wakes then self.wakes ++ [key]
          else self.wakes }

/-- The loop of `Registry::adjust_send`. -/
def adjustSlots (delta : ℤ) : List (Option K) → Plane K → Plane K × Except AdjustError Unit
  | [], self => (self, .ok ())
  | none :: slots, self => adjustSlots delta slots self
  | some key :: slots, self =>
    match self.updateAt delta key with
    | .error error => (self, .error error)
    | .ok next => adjustSlots delta slots next

/-- `Store::active_len`. -/
def activeLen (self : Plane K) : ℕ :=
  self.slots.countP fun slot => slot.any fun key => (self.sends.streams key).isSome

/-- `Registry::adjust_send`. -/
def adjustSend (self : Plane K) (delta : ℤ) : Plane K × Except AdjustError Unit :=
  if self.activeLen = 0 then (self, .ok ()) else adjustSlots delta self.slots self

/-- The second loop of `apply`. -/
def adjustAll : ℤ → List (Option SettingId × ℕ) → Plane K → Plane K × Except AdjustError Unit
  | _, [], self => (self, .ok ())
  | previous, (id, value) :: params, self =>
    if id = some .initialWindowSize then
      let delta := (value : ℤ) - previous
      if delta ≠ 0 then
        match self.adjustSend (asI32 delta) with
        | (next, .error error) => (next, .error error)
        | (next, .ok ()) => adjustAll value params next
      else adjustAll value params self
    else adjustAll previous params self

end Plane

/-! ## The connection -/

/-- What an application is told. -/
inductive Told (ω : Type)
  | settingsApplied
  | other (event : ω)
  deriving DecidableEq, Repr

/-- The parts of a connection that a SETTINGS frame reads and changes. The encoder is not there
while it is held by a block. -/
structure Conn (K D E σ ω : Type) where
  endpoint : Endpoint
  peer : Settings
  plane : Plane K
  headers : Option (Encoder D E)
  outbound : σ
  events : List (Told ω)
  eventCapacity : ℕ
  input : Bytes

/-- Whether the frame is there as a whole. -/
inductive Progress
  | waits
  | applied
  deriving DecidableEq, Repr

/-- The bytes of the acknowledgement. -/
def ackBytes : Bytes :=
  (⟨⟨0, by norm_num⟩, .settings, 0x1, ⟨0, Nat.zero_le _⟩⟩ : Header).wireBytes

namespace Conn

variable {K D E σ ω ε : Type} [DecidableEq K] [Directory D] [Span σ ε]

/-- `Idle::apply`. -/
def idleApply (encoder : Encoder D E) (minimum : Option ℕ) (max : ℕ) : Encoder D E :=
  match minimum with
  | none => encoder
  | some minimum =>
    (if minimum ≠ max then encoder.setMaxSize minimum else encoder).setMaxSize max

/-- `Events::push`. -/
def push (self : Conn K D E σ ω) (event : Told ω) :
    Conn K D E σ ω × Except (SettingsError ε) Progress :=
  if self.eventCapacity ≤ self.events.length then
    (self, .error (.eventFull self.events.length self.eventCapacity))
  else ({ self with events := self.events ++ [event] }, .ok .applied)

/-- The payload of the frame in front of the input. -/
def payload (self : Conn K D E σ ω) (header : Header) : Bytes :=
  (self.input.drop headerLen).take header.length.value

/-- `settings::apply`. -/
def apply (self : Conn K D E σ ω) (header : Header) :
    Conn K D E σ ω × Except (SettingsError ε) Progress :=
  match self.headers with
  | none => (self, .error .headerBusy)
  | some encoder =>
    match Span.tryAppend self.outbound ackBytes with
    | .error error => (self, .error (.full error))
    | .ok outbound =>
      let params := readParams (self.payload header)
      match Walk.run self.endpoint ⟨self.peer, none, false⟩ params with
      | .error error => (self, .error error)
      | .ok walk =>
        match
          if walk.adjust then self.plane.adjustAll self.peer.initialWindowSize params
          else (self.plane, .ok ()) with
        | (plane, .error error) => ({ self with plane }, .error (.adjust error))
        | (plane, .ok ()) =>
          { self with
            plane
            peer := walk.next
            headers := some (idleApply encoder walk.minimum walk.next.headerTableSize)
            input := self.input.drop (headerLen + header.length.value)
            outbound }.push .settingsApplied

/-- The checks of the header, in `accept_peer` for the first frame and in `drive_run` for the
others. -/
def check (header : Header) (first : Bool) : Except (SettingsError ε) Unit :=
  if first ∧ (header.kind ≠ .settings ∨ header.flags &&& 0x1 ≠ 0 ∨ header.streamId.raw ≠ 0) then
    .error (.initial header.kind header.flags header.streamId.raw)
  else if header.streamId.raw ≠ 0 then .error (.connection header.streamId.raw)
  else if header.length.value % 6 ≠ 0 then .error (.size header.length.value)
  else .ok ()

/-- A SETTINGS frame that asks for an acknowledgement in `drive_run`: nothing happens before all of
it is there and an event is free. -/
def settings (self : Conn K D E σ ω) (header : Header) (first : Bool) :
    Conn K D E σ ω × Except (SettingsError ε) Progress :=
  if self.input.length < headerLen + header.length.value then (self, .ok .waits)
  else if self.eventCapacity ≤ self.events.length then
    (self, .error (.eventFull self.events.length self.eventCapacity))
  else
    match check header first with
    | .error error => (self, .error error)
    | .ok () => self.apply header

end Conn

/-! ## What a walk finds -/

theorem valuesOf_append (id : SettingId) (first second : List (Option SettingId × ℕ)) :
    valuesOf id (first ++ second) = valuesOf id first ++ valuesOf id second :=
  List.filterMap_append

theorem valuesOf_cons (id : SettingId) (param : Option SettingId × ℕ)
    (params : List (Option SettingId × ℕ)) :
    valuesOf id (param :: params) =
      if param.1 = some id then param.2 :: valuesOf id params else valuesOf id params := by
  rw [valuesOf, List.filterMap_cons]
  split_ifs <;> rfl

theorem min?_concat (values : List ℕ) (value : ℕ) :
    (values ++ [value]).min? =
      some ((values.min?.map fun minimum => min minimum value).getD value) := by
  cases values with
  | nil => rfl
  | cons first values => simp [List.min?, List.foldl_append]

/-- What a walk from some settings has found in parameters. -/
structure Walk.Found (start : Settings) (params : List (Option SettingId × ℕ)) (walk : Walk) :
    Prop where
  raw : ∀ id, walk.next.raw id = (valuesOf id params).getLast?.or (start.raw id)
  minimum : walk.minimum = (valuesOf .headerTableSize params).min?
  adjust : walk.adjust = false →
    ∀ value ∈ valuesOf .initialWindowSize params, value = start.initialWindowSize
  le : ∀ value ∈ valuesOf .initialWindowSize params, value ≤ 0x7fffffff

namespace Walk

variable {ε : Type} {endpoint : Endpoint} {start : Settings} {walk next : Walk}
  {params done : List (Option SettingId × ℕ)}

theorem found_start (start : Settings) : Found start [] ⟨start, none, false⟩ :=
  ⟨fun _ => rfl, rfl, fun _ _ h => absurd h List.not_mem_nil,
    fun _ h => absurd h List.not_mem_nil⟩

theorem Found.initialWindowSize (h : Found start params walk) (hadjust : walk.adjust = false) :
    walk.next.initialWindowSize = start.initialWindowSize := by
  have hraw := h.raw .initialWindowSize
  have hall := h.adjust hadjust
  simp only [Settings.raw] at hraw
  cases hlast : (valuesOf .initialWindowSize params).getLast? with
  | none =>
    rw [hlast] at hraw
    exact Option.some.inj hraw
  | some value =>
    rw [hlast] at hraw
    rw [← hall value (List.mem_of_getLast? hlast)]
    exact Option.some.inj hraw

theorem Found.step (h : Found start done walk) {param : Option SettingId × ℕ}
    (hstep : (walk.step endpoint param : Except (SettingsError ε) Walk) = .ok next) :
    Found start (done ++ [param]) next := by
  obtain ⟨id, value⟩ := param
  cases id with
  | none =>
    have hvalues : ∀ id, valuesOf id (done ++ [(none, value)]) = valuesOf id done := by
      intro id
      rw [valuesOf_append, valuesOf_cons, if_neg (by simp)]
      exact List.append_nil _
    rw [← Except.ok.inj hstep]
    refine ⟨?_, ?_, ?_, ?_⟩
    · simpa only [hvalues] using h.raw
    · simpa only [hvalues] using h.minimum
    · simpa only [hvalues] using h.adjust
    · simpa only [hvalues] using h.le
  | some id =>
    have hvalues : ∀ other, valuesOf other (done ++ [(some id, value)]) =
        if other = id then valuesOf other done ++ [value] else valuesOf other done := by
      intro other
      rw [valuesOf_append, valuesOf_cons]
      by_cases hother : other = id
      · rw [if_pos hother, if_pos (by rw [hother])]
        rfl
      · rw [if_neg hother, if_neg (fun hid => hother (Option.some.inj hid).symm)]
        exact List.append_nil _
    simp only [Walk.step] at hstep
    by_cases hclient : endpoint = .client ∧ id = .enablePush ∧ value ≠ 0
    · rw [if_pos hclient] at hstep
      exact absurd hstep (by simp)
    rw [if_neg hclient] at hstep
    obtain ⟨settings, happly, rfl⟩ := Except.map_eq_ok_iff.mp hstep
    have hraw := Settings.raw_of_apply happly
    refine ⟨fun other => ?_, ?_, fun hadjust => ?_, ?_⟩
    · rw [hraw, hvalues]
      split_ifs
      · rw [List.getLast?_concat]
        rfl
      · exact h.raw other
    · rw [hvalues]
      by_cases hid : id = .headerTableSize
      · rw [if_pos hid, if_pos hid.symm, min?_concat, h.minimum]
      · rw [if_neg hid, if_neg (fun heq => hid heq.symm)]
        exact h.minimum
    · simp only [Bool.or_eq_false_iff, Bool.and_eq_false_iff, beq_eq_false_iff_ne,
        bne_eq_false_iff_eq] at hadjust
      obtain ⟨hbefore, hnow⟩ := hadjust
      rw [hvalues]
      split_ifs with hid
      · intro found hfound
        rcases List.mem_append.mp hfound with hfound | hfound
        · exact h.adjust hbefore found hfound
        · rw [List.mem_singleton.mp hfound, ← h.initialWindowSize hbefore]
          exact hnow.resolve_left fun hne => hne hid.symm
      · exact h.adjust hbefore
    · rw [hvalues]
      split_ifs with hid
      · intro found hfound
        rcases List.mem_append.mp hfound with hfound | hfound
        · exact h.le found hfound
        · rw [List.mem_singleton.mp hfound]
          exact Settings.initialWindowSize_le_of_apply (hid ▸ happly)
      · exact h.le

theorem Found.run (h : Found start done walk)
    (hrun : (walk.run endpoint params : Except (SettingsError ε) Walk) = .ok next) :
    Found start (done ++ params) next := by
  induction params generalizing walk done with
  | nil =>
    rw [List.append_nil, ← Except.ok.inj hrun]
    exact h
  | cons param params ih =>
    obtain ⟨after, hstep, hrest⟩ := Except.bind_eq_ok_iff.mp hrun
    rw [List.append_cons]
    exact ih (h.step hstep) hrest

theorem run_spec
    (hrun : (Walk.run endpoint ⟨start, none, false⟩ params : Except (SettingsError ε) Walk) =
      .ok next) : Found start params next :=
  (found_start start).run hrun

end Walk

/-! ## What an adjustment changes -/

namespace Plane

variable {K : Type} [DecidableEq K] {plane next : Plane K} {delta : ℤ} {key : K}

/-- The windows conserve credit, and every stream with a window has one slot. -/
structure Sound (plane : Plane K) : Prop where
  conserved : plane.sends.Conserved
  opened : ∀ key, some key ∈ plane.slots → key ∈ plane.sends.opened
  distinct : ∀ (i j : ℕ) key, plane.slots[i]? = some (some key) →
    plane.slots[j]? = some (some key) → i = j
  covers : ∀ key window, plane.sends.streams key = some window → some key ∈ plane.slots

/-- The windows of some streams are adjusted, and nothing else of the windows is changed. -/
structure Adjusted (plane next : Plane K) (delta : ℤ) (among : K → Prop) : Prop where
  slots : next.slots = plane.slots
  conn : next.sends.conn = plane.sends.conn
  reserved : next.sends.reserved = plane.sends.reserved
  opened : next.sends.opened = plane.sends.opened
  others : ∀ key, ¬ among key → next.sends.streams key = plane.sends.streams key
  none : ∀ key, plane.sends.streams key = none → next.sends.streams key = none
  streams : ∀ key window, among key → plane.sends.streams key = some window →
    ∃ after, next.sends.streams key = some after ∧ after.value = window.value + delta ∧
      after.committed = window.committed + delta

theorem Sound.updateAt (h : plane.Sound) (hupdate : plane.updateAt delta key = .ok next) :
    next.Sound ∧ plane.Adjusted next delta (· = key) := by
  rw [Plane.updateAt] at hupdate
  cases hstream : plane.sends.streams key with
  | none =>
    rw [hstream] at hupdate
    rw [← Except.ok.inj hupdate]
    refine ⟨h, rfl, rfl, rfl, rfl, fun _ _ => rfl, fun _ hnone => hnone, ?_⟩
    rintro found window rfl hfound
    rw [hstream] at hfound
    cases hfound
  | some window =>
    rw [hstream] at hupdate
    obtain ⟨after, hadjust, rfl⟩ := Except.map_eq_ok_iff.mp hupdate
    have hstreams : (plane.sends.step (.adjustStream key delta)).streams =
        Function.update plane.sends.streams key (some after) := by
      rw [Sends.step, Sends.update, hstream, Option.map_some, Sends.orSame, hadjust]
      rfl
    have hafter : after.value = window.value + delta ∧
        after.committed = window.committed + delta := by
      have hholds := h.conserved.streams key window hstream
      rcases hholds.adjust delta with ⟨herror, -⟩ | ⟨found, hfound, hkept, hvalue⟩
      · rw [hadjust] at herror
        cases herror
      · rw [hadjust] at hfound
        obtain rfl := Except.ok.inj hfound
        refine ⟨hvalue, ?_⟩
        rw [hkept.committed_eq, hvalue, hholds.committed_eq]
        ring
    refine ⟨⟨h.conserved.step (.adjustStream key delta), h.opened, h.distinct,
      fun found window hfound => ?_⟩,
      rfl, rfl, rfl, rfl, fun found hne => ?_, fun found hnone => ?_, ?_⟩
    · dsimp only at hfound
      rw [hstreams] at hfound
      by_cases hkey : found = key
      · rw [hkey]
        exact h.covers key _ hstream
      · rw [Function.update_of_ne hkey] at hfound
        exact h.covers found window hfound
    · show (plane.sends.step (.adjustStream key delta)).streams found = _
      rw [hstreams, Function.update_of_ne hne]
    · show (plane.sends.step (.adjustStream key delta)).streams found = _
      have hkey : found ≠ key := by
        rintro rfl
        rw [hstream] at hnone
        cases hnone
      rw [hstreams, Function.update_of_ne hkey]
      exact hnone
    · rintro found before rfl hbefore
      rw [hstream] at hbefore
      obtain rfl := Option.some.inj hbefore
      refine ⟨after, ?_, hafter⟩
      show (plane.sends.step (.adjustStream found delta)).streams found = _
      rw [hstreams, Function.update_self]

/-- The loop of `adjust_send` adjusts the streams of the slots that it visits. -/
theorem Sound.adjustSlots (h : plane.Sound) (slots : List (Option K))
    (hdistinct : ∀ (i j : ℕ) key, slots[i]? = some (some key) → slots[j]? = some (some key) →
      i = j) :
    (adjustSlots delta slots plane).1.Sound ∧
      ((adjustSlots delta slots plane).2 = .ok () →
        plane.Adjusted (adjustSlots delta slots plane).1 delta fun key => some key ∈ slots) := by
  induction slots generalizing plane with
  | nil =>
    refine ⟨h, fun _ => ⟨rfl, rfl, rfl, rfl, fun _ _ => rfl, fun _ hnone => hnone, ?_⟩⟩
    exact fun _ _ hmem _ => absurd hmem List.not_mem_nil
  | cons slot slots ih =>
    have htail : ∀ (i j : ℕ) key, slots[i]? = some (some key) → slots[j]? = some (some key) →
        i = j := fun i j key hi hj =>
      Nat.succ.inj (hdistinct (i + 1) (j + 1) key hi hj)
    cases slot with
    | none =>
      obtain ⟨hsound, hadjusted⟩ := ih h htail
      refine ⟨hsound, fun hok => ?_⟩
      have hadjusted := hadjusted hok
      refine ⟨hadjusted.slots, hadjusted.conn, hadjusted.reserved, hadjusted.opened,
        fun key hkey => hadjusted.others key fun hmem => hkey (.tail _ hmem), hadjusted.none,
        fun key window hmem => hadjusted.streams key window ?_⟩
      exact (List.mem_cons.mp hmem).resolve_left (by simp)
    | some key =>
      have hfresh : some key ∉ slots := fun hmem => by
        obtain ⟨i, hi⟩ := List.mem_iff_getElem?.mp hmem
        exact absurd (hdistinct 0 (i + 1) key rfl hi) (by simp)
      rw [Plane.adjustSlots]
      cases hupdate : plane.updateAt delta key with
      | error error => exact ⟨h, fun hok => by cases hok⟩
      | ok after =>
        obtain ⟨hafter, hfirst⟩ := h.updateAt hupdate
        obtain ⟨hsound, hadjusted⟩ := ih hafter htail
        refine ⟨hsound, fun hok => ?_⟩
        have hrest := hadjusted hok
        refine ⟨hrest.slots.trans hfirst.slots, hrest.conn.trans hfirst.conn,
          hrest.reserved.trans hfirst.reserved, hrest.opened.trans hfirst.opened,
          fun found hfound => ?_, fun found hnone => hrest.none found (hfirst.none found hnone),
          fun found window hmem hwindow => ?_⟩
        · have hne : found ≠ key := fun heq => hfound (heq ▸ .head _)
          rw [hrest.others found fun hmem => hfound (.tail _ hmem), hfirst.others found hne]
        · by_cases hkey : found = key
          · -- no later slot is that of the stream
            obtain ⟨found', hfound, hvalue⟩ := hfirst.streams found window hkey hwindow
            refine ⟨found', ?_, hvalue⟩
            rw [hrest.others found (hkey ▸ hfresh)]
            exact hfound
          · rw [← hfirst.others found hkey] at hwindow
            refine hrest.streams found window ?_ hwindow
            exact (List.mem_cons.mp hmem).resolve_left fun heq => hkey (Option.some.inj heq)

theorem Sound.adjustSend (h : plane.Sound) (delta : ℤ) :
    (plane.adjustSend delta).1.Sound ∧
      ((plane.adjustSend delta).2 = .ok () →
        plane.Adjusted (plane.adjustSend delta).1 delta fun _ => True) := by
  rw [Plane.adjustSend]
  by_cases hempty : plane.activeLen = 0
  · rw [if_pos hempty]
    refine ⟨h, fun _ => ⟨rfl, rfl, rfl, rfl, fun _ _ => rfl, fun _ hnone => hnone, ?_⟩⟩
    intro key window _ hwindow
    have hcount := List.countP_eq_zero.mp hempty (some key) (h.covers key window hwindow)
    rw [Option.any_some, hwindow] at hcount
    exact absurd rfl hcount
  · rw [if_neg hempty]
    obtain ⟨hsound, hadjusted⟩ := @Sound.adjustSlots _ _ plane delta h plane.slots h.distinct
    refine ⟨hsound, fun hok => ?_⟩
    have hall := hadjusted hok
    refine ⟨hall.slots, hall.conn, hall.reserved, hall.opened,
      fun _ hfalse => absurd trivial hfalse, hall.none, fun key window _ hwindow =>
        hall.streams key window (h.covers key window hwindow) hwindow⟩

/-- The difference that the second loop makes to the windows. -/
def total (previous : ℤ) (params : List (Option SettingId × ℕ)) : ℤ :=
  (((valuesOf .initialWindowSize params).getLast?.map fun value => (value : ℤ)).getD previous) -
    previous

theorem total_cons (previous : ℤ) (value : ℕ) (params : List (Option SettingId × ℕ)) :
    total previous ((some .initialWindowSize, value) :: params) =
      ((value : ℤ) - previous) + total value params := by
  rw [total, total, valuesOf_cons, if_pos rfl, List.getLast?_cons]
  cases (valuesOf .initialWindowSize params).getLast? <;> simp

omit [DecidableEq K] in
theorem Adjusted.trans {middle : Plane K} {first second : ℤ}
    (h : plane.Adjusted middle first fun _ => True)
    (hnext : middle.Adjusted next second fun _ => True) :
    plane.Adjusted next (first + second) fun _ => True := by
  refine ⟨hnext.slots.trans h.slots, hnext.conn.trans h.conn, hnext.reserved.trans h.reserved,
    hnext.opened.trans h.opened, fun _ hfalse => absurd trivial hfalse,
    fun key hnone => hnext.none key (h.none key hnone), fun key window _ hwindow => ?_⟩
  obtain ⟨middle, hmiddle, hvalue, hcommitted⟩ := h.streams key window trivial hwindow
  obtain ⟨after, hafter, hvalue', hcommitted'⟩ := hnext.streams key middle trivial hmiddle
  exact ⟨after, hafter, by rw [hvalue', hvalue, add_assoc],
    by rw [hcommitted', hcommitted, add_assoc]⟩

omit [DecidableEq K] in
theorem adjusted_zero (plane : Plane K) : plane.Adjusted plane 0 fun _ => True :=
  ⟨rfl, rfl, rfl, rfl, fun _ hfalse => absurd trivial hfalse, fun _ hnone => hnone,
    fun _ window _ hwindow => ⟨window, hwindow, (add_zero _).symm, (add_zero _).symm⟩⟩

/-- The second loop changes all windows by the difference of the last value and the first one. No
difference between two values is cut. -/
theorem adjustAll_spec (h : plane.Sound) {previous : ℤ} {params : List (Option SettingId × ℕ)}
    (hlow : 0 ≤ previous) (hhigh : previous ≤ 0x7fffffff)
    (hle : ∀ value ∈ valuesOf .initialWindowSize params, value ≤ 0x7fffffff) :
    (plane.adjustAll previous params).1.Sound ∧
      ((plane.adjustAll previous params).2 = .ok () →
        plane.Adjusted (plane.adjustAll previous params).1 (total previous params)
          fun _ => True) := by
  induction params generalizing plane previous with
  | nil =>
    refine ⟨h, fun _ => ?_⟩
    have htotal : total previous [] = 0 := by simp [total, valuesOf]
    rw [htotal]
    exact adjusted_zero plane
  | cons param params ih =>
    obtain ⟨id, value⟩ := param
    rw [adjustAll]
    rw [valuesOf_cons] at hle
    by_cases hid : id = some .initialWindowSize
    · rw [if_pos hid] at hle ⊢
      have hvalue : value ≤ 0x7fffffff := hle value (.head _)
      have hrest : ∀ found ∈ valuesOf .initialWindowSize params, found ≤ 0x7fffffff :=
        fun found hfound => hle found (.tail _ hfound)
      have hcut : asI32 ((value : ℤ) - previous) = value - previous :=
        asI32_of_fits (by omega) (by omega)
      rw [hid, total_cons]
      dsimp only
      by_cases hzero : (value : ℤ) - previous = 0
      · rw [if_neg (not_not.mpr hzero), hzero, zero_add]
        exact ih h (by omega) (by omega) hrest
      · rw [if_pos hzero, hcut]
        obtain ⟨hsound, hadjusted⟩ := h.adjustSend ((value : ℤ) - previous)
        cases hsend : plane.adjustSend ((value : ℤ) - previous) with
        | mk after result =>
          rw [hsend] at hsound hadjusted
          cases result with
          | error error => exact ⟨hsound, fun hok => by cases hok⟩
          | ok found =>
            cases found
            obtain ⟨hlast, hall⟩ := ih hsound (Int.natCast_nonneg value) (by omega) hrest
            exact ⟨hlast, fun hok => (hadjusted rfl).trans (hall hok)⟩
    · rw [if_neg hid] at hle ⊢
      have htotal : total previous ((id, value) :: params) = total previous params := by
        rw [total, total, valuesOf_cons, if_neg hid]
      rw [htotal]
      exact ih h hlow hhigh hle

end Plane

/-! ## Connections -/

namespace Conn

variable {K D E σ ω ε : Type} [DecidableEq K] [Directory D] [Directory E] [Span σ ε]
  {conn : Conn K D E σ ω} {header : Header} {first : Bool}

/-- A connection that a SETTINGS frame may come to: a new one, one after a SETTINGS frame, whatever
came of it, and one on which a stream was opened, a slot was freed, a stream was closed or credit
was spent, reserved or given, or the encoder, the output, the events or the input changed. -/
inductive Reachable : Conn K D E σ ω → Prop
  | start (endpoint : Endpoint) (capacity : ℕ) {encoder : Encoder D E} (outbound : σ)
      (eventCapacity : ℕ) :
      encoder.Reachable →
        Reachable ⟨endpoint, .default, ⟨List.replicate capacity none, .start, []⟩, some encoder,
          outbound, [], eventCapacity, []⟩
  | settings {conn : Conn K D E σ ω} (header : Header) (first : Bool) :
      Reachable conn → Reachable (conn.settings header first : _ × Except (SettingsError ε) _).1
  | openStream {conn : Conn K D E σ ω} {key : K} {value index : ℕ} :
      Reachable conn → conn.plane.slots[index]? = some none → key ∉ conn.plane.sends.opened →
        (value : ℤ) ≤ Flow.Window.max →
          Reachable { conn with
            plane :=
              { conn.plane with
                slots := conn.plane.slots.set index (some key)
                sends := conn.plane.sends.step (.openStream key value) } }
  | free {conn : Conn K D E σ ω} {key : K} {index : ℕ} :
      Reachable conn → conn.plane.slots[index]? = some (some key) →
        conn.plane.sends.streams key = none →
          Reachable { conn with
            plane := { conn.plane with slots := conn.plane.slots.set index none } }
  | send {conn : Conn K D E σ ω} (op : SendOp K) (wakes : List K) :
      (∀ key value, op ≠ .openStream key value) → Reachable conn →
        Reachable { conn with
          plane := { conn.plane with sends := conn.plane.sends.step op, wakes := wakes } }
  | other {conn : Conn K D E σ ω} {headers : Option (Encoder D E)} (outbound : σ)
      (events : List (Told ω)) (input : Bytes) :
      Reachable conn → (∀ encoder ∈ headers, encoder.Reachable) →
        Reachable { conn with headers, outbound, events, input }

/-- What a reachable connection keeps to. -/
structure Sound (conn : Conn K D E σ ω) : Prop where
  plane : conn.plane.Sound
  initial : conn.peer.initialWindowSize ≤ 0x7fffffff
  headers : ∀ encoder ∈ conn.headers, encoder.Reachable

end Conn

namespace Flow.Sends

variable {K : Type} [DecidableEq K] {sends : Sends K} {op : SendOp K}

theorem streams_step (hop : ∀ key value, op ≠ .openStream key value) {key : K} {window : Window}
    (h : (sends.step op).streams key = some window) :
    ∃ before, sends.streams key = some before := by
  have hupdate : ∀ {other : K} {change : Window → Window},
      sends.update other change key = some window → ∃ before, sends.streams key = some before := by
    intro other change hchange
    rcases update_eq_some hchange with ⟨rfl, before, hbefore, -⟩ | ⟨-, hbefore⟩
    · exact ⟨before, hbefore⟩
    · exact ⟨window, hbefore⟩
  cases op with
  | openStream other value => exact absurd rfl (hop other value)
  | closeStream other =>
    rw [step] at h
    by_cases hkey : key = other
    · rw [hkey] at h
      dsimp only at h
      rw [Function.update_self] at h
      cases h
    · dsimp only at h
      rw [Function.update_of_ne hkey] at h
      exact ⟨window, h⟩
  | commit other limit | reserve other limit =>
    rw [step] at h
    split at h
    · exact ⟨window, h⟩
    · exact hupdate h
  | accept index | cancel index =>
    rw [step] at h
    split at h
    · exact ⟨window, h⟩
    · exact hupdate h
  | increaseConn inc | adjustConn delta => exact ⟨window, h⟩
  | increaseStream other inc | adjustStream other delta => exact hupdate h

theorem opened_step (hop : ∀ key value, op ≠ .openStream key value) :
    (sends.step op).opened = sends.opened := by
  cases op with
  | openStream other value => exact absurd rfl (hop other value)
  | commit other limit | reserve other limit | accept index | cancel index =>
    rw [step]
    split <;> rfl
  | _ => rfl

end Flow.Sends

namespace Plane

variable {K : Type} [DecidableEq K] {plane : Plane K}

theorem sound_start (capacity : ℕ) :
    (⟨List.replicate capacity none, .start, []⟩ : Plane K).Sound := by
  have hnone : ∀ (i : ℕ) (key : K),
      (List.replicate capacity (none : Option K))[i]? ≠ some (some key) := by
    intro i key h
    exact absurd (List.eq_of_mem_replicate (List.mem_of_getElem? h)) (by simp)
  refine ⟨Sends.conserved_start, fun key hmem => ?_, fun i j key hi => absurd hi (hnone i key),
    fun key window h => by cases h⟩
  exact absurd (List.eq_of_mem_replicate hmem) (by simp)

theorem Sound.send (h : plane.Sound) {op : SendOp K} (hop : ∀ key value, op ≠ .openStream key value)
    (wakes : List K) :
    ({ plane with sends := plane.sends.step op, wakes := wakes } : Plane K).Sound := by
  refine ⟨h.conserved.step op, fun key hmem => ?_, h.distinct, fun key window hwindow => ?_⟩
  · show key ∈ (plane.sends.step op).opened
    rw [Sends.opened_step hop]
    exact h.opened key hmem
  · obtain ⟨before, hbefore⟩ := Sends.streams_step hop hwindow
    exact h.covers key before hbefore

/-- A slot that is vacant takes a new stream. -/
theorem Sound.openStream (h : plane.Sound) {key : K} {value index : ℕ}
    (hvacant : plane.slots[index]? = some none) (hfresh : key ∉ plane.sends.opened)
    (hvalue : (value : ℤ) ≤ Flow.Window.max) :
    ({ plane with
      slots := plane.slots.set index (some key)
      sends := plane.sends.step (.openStream key value) } : Plane K).Sound := by
  have hstep : plane.sends.step (.openStream key value) =
      { plane.sends with
        streams := Function.update plane.sends.streams key (some (.ofValue value))
        opened := key :: plane.sends.opened } := by
    rw [Sends.step, if_neg (not_or.mpr ⟨hfresh, not_lt.mpr hvalue⟩)]
  have hindex : index < plane.slots.length := (List.getElem?_eq_some_iff.mp hvacant).1
  have hslot : ∀ (i : ℕ) (found : K), (plane.slots.set index (some key))[i]? = some (some found) →
      (i = index ∧ found = key) ∨ (i ≠ index ∧ plane.slots[i]? = some (some found)) := by
    intro i found hi
    rw [List.getElem?_set] at hi
    split_ifs at hi with heq
    · exact .inl ⟨heq.symm, (Option.some.inj (Option.some.inj hi)).symm⟩
    · exact .inr ⟨fun hi => heq hi.symm, hi⟩
  have hold : ∀ {i : ℕ} {found : K}, plane.slots[i]? = some (some found) → found ≠ key := by
    rintro i found hi rfl
    exact hfresh (h.opened found (List.mem_of_getElem? hi))
  refine ⟨h.conserved.step (.openStream key value), fun found hmem => ?_,
    fun i j found hi hj => ?_, fun found window hwindow => ?_⟩
  · show found ∈ (plane.sends.step (.openStream key value)).opened
    rw [hstep]
    obtain ⟨i, hi⟩ := List.mem_iff_getElem?.mp hmem
    rcases hslot i found hi with ⟨-, rfl⟩ | ⟨-, hi⟩
    · exact List.mem_cons_self
    · exact List.mem_cons_of_mem _ (h.opened found (List.mem_of_getElem? hi))
  · rcases hslot i found hi with ⟨hi, hkey⟩ | ⟨-, hi⟩ <;>
      rcases hslot j found hj with ⟨hj, hkey'⟩ | ⟨-, hj⟩
    · rw [hi, hj]
    · exact absurd hkey (hold hj)
    · exact absurd hkey' (hold hi)
    · exact h.distinct i j found hi hj
  · have hupdate : Function.update plane.sends.streams key (some (.ofValue value)) found =
        some window := by
      rw [hstep] at hwindow
      exact hwindow
    by_cases hkey : found = key
    · rw [hkey]
      exact List.mem_iff_getElem?.mpr ⟨index, by
        show (plane.slots.set index (some key))[index]? = _
        rw [List.getElem?_set_self hindex]⟩
    · rw [Function.update_of_ne hkey] at hupdate
      obtain ⟨i, hi⟩ := List.mem_iff_getElem?.mp (h.covers found window hupdate)
      refine List.mem_iff_getElem?.mpr ⟨i, ?_⟩
      show (plane.slots.set index (some key))[i]? = _
      rw [List.getElem?_set_ne, hi]
      rintro rfl
      rw [hvacant] at hi
      cases hi

theorem Sound.free (h : plane.Sound) {key : K} {index : ℕ}
    (hslot : plane.slots[index]? = some (some key)) (hnone : plane.sends.streams key = none) :
    ({ plane with slots := plane.slots.set index none } : Plane K).Sound := by
  have hold : ∀ (i : ℕ) (found : K), (plane.slots.set index none)[i]? = some (some found) →
      plane.slots[i]? = some (some found) := by
    intro i found hi
    rw [List.getElem?_set] at hi
    split_ifs at hi with heq
    · cases hi
    · exact hi
  refine ⟨h.conserved, fun found hmem => ?_,
    fun i j found hi hj => h.distinct i j found (hold i found hi) (hold j found hj),
    fun found window hwindow => ?_⟩
  · obtain ⟨i, hi⟩ := List.mem_iff_getElem?.mp hmem
    exact h.opened found (List.mem_of_getElem? (hold i found hi))
  · obtain ⟨i, hi⟩ := List.mem_iff_getElem?.mp (h.covers found window hwindow)
    refine List.mem_iff_getElem?.mpr ⟨i, ?_⟩
    show (plane.slots.set index none)[i]? = _
    rw [List.getElem?_set_ne, hi]
    rintro rfl
    rw [hslot] at hi
    have hwindow : plane.sends.streams found = some window := hwindow
    rw [← Option.some.inj (Option.some.inj hi), hnone] at hwindow
    cases hwindow

end Plane

namespace Conn

variable {K D E σ ω ε : Type} [DecidableEq K] [Directory D] [Directory E] [Span σ ε]
  {conn : Conn K D E σ ω} {header : Header} {first : Bool}

/-- What the encoder is told: the least and the last table size. -/
def told (encoder : Encoder D E) (sizes : List ℕ) : Encoder D E :=
  match sizes.min?, sizes.getLast? with
  | some minimum, some last =>
    (if minimum ≠ last then encoder.setMaxSize minimum else encoder).setMaxSize last
  | _, _ => encoder

/-- The differences between a window size and those that follow it. -/
def deltas : ℤ → List ℕ → List ℤ
  | _, [] => []
  | previous, value :: values => ((value : ℤ) - previous) :: deltas value values

theorem uncut_deltas {previous : ℤ} {values : List ℕ} (hlow : 0 ≤ previous)
    (hhigh : previous ≤ 0x7fffffff) (hle : ∀ value ∈ values, value ≤ 0x7fffffff) :
    ∀ delta ∈ deltas previous values, asI32 delta = delta := by
  induction values generalizing previous with
  | nil => exact fun delta hdelta => absurd hdelta List.not_mem_nil
  | cons value values ih =>
    have hvalue : value ≤ 0x7fffffff := hle value (.head _)
    intro delta hdelta
    rcases List.mem_cons.mp hdelta with rfl | hdelta
    · exact asI32_of_fits (by omega) (by omega)
    · exact ih (Int.natCast_nonneg value) (by omega)
        (fun found hfound => hle found (.tail _ hfound)) delta hdelta

/-- A frame was applied as a whole: every send window changed by the difference of the window
sizes, the settings have their last values, the encoder was told the least and the last table size,
and one acknowledgement was written. -/
structure Applied (conn next : Conn K D E σ ω) (params : List (Option SettingId × ℕ))
    (length : ℕ) : Prop where
  windows : conn.plane.Adjusted next.plane
    ((next.peer.initialWindowSize : ℤ) - conn.peer.initialWindowSize) fun _ => True
  uncut : ∀ delta ∈ deltas conn.peer.initialWindowSize (valuesOf .initialWindowSize params),
    asI32 delta = delta
  peer : ∀ id, next.peer.raw id = (valuesOf id params).getLast?.or (conn.peer.raw id)
  headers : ∃ encoder, conn.headers = some encoder ∧
    next.headers = some (told encoder (valuesOf .headerTableSize params))
  outbound : Span.tryAppend conn.outbound ackBytes = .ok next.outbound
  events : next.events = conn.events ++ [.settingsApplied]
  input : next.input = conn.input.drop length

omit [DecidableEq K] [Directory E] [Span σ ε] in
theorem idleApply_eq_told (encoder : Encoder D E) {start : Settings}
    {params : List (Option SettingId × ℕ)} {walk : Walk} (h : walk.Found start params) :
    idleApply encoder walk.minimum walk.next.headerTableSize =
      told encoder (valuesOf .headerTableSize params) := by
  have hraw := h.raw .headerTableSize
  rw [idleApply.eq_def, told, h.minimum]
  cases hvalues : valuesOf .headerTableSize params with
  | nil => rfl
  | cons value values =>
    rw [hvalues, List.getLast?_eq_some_getLast (List.cons_ne_nil value values)] at hraw
    rw [List.getLast?_eq_some_getLast (List.cons_ne_nil value values),
      ← Option.some.inj hraw]
    rfl

omit [Span σ ε] in
/-- The windows after the second loop, if there is one. -/
theorem Sound.windows (h : conn.Sound) {params : List (Option SettingId × ℕ)} {walk : Walk}
    (hwalk : walk.Found conn.peer params) {plane : Plane K} {result : Except AdjustError Unit}
    (hresult : (if walk.adjust then conn.plane.adjustAll conn.peer.initialWindowSize params
      else (conn.plane, .ok ())) = (plane, result)) :
    plane.Sound ∧ (result = .ok () →
      conn.plane.Adjusted plane
        ((walk.next.initialWindowSize : ℤ) - conn.peer.initialWindowSize) fun _ => True) := by
  by_cases hadjust : walk.adjust
  · rw [if_pos hadjust] at hresult
    have hhigh : (conn.peer.initialWindowSize : ℤ) ≤ 0x7fffffff := by
      exact_mod_cast h.initial
    obtain ⟨hsound, hall⟩ := Plane.adjustAll_spec h.plane (Int.natCast_nonneg _) hhigh hwalk.le
    rw [hresult] at hsound hall
    refine ⟨hsound, fun hok => ?_⟩
    have htotal : Plane.total conn.peer.initialWindowSize params =
        (walk.next.initialWindowSize : ℤ) - conn.peer.initialWindowSize := by
      have hraw := hwalk.raw .initialWindowSize
      simp only [Settings.raw] at hraw
      rw [Plane.total]
      cases hlast : (valuesOf .initialWindowSize params).getLast? with
      | none =>
        rw [hlast] at hraw
        rw [Option.some.inj hraw]
        rfl
      | some value =>
        rw [hlast] at hraw
        rw [Option.some.inj hraw]
        rfl
    rw [← htotal]
    exact hall hok
  · rw [if_neg hadjust] at hresult
    rw [← (Prod.mk.inj hresult).1, hwalk.initialWindowSize (Bool.not_eq_true _ ▸ hadjust), sub_self]
    exact ⟨h.plane, fun _ => Plane.adjusted_zero conn.plane⟩

theorem reachable_idleApply {encoder : Encoder D E} (h : encoder.Reachable)
    (minimum : Option ℕ) (max : ℕ) : (idleApply encoder minimum max).Reachable := by
  rw [idleApply.eq_def]
  cases minimum with
  | none => exact h
  | some minimum =>
    dsimp only
    split_ifs
    · exact .setMaxSize max (.setMaxSize minimum h)
    · exact .setMaxSize max h

/-- What becomes of a frame for which there is an event: nothing before the windows, and all of it
after them. -/
theorem Sound.apply (h : conn.Sound) (hevents : conn.events.length < conn.eventCapacity)
    (header : Header) :
    (conn.apply header).1 = conn ∧ (∃ error, (conn.apply header).2 = .error error) ∨
    (∃ plane error, plane.Sound ∧ (conn.apply header).1 = { conn with plane } ∧
      (conn.apply header).2 = .error (.adjust error)) ∨
    (conn.apply header).2 = .ok .applied ∧ (conn.apply header).1.Sound ∧
      conn.Applied (conn.apply header).1 (readParams (conn.payload header))
        (headerLen + header.length.value) := by
  rw [Conn.apply]
  cases hheaders : conn.headers with
  | none => exact .inl ⟨rfl, _, rfl⟩
  | some encoder =>
    dsimp only
    cases happend : Span.tryAppend conn.outbound ackBytes with
    | error error => exact .inl ⟨rfl, _, rfl⟩
    | ok outbound =>
      dsimp only
      generalize hparams : readParams (conn.payload header) = params
      cases hwalk : (Walk.run conn.endpoint ⟨conn.peer, none, false⟩ params :
          Except (SettingsError ε) Walk) with
      | error error => exact .inl ⟨rfl, _, rfl⟩
      | ok walk =>
        have hfound := Walk.run_spec hwalk
        dsimp only
        cases hresult : (if walk.adjust then conn.plane.adjustAll conn.peer.initialWindowSize params
          else (conn.plane, .ok ())) with
        | mk plane result =>
          obtain ⟨hplane, hadjusted⟩ := h.windows hfound hresult
          cases result with
          | error error => exact .inr (.inl ⟨plane, error, hplane, rfl, rfl⟩)
          | ok found =>
            cases found
            have hhigh : (conn.peer.initialWindowSize : ℤ) ≤ 0x7fffffff := by
              exact_mod_cast h.initial
            have hinitial : walk.next.initialWindowSize ≤ 0x7fffffff := by
              have hraw := hfound.raw .initialWindowSize
              simp only [Settings.raw] at hraw
              cases hlast : (valuesOf .initialWindowSize params).getLast? with
              | none =>
                rw [hlast] at hraw
                rw [Option.some.inj hraw]
                exact h.initial
              | some value =>
                rw [hlast] at hraw
                rw [Option.some.inj hraw]
                exact hfound.le value (List.mem_of_getLast? hlast)
            refine .inr (.inr ?_)
            dsimp only
            -- an event is free, so that the last step cannot fail any more
            rw [Conn.push, if_neg (not_le.mpr hevents)]
            refine ⟨rfl, ⟨hplane, hinitial, fun found hmem => ?_⟩, ?_⟩
            · rw [← Option.some.inj hmem]
              exact reachable_idleApply (h.headers encoder hheaders) _ _
            · exact ⟨hadjusted rfl, uncut_deltas (Int.natCast_nonneg _) hhigh hfound.le, hfound.raw,
                ⟨encoder, hheaders, congrArg some (idleApply_eq_told encoder hfound)⟩, happend, rfl,
                rfl⟩

theorem Sound.settings (h : conn.Sound) (header : Header) (first : Bool) :
    (conn.settings header first).1 = conn ∧ (conn.settings header first).2 ≠ .ok .applied ∨
    (∃ plane error, plane.Sound ∧ (conn.settings header first).1 = { conn with plane } ∧
      (conn.settings header first).2 = .error (.adjust error)) ∨
    (conn.settings header first).2 = .ok .applied ∧ (conn.settings header first).1.Sound ∧
      conn.Applied (conn.settings header first).1 (readParams (conn.payload header))
        (headerLen + header.length.value) := by
  rw [Conn.settings]
  by_cases hwaits : conn.input.length < headerLen + header.length.value
  · rw [if_pos hwaits]
    exact .inl ⟨rfl, by simp⟩
  rw [if_neg hwaits]
  by_cases hevents : conn.eventCapacity ≤ conn.events.length
  · rw [if_pos hevents]
    exact .inl ⟨rfl, by simp⟩
  rw [if_neg hevents]
  cases (check header first : Except (SettingsError ε) Unit) with
  | error error => exact .inl ⟨rfl, by simp⟩
  | ok found =>
    rcases h.apply (not_le.mp hevents) header with ⟨hsame, error, herror⟩ | hrest
    · exact .inl ⟨hsame, by rw [herror]; simp⟩
    · exact .inr hrest

theorem Reachable.sound (h : conn.Reachable) : conn.Sound := by
  induction h with
  | start endpoint capacity outbound eventCapacity hencoder =>
    refine ⟨Plane.sound_start capacity, show (65535 : ℕ) ≤ _ by norm_num, fun encoder hmem => ?_⟩
    rw [← Option.some.inj hmem]
    exact hencoder
  | @settings conn header first _ ih =>
    rcases ih.settings header first with ⟨hsame, -⟩ | ⟨plane, error, hplane, heq, -⟩ |
      ⟨-, hsound, -⟩
    · rw [hsame]
      exact ih
    · rw [heq]
      exact ⟨hplane, ih.initial, ih.headers⟩
    · exact hsound
  | openStream _ hvacant hfresh hvalue ih =>
    exact ⟨ih.plane.openStream hvacant hfresh hvalue, ih.initial, ih.headers⟩
  | free _ hslot hnone ih => exact ⟨ih.plane.free hslot hnone, ih.initial, ih.headers⟩
  | send op wakes hop _ ih => exact ⟨ih.plane.send hop wakes, ih.initial, ih.headers⟩
  | other outbound events input _ hheaders ih => exact ⟨ih.plane, ih.initial, hheaders⟩

end Conn

end Sark.H2
