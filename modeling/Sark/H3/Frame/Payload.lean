import Sark.H3.Frame.Settings
import Sark.H3.Frame.Integer

/-!
# Frames in one piece

The frames of HTTP/3 as the one-shot parser reads them (`h3/src/frame/mod.rs`): a header of two
integers, and a payload that is data, a field section, an integer or settings.

* `Settings.decode_encode`: settings are read back as they were written, and their length is exact.
* `Settings.any_order`: they are read in any order, with unknown ones between them.
* `Payload.parse_append`: what is read of a frame does not depend on what follows it.
-/

namespace Sark.H3

variable {V E : Type} [VarInt V E]

namespace Frame

/-! ## Kinds -/

/-- `frame::TYPE_DATA`. -/
def typeData : V :=
  VarInt.fromU8 0x00

/-- `frame::TYPE_HEADERS`. -/
def typeHeaders : V :=
  VarInt.fromU8 0x01

/-- `frame::TYPE_CANCEL_PUSH`. -/
def typeCancelPush : V :=
  VarInt.fromU8 0x03

/-- `frame::TYPE_SETTINGS`. -/
def typeSettings : V :=
  VarInt.fromU8 0x04

/-- `frame::TYPE_PUSH_PROMISE`. -/
def typePushPromise : V :=
  VarInt.fromU8 0x05

/-- `frame::TYPE_GOAWAY`. -/
def typeGoaway : V :=
  VarInt.fromU8 0x07

/-- `frame::TYPE_MAX_PUSH_ID`. -/
def typeMaxPushId : V :=
  VarInt.fromU8 0x0d

/-- The kinds that HTTP/2 has and HTTP/3 has not. -/
def Reserved (kind : V) : Prop :=
  VarInt.get kind = 0x02 ∨ VarInt.get kind = 0x06 ∨ VarInt.get kind = 0x08 ∨
    VarInt.get kind = 0x09

instance (kind : V) : Decidable (Reserved kind) :=
  inferInstanceAs (Decidable (_ ∨ _ ∨ _ ∨ _))

/-- `frame::check_kind`. -/
def checkKind (kind : V) : Except (ParseError V E) Unit :=
  if Reserved kind then .error (.reservedFrame kind) else .ok ()

/-! ## Headers -/

/-- `frame::Header`. -/
structure Header (V : Type) where
  kind : V
  length : V
  headerLen : ℕ
  deriving DecidableEq, Repr

/-- `Header::for_payload`. -/
def Header.forPayload (kind : V) (len : ℕ) : Except (ParseError V E) (Header V) :=
  match VarInt.fromUsize len with
  | none => .error .frameTooLarge
  | some length => .ok ⟨kind, length, VarInt.encodedLen kind + VarInt.encodedLen length⟩

/-- `Header::encode`. -/
def Header.encode (self : Header V) : Bytes :=
  VarInt.pack self.kind ++ VarInt.pack self.length

/-- `Header::parse`. -/
def Header.parse (buf : Bytes) : Except (ParseError V E) (Header V) :=
  match (VarInt.decode buf : Except E (V × ℕ)) with
  | .error error => .error (.varInt error)
  | .ok (kind, n) =>
    if n ≤ buf.length then
      match VarInt.decode (buf.drop n) with
      | .error error => .error (.varInt error)
      | .ok (length, m) =>
        if n + m < 2 ^ 64 then .ok ⟨kind, length, n + m⟩ else .error .frameTooLarge
    else .error .needMore

/-- The length of a payload and where it ends, behind a header of some bytes. -/
def bound (limit headerLen : ℕ) (length : V) : Except (ParseError V E) (ℕ × ℕ) :=
  let len := VarInt.get length
  if len < 2 ^ 64 then
    if limit < len then .error .frameTooLarge
    else if headerLen + len < 2 ^ 64 then .ok (len, headerLen + len)
    else .error .frameTooLarge
  else .error .frameTooLarge

/-! ## Payloads -/

/-- `frame::Payload`. -/
inductive Payload (V : Type)
  | data (payload : Bytes)
  | headers (payload : Bytes)
  | cancelPush (pushId : V)
  | settings (settings : Settings V)
  | pushPromise (pushId : V) (block : Bytes)
  | goAway (id : V)
  | maxPushId (pushId : V)
  | unknown (kind : V) (payload : Bytes)
  deriving DecidableEq, Repr

namespace Payload

/-- `Payload::parse_int`. -/
def parseInt (payload : Bytes) : Except (ParseError V E) V :=
  match (VarInt.decode payload : Except E (V × ℕ)) with
  | .error error => .error (.payloadInteger error)
  | .ok (value, n) => if n ≠ payload.length then .error .badVarInt else .ok value

/-- A push promise: an integer, and a field section behind it. -/
def promise (payload : Bytes) : Except (ParseError V E) (Payload V) :=
  match (VarInt.decode payload : Except E (V × ℕ)) with
  | .error error => .error (.payloadInteger error)
  | .ok (pushId, n) =>
    if n ≤ payload.length then .ok (.pushPromise pushId (payload.drop n)) else .error .needMore

variable [DecidableEq V]

/-- What the payload of a frame is, by its kind. -/
def ofKind (kind : V) (payload : Bytes) : Except (ParseError V E) (Payload V) :=
  if kind = typeData then .ok (.data payload)
  else if kind = typeHeaders then .ok (.headers payload)
  else if kind = typeCancelPush then (parseInt payload).map .cancelPush
  else if kind = typeSettings then (Settings.decode payload).map .settings
  else if kind = typePushPromise then promise payload
  else if kind = typeGoaway then (parseInt payload).map .goAway
  else if kind = typeMaxPushId then (parseInt payload).map .maxPushId
  else .ok (.unknown kind payload)

/-- `Payload::parse`. -/
def parse (buf : Bytes) (limit : ℕ) : Except (ParseError V E) (Payload V × ℕ) := do
  let header ← Header.parse buf
  checkKind header.kind
  let bounds ← bound limit header.headerLen header.length
  if bounds.2 ≤ buf.length then
    (ofKind header.kind ((buf.drop header.headerLen).take bounds.1)).map fun frame =>
      (frame, bounds.2)
  else .error .needMore

/-- `Payload::encode`. -/
def encode (kind : V) (payload : Bytes) : Except (ParseError V E) Bytes :=
  (Header.forPayload kind payload.length).map fun header => header.encode ++ payload

end Payload

/-! ## Integers that are followed by more -/

/-- A reader that has to wait: an integer or a payload is not all there. -/
def Waits (cause : ParseError V E) : Prop :=
  cause = .needMore ∨ ∃ actual required, cause = .varInt (VarInt.underflow V actual required)

section Integers

variable (hlaw : VarInt.LawfulDecode V E) {buf more rest : Bytes} {value : V} {n : ℕ}

include hlaw

theorem decode_eq_ok (h : (VarInt.decode buf : Except E (V × ℕ)) = .ok (value, n)) :
    0 < n ∧ n ≤ 8 ∧ n ≤ buf.length := by
  cases buf with
  | nil =>
    rw [hlaw.decode_nil] at h
    exact absurd h (by simp)
  | cons first tail =>
    obtain rfl := hlaw.decode_width first tail value n h
    refine ⟨varintWidth_pos first, varintWidth_le first, Nat.not_lt.mp fun hshort => ?_⟩
    rw [hlaw.decode_short first tail hshort] at h
    exact absurd h (by simp)

theorem decode_append (buf more : Bytes) :
    (∃ actual required, (VarInt.decode buf : Except E (V × ℕ)) =
      .error (VarInt.underflow V actual required)) ∨
      (VarInt.decode (buf ++ more) : Except E (V × ℕ)) = VarInt.decode buf := by
  cases buf with
  | nil => exact .inl ⟨0, 1, hlaw.decode_nil⟩
  | cons first tail =>
    by_cases hshort : (first :: tail).length < varintWidth first
    · exact .inl ⟨_, _, hlaw.decode_short first tail hshort⟩
    · have hwidth := Nat.not_lt.mp hshort
      have hlonger : varintWidth first ≤ (first :: (tail ++ more)).length := by
        rw [List.length_cons, List.length_append]
        rw [List.length_cons] at hwidth
        omega
      right
      show VarInt.decode (first :: (tail ++ more)) = _
      rw [hlaw.decode_take first (tail ++ more) hlonger, hlaw.decode_take first tail hwidth,
        ← List.cons_append, List.take_append_of_le_length hwidth]

theorem decodeVarint_eq_ok_iff :
    (decodeVarint buf : Except (ParseError V E) (V × Bytes)) = .ok (value, rest) ↔
      ∃ n, (VarInt.decode buf : Except E (V × ℕ)) = .ok (value, n) ∧ rest = buf.drop n := by
  rw [decodeVarint]
  constructor
  · intro h
    split at h
    next => exact absurd h (by simp)
    next found n hdecode =>
      split_ifs at h
      obtain ⟨rfl, rfl⟩ := Prod.mk.inj (Except.ok.inj h)
      exact ⟨n, hdecode, rfl⟩
  · rintro ⟨n, hdecode, rfl⟩
    rw [hdecode]
    exact if_pos (decode_eq_ok hlaw hdecode).2.2

theorem decodeVarint_append
    (h : (decodeVarint buf : Except (ParseError V E) (V × Bytes)) = .ok (value, rest)) :
    (decodeVarint (buf ++ more) : Except (ParseError V E) (V × Bytes)) =
      .ok (value, rest ++ more) := by
  obtain ⟨n, hdecode, rfl⟩ := (decodeVarint_eq_ok_iff hlaw).mp h
  have hle := (decode_eq_ok hlaw hdecode).2.2
  refine (decodeVarint_eq_ok_iff hlaw).mpr ⟨n, ?_, (List.drop_append_of_le_length hle).symm⟩
  rcases @decode_append V E _ hlaw buf more with ⟨_, _, hshort⟩ | heq
  · exact absurd (hdecode.symm.trans hshort) (by simp)
  · exact heq.trans hdecode

/-- The beginning of an input that has an integer in front has it in front too, or has to wait. -/
theorem decodeVarint_lead
    (h : (decodeVarint (buf ++ more) : Except (ParseError V E) (V × Bytes)) = .ok (value, rest)) :
    (∃ tail, (decodeVarint buf : Except (ParseError V E) (V × Bytes)) = .ok (value, tail) ∧
      rest = tail ++ more) ∨
      ∃ cause, (decodeVarint buf : Except (ParseError V E) (V × Bytes)) = .error cause ∧
        Waits cause := by
  obtain ⟨n, hdecode, rfl⟩ := (decodeVarint_eq_ok_iff hlaw).mp h
  rcases @decode_append V E _ hlaw buf more with ⟨actual, required, hshort⟩ | heq
  · right
    refine ⟨.varInt (VarInt.underflow V actual required), ?_, .inr ⟨actual, required, rfl⟩⟩
    rw [decodeVarint, hshort]
  · left
    rw [heq] at hdecode
    have hle := (decode_eq_ok hlaw hdecode).2.2
    exact ⟨buf.drop n, (decodeVarint_eq_ok_iff hlaw).mpr ⟨n, hdecode, rfl⟩,
      List.drop_append_of_le_length hle⟩

end Integers

theorem decodeVarint_pack (hlaw : VarInt.Lawful V E) (value : V) (rest : Bytes) :
    (decodeVarint (VarInt.pack value ++ rest) : Except (ParseError V E) (V × Bytes)) =
      .ok (value, rest) := by
  refine (decodeVarint_eq_ok_iff hlaw.toLawfulDecode).mpr
    ⟨VarInt.encodedLen value, hlaw.decode_pack value rest, ?_⟩
  exact (List.drop_left' (hlaw.length_pack value)).symm

theorem pack_pos (hlaw : VarInt.Lawful V E) (value : V) : 0 < (VarInt.pack value).length := by
  have hdecode := hlaw.decode_pack value []
  rw [hlaw.length_pack]
  exact (decode_eq_ok hlaw.toLawfulDecode hdecode).1

end Frame

/-! ## Settings that were written -/

namespace Settings

theorem fromU8_inj (hlaw : VarInt.Lawful V E) {a b : UInt8} :
    (VarInt.fromU8 a : V) = VarInt.fromU8 b ↔ a = b := by
  refine ⟨fun h => ?_, congrArg VarInt.fromU8⟩
  have hget := congrArg VarInt.get h
  rw [hlaw.get_fromU8, hlaw.get_fromU8] at hget
  exact UInt8.toNat_inj.mp hget

/-- The identifier of a setting. -/
def id : Setting → V
  | .table => settingsQpackMaxTableCapacity
  | .fields => settingsMaxFieldSectionSize
  | .blocked => settingsQpackBlockedStreams
  | .connect => settingsEnableConnectProtocol

/-- A setting in a payload, in front of other settings. -/
def packed (setting : Setting) (value : V) (rest : Bytes) : Bytes :=
  VarInt.pack (id setting : V) ++ (VarInt.pack value ++ rest)

/-- The last setting of a payload, if there is one. -/
def packedConnect (V : Type) {E : Type} [VarInt V E] : Connect → Bytes
  | .disabled => []
  | .enabled => packed .connect (VarInt.fromU8 1 : V) []

theorem encode_eq (self : Settings V) :
    self.encode =
      packed .table self.table
        (self.fields.elim (packed .blocked self.blocked (packedConnect V self.connect))
          fun value => packed .fields value
            (packed .blocked self.blocked (packedConnect V self.connect))) := by
  obtain ⟨table, fields, blocked, connect⟩ := self
  cases fields <;> cases connect <;> simp [encode, packed, packedConnect, id]

theorem length_encode (hlaw : VarInt.Lawful V E) (self : Settings V) :
    self.encode.length = self.encodedLen := by
  obtain ⟨table, fields, blocked, connect⟩ := self
  cases fields <;> cases connect <;>
    simp [encode, encodedLen, settingLen, hlaw.length_pack] <;> omega

variable [DecidableEq V]

/-- The settings of a payload, by a decoder that has seen some. -/
def decodeRest (decoder : SettingsDecoder V) (payload : Bytes) :
    Except (ParseError V E) (Settings V) :=
  decodeFrom decoder payload payload.length

theorem setting_id (hlaw : VarInt.Lawful V E) (setting : Setting) :
    (SettingsDecoder.setting (id setting : V) : Except (ParseError V E) _) =
      .ok (some setting) := by
  cases setting with
  | table => simp only [SettingsDecoder.setting, id, if_true]
  | fields =>
    simp only [SettingsDecoder.setting, id, settingsQpackMaxTableCapacity,
      settingsMaxFieldSectionSize, fromU8_inj hlaw]
    rfl
  | blocked =>
    simp only [SettingsDecoder.setting, id, settingsQpackMaxTableCapacity,
      settingsMaxFieldSectionSize, settingsQpackBlockedStreams, fromU8_inj hlaw]
    rfl
  | connect =>
    simp only [SettingsDecoder.setting, id, settingsQpackMaxTableCapacity,
      settingsMaxFieldSectionSize, settingsQpackBlockedStreams, settingsEnableConnectProtocol,
      fromU8_inj hlaw]
    rfl

theorem decodeRest_pair (hlaw : VarInt.Lawful V E) (decoder : SettingsDecoder V) (id value : V)
    (rest : Bytes) :
    (decodeRest decoder (VarInt.pack id ++ (VarInt.pack value ++ rest)) :
      Except (ParseError V E) _) = (decoder.push id value).bind (decodeRest · rest) := by
  have hpos := Frame.pack_pos hlaw id
  generalize hbytes : VarInt.pack id ++ (VarInt.pack value ++ rest) = bytes
  have hlength : bytes.length = bytes.length - 1 + 1 ∧ rest.length ≤ bytes.length - 1 := by
    rw [← hbytes, List.length_append, List.length_append]
    omega
  have hpayload : ∀ (value : V) (rest : Bytes),
      (decodePayload (VarInt.pack value ++ rest) : Except (ParseError V E) _) =
        .ok (value, rest) := fun value rest =>
    Except.mapError_eq_ok_iff.mpr (Frame.decodeVarint_pack hlaw value rest)
  rw [decodeRest, hlength.1, decodeFrom, if_neg (by omega), ← hbytes, hpayload]
  dsimp only
  rw [hpayload, hbytes]
  dsimp only
  cases (decoder.push id value : Except (ParseError V E) _) with
  | error error => rfl
  | ok next => exact decodeFrom_congr hlaw.toLawfulDecode hlength.2 le_rfl next

theorem decodeRest_packed (hlaw : VarInt.Lawful V E) {settings next : Settings V} {seen : UInt8}
    {setting : Setting} {value : V} (rest : Bytes) (hseen : seen &&& setting.mask = 0)
    (happly : (SettingsDecoder.apply settings value setting : Except (ParseError V E) _) =
      .ok next) :
    (decodeRest ⟨settings, seen⟩ (packed setting value rest) : Except (ParseError V E) _) =
      decodeRest ⟨next, seen ||| setting.mask⟩ rest := by
  rw [packed, decodeRest_pair hlaw, SettingsDecoder.push, setting_id hlaw]
  dsimp only
  rw [if_neg (not_not.mpr hseen), happly]
  rfl

theorem decodeRest_connect (hlaw : VarInt.Lawful V E) {table blocked : V} {fields : Option V}
    {seen : UInt8} (hseen : seen &&& Setting.connect.mask = 0) (connect : Connect) :
    (decodeRest ⟨⟨table, fields, blocked, .disabled⟩, seen⟩ (packedConnect V connect) :
      Except (ParseError V E) _) = .ok ⟨table, fields, blocked, connect⟩ := by
  cases connect with
  | disabled => rfl
  | enabled =>
    have hone : VarInt.get (VarInt.fromU8 1 : V) = 1 := hlaw.get_fromU8 1
    have happly : (SettingsDecoder.apply ⟨table, fields, blocked, .disabled⟩
        (VarInt.fromU8 1 : V) .connect : Except (ParseError V E) _) =
        .ok ⟨table, fields, blocked, .enabled⟩ := by
      rw [SettingsDecoder.apply, hone]
      rfl
    exact decodeRest_packed hlaw [] hseen happly

theorem decode_encode (hlaw : VarInt.Lawful V E) (self : Settings V) :
    (decode self.encode : Except (ParseError V E) (Settings V)) = .ok self := by
  obtain ⟨table, fields, blocked, connect⟩ := self
  have htable : (0 : UInt8) &&& Setting.table.mask = 0 := by decide
  rw [encode_eq]
  show decodeRest ⟨⟨VarInt.fromU8 0, none, VarInt.fromU8 0, .disabled⟩, 0⟩ _ = _
  rw [decodeRest_packed hlaw _ htable rfl]
  cases fields with
  | none =>
    have hblocked : (0 ||| Setting.table.mask) &&& Setting.blocked.mask = 0 := by decide
    have hconnect : (0 ||| Setting.table.mask ||| Setting.blocked.mask) &&&
        Setting.connect.mask = 0 := by decide
    rw [Option.elim_none, decodeRest_packed hlaw _ hblocked rfl, decodeRest_connect hlaw hconnect]
  | some value =>
    have hfields : (0 ||| Setting.table.mask) &&& Setting.fields.mask = 0 := by decide
    have hblocked : (0 ||| Setting.table.mask ||| Setting.fields.mask) &&&
        Setting.blocked.mask = 0 := by decide
    have hconnect : (0 ||| Setting.table.mask ||| Setting.fields.mask ||| Setting.blocked.mask) &&&
        Setting.connect.mask = 0 := by decide
    rw [Option.elim_some, decodeRest_packed hlaw _ hfields rfl,
      decodeRest_packed hlaw _ hblocked rfl, decodeRest_connect hlaw hconnect]

/-! ## Settings in any order -/

/-- An identifier and a value in a payload. -/
def entry (pair : V × V) : Bytes :=
  VarInt.pack pair.1 ++ VarInt.pack pair.2

/-- The identifiers and values that settings are written as. -/
def pairs (self : Settings V) : List (V × V) :=
  (settingsQpackMaxTableCapacity, self.table) ::
    (self.fields.map (Prod.mk settingsMaxFieldSectionSize)).toList ++
    (settingsQpackBlockedStreams, self.blocked) ::
      match self.connect with
      | .disabled => []
      | .enabled => [(settingsEnableConnectProtocol, VarInt.fromU8 1)]

omit [DecidableEq V] in
theorem encode_pairs (self : Settings V) : self.encode = self.pairs.flatMap entry := by
  obtain ⟨table, fields, blocked, connect⟩ := self
  cases fields <;> cases connect <;> simp [encode, pairs, entry]

/-- `SettingsDecoder.push` of one pair after the other. -/
def pushAll (decoder : SettingsDecoder V) (pairs : List (V × V)) :
    Except (ParseError V E) (SettingsDecoder V) :=
  pairs.foldlM (fun decoder pair => decoder.push pair.1 pair.2) decoder

theorem decodeRest_pairs (hlaw : VarInt.Lawful V E) (decoder : SettingsDecoder V)
    (pairs : List (V × V)) :
    (decodeRest decoder (pairs.flatMap entry) : Except (ParseError V E) _) =
      (pushAll decoder pairs).map SettingsDecoder.settings := by
  induction pairs generalizing decoder with
  | nil => rfl
  | cons pair pairs ih =>
    rw [List.flatMap_cons, entry, List.append_assoc, decodeRest_pair hlaw, pushAll,
      List.foldlM_cons]
    cases (decoder.push pair.1 pair.2 : Except (ParseError V E) _) with
    | error error => rfl
    | ok next => exact ih next

omit [DecidableEq V] in
theorem apply_swap {settings middle last : Settings V} {first second : Setting} {a b : V}
    (hne : first.mask &&& second.mask = 0)
    (ha : (SettingsDecoder.apply settings a first : Except (ParseError V E) _) = .ok middle)
    (hb : (SettingsDecoder.apply middle b second : Except (ParseError V E) _) = .ok last) :
    ∃ other, (SettingsDecoder.apply settings b second : Except (ParseError V E) _) = .ok other ∧
      (SettingsDecoder.apply other a first : Except (ParseError V E) _) = .ok last := by
  cases first <;> cases second <;> simp only [SettingsDecoder.apply] at ha hb ⊢ <;>
    grind [Setting.mask]

theorem or_and_eq_zero {a b c : UInt8} : (a ||| b) &&& c = 0 ↔ a &&& c = 0 ∧ b &&& c = 0 := by
  rw [← UInt8.or_eq_zero_iff]
  simp only [← UInt8.toBitVec_inj, UInt8.toBitVec_and, UInt8.toBitVec_or,
    BitVec.and_or_distrib_right]

theorem push_eq_ok_iff {decoder next : SettingsDecoder V} {id value : V} :
    (decoder.push id value : Except (ParseError V E) _) = .ok next ↔
      ((SettingsDecoder.setting id : Except (ParseError V E) _) = .ok none ∧ next = decoder) ∨
      ∃ found settings, (SettingsDecoder.setting id : Except (ParseError V E) _) = .ok (some found) ∧
        decoder.seen &&& found.mask = 0 ∧
        (SettingsDecoder.apply decoder.settings value found : Except (ParseError V E) _) =
          .ok settings ∧ next = ⟨settings, decoder.seen ||| found.mask⟩ := by
  rw [SettingsDecoder.push]
  cases (SettingsDecoder.setting id : Except (ParseError V E) _) with
  | error error => simp
  | ok found =>
    cases found with
    | none => simp [@eq_comm _ next]
    | some found =>
      by_cases hseen : decoder.seen &&& found.mask = 0 <;>
        simp [hseen, Except.map_eq_ok_iff, @eq_comm _ next]

theorem push_swap {decoder first last : SettingsDecoder V} {a b : V × V}
    (ha : (decoder.push a.1 a.2 : Except (ParseError V E) _) = .ok first)
    (hb : (first.push b.1 b.2 : Except (ParseError V E) _) = .ok last) :
    ∃ second, (decoder.push b.1 b.2 : Except (ParseError V E) _) = .ok second ∧
      (second.push a.1 a.2 : Except (ParseError V E) _) = .ok last := by
  simp only [push_eq_ok_iff]
  obtain ⟨hset, rfl⟩ | ⟨found, middle, hset, hseen, happly, rfl⟩ := push_eq_ok_iff.mp ha
  · exact ⟨last, push_eq_ok_iff.mp hb, .inl ⟨hset, rfl⟩⟩
  obtain ⟨hset', rfl⟩ | ⟨found', final, hset', hseen', happly', rfl⟩ := push_eq_ok_iff.mp hb
  · exact ⟨decoder, .inl ⟨hset', rfl⟩, push_eq_ok_iff.mp ha⟩
  -- the second was not seen after the first, so they differ
  obtain ⟨hclear, hother⟩ := or_and_eq_zero.mp hseen'
  obtain ⟨other, hfirst, hsecond⟩ := apply_swap hother happly happly'
  refine ⟨_, .inr ⟨found', other, hset', hclear, hfirst, rfl⟩,
    .inr ⟨found, final, hset, or_and_eq_zero.mpr ⟨hseen, UInt8.and_comm _ _ ▸ hother⟩, hsecond, ?_⟩⟩
  rw [UInt8.or_assoc, UInt8.or_comm found.mask, ← UInt8.or_assoc]

theorem pushAll_perm {pairs pairs' : List (V × V)} (hperm : pairs.Perm pairs')
    {decoder last : SettingsDecoder V}
    (h : (pushAll decoder pairs : Except (ParseError V E) _) = .ok last) :
    (pushAll decoder pairs' : Except (ParseError V E) _) = .ok last := by
  induction hperm generalizing decoder with
  | nil => exact h
  | cons pair _ ih =>
    obtain ⟨next, hpush, hrest⟩ := Except.bind_eq_ok_iff.mp h
    exact Except.bind_eq_ok_iff.mpr ⟨next, hpush, ih hrest⟩
  | swap a b pairs =>
    obtain ⟨first, hb, h⟩ := Except.bind_eq_ok_iff.mp h
    obtain ⟨second, ha, hrest⟩ := Except.bind_eq_ok_iff.mp h
    obtain ⟨other, ha, hb⟩ := push_swap hb ha
    exact Except.bind_eq_ok_iff.mpr ⟨other, ha, Except.bind_eq_ok_iff.mpr ⟨second, hb, hrest⟩⟩
  | trans _ _ ih ih' => exact ih' (ih h)

theorem push_extension (hlaw : VarInt.Lawful V E) (decoder : SettingsDecoder V) {id : V}
    (hid : 8 < VarInt.get id) (value : V) :
    (decoder.push id value : Except (ParseError V E) _) = .ok decoder := by
  have hne : ∀ known : UInt8, known.toNat ≤ 8 → id ≠ VarInt.fromU8 known := by
    rintro known hknown rfl
    rw [hlaw.get_fromU8] at hid
    omega
  exact push_eq_ok_iff.mpr (.inl ⟨(if_neg (hne 1 (by decide))).trans <|
    (if_neg (hne 6 (by decide))).trans <| (if_neg (hne 7 (by decide))).trans <|
    (if_neg (hne 8 (by decide))).trans <| if_neg (by omega), rfl⟩)

theorem pushAll_extensions (hlaw : VarInt.Lawful V E) (decoder : SettingsDecoder V)
    {pairs : List (V × V)} (hids : ∀ pair ∈ pairs, 8 < VarInt.get pair.1) :
    (pushAll decoder pairs : Except (ParseError V E) _) = .ok decoder := by
  induction pairs with
  | nil => rfl
  | cons pair pairs ih =>
    obtain ⟨hid, hids⟩ := List.forall_mem_cons.mp hids
    exact Except.bind_eq_ok_iff.mpr ⟨decoder, push_extension hlaw decoder hid _, ih hids⟩

/-- Settings are read however their pairs are ordered, whatever unknown settings stand between
them, and however their bytes are cut. -/
theorem any_order (hlaw : VarInt.Lawful V E) {self : Settings V} {pairs extensions : List (V × V)}
    (hids : ∀ pair ∈ extensions, 8 < VarInt.get pair.1)
    (hperm : (self.pairs ++ extensions).Perm pairs) {span : Span}
    (hspan : span.Holds (pairs.flatMap entry)) :
    (fromView span : Except (ParseError V E) _) = .ok self := by
  have hself := decode_encode hlaw self
  rw [encode_pairs] at hself
  obtain ⟨last, hpush, heq⟩ :=
    Except.map_eq_ok_iff.mp ((decodeRest_pairs hlaw .new self.pairs).symm.trans hself)
  have hall : (pushAll .new (self.pairs ++ extensions) : Except (ParseError V E) _) =
      .ok last := by
    rw [pushAll, List.foldlM_append]
    exact Except.bind_eq_ok_iff.mpr ⟨last, hpush, pushAll_extensions hlaw last hids⟩
  rw [fromView_eq hlaw.toLawfulDecode hspan]
  exact (decodeRest_pairs hlaw .new pairs).trans
    (Except.map_eq_ok_iff.mpr ⟨last, pushAll_perm hperm hall, heq⟩)

/-- The last setting in front, and then an unknown one. -/
theorem any_order_four :
    (fromView ⟨.new [[8], [1, 33, 7], [7, 0, 1, 0]] 8, 8⟩ :
      Except (ParseError (Fin (2 ^ 62)) Integer.Underflow) _) = .ok ⟨0, none, 0, .enabled⟩ := by
  have hids : ∀ pair ∈ [((33, 7) : Fin (2 ^ 62) × Fin (2 ^ 62))], 8 < VarInt.get pair.1 :=
    List.forall_mem_singleton.mpr (by decide : 8 < 33)
  have hperm : (pairs (⟨0, none, 0, .enabled⟩ : Settings (Fin (2 ^ 62))) ++ [(33, 7)]).Perm
      [(8, 1), (33, 7), (7, 0), (1, 0)] := by decide
  have hspan : (⟨.new [[8], [1, 33, 7], [7, 0, 1, 0]] 8, 8⟩ : Span).Holds
      ([((8, 1) : Fin (2 ^ 62) × Fin (2 ^ 62)), (33, 7), (7, 0), (1, 0)].flatMap entry) :=
    ⟨le_refl 8, le_refl 8, rfl⟩
  exact any_order Integer.lawful hids hperm hspan

end Settings

/-! ## Frames that are followed by more -/

namespace Frame

section Headers

variable (hlaw : VarInt.LawfulDecode V E) {buf more : Bytes} {header : Header V}

include hlaw

theorem Header.parse_eq_ok_iff :
    (Header.parse buf : Except (ParseError V E) _) = .ok header ↔ ∃ tail rest,
      (decodeVarint buf : Except (ParseError V E) _) = .ok (header.kind, tail) ∧
        (decodeVarint tail : Except (ParseError V E) _) = .ok (header.length, rest) ∧
          header.headerLen + rest.length = buf.length := by
  constructor
  · intro h
    rw [Header.parse] at h
    split at h
    next => exact absurd h (by simp)
    next kind n hkind =>
      split_ifs at h with hle
      split at h
      next => exact absurd h (by simp)
      next length m hlength =>
        split_ifs at h with hsum
        obtain rfl := Except.ok.inj h
        have hm := (decode_eq_ok hlaw hlength).2.2
        refine ⟨buf.drop n, (buf.drop n).drop m, ?_, ?_, ?_⟩
        · exact (decodeVarint_eq_ok_iff hlaw).mpr ⟨n, hkind, rfl⟩
        · exact (decodeVarint_eq_ok_iff hlaw).mpr ⟨m, hlength, rfl⟩
        · rw [List.length_drop] at hm ⊢
          rw [List.length_drop]
          show n + m + _ = _
          omega
  · rintro ⟨tail, rest, hkind, hlength, hlen⟩
    obtain ⟨n, hfirst, rfl⟩ := (decodeVarint_eq_ok_iff hlaw).mp hkind
    obtain ⟨m, hsecond, rfl⟩ := (decodeVarint_eq_ok_iff hlaw).mp hlength
    obtain ⟨-, hn, hle⟩ := decode_eq_ok hlaw hfirst
    obtain ⟨-, hm, hle'⟩ := decode_eq_ok hlaw hsecond
    rw [List.length_drop, List.length_drop] at hlen
    rw [List.length_drop] at hle'
    rw [Header.parse, hfirst]
    dsimp only
    rw [if_pos hle, hsecond]
    dsimp only
    rw [if_pos (by omega)]
    obtain ⟨kind, length, headerLen⟩ := header
    obtain rfl : headerLen = n + m := by
      dsimp only at hlen
      omega
    rfl

theorem Header.parse_append (h : (Header.parse buf : Except (ParseError V E) _) = .ok header)
    (more : Bytes) : (Header.parse (buf ++ more) : Except (ParseError V E) _) = .ok header := by
  obtain ⟨tail, rest, hkind, hlength, hlen⟩ := (parse_eq_ok_iff hlaw).mp h
  refine (parse_eq_ok_iff hlaw).mpr ⟨tail ++ more, rest ++ more, decodeVarint_append hlaw hkind,
    decodeVarint_append hlaw hlength, ?_⟩
  rw [List.length_append, List.length_append]
  omega

theorem Header.headerLen_le (h : (Header.parse buf : Except (ParseError V E) _) = .ok header) :
    0 < header.headerLen ∧ header.headerLen ≤ buf.length := by
  obtain ⟨tail, rest, hkind, hlength, hlen⟩ := (parse_eq_ok_iff hlaw).mp h
  have htail := decodeVarint_ok hlaw hkind
  have hrest := decodeVarint_ok hlaw hlength
  omega

end Headers

theorem bound_eq_ok {limit n headerLen len : ℕ} {length : V}
    (h : (bound limit headerLen length : Except (ParseError V E) _) = .ok (len, n)) :
    len = VarInt.get length ∧ n = headerLen + len ∧ len ≤ limit := by
  rw [bound] at h
  split_ifs at h with _ hlimit
  obtain ⟨rfl, rfl⟩ := Prod.mk.inj (Except.ok.inj h)
  exact ⟨rfl, rfl, Nat.not_lt.mp hlimit⟩

theorem slice_append {buf : Bytes} {start len : ℕ} (h : start + len ≤ buf.length) (more : Bytes) :
    ((buf ++ more).drop start).take len = (buf.drop start).take len := by
  rw [List.drop_append_of_le_length (by omega),
    List.take_append_of_le_length (by rw [List.length_drop]; omega)]

theorem encodedLen_le (hlaw : VarInt.Lawful V E) (value : V) : VarInt.encodedLen value ≤ 8 :=
  (decode_eq_ok hlaw.toLawfulDecode (hlaw.decode_pack value [])).2.1

namespace Payload

variable [DecidableEq V] {buf more : Bytes} {limit n : ℕ} {frame : Payload V}

/-- A frame is a header that is admitted, and a payload of the kind that it says. -/
theorem parse_eq_ok_iff :
    (parse buf limit : Except (ParseError V E) _) = .ok (frame, n) ↔ ∃ header len,
      Header.parse buf = .ok header ∧ ¬Reserved header.kind ∧
        (bound limit header.headerLen header.length : Except (ParseError V E) _) = .ok (len, n) ∧
          n ≤ buf.length ∧
            (ofKind header.kind ((buf.drop header.headerLen).take len) :
              Except (ParseError V E) _) = .ok frame := by
  rw [parse]
  simp only [Except.bind_eq_ok_iff, checkKind]
  constructor
  · rintro ⟨header, hheader, ⟨⟩, hkind, ⟨len, stop⟩, hbound, h⟩
    split_ifs at hkind h with hreserved hstop
    obtain ⟨found, hfound, hpair⟩ := Except.map_eq_ok_iff.mp h
    obtain ⟨rfl, rfl⟩ := Prod.mk.inj hpair
    exact ⟨header, len, hheader, hreserved, hbound, hstop, hfound⟩
  · rintro ⟨header, len, hheader, hreserved, hbound, hstop, hframe⟩
    refine ⟨header, hheader, (), if_neg hreserved, (len, n), hbound, ?_⟩
    rw [if_pos hstop, hframe]
    rfl

theorem parse_append (hlaw : VarInt.LawfulDecode V E)
    (h : (parse buf limit : Except (ParseError V E) _) = .ok (frame, n)) (more : Bytes) :
    (parse (buf ++ more) limit : Except (ParseError V E) _) = .ok (frame, n) := by
  obtain ⟨header, len, hheader, hreserved, hbound, hstop, hframe⟩ := parse_eq_ok_iff.mp h
  obtain ⟨-, hn, -⟩ := bound_eq_ok hbound
  refine parse_eq_ok_iff.mpr ⟨header, len, Header.parse_append hlaw hheader more, hreserved, hbound,
    ?_, ?_⟩
  · rw [List.length_append]
    omega
  · rw [slice_append (hn.symm.trans_le hstop)]
    exact hframe

/-- A frame that is written is read back, if its kind is not reserved and its length is admitted. -/
theorem parse_encode (hlaw : VarInt.Lawful V E) {kind : V} {payload wire : Bytes}
    (hkind : ¬Reserved kind) (hlimit : payload.length ≤ limit)
    (hencode : (encode kind payload : Except (ParseError V E) _) = .ok wire)
    (hframe : (ofKind kind payload : Except (ParseError V E) _) = .ok frame) :
    (parse wire limit : Except (ParseError V E) _) = .ok (frame, wire.length) := by
  obtain ⟨header, hheader, rfl⟩ := Except.map_eq_ok_iff.mp hencode
  rw [Header.forPayload] at hheader
  split at hheader
  next => exact absurd hheader (by simp)
  next length hlength =>
    obtain rfl := Except.ok.inj hheader
    have hget := hlaw.get_fromUsize hlength
    have hlt := hlaw.get_lt length
    have hwidth := encodedLen_le hlaw kind
    have hwidth' := encodedLen_le hlaw length
    have hlen : (VarInt.pack kind ++ VarInt.pack length).length =
        VarInt.encodedLen kind + VarInt.encodedLen length := by
      rw [List.length_append, hlaw.length_pack, hlaw.length_pack]
    have hparse : (Header.parse (VarInt.pack kind ++ VarInt.pack length ++ payload) :
        Except (ParseError V E) _) =
          .ok ⟨kind, length, VarInt.encodedLen kind + VarInt.encodedLen length⟩ := by
      refine (Header.parse_eq_ok_iff hlaw.toLawfulDecode).mpr
        ⟨VarInt.pack length ++ payload, payload, ?_, decodeVarint_pack hlaw length payload, ?_⟩
      · rw [List.append_assoc]
        exact decodeVarint_pack hlaw kind _
      · rw [List.length_append, hlen]
    have hbound : (bound limit (VarInt.encodedLen kind + VarInt.encodedLen length) length :
        Except (ParseError V E) _) =
          .ok (payload.length, (VarInt.pack kind ++ VarInt.pack length ++ payload).length) := by
      rw [bound, hget, if_pos (by omega), if_neg (by omega), if_pos (by omega), List.length_append,
        hlen]
    refine parse_eq_ok_iff.mpr ⟨_, payload.length, hparse, hkind, hbound, le_rfl, ?_⟩
    show ofKind kind (((VarInt.pack kind ++ VarInt.pack length ++ payload).drop
      (VarInt.encodedLen kind + VarInt.encodedLen length)).take payload.length) = _
    rw [List.drop_left' hlen, List.take_length]
    exact hframe

end Payload

end Frame

end Sark.H3
