import Sark.H3.Sources

/-!
# Settings

The payload of a SETTINGS frame (`h3/src/frame/settings.rs`), a sequence of identifiers and values,
and the variable-length integers that all frames consist of, as they are read from a slice and from
a cursor (`h3/src/frame/mod.rs`). The integers themselves are those of the QUIC library.

* `Cursor.Holds.decodeVarint`: an integer is read with a cursor as from a slice.
* `Settings.fromView_eq`: so are settings.
-/

namespace Sark.H3

/-! ## Integers -/

/-- `varint::VarInt` and `varint::Error` of the QUIC library. -/
class VarInt (V : Type) (E : outParam Type) where
  get : V → ℕ
  fromU8 : UInt8 → V
  fromUsize : ℕ → Option V
  encodedLen : V → ℕ
  pack : V → Bytes
  decode : Bytes → Except E (V × ℕ)
  underflow : ℕ → ℕ → E

/-- The width of an integer, which its first byte says. -/
def varintWidth (first : UInt8) : ℕ :=
  1 <<< (first >>> 6).toNat

theorem varintWidth_le (first : UInt8) : varintWidth first ≤ 8 := by
  have hall : ∀ n < 256, varintWidth (UInt8.ofNat n) ≤ 8 := by decide +kernel
  simpa using hall first.toNat first.toNat_lt

theorem varintWidth_pos (first : UInt8) : 0 < varintWidth first := by
  rw [varintWidth, Nat.shiftLeft_eq]
  positivity

/-- What the library does with the bytes of an integer: it reads as many as the first one says, and
no others. If there are fewer, it says how many there are and how many there have to be. -/
structure VarInt.LawfulDecode (V E : Type) [VarInt V E] : Prop where
  decode_nil : (decode [] : Except E (V × ℕ)) = .error (underflow V 0 1)
  decode_short : ∀ first rest, (first :: rest).length < varintWidth first →
    (decode (first :: rest) : Except E (V × ℕ)) =
      .error (underflow V (first :: rest).length (varintWidth first))
  decode_take : ∀ first rest, varintWidth first ≤ (first :: rest).length →
    (decode (first :: rest) : Except E (V × ℕ)) =
      decode ((first :: rest).take (varintWidth first))
  decode_width : ∀ first rest, ∀ value : V, ∀ n,
    decode (first :: rest) = .ok (value, n) → n = varintWidth first

/-- What the library says about the integers that it writes. -/
structure VarInt.Lawful (V E : Type) [VarInt V E] : Prop extends VarInt.LawfulDecode V E where
  decode_pack : ∀ value : V, ∀ rest,
    (decode (pack value ++ rest) : Except E (V × ℕ)) = .ok (value, encodedLen value)
  length_pack : ∀ value : V, (pack value).length = encodedLen value
  get_inj : ∀ {value value' : V}, get value = get value' → value = value'
  get_lt : ∀ value : V, get value < 2 ^ 62
  get_fromU8 : ∀ byte, get (fromU8 byte : V) = byte.toNat
  get_fromUsize : ∀ {n} {value : V}, fromUsize n = some value → get value = n

/-- `frame::ParseError`. -/
inductive ParseError (V E : Type)
  | needMore
  | varInt (cause : E)
  | payloadInteger (cause : E)
  | reservedFrame (kind : V)
  | badVarInt
  | badSettings
  | duplicateSetting
  | frameTooLarge
  deriving DecidableEq, Repr

/-- `ParseError::payload`. -/
def ParseError.payload {V E : Type} : ParseError V E → ParseError V E
  | .varInt error => .payloadInteger error
  | error => error

variable {V E : Type} [VarInt V E]

/-- The integer in front of a slice, and what is behind it. -/
def decodeVarint (buf : Bytes) : Except (ParseError V E) (V × Bytes) :=
  match VarInt.decode buf with
  | .error error => .error (.varInt error)
  | .ok (value, n) => if n ≤ buf.length then .ok (value, buf.drop n) else .error .needMore

/-- `decode_varint_cursor`. -/
def decodeVarintCursor (input : Cursor) : Except (ParseError V E) (V × Cursor) :=
  match input.peek with
  | (none, _) => .error (.varInt (VarInt.underflow V 0 1))
  | (some first, input) =>
    let width := varintWidth first
    if input.remaining < width then
      .error (.varInt (VarInt.underflow V input.remaining width))
    else if 8 < width then .error .badVarInt
    else
      let (encoded, input) := input.copyInto width
      if encoded.length ≠ width then
        .error (.varInt (VarInt.underflow V encoded.length width))
      else
        match VarInt.decode encoded with
        | .error error => .error (.varInt error)
        | .ok (value, _) => .ok (value, input)

/-- An integer of a payload, in front of a slice. -/
def decodePayload (buf : Bytes) : Except (ParseError V E) (V × Bytes) :=
  (decodeVarint buf).mapError ParseError.payload

/-- `decode_payload_varint`. -/
def decodePayloadVarint (input : Cursor) : Except (ParseError V E) (V × Cursor) :=
  (decodeVarintCursor input).mapError ParseError.payload

theorem decodeVarint_ok (hlaw : VarInt.LawfulDecode V E) {buf rest : Bytes} {value : V}
    (h : decodeVarint buf = .ok (value, rest)) : rest.length < buf.length := by
  rw [decodeVarint] at h
  split at h
  next => exact absurd h (by simp)
  next value n hdecode =>
    split_ifs at h with hle
    obtain ⟨-, rfl⟩ := Prod.mk.inj (Except.ok.inj h)
    cases buf with
    | nil =>
      rw [hlaw.decode_nil] at hdecode
      exact absurd hdecode (by simp)
    | cons first tail =>
      have hwidth := hlaw.decode_width first tail value n hdecode
      have hpos := varintWidth_pos first
      rw [List.length_drop]
      omega

namespace Cursor

/-- An integer is read with a cursor as from a slice. -/
theorem Holds.decodeVarint (hlaw : VarInt.LawfulDecode V E) {self : Cursor} {input : Bytes}
    (h : self.Holds input) :
    Reads Eq (H3.decodeVarint input : Except (ParseError V E) _) (decodeVarintCursor self) := by
  obtain ⟨hbyte, hnext⟩ := h.peek
  rw [decodeVarintCursor]
  rcases hpeek : self.peek with ⟨found, next⟩
  rw [hpeek] at hbyte hnext
  obtain rfl : found = input.head? := hbyte
  cases input with
  | nil =>
    rw [H3.decodeVarint, hlaw.decode_nil]
    exact .error
  | cons first rest =>
    have hremaining : next.remaining = (first :: rest).length := hnext.remaining_eq
    show Reads Eq _ (if _ then _ else _)
    rw [hremaining, H3.decodeVarint]
    by_cases hshort : (first :: rest).length < varintWidth first
    · rw [if_pos hshort, hlaw.decode_short first rest hshort]
      exact .error
    · have hwidth := Nat.not_lt.mp hshort
      obtain ⟨hcopied, hmoves⟩ := hnext.sound.copyInto (hwidth.trans hremaining.ge)
      have hencoded : (next.copyInto (varintWidth first)).1 =
          (first :: rest).take (varintWidth first) := by
        rw [hcopied, hnext.bytes_eq]
      have hlength : (next.copyInto (varintWidth first)).1.length = varintWidth first := by
        rw [hencoded, List.length_take, Nat.min_eq_left hwidth]
      rw [if_neg hshort, if_neg (Nat.not_lt.mpr (varintWidth_le first))]
      dsimp only
      rw [if_neg (not_not.mpr hlength), hencoded, ← hlaw.decode_take first rest hwidth]
      cases hdecode : (VarInt.decode (first :: rest) : Except E (V × ℕ)) with
      | error error => exact .error
      | ok decoded =>
        obtain ⟨value, n⟩ := decoded
        obtain rfl := hlaw.decode_width first rest value n hdecode
        dsimp only
        rw [if_pos hwidth]
        exact .ok rfl (hmoves.holds hnext)

theorem Holds.decodePayload (hlaw : VarInt.LawfulDecode V E) {self : Cursor} {input : Bytes}
    (h : self.Holds input) :
    Reads Eq (H3.decodePayload input : Except (ParseError V E) _) (decodePayloadVarint self) :=
  (h.decodeVarint hlaw).mapError _

end Cursor

/-! ## Settings -/

/-- `block::Connect`. -/
inductive Connect
  | disabled
  | enabled
  deriving DecidableEq, Repr

/-- `frame::Settings`. -/
structure Settings (V : Type) where
  table : V
  fields : Option V
  blocked : V
  connect : Connect
  deriving DecidableEq, Repr

/-- `frame::SETTINGS_QPACK_MAX_TABLE_CAPACITY`. -/
def settingsQpackMaxTableCapacity : V :=
  VarInt.fromU8 0x01

/-- `frame::SETTINGS_MAX_FIELD_SECTION_SIZE`. -/
def settingsMaxFieldSectionSize : V :=
  VarInt.fromU8 0x06

/-- `frame::SETTINGS_QPACK_BLOCKED_STREAMS`. -/
def settingsQpackBlockedStreams : V :=
  VarInt.fromU8 0x07

/-- `frame::SETTINGS_ENABLE_CONNECT_PROTOCOL`. -/
def settingsEnableConnectProtocol : V :=
  VarInt.fromU8 0x08

namespace Settings

/-- `Settings::default`, from the integer zero. -/
def default : Settings V :=
  ⟨VarInt.fromU8 0, none, VarInt.fromU8 0, .disabled⟩

/-- `Settings::setting_len`. -/
def settingLen (id value : V) : ℕ :=
  VarInt.encodedLen id + VarInt.encodedLen value

/-- `Settings::encoded_len`. -/
def encodedLen (self : Settings V) : ℕ :=
  settingLen settingsQpackMaxTableCapacity self.table +
    self.fields.elim 0 (settingLen settingsMaxFieldSectionSize) +
    settingLen settingsQpackBlockedStreams self.blocked +
    match self.connect with
    | .disabled => 0
    | .enabled => settingLen settingsEnableConnectProtocol (VarInt.fromU8 1 : V)

/-- `Settings::encode`. -/
def encode (self : Settings V) : Bytes :=
  let fields :=
    match self.fields with
    | some value => [VarInt.pack (settingsMaxFieldSectionSize : V), VarInt.pack value]
    | none => [[], []]
  let connect :=
    match self.connect with
    | .disabled => [[], []]
    | .enabled => [VarInt.pack (settingsEnableConnectProtocol : V),
        VarInt.pack (VarInt.fromU8 1 : V)]
  ([VarInt.pack (settingsQpackMaxTableCapacity : V), VarInt.pack self.table] ++ fields ++
    [VarInt.pack (settingsQpackBlockedStreams : V), VarInt.pack self.blocked] ++ connect).flatten

end Settings

/-- `settings::Setting`. -/
inductive Setting
  | table
  | fields
  | blocked
  | connect
  deriving DecidableEq, Repr

/-- `Setting::mask`. -/
def Setting.mask : Setting → UInt8
  | .table => 1
  | .fields => 2
  | .blocked => 4
  | .connect => 8

/-- `settings::Decoder`. -/
structure SettingsDecoder (V : Type) where
  settings : Settings V
  seen : UInt8
  deriving DecidableEq, Repr

namespace SettingsDecoder

/-- `Decoder::new`. -/
def new : SettingsDecoder V :=
  ⟨.default, 0⟩

variable [DecidableEq V]

/-- The setting that an identifier is one of. Those of HTTP/2 are errors. -/
def setting (id : V) : Except (ParseError V E) (Option Setting) :=
  if id = settingsQpackMaxTableCapacity then .ok (some .table)
  else if id = settingsMaxFieldSectionSize then .ok (some .fields)
  else if id = settingsQpackBlockedStreams then .ok (some .blocked)
  else if id = settingsEnableConnectProtocol then .ok (some .connect)
  else if VarInt.get id = 0 ∨ (0x02 ≤ VarInt.get id ∧ VarInt.get id ≤ 0x05) then
    .error .badSettings
  else .ok none

/-- A setting with a value. -/
def apply (self : Settings V) (value : V) : Setting → Except (ParseError V E) (Settings V)
  | .table => .ok { self with table := value }
  | .fields => .ok { self with fields := some value }
  | .blocked => .ok { self with blocked := value }
  | .connect =>
    if VarInt.get value = 0 then .ok { self with connect := .disabled }
    else if VarInt.get value = 1 then .ok { self with connect := .enabled }
    else .error .badSettings

/-- `Decoder::push`. -/
def push (self : SettingsDecoder V) (id value : V) :
    Except (ParseError V E) (SettingsDecoder V) :=
  match setting id with
  | .error error => .error error
  | .ok none => .ok self
  | .ok (some found) =>
    if self.seen &&& found.mask ≠ 0 then .error .duplicateSetting
    else (apply self.settings value found).map fun settings => ⟨settings, self.seen ||| found.mask⟩

end SettingsDecoder

namespace Settings

variable [DecidableEq V]

/-- The loop of `Settings::decode`, for as many turns as there are bytes. -/
def decodeFrom (decoder : SettingsDecoder V) (payload : Bytes) :
    ℕ → Except (ParseError V E) (Settings V)
  | 0 => if payload.length = 0 then .ok decoder.settings else .error .needMore
  | turns + 1 =>
    if payload.length = 0 then .ok decoder.settings
    else
      match decodePayload payload with
      | .error error => .error error
      | .ok (id, tail) =>
        match decodePayload tail with
        | .error error => .error error
        | .ok (value, tail) =>
          match decoder.push id value with
          | .error error => .error error
          | .ok decoder => decodeFrom decoder tail turns

/-- `Settings::decode`. -/
def decode (payload : Bytes) : Except (ParseError V E) (Settings V) :=
  decodeFrom .new payload payload.length

/-- The loop of `Settings::from_view`. -/
def fromCursor (decoder : SettingsDecoder V) (cursor : Cursor) :
    ℕ → Except (ParseError V E) (Settings V)
  | 0 => if cursor.remaining = 0 then .ok decoder.settings else .error .needMore
  | turns + 1 =>
    if cursor.remaining = 0 then .ok decoder.settings
    else
      match decodePayloadVarint cursor with
      | .error error => .error error
      | .ok (id, cursor) =>
        match decodePayloadVarint cursor with
        | .error error => .error error
        | .ok (value, cursor) =>
          match decoder.push id value with
          | .error error => .error error
          | .ok decoder => fromCursor decoder cursor turns

/-- `Settings::from_view`. -/
def fromView (payload : Span) : Except (ParseError V E) (Settings V) :=
  fromCursor .new payload.reader payload.len

theorem fromCursor_eq (hlaw : VarInt.LawfulDecode V E) {cursor : Cursor} {payload : Bytes}
    (h : cursor.Holds payload) (decoder : SettingsDecoder V) (turns : ℕ) :
    (fromCursor decoder cursor turns : Except (ParseError V E) _) =
      decodeFrom decoder payload turns := by
  induction turns generalizing cursor payload decoder with
  | zero => rw [fromCursor, decodeFrom, h.remaining_eq]
  | succ turns ih =>
    rw [fromCursor, decodeFrom, h.remaining_eq]
    by_cases hempty : payload.length = 0
    · rw [if_pos hempty, if_pos hempty]
    · rw [if_neg hempty, if_neg hempty]
      have hid := h.decodePayload hlaw
      generalize (decodePayload payload : Except (ParseError V E) _) = answer at hid
      generalize (decodePayloadVarint cursor : Except (ParseError V E) _) = read at hid
      rcases hid with ⟨rfl, hnext⟩ | _
      · have hvalue := hnext.decodePayload hlaw
        dsimp only
        generalize (decodePayload _ : Except (ParseError V E) _) = answer at hvalue
        generalize (decodePayloadVarint _ : Except (ParseError V E) _) = read at hvalue
        rcases hvalue with ⟨rfl, hlast⟩ | _
        · dsimp only
          split
          next => rfl
          next decoder _ => exact ih hlast decoder
        · rfl
      · rfl

theorem fromView_eq (hlaw : VarInt.LawfulDecode V E) {span : Span} {payload : Bytes}
    (h : span.Holds payload) :
    (fromView span : Except (ParseError V E) (Settings V)) = decode payload := by
  rw [fromView, h.length_eq]
  exact fromCursor_eq hlaw h.reader _ _

theorem decodeFrom_congr (hlaw : VarInt.LawfulDecode V E) {payload : Bytes} {turns turns' : ℕ}
    (hturns : payload.length ≤ turns) (hturns' : payload.length ≤ turns')
    (decoder : SettingsDecoder V) :
    (decodeFrom decoder payload turns : Except (ParseError V E) _) =
      decodeFrom decoder payload turns' := by
  have hless : ∀ {buf rest : Bytes} {value : V}, decodePayload buf = .ok (value, rest) →
      rest.length < buf.length := fun hread =>
    decodeVarint_ok hlaw (Except.mapError_eq_ok_iff.mp hread)
  induction turns generalizing payload decoder turns' with
  | zero =>
    have hempty : payload.length = 0 := by omega
    cases turns' with
    | zero => rfl
    | succ turns' => rw [decodeFrom, decodeFrom, if_pos hempty, if_pos hempty]
  | succ turns ih =>
    by_cases hempty : payload.length = 0
    · cases turns' with
      | zero => rw [decodeFrom, decodeFrom, if_pos hempty, if_pos hempty]
      | succ turns' => rw [decodeFrom, decodeFrom, if_pos hempty, if_pos hempty]
    · obtain ⟨turns', rfl⟩ := Nat.exists_eq_succ_of_ne_zero (by omega : turns' ≠ 0)
      rw [decodeFrom, decodeFrom, if_neg hempty, if_neg hempty]
      split
      next => rfl
      next id tail hid =>
        split
        next => rfl
        next value rest hvalue =>
          split
          next => rfl
          next decoder _ =>
            have htail := hless hid
            have hrest := hless hvalue
            exact ih (by omega) (by omega) decoder

end Settings

end Sark.H3
