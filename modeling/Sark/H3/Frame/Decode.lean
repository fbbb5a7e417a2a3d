import Sark.H3.Frame.Payload

/-!
# Frames as they arrive

The decoder of a receive stream (`h3/src/frame/decode.rs`): it reads the frame in front of its
input, which may be all there or not. Data and frames of a kind that is not known are read in
fragments, and what is left of one is kept; all other frames are waited for.

* `Decoder.consumed_le`: what is consumed is not more than there is.
* `Decoder.decode_eq_parse`: a frame that is waited for is answered as by the one-shot parser.
* `Decoder.decode_lead`: the beginning of a frame is a fragment of it, or is waited for.
-/

namespace Sark.H3.Frame

variable {V E : Type}

/-- The payload of a frame, all of which has to be there. -/
def payload (cursor : Cursor) (len : ℕ) : Except (ParseError V E) Span :=
  (cursor.intoSpan len).elim (.error .needMore) .ok

theorem payload_of_le {cursor : Cursor} {rest : Bytes} {len : ℕ} (h : cursor.Holds rest)
    (hlen : len ≤ rest.length) :
    ∃ span : Span, (payload cursor len : Except (ParseError V E) Span) = .ok span ∧
      span.Holds (rest.take len) := by
  refine ⟨⟨cursor, len⟩, ?_, Span.holds_mk h hlen⟩
  rw [payload, Cursor.intoSpan, if_neg (Nat.not_lt.mpr (hlen.trans h.remaining_eq.ge))]
  rfl

theorem payload_of_lt {cursor : Cursor} {rest : Bytes} {len : ℕ} (h : cursor.Holds rest)
    (hlen : rest.length < len) :
    (payload cursor len : Except (ParseError V E) Span) = .error .needMore := by
  rw [payload, Cursor.intoSpan, if_pos (h.remaining_eq.trans_lt hlen)]
  rfl

/-- A payload that is all there is read as from a slice, and one that is not is waited for. -/
theorem payload_bind {α β γ : Type} {read : Span → Except (ParseError V E) α}
    {parse : Bytes → Except (ParseError V E) β} {f : α → γ} {g : β → γ} {cursor : Cursor}
    {rest : Bytes} (h : cursor.Holds rest)
    (hread : ∀ {span bytes}, span.Holds bytes → (read span).map f = (parse bytes).map g) (len : ℕ) :
    (payload cursor len >>= read).map f =
      if len ≤ rest.length then (parse (rest.take len)).map g else .error .needMore := by
  by_cases hlen : len ≤ rest.length
  · obtain ⟨span, hspan, hholds⟩ := @payload_of_le V E cursor rest len h hlen
    rw [if_pos hlen, hspan]
    exact hread hholds
  · rw [if_neg hlen, payload_of_lt h (Nat.not_le.mp hlen)]
    rfl

variable [VarInt V E]

/-! ## The decoder -/

/-- `decode::Pending`: what is left of a frame, which is not nothing. -/
structure Pending (V : Type) where
  kind : V
  remaining : ℕ
  pos : 0 < remaining

/-- `decode::Decoder`. -/
structure Decoder (V : Type) where
  pending : Option (Pending V)

/-- `Decoder::default`. -/
def Decoder.default : Decoder V :=
  ⟨none⟩

/-- `frame::Decoded`. -/
inductive Decoded (V : Type)
  | data (start stop : ℕ)
  | headers (payload : Span)
  | cancelPush (pushId : V)
  | settings (settings : Settings V)
  | pushPromise (pushId : V) (block : Span)
  | goAway (id : V)
  | maxPushId (pushId : V)
  | unknown (kind : ℕ)

/-- `decode::Read`. -/
structure Read (V : Type) where
  frame : Decoded V
  consumed : ℕ
  next : Decoder V

/-- `frame::decode_varint_source`, from the cursor of a source. -/
def decodeVarintSource (cursor : Cursor) : Except (ParseError V E) (V × ℕ) :=
  (decodeVarintCursor cursor).map fun read => (read.1, cursor.remaining - read.2.remaining)

/-- `decode::exact`. -/
def exact (payload : Span) : Except (ParseError V E) V :=
  match decodePayloadVarint payload.reader with
  | .error error => .error error
  | .ok (value, cursor) => if cursor.remaining ≠ 0 then .error .badVarInt else .ok value

/-- A push promise: an integer, and a field section behind it. -/
def promise (payload : Span) : Except (ParseError V E) (Decoded V) :=
  match (decodeVarintSource payload.reader : Except (ParseError V E) (V × ℕ)) with
  | .error error => .error error.payload
  | .ok (pushId, consumed) =>
    match payload.suffix consumed with
    | none => .error .needMore
    | some block => .ok (.pushPromise pushId block)

namespace Decoder

variable [DecidableEq V]

/-- `Decoder::fragment`. -/
def fragment (kind : V) (len head total : ℕ) : Read V :=
  let take := min len (total - head)
  let consumed := head + take
  { frame := if kind = typeData then .data head consumed else .unknown (VarInt.get kind)
    consumed := consumed
    next := ⟨if h : 0 < len - take then some ⟨kind, len - take, h⟩ else none⟩ }

/-- The frame behind a header, if its kind is one that is not read in fragments. -/
def whole (kind : V) (cursor : Cursor) (len : ℕ) : Option (Except (ParseError V E) (Decoded V)) :=
  if kind = typeHeaders then some (payload cursor len >>= fun payload => .ok (.headers payload))
  else if kind = typeCancelPush then
    some (payload cursor len >>= fun payload => (exact payload).map .cancelPush)
  else if kind = typeSettings then
    some (payload cursor len >>= fun payload => (Settings.fromView payload).map .settings)
  else if kind = typePushPromise then some (payload cursor len >>= promise)
  else if kind = typeGoaway then
    some (payload cursor len >>= fun payload => (exact payload).map .goAway)
  else if kind = typeMaxPushId then
    some (payload cursor len >>= fun payload => (exact payload).map .maxPushId)
  else none

/-- `Decoder::decode`, behind a header of some bytes. -/
def behind (kind length : V) (cursor : Cursor) (head total limit : ℕ) :
    Except (ParseError V E) (Read V) :=
  match (bound limit head length : Except (ParseError V E) (ℕ × ℕ)) with
  | .error error => .error error
  | .ok (len, stop) =>
    match whole kind cursor len with
    | some decoded => decoded.map fun frame => ⟨frame, stop, .default⟩
    | none => .ok (fragment kind len head total)

/-- `Decoder::decode`. -/
def decode (self : Decoder V) (input : Source) (limit : ℕ) : Except (ParseError V E) (Read V) :=
  let cursor := input.cursor
  let total := cursor.remaining
  match self.pending with
  | some pending =>
    if total = 0 then .error .needMore else .ok (fragment pending.kind pending.remaining 0 total)
  | none =>
    match decodeVarintCursor cursor with
    | .error error => .error error
    | .ok (kind, cursor) =>
      match (checkKind kind : Except (ParseError V E) Unit) with
      | .error error => .error error
      | .ok () =>
        match decodeVarintCursor cursor with
        | .error error => .error error
        | .ok (length, cursor) => behind kind length cursor (total - cursor.remaining) total limit

end Decoder

/-! ## What a frame says -/

/-- What is read of a frame. Nothing is said of a payload whose kind is not known. -/
inductive Content (V : Type)
  | data (bytes : Bytes)
  | headers (bytes : Bytes)
  | cancelPush (pushId : V)
  | settings (settings : Settings V)
  | pushPromise (pushId : V) (block : Bytes)
  | goAway (id : V)
  | maxPushId (pushId : V)
  | unknown (kind : ℕ)
  deriving DecidableEq, Repr

/-- What the one-shot parser reads. -/
def Payload.content : Payload V → Content V
  | .data payload => .data payload
  | .headers payload => .headers payload
  | .cancelPush pushId => .cancelPush pushId
  | .settings found => .settings found
  | .pushPromise pushId block => .pushPromise pushId block
  | .goAway id => .goAway id
  | .maxPushId pushId => .maxPushId pushId
  | .unknown kind _ => .unknown (VarInt.get kind)

/-- The bytes of a span. -/
def spanBytes (span : Span) : Bytes :=
  span.chunks.toList.flatten

/-- What the decoder reads, of an input. -/
def Decoded.content (input : Bytes) : Decoded V → Content V
  | .data start stop => .data ((input.take stop).drop start)
  | .headers payload => .headers (spanBytes payload)
  | .cancelPush pushId => .cancelPush pushId
  | .settings found => .settings found
  | .pushPromise pushId block => .pushPromise pushId (spanBytes block)
  | .goAway id => .goAway id
  | .maxPushId pushId => .maxPushId pushId
  | .unknown kind => .unknown kind

/-- What a read says: the frame or the fragment, how much is consumed, and the next decoder. -/
def Read.told (input : Bytes) (read : Read V) : Content V × ℕ × Decoder V :=
  (read.frame.content input, read.consumed, read.next)

/-- A kind whose frames are not read in fragments. -/
def Whole (kind : V) : Prop :=
  kind = typeHeaders ∨ kind = typeCancelPush ∨ kind = typeSettings ∨ kind = typePushPromise ∨
    kind = typeGoaway ∨ kind = typeMaxPushId

/-- A kind whose payload is one integer. -/
def OfInteger (kind : V) : Prop :=
  kind = typeCancelPush ∨ kind = typeGoaway ∨ kind = typeMaxPushId

theorem OfInteger.whole {kind : V} (h : OfInteger kind) : Whole kind := by
  rcases h with rfl | rfl | rfl
  · exact .inr (.inl rfl)
  · exact .inr (.inr (.inr (.inr (.inl rfl))))
  · exact .inr (.inr (.inr (.inr (.inr rfl))))

theorem OfInteger.not_reserved (hlaw : VarInt.Lawful V E) {kind : V} (h : OfInteger kind) :
    ¬Reserved kind := by
  rcases h with rfl | rfl | rfl <;>
    simp only [Reserved, typeCancelPush, typeGoaway, typeMaxPushId, hlaw.get_fromU8] <;> decide

section Kinds

variable [DecidableEq V] {kind : V}

instance (kind : V) : Decidable (Whole kind) :=
  inferInstanceAs (Decidable (_ ∨ _ ∨ _ ∨ _ ∨ _ ∨ _))

/-- What is said of a fragment. -/
def Content.ofFragment (kind : V) (bytes : Bytes) : Content V :=
  if kind = typeData then .data bytes else .unknown (VarInt.get kind)

theorem Decoder.whole_eq_none {cursor : Cursor} {len : ℕ} (h : ¬Whole kind) :
    (Decoder.whole kind cursor len : Option (Except (ParseError V E) (Decoded V))) = none := by
  simp only [Whole, not_or] at h
  obtain ⟨hheaders, hcancel, hsettings, hpush, hgoaway, hmax⟩ := h
  simp only [Decoder.whole, if_neg hheaders, if_neg hcancel, if_neg hsettings, if_neg hpush,
    if_neg hgoaway, if_neg hmax]

theorem Payload.ofKind_of_not_whole {bytes : Bytes} (h : ¬Whole kind) :
    ∃ frame : Payload V, (Payload.ofKind kind bytes : Except (ParseError V E) _) = .ok frame ∧
      frame.content = .ofFragment kind bytes := by
  simp only [Whole, not_or] at h
  obtain ⟨hheaders, hcancel, hsettings, hpush, hgoaway, hmax⟩ := h
  simp only [Payload.ofKind, if_neg hheaders, if_neg hcancel, if_neg hsettings, if_neg hpush,
    if_neg hgoaway, if_neg hmax]
  by_cases hdata : kind = typeData
  · refine ⟨.data bytes, if_pos hdata, ?_⟩
    rw [Content.ofFragment, if_pos hdata]
    rfl
  · refine ⟨.unknown kind bytes, if_neg hdata, ?_⟩
    rw [Content.ofFragment, if_neg hdata]
    rfl

theorem Payload.ofKind_of_integer (hlaw : VarInt.Lawful V E) (h : OfInteger kind) :
    ∃ wrap : V → Payload V, ∀ bytes, (Payload.ofKind kind bytes : Except (ParseError V E) _) =
      (Payload.parseInt bytes).map wrap := by
  have hdecide := @Settings.fromU8_inj V E _ hlaw
  rcases h with rfl | rfl | rfl
  · refine ⟨.cancelPush, fun bytes => ?_⟩
    simp only [Payload.ofKind, typeHeaders, typeData, typeCancelPush, hdecide]
    rfl
  · refine ⟨.goAway, fun bytes => ?_⟩
    simp only [Payload.ofKind, typeHeaders, typeData, typeCancelPush, typeSettings,
      typePushPromise, typeGoaway, hdecide]
    rfl
  · refine ⟨.maxPushId, fun bytes => ?_⟩
    simp only [Payload.ofKind, typeHeaders, typeData, typeCancelPush, typeSettings,
      typePushPromise, typeGoaway, typeMaxPushId, hdecide]
    rfl

end Kinds

/-! ## Frames that are waited for -/

section Whole

variable {cursor : Cursor} {span : Span} {rest bytes : Bytes} {kind : V}

theorem spanBytes_eq (h : span.Holds bytes) : spanBytes span = bytes :=
  h.flatten_chunks

theorem exact_eq (hlaw : VarInt.LawfulDecode V E) (h : span.Holds bytes) :
    (exact span : Except (ParseError V E) V) = Payload.parseInt bytes := by
  have hread := h.reader.decodePayload hlaw
  rw [exact, Payload.parseInt]
  cases hdecode : (VarInt.decode bytes : Except E (V × ℕ)) with
  | error error =>
    have hpayload : (decodePayload bytes : Except (ParseError V E) _) =
        .error (.payloadInteger error) := by
      rw [decodePayload, decodeVarint, hdecode]
      rfl
    rw [hpayload] at hread
    generalize (decodePayloadVarint span.reader : Except (ParseError V E) _) = read at hread
    rcases hread with _ | _
    rfl
  | ok found =>
    obtain ⟨value, n⟩ := found
    have hle := (decode_eq_ok hlaw hdecode).2.2
    have hpayload : (decodePayload bytes : Except (ParseError V E) _) =
        .ok (value, bytes.drop n) :=
      Except.mapError_eq_ok_iff.mpr ((decodeVarint_eq_ok_iff hlaw).mpr ⟨n, hdecode, rfl⟩)
    rw [hpayload] at hread
    generalize (decodePayloadVarint span.reader : Except (ParseError V E) _) = read at hread
    rcases hread with ⟨rfl, hnext⟩
    dsimp only
    rw [hnext.remaining_eq, List.length_drop]
    by_cases hall : n = bytes.length
    · rw [if_neg (by omega), if_neg (not_not.mpr hall)]
    · rw [if_pos (by omega), if_pos hall]

/-- A push promise is read from a view as from a slice. -/
theorem promise_eq (hlaw : VarInt.LawfulDecode V E) (h : span.Holds bytes) (input : Bytes) :
    (promise span : Except (ParseError V E) (Decoded V)).map (Decoded.content input) =
      (Payload.promise bytes : Except (ParseError V E) (Payload V)).map Payload.content := by
  have hread := h.reader.decodeVarint hlaw
  rw [promise, decodeVarintSource, Payload.promise]
  cases hdecode : (VarInt.decode bytes : Except E (V × ℕ)) with
  | error error =>
    have hvarint : (decodeVarint bytes : Except (ParseError V E) _) = .error (.varInt error) := by
      rw [decodeVarint, hdecode]
    rw [hvarint] at hread
    generalize (decodeVarintCursor span.reader : Except (ParseError V E) _) = read at hread
    rcases hread with _ | _
    rfl
  | ok found =>
    obtain ⟨value, n⟩ := found
    have hle := (decode_eq_ok hlaw hdecode).2.2
    have hvarint : (decodeVarint bytes : Except (ParseError V E) _) =
        .ok (value, bytes.drop n) := (decodeVarint_eq_ok_iff hlaw).mpr ⟨n, hdecode, rfl⟩
    rw [hvarint] at hread
    generalize (decodeVarintCursor span.reader : Except (ParseError V E) _) = read at hread
    rcases hread with ⟨rfl, hnext⟩
    next next =>
      have hconsumed : span.reader.remaining - next.remaining = n := by
        rw [h.reader.remaining_eq, hnext.remaining_eq, List.length_drop]
        omega
      obtain ⟨block, hblock, hholds⟩ := h.suffix hle
      show (match span.suffix (span.reader.remaining - next.remaining) with
        | none => .error .needMore
        | some block => .ok (.pushPromise value block) : Except (ParseError V E) (Decoded V)).map
          (Decoded.content input) = _
      rw [hconsumed, hblock]
      dsimp only
      rw [if_pos hle]
      show Except.ok (Content.pushPromise value (spanBytes block)) = _
      rw [spanBytes_eq hholds]
      rfl

theorem exact_bind (hlaw : VarInt.LawfulDecode V E) (h : cursor.Holds rest)
    {wrap : V → Decoded V} {wrap' : V → Payload V} (input : Bytes)
    (hwrap : ∀ value, (wrap value).content input = (wrap' value).content) (len : ℕ) :
    (payload cursor len >>= fun payload =>
        (exact payload : Except (ParseError V E) V).map wrap).map (Decoded.content input) =
      if len ≤ rest.length then
        ((Payload.parseInt (rest.take len) : Except (ParseError V E) V).map wrap').map
          Payload.content
      else .error .needMore := by
  refine @payload_bind V E _ _ _ _ (fun bytes => (Payload.parseInt bytes).map wrap') _ _ _ _ h
    (fun {span bytes} hspan => ?_) len
  rw [exact_eq hlaw hspan]
  cases (Payload.parseInt bytes : Except (ParseError V E) V) with
  | error cause => rfl
  | ok value => exact congrArg Except.ok (hwrap value)

variable [DecidableEq V]

/-- A frame that is waited for is what the one-shot parser reads. -/
theorem Decoder.whole_eq (hlaw : VarInt.Lawful V E) (hkind : Whole kind) (h : cursor.Holds rest)
    (len : ℕ) (input : Bytes) :
    ∃ decoded, Decoder.whole kind cursor len = some decoded ∧
      (decoded : Except (ParseError V E) (Decoded V)).map (Decoded.content input) =
        if len ≤ rest.length then
          (Payload.ofKind kind (rest.take len) : Except (ParseError V E) (Payload V)).map
            Payload.content
        else .error .needMore := by
  have hdecide := @Settings.fromU8_inj V E _ hlaw
  have hdecode := hlaw.toLawfulDecode
  rcases hkind with rfl | rfl | rfl | rfl | rfl | rfl
  · have hkind : ∀ bytes, (Payload.ofKind (typeHeaders : V) bytes : Except (ParseError V E) _) =
        .ok (.headers bytes) := fun bytes => by
      simp only [Payload.ofKind, typeHeaders, typeData, hdecide]
      rfl
    refine ⟨payload cursor len >>= fun payload => .ok (.headers payload), if_pos rfl, ?_⟩
    refine payload_bind h (fun {span bytes} hspan => ?_) len
    rw [hkind]
    show Except.ok (Content.headers (spanBytes span)) = _
    rw [spanBytes_eq hspan]
    rfl
  · have hkind : ∀ bytes, (Payload.ofKind (typeCancelPush : V) bytes :
        Except (ParseError V E) _) = (Payload.parseInt bytes).map .cancelPush := fun bytes => by
      simp only [Payload.ofKind, typeHeaders, typeData, typeCancelPush, hdecide]
      rfl
    refine ⟨payload cursor len >>= fun payload => (exact payload).map .cancelPush, ?_, ?_⟩
    · simp only [Decoder.whole, typeCancelPush, typeHeaders, hdecide]
      rfl
    · rw [hkind]
      exact exact_bind hdecode h input (fun _ => rfl) len
  · have hkind : ∀ bytes, (Payload.ofKind (typeSettings : V) bytes :
        Except (ParseError V E) _) = (Settings.decode bytes).map .settings := fun bytes => by
      simp only [Payload.ofKind, typeHeaders, typeData, typeCancelPush, typeSettings, hdecide]
      rfl
    refine ⟨payload cursor len >>= fun payload => (Settings.fromView payload).map .settings, ?_, ?_⟩
    · simp only [Decoder.whole, typeCancelPush, typeHeaders, typeSettings, hdecide]
      rfl
    · refine payload_bind h (fun {span bytes} hspan => ?_) len
      rw [hkind, Settings.fromView_eq hdecode hspan]
      cases (Settings.decode bytes : Except (ParseError V E) (Settings V)) <;> rfl
  · have hkind : ∀ bytes, (Payload.ofKind (typePushPromise : V) bytes :
        Except (ParseError V E) _) = Payload.promise bytes := fun bytes => by
      simp only [Payload.ofKind, typeHeaders, typeData, typeCancelPush, typeSettings,
        typePushPromise, hdecide]
      rfl
    refine ⟨payload cursor len >>= promise, ?_, ?_⟩
    · simp only [Decoder.whole, typeCancelPush, typeHeaders, typeSettings, typePushPromise,
        hdecide]
      rfl
    · refine payload_bind h (fun {span bytes} hspan => ?_) len
      rw [hkind]
      exact promise_eq hdecode hspan input
  · have hkind : ∀ bytes, (Payload.ofKind (typeGoaway : V) bytes :
        Except (ParseError V E) _) = (Payload.parseInt bytes).map .goAway := fun bytes => by
      simp only [Payload.ofKind, typeHeaders, typeData, typeCancelPush, typeSettings,
        typePushPromise, typeGoaway, hdecide]
      rfl
    refine ⟨payload cursor len >>= fun payload => (exact payload).map .goAway, ?_, ?_⟩
    · simp only [Decoder.whole, typeCancelPush, typeHeaders, typeSettings, typePushPromise,
        typeGoaway, hdecide]
      rfl
    · rw [hkind]
      exact exact_bind hdecode h input (fun _ => rfl) len
  · have hkind : ∀ bytes, (Payload.ofKind (typeMaxPushId : V) bytes :
        Except (ParseError V E) _) = (Payload.parseInt bytes).map .maxPushId := fun bytes => by
      simp only [Payload.ofKind, typeHeaders, typeData, typeCancelPush, typeSettings,
        typePushPromise, typeGoaway, typeMaxPushId, hdecide]
      rfl
    refine ⟨payload cursor len >>= fun payload => (exact payload).map .maxPushId, ?_, ?_⟩
    · simp only [Decoder.whole, typeCancelPush, typeHeaders, typeSettings, typePushPromise,
        typeGoaway, typeMaxPushId, hdecide]
      rfl
    · rw [hkind]
      exact exact_bind hdecode h input (fun _ => rfl) len

end Whole

/-! ## What the decoder answers -/

namespace Decoder

variable {kind length : V} {rest : Bytes}

/-- The two integers in front of a frame, the first of which is not reserved. -/
def opening (buf : Bytes) : Except (ParseError V E) ((V × V) × Bytes) :=
  match (decodeVarint buf : Except (ParseError V E) (V × Bytes)) with
  | .error error => .error error
  | .ok (kind, tail) =>
    match (checkKind kind : Except (ParseError V E) Unit) with
    | .error error => .error error
    | .ok () =>
      match (decodeVarint tail : Except (ParseError V E) (V × Bytes)) with
      | .error error => .error error
      | .ok (length, rest) => .ok ((kind, length), rest)

theorem opening_eq_ok_iff {buf : Bytes} :
    (opening buf : Except (ParseError V E) _) = .ok ((kind, length), rest) ↔
      ∃ tail, (decodeVarint buf : Except (ParseError V E) _) = .ok (kind, tail) ∧
        ¬Reserved kind ∧ (decodeVarint tail : Except (ParseError V E) _) = .ok (length, rest) := by
  rw [opening]
  constructor
  · intro h
    split at h
    next => exact absurd h (by simp)
    next kind tail hkind =>
      rw [checkKind] at h
      split at h
      next => exact absurd h (by simp)
      next hreserved =>
        split_ifs at hreserved with hfree
        split at h
        next => exact absurd h (by simp)
        next length rest hlength =>
          obtain ⟨hpair, rfl⟩ := Prod.mk.inj (Except.ok.inj h)
          obtain ⟨rfl, rfl⟩ := Prod.mk.inj hpair
          exact ⟨tail, hkind, hfree, hlength⟩
  · rintro ⟨tail, hkind, hfree, hlength⟩
    rw [hkind]
    dsimp only
    rw [checkKind, if_neg hfree]
    dsimp only
    rw [hlength]

theorem suffix_of_decodeVarint {buf : Bytes} {value : V}
    (h : (decodeVarint buf : Except (ParseError V E) _) = .ok (value, rest)) : rest <:+ buf := by
  rw [decodeVarint] at h
  split at h
  next => exact absurd h (by simp)
  next found n hdecode =>
    split_ifs at h
    obtain ⟨-, rfl⟩ := Prod.mk.inj (Except.ok.inj h)
    exact List.drop_suffix n buf

theorem opening_of_header (hlaw : VarInt.LawfulDecode V E) {buf : Bytes} {header : Header V}
    (hheader : (Header.parse buf : Except (ParseError V E) _) = .ok header)
    (hreserved : ¬Reserved header.kind) :
    (opening buf : Except (ParseError V E) _) =
      .ok ((header.kind, header.length), buf.drop header.headerLen) := by
  obtain ⟨tail, rest, hkind, hlength, hlen⟩ := (Header.parse_eq_ok_iff hlaw).mp hheader
  have hsuffix : rest <:+ buf :=
    (suffix_of_decodeVarint hlength).trans (suffix_of_decodeVarint hkind)
  have hdrop : rest = buf.drop header.headerLen := by
    rw [List.suffix_iff_eq_drop.mp hsuffix]
    congr 1
    omega
  rw [← hdrop]
  exact opening_eq_ok_iff.mpr ⟨tail, hkind, hreserved, hlength⟩

variable [DecidableEq V] {source : Source} {limit : ℕ} {cause : ParseError V E}

theorem decode_of_pending (pending : Pending V) (source : Source) (limit : ℕ) :
    (decode ⟨some pending⟩ source limit : Except (ParseError V E) (Read V)) =
      if source.bytes.length = 0 then .error .needMore
      else .ok (fragment pending.kind pending.remaining 0 source.bytes.length) :=
  rfl

/-- The decoder reads the two integers in front of a frame with its cursor, and goes on behind
them. -/
theorem decode_opening (hlaw : VarInt.LawfulDecode V E) (source : Source) (limit : ℕ) :
    ∃ read : Except (ParseError V E) ((V × V) × Cursor),
      Cursor.Reads Eq (opening source.bytes) read ∧
        Decoder.default.decode source limit = read >>= fun found =>
          behind found.1.1 found.1.2 found.2 (source.bytes.length - found.2.remaining)
            source.bytes.length limit := by
  have hkind := source.holds_cursor.decodeVarint hlaw
  rw [opening, decode]
  dsimp only [Decoder.default]
  generalize (decodeVarint source.bytes : Except (ParseError V E) _) = answer at hkind
  generalize (decodeVarintCursor source.cursor : Except (ParseError V E) _) = read at hkind
  rcases hkind with ⟨rfl, hnext⟩ | _
  next kind tail next =>
    dsimp only
    cases (checkKind kind : Except (ParseError V E) Unit) with
    | error error => exact ⟨.error error, .error, rfl⟩
    | ok found =>
      have hlength := hnext.decodeVarint hlaw
      dsimp only
      generalize (decodeVarint tail : Except (ParseError V E) _) = answer at hlength
      generalize (decodeVarintCursor next : Except (ParseError V E) _) = read at hlength
      rcases hlength with ⟨rfl, hlast⟩ | _
      next length rest last => exact ⟨.ok ((kind, length), last), .ok rfl hlast, rfl⟩
      next error => exact ⟨.error error, .error, rfl⟩
  next error => exact ⟨.error error, .error, rfl⟩

theorem decode_of_error (hlaw : VarInt.LawfulDecode V E)
    (hopening : opening source.bytes = .error cause) :
    Decoder.default.decode source limit = .error cause := by
  obtain ⟨read, hread, hdecode⟩ := @decode_opening V E _ _ hlaw source limit
  rw [hopening] at hread
  rcases hread with _ | _
  exact hdecode

theorem decode_of_opening (hlaw : VarInt.LawfulDecode V E) (limit : ℕ)
    (hopening : (opening source.bytes : Except (ParseError V E) _) = .ok ((kind, length), rest)) :
    ∃ cursor : Cursor, cursor.Holds rest ∧
      (Decoder.default.decode source limit : Except (ParseError V E) _) =
        behind kind length cursor (source.bytes.length - rest.length) source.bytes.length
          limit := by
  obtain ⟨read, hread, hdecode⟩ := @decode_opening V E _ _ hlaw source limit
  rw [hopening] at hread
  rcases hread with ⟨rfl, hnext⟩
  next next =>
    refine ⟨next, hnext, ?_⟩
    rw [hdecode, ← hnext.remaining_eq]
    rfl

/-- Behind a header the decoder waits for the payload and reads it as the one-shot parser does, if
its kind is one that is not read in fragments. -/
theorem decode_whole (hlaw : VarInt.Lawful V E) {header : Header V} {len stop : ℕ}
    (hheader : (Header.parse source.bytes : Except (ParseError V E) _) = .ok header)
    (hreserved : ¬Reserved header.kind)
    (hbound : (bound limit header.headerLen header.length : Except (ParseError V E) _) =
      .ok (len, stop)) (hwhole : Whole header.kind) :
    (Decoder.default.decode source limit : Except (ParseError V E) _).map (Read.told source.bytes) =
      if stop ≤ source.bytes.length then
        (Payload.ofKind header.kind ((source.bytes.drop header.headerLen).take len) :
          Except (ParseError V E) _).map fun frame => (frame.content, stop, Decoder.default)
      else .error .needMore := by
  have hopening := opening_of_header hlaw.toLawfulDecode hheader hreserved
  have hhead := (Header.headerLen_le hlaw.toLawfulDecode hheader).2
  obtain ⟨-, hstop, -⟩ := bound_eq_ok hbound
  obtain ⟨cursor, hholds, hdecode⟩ :=
    decode_of_opening hlaw.toLawfulDecode limit hopening
  obtain ⟨decoded, hdecoded, hmap⟩ := @whole_eq V E _ _ _ _ _ hlaw hwhole hholds len source.bytes
  have hlen : source.bytes.length - (source.bytes.drop header.headerLen).length =
      header.headerLen := by
    rw [List.length_drop]
    omega
  have hfits : len ≤ (source.bytes.drop header.headerLen).length ↔
      stop ≤ source.bytes.length := by
    rw [List.length_drop]
    omega
  rw [hdecode, behind, hlen, hbound]
  dsimp only
  rw [hdecoded]
  dsimp only
  have htold : (decoded.map fun frame => (⟨frame, stop, .default⟩ : Read V)).map
      (Read.told source.bytes) =
        (decoded.map (Decoded.content source.bytes)).map fun content =>
          (content, stop, Decoder.default) := by
    cases decoded <;> rfl
  rw [htold, hmap]
  by_cases hle : stop ≤ source.bytes.length
  · rw [if_pos hle, if_pos (hfits.mpr hle)]
    cases (Payload.ofKind header.kind ((source.bytes.drop header.headerLen).take len) :
      Except (ParseError V E) (Payload V)) <;> rfl
  · rw [if_neg hle, if_neg fun h => hle (hfits.mp h)]
    rfl

theorem decode_fragment (hlaw : VarInt.LawfulDecode V E) {header : Header V} {len stop : ℕ}
    (hheader : (Header.parse source.bytes : Except (ParseError V E) _) = .ok header)
    (hreserved : ¬Reserved header.kind)
    (hbound : (bound limit header.headerLen header.length : Except (ParseError V E) _) =
      .ok (len, stop)) (hwhole : ¬Whole header.kind) :
    (Decoder.default.decode source limit : Except (ParseError V E) _) =
      .ok (fragment header.kind len header.headerLen source.bytes.length) := by
  have hopening := opening_of_header hlaw hheader hreserved
  have hhead := (Header.headerLen_le hlaw hheader).2
  obtain ⟨cursor, -, hdecode⟩ := decode_of_opening hlaw limit hopening
  have hlen : source.bytes.length - (source.bytes.drop header.headerLen).length =
      header.headerLen := by
    rw [List.length_drop]
    omega
  rw [hdecode, behind, hlen, hbound]
  dsimp only
  rw [whole_eq_none hwhole]

/-- Every read of a decoder that has nothing left of a frame is of one behind a header. -/
theorem decode_eq_ok (hlaw : VarInt.Lawful V E) {read : Read V}
    (h : (Decoder.default.decode source limit : Except (ParseError V E) _) = .ok read) :
    ∃ header len stop, (Header.parse source.bytes : Except (ParseError V E) _) = .ok header ∧
      ¬Reserved header.kind ∧ (bound limit header.headerLen header.length :
        Except (ParseError V E) _) = .ok (len, stop) ∧
      ((¬Whole header.kind ∧
          read = fragment header.kind len header.headerLen source.bytes.length) ∨
        (Whole header.kind ∧ stop ≤ source.bytes.length ∧ read.consumed = stop)) := by
  cases hopening : (opening source.bytes : Except (ParseError V E) _) with
  | error cause =>
    have herror := @decode_of_error V E _ _ source limit cause hlaw.toLawfulDecode hopening
    exact absurd (h.symm.trans herror) (by simp)
  | ok found =>
    obtain ⟨⟨kind, length⟩, rest⟩ := found
    obtain ⟨tail, hkind, hreserved, hlength⟩ := opening_eq_ok_iff.mp hopening
    have hsuffix := (suffix_of_decodeVarint hlength).trans (suffix_of_decodeVarint hkind)
    have hheader : (Header.parse source.bytes : Except (ParseError V E) _) =
        .ok ⟨kind, length, source.bytes.length - rest.length⟩ :=
      (Header.parse_eq_ok_iff hlaw.toLawfulDecode).mpr
        ⟨tail, rest, hkind, hlength, Nat.sub_add_cancel hsuffix.length_le⟩
    obtain ⟨cursor, -, hdecode⟩ := decode_of_opening hlaw.toLawfulDecode limit hopening
    cases hbound : (bound limit (source.bytes.length - rest.length) length :
        Except (ParseError V E) _) with
    | error cause =>
      rw [hdecode, behind, hbound] at h
      exact absurd h (by simp)
    | ok bounds =>
      obtain ⟨len, stop⟩ := bounds
      refine ⟨_, len, stop, hheader, hreserved, hbound, ?_⟩
      by_cases hwhole : Whole kind
      · have htold := decode_whole hlaw hheader hreserved hbound hwhole
        rw [h] at htold
        split_ifs at htold with hle
        · obtain ⟨frame, -, hpair⟩ := Except.map_eq_ok_iff.mp htold.symm
          exact .inr ⟨hwhole, hle, (Prod.mk.inj (Prod.mk.inj hpair).2).1.symm⟩
        · exact absurd htold (by simp [Except.map])
      · have hread := decode_fragment hlaw.toLawfulDecode hheader hreserved hbound hwhole
        exact .inl ⟨hwhole, Except.ok.inj (h.symm.trans hread)⟩

theorem consumed_le (hlaw : VarInt.Lawful V E) {self : Decoder V} {read : Read V}
    (h : (self.decode source limit : Except (ParseError V E) _) = .ok read) :
    0 < read.consumed ∧ read.consumed ≤ source.bytes.length := by
  obtain ⟨pending⟩ := self
  cases pending with
  | some pending =>
    have hpos := pending.pos
    rw [decode_of_pending] at h
    split_ifs at h with hempty
    obtain rfl := Except.ok.inj h
    show 0 < 0 + min _ _ ∧ 0 + min _ _ ≤ _
    omega
  | none =>
    obtain ⟨header, len, stop, hheader, -, hbound, hread⟩ := decode_eq_ok hlaw h
    obtain ⟨hpos, hle⟩ := Header.headerLen_le hlaw.toLawfulDecode hheader
    obtain ⟨-, hstop, -⟩ := bound_eq_ok hbound
    rcases hread with ⟨-, rfl⟩ | ⟨-, hfits, hconsumed⟩
    · show 0 < _ + min _ _ ∧ _ + min _ _ ≤ _
      omega
    · omega

/-- The answer to the beginning of an input that has a frame in front: the frame, a fragment of it,
or to wait for more. -/
theorem decode_lead (hlaw : VarInt.Lawful V E) {more : Bytes} {frame : Payload V} {n : ℕ}
    (h : (Payload.parse (source.bytes ++ more) limit : Except (ParseError V E) _) =
      .ok (frame, n)) :
    (more ≠ [] ∧ ∃ cause : ParseError V E,
        Decoder.default.decode source limit = .error cause ∧ Waits cause) ∨
      (n ≤ source.bytes.length ∧
        (Decoder.default.decode source limit : Except (ParseError V E) _).map
          (Read.told source.bytes) = .ok (frame.content, n, .default)) ∨
      ∃ kind len head, n = head + len ∧ head ≤ source.bytes.length ∧
        (Decoder.default.decode source limit : Except (ParseError V E) _) =
          .ok (fragment kind len head source.bytes.length) ∧
        frame.content = .ofFragment kind (((source.bytes ++ more).drop head).take len) := by
  have hdecode := hlaw.toLawfulDecode
  obtain ⟨header, len, hheader, hreserved, hbound, hstop, hframe⟩ := Payload.parse_eq_ok_iff.mp h
  obtain ⟨tail, rest, hkind, hlength, hlen⟩ := (Header.parse_eq_ok_iff hdecode).mp hheader
  -- An integer that is not all there is only missing what follows the input.
  have hmissing : ∀ {cause : ParseError V E}, opening source.bytes = .error cause →
      more ≠ [] := by
    rintro cause hopening rfl
    rw [List.append_nil] at hheader
    rw [opening_of_header hdecode hheader hreserved] at hopening
    exact absurd hopening (by simp)
  have hwait : ∀ {cause : ParseError V E}, opening source.bytes = .error cause → Waits cause →
      more ≠ [] ∧ ∃ cause : ParseError V E,
        Decoder.default.decode source limit = .error cause ∧ Waits cause :=
    fun hopening hwaits =>
      ⟨hmissing hopening, _, decode_of_error hdecode hopening, hwaits⟩
  rcases decodeVarint_lead hdecode hkind with ⟨tail, hfirst, rfl⟩ | ⟨cause, hfirst, hwaits⟩
  · rcases decodeVarint_lead hdecode hlength with ⟨rest, hsecond, rfl⟩ | ⟨cause, hsecond, hwaits⟩
    · have hheader : (Header.parse source.bytes : Except (ParseError V E) _) = .ok header := by
        refine (Header.parse_eq_ok_iff hdecode).mpr ⟨tail, rest, hfirst, hsecond, ?_⟩
        rw [List.length_append, List.length_append] at hlen
        omega
      obtain ⟨-, hhead⟩ := Header.headerLen_le hdecode hheader
      obtain ⟨-, hn, -⟩ := bound_eq_ok hbound
      by_cases hwhole : Whole header.kind
      · have htold := decode_whole hlaw hheader hreserved hbound hwhole
        by_cases hle : n ≤ source.bytes.length
        · rw [slice_append (hn.symm.trans_le hle)] at hframe
          rw [if_pos hle, hframe] at htold
          exact .inr (.inl ⟨hle, htold⟩)
        · rw [if_neg hle] at htold
          refine .inl ⟨?_, .needMore, ?_, .inl rfl⟩
          · rintro rfl
            rw [List.append_nil] at hstop
            exact hle hstop
          · exact Except.map_eq_error_iff.mp htold
      · obtain ⟨found, hfound, hcontent⟩ := @Payload.ofKind_of_not_whole V E _ _ header.kind
          (((source.bytes ++ more).drop header.headerLen).take len) hwhole
        obtain rfl := Except.ok.inj (hframe.symm.trans hfound)
        exact .inr (.inr ⟨header.kind, len, header.headerLen, hn, hhead,
          decode_fragment hdecode hheader hreserved hbound hwhole, hcontent⟩)
    · left
      refine hwait ?_ hwaits
      rw [opening, hfirst]
      dsimp only
      rw [checkKind, if_neg hreserved]
      dsimp only
      rw [hsecond]
  · left
    refine hwait ?_ hwaits
    rw [opening, hfirst]

/-! ## What is rejected -/

/-- A frame that is waited for is answered as the one-shot parser answers it, errors included. -/
theorem decode_eq_parse (hlaw : VarInt.Lawful V E) {header : Header V} {len stop : ℕ}
    (hheader : (Header.parse source.bytes : Except (ParseError V E) _) = .ok header)
    (hreserved : ¬Reserved header.kind)
    (hbound : (bound limit header.headerLen header.length : Except (ParseError V E) _) =
      .ok (len, stop)) (hwhole : Whole header.kind) :
    (Decoder.default.decode source limit : Except (ParseError V E) _).map (Read.told source.bytes) =
      (Payload.parse source.bytes limit : Except (ParseError V E) _).map fun parsed =>
        (parsed.1.content, parsed.2, Decoder.default) := by
  rw [decode_whole hlaw hheader hreserved hbound hwhole, Payload.parse, hheader]
  show _ = Except.map _ (checkKind header.kind >>= _)
  rw [checkKind, if_neg hreserved]
  show _ = Except.map _ (bound limit header.headerLen header.length >>= _)
  rw [hbound]
  show _ = Except.map _ (if stop ≤ source.bytes.length then _ else _)
  split_ifs
  · cases (Payload.ofKind header.kind ((source.bytes.drop header.headerLen).take len) :
      Except (ParseError V E) (Payload V)) <;> rfl
  · rfl

theorem reserved_rejected (hlaw : VarInt.LawfulDecode V E) {header : Header V}
    (hheader : (Header.parse source.bytes : Except (ParseError V E) _) = .ok header)
    (hreserved : Reserved header.kind) :
    (Decoder.default.decode source limit : Except (ParseError V E) _) =
        .error (.reservedFrame header.kind) ∧
      (Payload.parse source.bytes limit : Except (ParseError V E) _) =
        .error (.reservedFrame header.kind) := by
  obtain ⟨tail, rest, hkind, -, -⟩ := (Header.parse_eq_ok_iff hlaw).mp hheader
  constructor
  · refine decode_of_error hlaw ?_
    rw [opening, hkind]
    dsimp only
    rw [checkKind, if_pos hreserved]
  · rw [Payload.parse, hheader]
    show checkKind header.kind >>= _ = _
    rw [checkKind, if_pos hreserved]
    rfl

/-- A payload that is not one integer is rejected by both, with the same error. -/
theorem malformed_rejected (hlaw : VarInt.Lawful V E) {header : Header V} {len stop : ℕ}
    (hheader : (Header.parse source.bytes : Except (ParseError V E) _) = .ok header)
    (hinteger : OfInteger header.kind)
    (hbound : (bound limit header.headerLen header.length : Except (ParseError V E) _) =
      .ok (len, stop)) (hstop : stop ≤ source.bytes.length)
    (hmalformed : ∀ value : V, (VarInt.decode ((source.bytes.drop header.headerLen).take len) :
      Except E (V × ℕ)) ≠ .ok (value, ((source.bytes.drop header.headerLen).take len).length)) :
    ∃ cause : ParseError V E, Decoder.default.decode source limit = .error cause ∧
      Payload.parse source.bytes limit = .error cause := by
  have hreserved := hinteger.not_reserved hlaw
  obtain ⟨wrap, hkind⟩ := Payload.ofKind_of_integer hlaw hinteger
  have hparse := decode_eq_parse hlaw hheader hreserved hbound hinteger.whole
  have htold := decode_whole hlaw hheader hreserved hbound hinteger.whole
  rw [if_pos hstop, hkind] at htold
  rw [htold] at hparse
  cases hint : (Payload.parseInt ((source.bytes.drop header.headerLen).take len) :
      Except (ParseError V E) V) with
  | ok value =>
    rw [Payload.parseInt] at hint
    split at hint
    next => exact absurd hint (by simp)
    next found n hdecode =>
      split_ifs at hint with hall
      rw [not_not.mp hall] at hdecode
      exact absurd hdecode (hmalformed found)
  | error cause =>
    rw [hint] at htold hparse
    exact ⟨cause, Except.map_eq_error_iff.mp htold, Except.map_eq_error_iff.mp hparse.symm⟩

end Decoder

end Sark.H3.Frame
