import Sark.Http.H1.Value

/-!
# Deframing gRPC messages

A message is a flag, its length in four bytes and its payload. The deframer collects the header and
the payload from inputs that are cut anywhere, and it asks a pool for the storage of the payload,
which may be refused at any call.

A source moves exactly the prefix that it is asked for, and nothing when it refuses; what the pool
and the source answer in a call is a parameter of the call (`Storage`). Payloads are their bytes:
the segments of a chain are not modelled.

* `Deframer.next_keeps`: one call moves bytes from the input to the deframer, or to a frame.
* `Session.run_deframes`: whatever the cuts and the refusals, the frames are those of the bytes.
-/

namespace Sark.Grpc

/-! ## Headers -/

/-- `HEADER_LEN`. -/
def headerLen : ℕ := 5

/-- `Compression`. -/
inductive Compression
  | plain
  | compressed
  deriving DecidableEq, Repr

/-- `u32::from_be_bytes`. -/
def fromBeBytes (a b c d : UInt8) : UInt32 :=
  UInt32.ofNat (a.toNat * 2 ^ 24 + b.toNat * 2 ^ 16 + c.toNat * 2 ^ 8 + d.toNat)

/-- `u32::to_be_bytes`. -/
def toBeBytes (len : UInt32) : Bytes :=
  [UInt8.ofNat (len.toNat / 2 ^ 24), UInt8.ofNat (len.toNat / 2 ^ 16),
    UInt8.ofNat (len.toNat / 2 ^ 8), UInt8.ofNat len.toNat]

/-- A complete header whose compression and length passed admission once. -/
structure Header where
  len : UInt32
  compression : Compression
  deriving DecidableEq, Repr

/-- `Failure`: why a header was rejected. -/
inductive Failure
  | compression (flag : UInt8)
  | length (len : UInt32)
  deriving DecidableEq, Repr

/-- `message::Error`, with the causes that a source, a transfer and an allocation give. The variants
that only other users of a message produce are left out. -/
inductive Error (ι τ ρ : Type)
  | badCompressionFlag (flag : UInt8)
  | messageTooLarge (len max : ℕ)
  | lengthOverflow (len : ℕ)
  | input (cause : ι)
  | transfer (cause : τ)
  | retain (cause : ρ)
  deriving DecidableEq, Repr

variable {ι τ ρ : Type}

/-- `Failure::error`. -/
def Failure.error (max : ℕ) : Failure → Error ι τ ρ
  | .compression flag => .badCompressionFlag flag
  | .length len => .messageTooLarge len.toNat max

/-- The compression that a flag asks for. -/
def Compression.ofFlag (flag : UInt8) : Except Failure Compression :=
  if flag = 0 then .ok .plain
  else if flag = 1 then .ok .compressed
  else .error (.compression flag)

/-- `Header::try_new`. -/
def Header.tryNew (flag a b c d : UInt8) (max : ℕ) : Except Failure Header :=
  match Compression.ofFlag flag with
  | .error failure => .error failure
  | .ok compression =>
    let len := fromBeBytes a b c d
    if max < len.toNat then .error (.length len) else .ok ⟨len, compression⟩

/-- `Frame::header`. -/
def header (mode : Compression) (len : UInt32) : Bytes :=
  match mode with
  | .plain => 0 :: toBeBytes len
  | .compressed => 1 :: toBeBytes len

/-- `Frame<_, Wire>`. -/
structure Frame where
  compression : Compression
  payload : Bytes
  deriving DecidableEq, Repr

/-! ## The deframer -/

/-- What a source and a pool answer in one call. -/
structure Storage (ι τ ρ : Type) where
  /-- `Source::try_copy`. -/
  copy : Except ι Unit
  /-- `segments::Pool::try_chain`. -/
  chain : Except ρ Unit
  /-- `Source::try_move`. -/
  move : Except τ Unit

/-- Nothing is refused. -/
def Storage.granted : Storage ι τ ρ :=
  ⟨.ok (), .ok (), .ok ()⟩

/-- `deframer::State`. -/
inductive State
  | header (bytes : Bytes)
  | body (header : Header)
  | failed (failure : Failure)
  deriving DecidableEq, Repr

/-- `Deframer`. -/
structure Deframer where
  maxMessageLen : ℕ
  state : State
  body : Option Bytes
  deriving DecidableEq, Repr

namespace Deframer

/-- `Deframer::new`. -/
def new (max : ℕ) : Deframer :=
  ⟨max, .header [], none⟩

/-- The deframer, the input and the answer behind a call. -/
abbrev Turn (ι τ ρ : Type) (α : Type) :=
  Deframer × Bytes × Except (Error ι τ ρ) α

/-- `first_chunk::<HEADER_LEN>`. -/
def firstChunk : Bytes → Option (UInt8 × UInt8 × UInt8 × UInt8 × UInt8)
  | flag :: a :: b :: c :: d :: _ => some (flag, a, b, c, d)
  | _ => none

/-- `Deframer::next` while a header is collected. -/
def collect (self : Deframer) (bytes : Bytes) (storage : Storage ι τ ρ) (input : Bytes) :
    Turn ι τ ρ (Option Header) :=
  if input.isEmpty then (self, input, .ok none)
  else
    match storage.copy with
    | .error cause => (self, input, .error (.input cause))
    | .ok () =>
      -- `inline::Bytes::fit`: as much as is missing, or as there is.
      let amount := min (headerLen - bytes.length) input.length
      let bytes := bytes ++ input.take amount
      match firstChunk bytes with
      | some (flag, a, b, c, d) =>
        match Header.tryNew flag a b c d self.maxMessageLen with
        | .error failure =>
          (⟨self.maxMessageLen, .failed failure, self.body⟩, input.drop amount,
            .error (failure.error self.maxMessageLen))
        | .ok header =>
          (⟨self.maxMessageLen, .body header, self.body⟩, input.drop amount, .ok (some header))
      | none => (⟨self.maxMessageLen, .header bytes, self.body⟩, input.drop amount, .ok none)

/-- `Deframer::finish`, with the body that it leaves. -/
def finish (self : Deframer) (body : Option Bytes) : Deframer :=
  ⟨self.maxMessageLen, .header [], body⟩

/-- The storage that holds a payload, with more of it. -/
def extend (self : Deframer) (storage : Storage ι τ ρ) (bytes : Bytes) :
    Except (Error ι τ ρ) Bytes := do
  match self.body with
  | some body =>
    storage.move.mapError Error.transfer
    return body ++ bytes
  | none =>
    storage.chain.mapError Error.retain
    storage.move.mapError Error.transfer
    return bytes

/-- `Deframer::next` behind an admitted header. -/
def deliver (self : Deframer) (header : Header) (storage : Storage ι τ ρ) (input : Bytes) :
    Turn ι τ ρ (Option Frame) :=
  let needed := header.len.toNat
  if needed = 0 then
    match storage.chain with
    | .error cause => (self, input, .error (.retain cause))
    | .ok () => (self.finish self.body, input, .ok (some ⟨header.compression, []⟩))
  else if input.isEmpty then (self, input, .ok none)
  else if self.body.isNone ∧ needed ≤ input.length then
    match self.extend storage (input.take needed) with
    | .error cause => (self, input, .error cause)
    | .ok payload =>
      (self.finish self.body, input.drop needed, .ok (some ⟨header.compression, payload⟩))
  else
    let already := (self.body.map List.length).getD 0
    let n := min (needed - already) input.length
    match self.extend storage (input.take n) with
    | .error cause => (self, input, .error cause)
    | .ok body =>
      if body.length = needed then
        (self.finish none, input.drop n, .ok (some ⟨header.compression, body⟩))
      else (⟨self.maxMessageLen, self.state, some body⟩, input.drop n, .ok none)

/-- `Deframer::next`. -/
def next (self : Deframer) (storage : Storage ι τ ρ) (input : Bytes) :
    Turn ι τ ρ (Option Frame) :=
  match self.state with
  | .failed failure => (self, input, .error (failure.error self.maxMessageLen))
  | .body header => self.deliver header storage input
  | .header bytes =>
    match self.collect bytes storage input with
    | (self, input, .error cause) => (self, input, .error cause)
    | (self, input, .ok none) => (self, input, .ok none)
    | (self, input, .ok (some header)) => self.deliver header storage input

end Deframer

/-! ## Bytes and headers -/

theorem fromBeBytes_toNat (a b c d : UInt8) : (fromBeBytes a b c d).toNat =
    a.toNat * 2 ^ 24 + b.toNat * 2 ^ 16 + c.toNat * 2 ^ 8 + d.toNat := by
  have ha := a.toNat_lt
  have hb := b.toNat_lt
  have hc := c.toNat_lt
  have hd := d.toNat_lt
  rw [fromBeBytes, UInt32.toNat_ofNat']
  omega

theorem toBeBytes_fromBeBytes (a b c d : UInt8) : toBeBytes (fromBeBytes a b c d) = [a, b, c, d] := by
  have ha := a.toNat_lt
  have hb := b.toNat_lt
  have hc := c.toNat_lt
  have hd := d.toNat_lt
  simp only [toBeBytes, fromBeBytes_toNat, List.cons.injEq, and_true]
  refine ⟨?_, ?_, ?_, ?_⟩ <;>
    (apply UInt8.toNat_inj.mp; rw [UInt8.toNat_ofNat']; omega)

theorem fromBeBytes_toBeBytes (len : UInt32) :
    fromBeBytes (UInt8.ofNat (len.toNat / 2 ^ 24)) (UInt8.ofNat (len.toNat / 2 ^ 16))
      (UInt8.ofNat (len.toNat / 2 ^ 8)) (UInt8.ofNat len.toNat) = len := by
  have hlen := len.toNat_lt
  apply UInt32.toNat_inj.mp
  simp only [fromBeBytes_toNat, UInt8.toNat_ofNat']
  omega

/-- The bytes of a header. -/
def Header.wire (self : Header) : Bytes :=
  header self.compression self.len

theorem Header.wire_of_tryNew {flag a b c d : UInt8} {max : ℕ} {self : Header}
    (h : Header.tryNew flag a b c d max = .ok self) :
    self.wire = [flag, a, b, c, d] ∧ self.len.toNat ≤ max := by
  unfold tryNew Compression.ofFlag at h
  split at h
  · contradiction
  next compression hflag =>
    dsimp only at h
    split at h
    · contradiction
    next hmax =>
      obtain rfl := Except.ok.inj h
      refine ⟨?_, not_lt.mp hmax⟩
      split_ifs at hflag with hzero hone
      · obtain rfl := Except.ok.inj hflag
        simp [wire, header, toBeBytes_fromBeBytes, hzero]
      · obtain rfl := Except.ok.inj hflag
        simp [wire, header, toBeBytes_fromBeBytes, hone]

theorem Header.tryNew_of_wire {self : Header} {max : ℕ} (h : self.len.toNat ≤ max) :
    ∃ flag a b c d, self.wire = [flag, a, b, c, d] ∧
      Header.tryNew flag a b c d max = .ok self := by
  obtain ⟨len, compression⟩ := self
  have hmax : ¬max < len.toNat := not_lt.mpr h
  cases compression with
  | plain =>
    refine ⟨_, _, _, _, _, rfl, ?_⟩
    simp only [tryNew, fromBeBytes_toBeBytes, if_neg hmax]
    rfl
  | compressed =>
    refine ⟨_, _, _, _, _, rfl, ?_⟩
    simp only [tryNew, fromBeBytes_toBeBytes, if_neg hmax]
    rfl

/-! ## What the bytes of a stream say -/

/-- What is behind the last complete message of a stream. -/
inductive Tail
  | pending (bytes : Bytes)
  | failed (failure : Failure)
  deriving DecidableEq, Repr

/-- How a stream ends for its reader. -/
def Tail.error (max : ℕ) : Tail → Option (Error ι τ ρ)
  | .pending _ => none
  | .failed failure => some (failure.error max)

/-- The messages of a whole stream. -/
def parse (max : ℕ) (input : Bytes) : List Frame × Tail :=
  match input with
  | flag :: a :: b :: c :: d :: rest =>
    match Header.tryNew flag a b c d max with
    | .error failure => ([], .failed failure)
    | .ok header =>
      if rest.length < header.len.toNat then ([], .pending (flag :: a :: b :: c :: d :: rest))
      else
        let (frames, tail) := parse max (rest.drop header.len.toNat)
        (⟨header.compression, rest.take header.len.toNat⟩ :: frames, tail)
  | input => ([], .pending input)
termination_by input.length
decreasing_by
  simp only [List.length_drop, List.length_cons]
  omega

/-- A message in front of what follows it. -/
def Frame.cons (frame : Frame) (rest : List Frame × Tail) : List Frame × Tail :=
  (frame :: rest.1, rest.2)

/-- What a stream says behind a header. -/
def Header.behind (self : Header) (max : ℕ) (bytes : Bytes) : List Frame × Tail :=
  if bytes.length < self.len.toNat then ([], .pending (self.wire ++ bytes))
  else Frame.cons ⟨self.compression, bytes.take self.len.toNat⟩
    (parse max (bytes.drop self.len.toNat))

theorem parse_of_short {max : ℕ} {input : Bytes} (h : input.length < headerLen) :
    parse max input = ([], .pending input) := by
  rw [parse]
  intro flag a b c d rest heq
  simp only [heq, headerLen, List.length_cons] at h
  omega

theorem parse_of_failed {flag a b c d : UInt8} {max : ℕ} {failure : Failure}
    (h : Header.tryNew flag a b c d max = .error failure) (rest : Bytes) :
    parse max (flag :: a :: b :: c :: d :: rest) = ([], .failed failure) := by
  rw [parse, h]

theorem parse_of_header {flag a b c d : UInt8} {max : ℕ} {header : Header}
    (h : Header.tryNew flag a b c d max = .ok header) (rest : Bytes) :
    parse max (flag :: a :: b :: c :: d :: rest) = header.behind max rest := by
  rw [parse, h, Header.behind, (Header.wire_of_tryNew h).1]
  rfl

theorem parse_wire {max : ℕ} {header : Header} (h : header.len.toNat ≤ max) (bytes : Bytes) :
    parse max (header.wire ++ bytes) = header.behind max bytes := by
  obtain ⟨flag, a, b, c, d, hwire, hnew⟩ := Header.tryNew_of_wire h
  rw [hwire]
  exact parse_of_header hnew bytes

namespace Deframer

/-! ## One call -/

/-- What a deframer holds is the begin of a message. -/
def Sound (self : Deframer) : Prop :=
  match self.state with
  | .header bytes => bytes.length < headerLen ∧ self.body = none
  | .body header => header.len.toNat ≤ self.maxMessageLen ∧
      ∀ body, self.body = some body → body.length < header.len.toNat
  | .failed _ => True

/-- What an input says behind what the deframer holds. -/
def rest (self : Deframer) (input : Bytes) : List Frame × Tail :=
  match self.state with
  | .header bytes => parse self.maxMessageLen (bytes ++ input)
  | .body header => header.behind self.maxMessageLen (self.body.getD [] ++ input)
  | .failed failure => ([], .failed failure)

/-- What a call does to the stream: a frame is taken from its front, and nothing else changes. -/
structure Keeps (deframer : Deframer) (input : Bytes) (turn : Turn ι τ ρ (Option Frame)) : Prop where
  sound : turn.1.Sound
  max : turn.1.maxMessageLen = deframer.maxMessageLen
  frame : ∀ frame, turn.2.2 = .ok (some frame) →
    (∀ more, deframer.rest (input ++ more) = frame.cons (turn.1.rest (turn.2.1 ++ more))) ∧
      turn.1.state = .header []
  none : turn.2.2 = .ok none →
    (∀ more, deframer.rest (input ++ more) = turn.1.rest (turn.2.1 ++ more)) ∧
      turn.2.1 = [] ∧ ∃ bytes, turn.1.rest [] = ([], .pending bytes)
  error : ∀ cause, turn.2.2 = .error cause →
    ∀ more, deframer.rest (input ++ more) = turn.1.rest (turn.2.1 ++ more)

theorem keeps_self {self : Deframer} (h : self.Sound) (input : Bytes) (cause : Error ι τ ρ) :
    self.Keeps input (self, input, .error cause) :=
  ⟨h, rfl, nofun, nofun, fun _ _ _ => rfl⟩

theorem extend_eq_ok {self : Deframer} {storage : Storage ι τ ρ} {bytes payload : Bytes}
    (h : self.extend storage bytes = .ok payload) : payload = self.body.getD [] ++ bytes := by
  unfold extend at h
  cases hbody : self.body with
  | none =>
    simp only [hbody] at h
    cases hchain : storage.chain <;> cases hmove : storage.move <;>
      simp_all [Except.mapError, bind, Except.bind, pure, Except.pure]
  | some body =>
    simp only [hbody] at h
    cases hmove : storage.move <;>
      simp_all [Except.mapError, bind, Except.bind, pure, Except.pure]

theorem deliver_keeps {self : Deframer} {header : Header} (h : self.Sound)
    (hstate : self.state = .body header) (storage : Storage ι τ ρ) (input : Bytes) :
    self.Keeps input (self.deliver header storage input) := by
  have hsound := h
  rw [Sound, hstate] at hsound
  obtain ⟨hmax, hbody⟩ := hsound
  have hrest (input : Bytes) :
      self.rest input = header.behind self.maxMessageLen (self.body.getD [] ++ input) := by
    rw [rest, hstate]
  -- A payload that is complete is taken from the front of the stream.
  have hframe {payload tail : Bytes} (hpayload : payload.length = header.len.toNat)
      (hinput : self.body.getD [] ++ input = payload ++ tail) :
      self.Keeps input ((self.finish none, tail, .ok (some ⟨header.compression, payload⟩)) :
        Turn ι τ ρ (Option Frame)) := by
    refine ⟨⟨by simp [headerLen], rfl⟩, rfl, ?_, nofun, nofun⟩
    rintro frame ⟨⟩
    refine ⟨fun more => ?_, rfl⟩
    rw [hrest, ← List.append_assoc, hinput, List.append_assoc, Header.behind,
      if_neg (by simp [hpayload]), ← hpayload, List.take_left, List.drop_left]
    rfl
  -- A payload that is not complete waits for more.
  have hwait {body : Option Bytes} (hshort : (body.getD []).length < header.len.toNat)
      (hinput : self.body.getD [] ++ input = body.getD []) :
      self.Keeps input ((⟨self.maxMessageLen, self.state, body⟩, [], .ok none) :
        Turn ι τ ρ (Option Frame)) := by
    refine ⟨?_, rfl, nofun, fun _ => ⟨fun more => ?_, rfl, header.wire ++ body.getD [], ?_⟩, nofun⟩
    · rw [Sound, hstate]
      refine ⟨hmax, fun bytes hbytes => ?_⟩
      obtain rfl : body = some bytes := hbytes
      exact hshort
    · rw [hrest, ← List.append_assoc, hinput]
      simp only [rest, hstate, List.nil_append]
    · simp only [rest, hstate, List.append_nil, Header.behind, if_pos hshort]
  unfold deliver
  dsimp only
  by_cases hzero : header.len.toNat = 0
  · have hnone : self.body = none := by
      cases hsome : self.body with
      | none => rfl
      | some body =>
        have := hbody body hsome
        omega
    rw [if_pos hzero, hnone]
    cases storage.chain with
    | error cause => exact keeps_self h input _
    | ok => exact hframe hzero.symm (by rw [hnone]; rfl)
  rw [if_neg hzero]
  by_cases hempty : input.isEmpty
  · obtain rfl := List.isEmpty_iff.mp hempty
    rw [if_pos hempty]
    have hshort : (self.body.getD []).length < header.len.toNat := by
      cases hsome : self.body with
      | none => simpa using Nat.pos_of_ne_zero hzero
      | some body => exact hbody body hsome
    exact hwait hshort (List.append_nil _)
  rw [if_neg hempty]
  by_cases hdirect : self.body.isNone ∧ header.len.toNat ≤ input.length
  · obtain ⟨hnone, hlen⟩ := hdirect
    rw [if_pos ⟨hnone, hlen⟩]
    cases hextend : self.extend storage (input.take header.len.toNat) with
    | error cause => exact keeps_self h input _
    | ok payload =>
      have hpayload := extend_eq_ok hextend
      rw [Option.isNone_iff_eq_none.mp hnone] at hpayload ⊢
      rw [hpayload]
      refine hframe (by simpa using hlen) ?_
      rw [Option.isNone_iff_eq_none.mp hnone]
      simp
  · rw [if_neg hdirect]
    have halready : (self.body.map List.length).getD 0 = (self.body.getD []).length := by
      cases self.body <;> rfl
    have hroom : (self.body.getD []).length ≤ header.len.toNat := by
      cases hsome : self.body with
      | none => simp
      | some body => exact (hbody body hsome).le
    cases hextend : self.extend storage (input.take (min (header.len.toNat -
        (self.body.map List.length).getD 0) input.length)) with
    | error cause => exact keeps_self h input _
    | ok body =>
      have hbytes := extend_eq_ok hextend
      have hlength := congrArg List.length hbytes
      rw [List.length_append, List.length_take, halready] at hlength
      dsimp only
      split
      next hcomplete =>
        refine hframe hcomplete ?_
        rw [hbytes, List.append_assoc, List.take_append_drop]
      next hpartial =>
        -- All of the input was taken.
        rw [halready, min_eq_right (by omega)] at hbytes ⊢
        rw [List.drop_length]
        rw [List.take_length] at hbytes
        exact hwait (by simp; omega) hbytes.symm

theorem length_of_firstChunk {bytes : Bytes} (h : firstChunk bytes = none) :
    bytes.length < headerLen := by
  unfold firstChunk at h
  split at h
  · contradiction
  next hother =>
    by_contra hlen
    match bytes, not_lt.mp hlen with
    | flag :: a :: b :: c :: d :: rest, _ => exact hother flag a b c d rest rfl

theorem eq_of_firstChunk {bytes : Bytes} {flag a b c d : UInt8}
    (h : firstChunk bytes = some (flag, a, b, c, d)) (hlen : bytes.length ≤ headerLen) :
    bytes = [flag, a, b, c, d] := by
  unfold firstChunk at h
  split at h
  next rest =>
    obtain ⟨rfl, rfl, rfl, rfl, rfl⟩ := by simpa using h
    obtain rfl : rest = [] := by
      simp only [headerLen, List.length_cons] at hlen
      exact List.eq_nil_of_length_eq_zero (by omega)
    rfl
  · contradiction

/-- What a header that is being collected does to the stream. -/
theorem collect_keeps {self : Deframer} {bytes : Bytes} (h : self.Sound)
    (hstate : self.state = .header bytes) (storage : Storage ι τ ρ) (input : Bytes) :
    match self.collect bytes storage input with
    | (next, tail, .error cause) =>
        self.Keeps input ((next, tail, .error cause) : Turn ι τ ρ (Option Frame))
    | (next, tail, .ok none) =>
        self.Keeps input ((next, tail, .ok none) : Turn ι τ ρ (Option Frame))
    | (next, tail, .ok (some header)) => next.Sound ∧ next.maxMessageLen = self.maxMessageLen ∧
        next.state = .body header ∧ tail.length < input.length ∧
        ∀ more, self.rest (input ++ more) = next.rest (tail ++ more) := by
  have hsound := h
  rw [Sound, hstate] at hsound
  obtain ⟨hshort, hbody⟩ := hsound
  have hrest (input : Bytes) : self.rest input = parse self.maxMessageLen (bytes ++ input) := by
    rw [rest, hstate]
  unfold collect
  by_cases hempty : input.isEmpty
  · obtain rfl := List.isEmpty_iff.mp hempty
    rw [if_pos hempty]
    refine ⟨h, rfl, nofun, fun _ => ⟨fun more => rfl, rfl, bytes, ?_⟩, nofun⟩
    rw [hrest, List.append_nil, parse_of_short hshort]
  rw [if_neg hempty]
  cases storage.copy with
  | error cause => exact keeps_self h input _
  | ok =>
    have hpos : 0 < input.length := by
      rwa [List.length_pos_iff, ne_eq, ← List.isEmpty_iff]
    -- The stream behind the bytes that were copied.
    have hcopied (more : Bytes) : self.rest (input ++ more) =
        parse self.maxMessageLen (bytes ++ input.take (min (headerLen - bytes.length) input.length) ++
          (input.drop (min (headerLen - bytes.length) input.length) ++ more)) := by
      rw [hrest, List.append_assoc, ← List.append_assoc (input.take _), List.take_append_drop]
    have hlength : (bytes ++ input.take (min (headerLen - bytes.length) input.length)).length =
        bytes.length + min (headerLen - bytes.length) input.length := by
      rw [List.length_append, List.length_take]
      omega
    dsimp only
    generalize htaken : bytes ++ input.take (min (headerLen - bytes.length) input.length) = taken
    rw [htaken] at hlength
    simp only [htaken] at hcopied
    cases hchunk : firstChunk taken with
    | some chunk =>
      obtain ⟨flag, a, b, c, d⟩ := chunk
      have hheader : taken = [flag, a, b, c, d] := eq_of_firstChunk hchunk (by omega)
      subst hheader
      dsimp only
      cases hnew : Header.tryNew flag a b c d self.maxMessageLen with
      | error failure =>
        refine ⟨trivial, rfl, nofun, nofun, fun _ _ more => ?_⟩
        rw [hcopied]
        exact parse_of_failed hnew _
      | ok header =>
        refine ⟨⟨(Header.wire_of_tryNew hnew).2, ?_⟩, rfl, rfl, ?_, fun more => ?_⟩
        · simp [hbody]
        · rw [List.length_drop]
          omega
        · rw [hcopied]
          simp only [rest, hbody]
          exact parse_of_header hnew _
    | none =>
      have hne := length_of_firstChunk hchunk
      have hall : min (headerLen - bytes.length) input.length = input.length := by omega
      rw [hall, List.drop_length] at hcopied ⊢
      have htaken' : taken.length < headerLen := by omega
      refine ⟨⟨htaken', hbody⟩, rfl, nofun, fun _ => ⟨fun more => ?_, rfl, taken, ?_⟩, nofun⟩
      · rw [hcopied]
        rfl
      · simp only [rest, List.append_nil]
        exact parse_of_short htaken'

/-- Every call takes a frame from the front of the stream or leaves the stream as it is. -/
theorem next_keeps {self : Deframer} (h : self.Sound) (storage : Storage ι τ ρ) (input : Bytes) :
    self.Keeps input (self.next storage input) := by
  unfold next
  split
  next failure hstate => exact keeps_self h input _
  next header hstate => exact deliver_keeps h hstate storage input
  next bytes hstate =>
    have hcollect := collect_keeps h hstate storage input
    split
    next next tail cause heq =>
      rw [heq] at hcollect
      exact hcollect
    next next tail heq =>
      rw [heq] at hcollect
      exact hcollect
    next next tail header heq =>
      rw [heq] at hcollect
      obtain ⟨hsound, hmax, hbody, -, hrest⟩ := hcollect
      have hdeliver := deliver_keeps hsound hbody storage tail
      refine ⟨hdeliver.sound, hdeliver.max.trans hmax, fun frame hframe => ?_, fun hnone => ?_,
        fun cause herror more => ?_⟩
      · obtain ⟨hdelivered, hdone⟩ := hdeliver.frame frame hframe
        exact ⟨fun more => (hrest more).trans (hdelivered more), hdone⟩
      · obtain ⟨hdelivered, hdone⟩ := hdeliver.none hnone
        exact ⟨fun more => (hrest more).trans (hdelivered more), hdone⟩
      · exact (hrest more).trans (hdeliver.error cause herror more)

theorem next_of_failed {self : Deframer} {failure : Failure} (h : self.state = .failed failure)
    (storage : Storage ι τ ρ) (input : Bytes) :
    self.next storage input = (self, input, .error (failure.error self.maxMessageLen)) := by
  rw [next, h]

/-! ## Calls that are not refused -/

theorem extend_granted (self : Deframer) (bytes : Bytes) :
    self.extend (Storage.granted : Storage ι τ ρ) bytes = .ok (self.body.getD [] ++ bytes) := by
  unfold extend
  cases self.body <;> rfl

theorem deliver_granted (self : Deframer) (header : Header) (input : Bytes) :
    ∃ frame, (self.deliver header (Storage.granted : Storage ι τ ρ) input).2.2 = .ok frame := by
  unfold deliver
  simp only [extend_granted]
  split_ifs
  all_goals exact ⟨_, rfl⟩

theorem collect_error {self next : Deframer} {bytes input tail : Bytes} {storage : Storage ι τ ρ}
    {cause : Error ι τ ρ} (h : self.collect bytes storage input = (next, tail, .error cause)) :
    (storage.copy ≠ .ok () ∧ next = self ∧ tail = input) ∨
      storage.copy = .ok () ∧ ∃ failure, next.state = .failed failure ∧ next.maxMessageLen = self.maxMessageLen ∧
        cause = failure.error self.maxMessageLen := by
  unfold collect at h
  split at h
  · simp at h
  split at h
  next hcopy =>
    obtain ⟨rfl, rfl, -⟩ := by simpa using h
    exact Or.inl ⟨by simp [hcopy], rfl, rfl⟩
  next hcopy =>
    dsimp only at h
    split at h
    · split at h
      next failure hnew =>
        obtain ⟨rfl, -, rfl⟩ := by simpa using h
        exact Or.inr ⟨hcopy, failure, rfl, rfl, rfl⟩
      · simp at h
    · simp at h

theorem collect_header {self next : Deframer} {bytes input tail : Bytes} {storage : Storage ι τ ρ}
    {header : Header} (h : self.collect bytes storage input = (next, tail, .ok (some header))) :
    storage.copy = .ok () ∧ next.state = .body header ∧ tail.length ≤ input.length ∧
      (bytes = [] → tail.length < input.length) := by
  unfold collect at h
  split at h
  · simp at h
  next hempty =>
    split at h
    · simp at h
    next hcopy =>
      dsimp only at h
      split at h
      · split at h
        · simp at h
        next header' hnew =>
          obtain ⟨rfl, rfl, rfl⟩ := by simpa using h
          have hpos : 0 < input.length := by
            rwa [List.length_pos_iff, ne_eq, ← List.isEmpty_iff]
          refine ⟨hcopy, rfl, by simp, ?_⟩
          rintro rfl
          simp only [headerLen, List.length_drop, List.length_nil]
          omega
      · simp at h

theorem deliver_error {self next : Deframer} {header : Header} {storage : Storage ι τ ρ}
    {input tail : Bytes} {cause : Error ι τ ρ}
    (h : self.deliver header storage input = (next, tail, .error cause)) :
    next = self ∧ tail = input := by
  unfold deliver at h
  dsimp only at h
  split_ifs at h
  all_goals try split at h
  all_goals try split_ifs at h
  all_goals simp_all

theorem next_granted {self next : Deframer} {input tail : Bytes} {cause : Error ι τ ρ}
    (h : self.next Storage.granted input = (next, tail, .error cause)) :
    ∃ failure, next.state = .failed failure ∧ next.maxMessageLen = self.maxMessageLen ∧
      cause = failure.error self.maxMessageLen := by
  have hdeliver (next' : Deframer) (header : Header) (tail' : Bytes) :
      next'.deliver header Storage.granted tail' ≠ (next, tail, .error cause) := by
    intro heq
    obtain ⟨frame, hframe⟩ := @deliver_granted ι τ ρ next' header tail'
    simp [heq] at hframe
  unfold Deframer.next at h
  split at h
  next failure hstate =>
    obtain ⟨rfl, -, hcause⟩ := by simpa using h
    exact ⟨failure, hstate, rfl, hcause.symm⟩
  next header hstate => exact absurd h (hdeliver _ _ _)
  next bytes hstate =>
    split at h
    next heq =>
      obtain ⟨rfl, rfl, rfl⟩ := by simpa using h
      rcases collect_error heq with ⟨hcopy, -⟩ | ⟨-, hfailed⟩
      · exact absurd rfl hcopy
      · exact hfailed
    · simp at h
    next heq => exact absurd h (hdeliver _ _ _)

theorem next_of_error {self next : Deframer} {storage : Storage ι τ ρ} {input tail : Bytes}
    {cause : Error ι τ ρ} (h : self.next storage input = (next, tail, .error cause))
    {again : Storage ι τ ρ} (hagain : again.copy = .ok ()) :
    next.next again tail = self.next again input := by
  unfold Deframer.next at h
  split at h
  next failure hstate =>
    obtain ⟨rfl, rfl, -⟩ := by simpa using h
    rfl
  next header hstate =>
    obtain ⟨rfl, rfl⟩ := deliver_error h
    rfl
  next bytes hstate =>
    -- What is collected does not depend on the rest of the storage.
    have hcollect (hcopy : storage.copy = .ok ()) :
        self.collect bytes again input = self.collect bytes storage input := by
      unfold collect
      rw [hcopy, hagain]
    split at h
    next failed tail' cause' heq =>
      obtain ⟨rfl, rfl, rfl⟩ := by simpa using h
      rcases collect_error heq with ⟨-, rfl, rfl⟩ | ⟨hcopy, failure, hfailed, hmax, hcause⟩
      · rfl
      · rw [next_of_failed hfailed, hmax, Deframer.next, hstate]
        simp only [hcollect hcopy, heq, hcause]
    · simp at h
    next collected tail' header heq =>
      obtain ⟨hcopy, hbody, -⟩ := collect_header heq
      obtain ⟨rfl, rfl⟩ := deliver_error h
      rw [Deframer.next, hbody, Deframer.next, hstate]
      simp only [hcollect hcopy, heq]

/-! ## All calls on an input -/

/-- What is left to be done with an input. -/
def weight (self : Deframer) : ℕ :=
  match self.state with
  | .header bytes => bytes.length
  | .body _ => 1
  | .failed _ => 0

theorem deliver_frame {self next : Deframer} {header : Header} {storage : Storage ι τ ρ}
    {input tail : Bytes} {frame : Frame}
    (h : self.deliver header storage input = (next, tail, .ok (some frame))) :
    next.weight = 0 ∧ tail.length ≤ input.length := by
  unfold deliver at h
  dsimp only at h
  split_ifs at h
  all_goals try split at h
  all_goals try split_ifs at h
  all_goals
    simp only [Prod.mk.injEq, reduceCtorEq, and_false, Except.ok.injEq] at h
  all_goals
    obtain ⟨rfl, rfl, -⟩ := h
    simp [weight, finish]

theorem weight_of_next {self next : Deframer} {storage : Storage ι τ ρ} {input tail : Bytes}
    {frame : Frame} (h : self.next storage input = (next, tail, .ok (some frame))) :
    2 * tail.length + next.weight < 2 * input.length + self.weight := by
  unfold Deframer.next at h
  split at h
  · simp at h
  next header hstate =>
    obtain ⟨hnext, htail⟩ := deliver_frame h
    have hself : self.weight = 1 := by rw [weight, hstate]
    omega
  next bytes hstate =>
    split at h
    · simp at h
    · simp at h
    next collected tail' header heq =>
      obtain ⟨-, -, hle, hlt⟩ := collect_header heq
      obtain ⟨hnext, htail⟩ := deliver_frame h
      have hself : self.weight = bytes.length := by rw [weight, hstate]
      rcases Nat.eq_zero_or_pos bytes.length with hbytes | hbytes
      · have := hlt (List.eq_nil_of_length_eq_zero hbytes)
        omega
      · omega

/-- The calls that take all frames from an input when nothing is refused: the frames, the deframer
behind them, and the error if there is one. -/
def drain (self : Deframer) (input : Bytes) :
    List Frame × Deframer × Option (Error ι τ ρ) :=
  match _ : self.next (Storage.granted : Storage ι τ ρ) input with
  | (next, tail, .ok (some frame)) =>
    let (frames, last, error) := next.drain tail
    (frame :: frames, last, error)
  | (next, _, .ok none) => ([], next, none)
  | (next, _, .error cause) => ([], next, some cause)
termination_by 2 * input.length + self.weight
decreasing_by exact weight_of_next ‹_›

/-- Draining an input gives the rest of the stream. -/
theorem drain_spec {self : Deframer} (h : self.Sound) (input : Bytes) :
    (self.drain input : List Frame × Deframer × Option (Error ι τ ρ)).1 = (self.rest input).1 ∧
      (self.drain input : List Frame × Deframer × Option (Error ι τ ρ)).2.2 =
        (self.rest input).2.error self.maxMessageLen ∧
      ∀ cause, (self.drain input : List Frame × Deframer × Option (Error ι τ ρ)).2.2 = some cause →
        ∀ (storage : Storage ι τ ρ) (more : Bytes),
          (self.drain input : List Frame × Deframer × Option (Error ι τ ρ)).2.1.next storage more =
            ((self.drain input : List Frame × Deframer × Option (Error ι τ ρ)).2.1, more,
              .error cause) := by
  -- Every frame leaves less to be done.
  induction hweight : 2 * input.length + self.weight using Nat.strong_induction_on
    generalizing self input with
  | _ _ ih =>
    have hkeeps := next_keeps h (Storage.granted : Storage ι τ ρ) input
    rw [drain]
    split
    next next tail frame hnext =>
      have hless := weight_of_next hnext
      rw [hnext] at hkeeps
      obtain ⟨hrest, -⟩ := hkeeps.frame frame rfl
      have hmore := hrest []
      rw [List.append_nil, List.append_nil] at hmore
      obtain ⟨hframes, herror, hlast⟩ := ih _ (hweight ▸ hless) hkeeps.sound tail rfl
      refine ⟨?_, ?_, hlast⟩
      · rw [hmore]
        exact congrArg (frame :: ·) hframes
      · rw [hmore, ← hkeeps.max]
        exact herror
    next next tail hnext =>
      rw [hnext] at hkeeps
      obtain ⟨hrest, rfl, bytes, hpending⟩ := hkeeps.none rfl
      have hmore := hrest []
      rw [List.append_nil] at hmore
      rw [hmore]
      simp only [List.append_nil]
      rw [hpending]
      exact ⟨rfl, rfl, nofun⟩
    next next tail cause hnext =>
      rw [hnext] at hkeeps
      obtain ⟨failure, hfailed, hmax, rfl⟩ := next_granted hnext
      have hmore := hkeeps.error _ rfl []
      rw [List.append_nil] at hmore
      rw [hmore]
      simp only [rest, hfailed]
      refine ⟨trivial, rfl, ?_⟩
      rintro _ ⟨rfl⟩ storage more
      rw [next_of_failed hfailed, hmax]

end Deframer

/-! ## Sessions -/

/-- What a reader of a stream does. -/
inductive Op (ι τ ρ : Type)
  | feed (chunk : Bytes)
  | call (storage : Storage ι τ ρ)

/-- The bytes of a stream, in the order of their arrival. -/
def Op.bytes : Op ι τ ρ → Bytes
  | .feed chunk => chunk
  | .call _ => []

/-- A deframer with the input that is before it and the frames that it gave. -/
structure Session where
  deframer : Deframer
  input : Bytes
  frames : List Frame

namespace Session

/-- One operation of a reader. A call that fails is not the end: the reader may call again. -/
def step (self : Session) : Op ι τ ρ → Session
  | .feed chunk => ⟨self.deframer, self.input ++ chunk, self.frames⟩
  | .call storage =>
    match self.deframer.next storage self.input with
    | (deframer, input, .ok (some frame)) => ⟨deframer, input, self.frames ++ [frame]⟩
    | (deframer, input, .ok none) => ⟨deframer, input, self.frames⟩
    | (deframer, input, .error _) => ⟨deframer, input, self.frames⟩

/-- A reader from the start of a stream. -/
def run (max : ℕ) (ops : List (Op ι τ ρ)) : Session :=
  ops.foldl step ⟨.new max, [], []⟩

/-- The frames that were given are those at the front of the stream. -/
structure Follows (limit : ℕ) (session : Session) (fed : Bytes) : Prop where
  sound : session.deframer.Sound
  max : session.deframer.maxMessageLen = limit
  rest : ∀ more, parse limit (fed ++ more) =
    (session.frames ++ (session.deframer.rest (session.input ++ more)).1,
      (session.deframer.rest (session.input ++ more)).2)

theorem follows_new (max : ℕ) : Follows max ⟨.new max, [], []⟩ [] :=
  ⟨⟨by simp [headerLen], rfl⟩, rfl, fun _ => rfl⟩

theorem Follows.step {max : ℕ} {self : Session} {fed : Bytes} (h : Follows max self fed)
    (op : Op ι τ ρ) : Follows max (self.step op) (fed ++ op.bytes) := by
  cases op with
  | feed chunk =>
    refine ⟨h.sound, h.max, fun more => ?_⟩
    simp only [Op.bytes, Session.step, List.append_assoc]
    exact h.rest (chunk ++ more)
  | call storage =>
    have hkeeps := Deframer.next_keeps h.sound storage self.input
    simp only [Op.bytes, List.append_nil, Session.step]
    split
    next deframer input frame hnext =>
      rw [hnext] at hkeeps
      refine ⟨hkeeps.sound, hkeeps.max.trans h.max, fun more => ?_⟩
      rw [h.rest, (hkeeps.frame frame rfl).1]
      simp [Frame.cons]
    next deframer input hnext =>
      rw [hnext] at hkeeps
      refine ⟨hkeeps.sound, hkeeps.max.trans h.max, fun more => ?_⟩
      rw [h.rest, (hkeeps.none rfl).1]
    next deframer input cause hnext =>
      rw [hnext] at hkeeps
      refine ⟨hkeeps.sound, hkeeps.max.trans h.max, fun more => ?_⟩
      rw [h.rest, hkeeps.error cause rfl]

theorem run_follows (max : ℕ) (ops : List (Op ι τ ρ)) :
    Follows max (run max ops) (ops.flatMap Op.bytes) := by
  -- The operations of a run are those before its last, and the last.
  induction ops using List.reverseRecOn with
  | nil => exact follows_new max
  | append_singleton ops op ih =>
    rw [run, List.foldl_append, List.flatMap_append]
    simpa [run] using ih.step op

end Session

/-- A message on the wire. -/
def Frame.wire (self : Frame) : Bytes :=
  header self.compression (UInt32.ofNat self.payload.length) ++ self.payload

theorem parse_wires {max : ℕ} {messages : List Frame}
    (h : ∀ message ∈ messages, message.payload.length ≤ max ∧ message.payload.length < 2 ^ 32) :
    parse max (messages.flatMap Frame.wire) = (messages, .pending []) := by
  induction messages with
  | nil => exact parse_of_short (by simp [headerLen])
  | cons message messages ih =>
    obtain ⟨hmax, hlen⟩ := h message List.mem_cons_self
    have hrest := ih fun other hother => h other (List.mem_cons_of_mem message hother)
    have hlength : (UInt32.ofNat message.payload.length).toNat = message.payload.length := by
      rw [UInt32.toNat_ofNat', Nat.mod_eq_of_lt hlen]
    rw [List.flatMap_cons, Frame.wire, List.append_assoc]
    refine (@parse_wire max ⟨UInt32.ofNat message.payload.length, message.compression⟩
      (hlength.trans_le hmax) _).trans ?_
    rw [Header.behind]
    simp only [hlength]
    rw [if_neg (by simp), List.take_left, List.drop_left, hrest]
    rfl

/-- Whatever the cuts of a stream, and whatever storage is refused on the way, a reader gets the
messages of the stream, each once and in order, and it is stopped where a header is rejected; then
it gets nothing more. A call that failed is repeated as if it had not been made. -/
theorem Session.run_deframes (max : ℕ) (ops : List (Op ι τ ρ)) :
    let stream := ops.flatMap Op.bytes
    let session := run max ops
    let drained : List Frame × Deframer × Option (Error ι τ ρ) :=
      session.deframer.drain session.input
    (session.frames ++ drained.1 = (parse max stream).1 ∧
      drained.2.2 = (parse max stream).2.error max) ∧
    (∀ messages : List Frame,
      (∀ message ∈ messages, message.payload.length ≤ max ∧ message.payload.length < 2 ^ 32) →
      stream = messages.flatMap Frame.wire →
      session.frames ++ drained.1 = messages ∧ drained.2.2 = none) ∧
    (∀ cause, drained.2.2 = some cause → ∀ (storage : Storage ι τ ρ) (input : Bytes),
      drained.2.1.next storage input = (drained.2.1, input, .error cause)) ∧
    (∀ (storage : Storage ι τ ρ) (deframer : Deframer) (input : Bytes) (cause : Error ι τ ρ),
      session.deframer.next storage session.input = (deframer, input, .error cause) →
      deframer.next (Storage.granted : Storage ι τ ρ) input =
        session.deframer.next Storage.granted session.input) := by
  intro stream session drained
  have hfollows : Follows max session stream := run_follows max ops
  have hrest := hfollows.rest []
  rw [List.append_nil, List.append_nil] at hrest
  obtain ⟨hframes, herror, hpermanent⟩ :=
    @Deframer.drain_spec ι τ ρ session.deframer hfollows.sound session.input
  rw [hfollows.max] at herror
  have hparse : session.frames ++ drained.1 = (parse max stream).1 ∧
      drained.2.2 = (parse max stream).2.error max := by
    rw [hrest]
    exact ⟨congrArg (session.frames ++ ·) hframes, herror⟩
  refine ⟨hparse, fun messages hmessages hstream => ?_, hpermanent, ?_⟩
  · rw [hstream, parse_wires hmessages] at hparse
    exact hparse
  · intro storage deframer input cause herror
    exact Deframer.next_of_error herror rfl

end Sark.Grpc
