import Sark.H2.Conn.Registry
import Sark.Library.BigEndian

/-!
# Frame headers

The header of an HTTP/2 frame (`h2/src/frame/layout.rs`, `h2/src/frame/numbers.rs`): nine bytes with
the length of the payload, the type, the flags and the stream, whose reserved bit is not read.

* `Header.wire_codec`: headers are read as they are written.
-/

namespace Sark.H2.Frame

/-- A byte string. -/
abbrev Bytes := List UInt8

/-- `HEADER_LEN`. -/
def headerLen : ℕ :=
  9

/-- `numbers::Length`. -/
@[ext]
structure Length where
  value : ℕ
  le : value ≤ 0x00ffffff
  deriving DecidableEq, Repr

theorem ofBytes_three_le (high middle low : UInt8) :
    BigEndian.ofBytes [high, middle, low] ≤ 0x00ffffff := by
  have hlt := BigEndian.ofBytes_lt [high, middle, low]
  simp only [List.length_cons, List.length_nil] at hlt
  omega

/-- `Length::from_wire`. -/
def Length.fromWire (high middle low : UInt8) : Length :=
  ⟨BigEndian.ofBytes [high, middle, low], ofBytes_three_le high middle low⟩

/-- `Length::wire_bytes`. -/
def Length.wireBytes (self : Length) : Bytes :=
  BigEndian.toBytes 3 self.value

/-- `numbers::Limit`, a maximum frame size that the settings admit. -/
structure Limit where
  value : ℕ
  ge : 16384 ≤ value
  le : value ≤ 0x00ffffff
  deriving DecidableEq, Repr

/-- `Limit::DEFAULT`. -/
def Limit.default : Limit :=
  ⟨16384, le_rfl, by decide⟩

/-- `Limit::take`. -/
def Limit.take (self : Limit) (left : ℕ) : Length :=
  ⟨min left self.value, (Nat.min_le_right _ _).trans self.le⟩

/-- `stream::Id`. -/
@[ext]
structure Id where
  raw : ℕ
  le : raw ≤ maxId
  deriving Repr

instance : DecidableEq Id :=
  fun first second => decidable_of_iff (first.raw = second.raw) Id.ext_iff.symm

/-- `Id::from_wire`. -/
def Id.fromWire (raw : ℕ) : Id :=
  ⟨raw &&& maxId, Nat.and_le_right⟩

/-- `Id::wire_bytes`. -/
def Id.wireBytes (self : Id) : Bytes :=
  BigEndian.toBytes 4 self.raw

/-- `numbers::Type`. -/
inductive Kind
  | data
  | headers
  | priority
  | rstStream
  | settings
  | pushPromise
  | ping
  | goAway
  | windowUpdate
  | continuation
  deriving DecidableEq, Repr

/-- `kind as u8`. -/
def Kind.code : Kind → UInt8
  | .data => 0x0
  | .headers => 0x1
  | .priority => 0x2
  | .rstStream => 0x3
  | .settings => 0x4
  | .pushPromise => 0x5
  | .ping => 0x6
  | .goAway => 0x7
  | .windowUpdate => 0x8
  | .continuation => 0x9

/-- `Type::from_u8`. -/
def Kind.fromU8 (byte : UInt8) : Except UInt8 Kind :=
  if byte = 0x0 then .ok .data
  else if byte = 0x1 then .ok .headers
  else if byte = 0x2 then .ok .priority
  else if byte = 0x3 then .ok .rstStream
  else if byte = 0x4 then .ok .settings
  else if byte = 0x5 then .ok .pushPromise
  else if byte = 0x6 then .ok .ping
  else if byte = 0x7 then .ok .goAway
  else if byte = 0x8 then .ok .windowUpdate
  else if byte = 0x9 then .ok .continuation
  else .error byte

/-- `Flags::END_STREAM`. -/
def endStream : UInt8 :=
  0x1

/-- `Flags::END_HEADERS`. -/
def endHeaders : UInt8 :=
  0x4

/-- `layout::Header`. -/
structure Header where
  length : Length
  kind : Kind
  flags : UInt8
  streamId : Id
  deriving DecidableEq, Repr

/-- `layout::Unknown`. -/
structure Unknown where
  length : Length
  actual : UInt8
  deriving DecidableEq, Repr

/-- `Header::wire_bytes`. -/
def Header.wireBytes (self : Header) : Bytes :=
  self.length.wireBytes ++ [self.kind.code, self.flags] ++ self.streamId.wireBytes

/-- `Header::read`. -/
def Header.read (b₀ b₁ b₂ b₃ b₄ b₅ b₆ b₇ b₈ : UInt8) : Except Unknown Header :=
  let length := Length.fromWire b₀ b₁ b₂
  match Kind.fromU8 b₃ with
  | .error actual => .error ⟨length, actual⟩
  | .ok kind => .ok ⟨length, kind, b₄, Id.fromWire (BigEndian.ofBytes [b₅, b₆, b₇, b₈])⟩

@[simp]
theorem Header.length_wireBytes (self : Header) : self.wireBytes.length = headerLen := by
  simp [wireBytes, Length.wireBytes, Id.wireBytes, headerLen]

@[simp]
theorem Kind.fromU8_code (kind : Kind) : Kind.fromU8 kind.code = .ok kind := by
  cases kind <;> rfl

theorem Kind.code_of_fromU8 {byte : UInt8} {kind : Kind} (h : Kind.fromU8 byte = .ok kind) :
    kind.code = byte := by
  unfold Kind.fromU8 at h
  split_ifs at h <;> cases h <;> subst_vars <;> rfl

theorem Length.fromWire_wireBytes (self : Length) :
    ∃ high middle low, self.wireBytes = [high, middle, low] ∧
      Length.fromWire high middle low = self := by
  have hlength : self.wireBytes.length = 3 := BigEndian.length_toBytes 3 self.value
  obtain ⟨high, middle, low, hbytes⟩ := List.length_eq_three.mp hlength
  refine ⟨high, middle, low, hbytes, ?_⟩
  ext
  show BigEndian.ofBytes [high, middle, low] = self.value
  rw [← hbytes, wireBytes, BigEndian.ofBytes_toBytes_of_lt]
  exact Nat.lt_of_le_of_lt self.le (by norm_num)

theorem Id.raw_fromWire (raw : ℕ) : (Id.fromWire raw).raw = raw % 2 ^ 31 :=
  Nat.and_two_pow_sub_one_eq_mod raw 31

theorem Id.fromWire_wireBytes (self : Id) :
    ∃ b₀ b₁ b₂ b₃, self.wireBytes = [b₀, b₁, b₂, b₃] ∧
      Id.fromWire (BigEndian.ofBytes [b₀, b₁, b₂, b₃]) = self := by
  have hraw : self.raw < 2 ^ 31 := Nat.lt_of_le_of_lt self.le (by norm_num [maxId])
  obtain ⟨b₀, b₁, b₂, b₃, hbytes⟩ : ∃ b₀ b₁ b₂ b₃, self.wireBytes = [b₀, b₁, b₂, b₃] := by
    simp [wireBytes, BigEndian.toBytes]
  refine ⟨b₀, b₁, b₂, b₃, hbytes, ?_⟩
  ext
  rw [← hbytes, wireBytes, BigEndian.ofBytes_toBytes_of_lt (by omega), raw_fromWire,
    Nat.mod_eq_of_lt hraw]

theorem Id.wireBytes_fromWire (b₀ b₁ b₂ b₃ : UInt8) :
    (Id.fromWire (BigEndian.ofBytes [b₀, b₁, b₂, b₃])).wireBytes = [b₀ &&& 0x7f, b₁, b₂, b₃] := by
  have hrest := BigEndian.ofBytes_lt [b₁, b₂, b₃]
  have hmask : (b₀ &&& 0x7f).toNat = b₀.toNat % 2 ^ 7 := by
    rw [UInt8.toNat_and]
    exact Nat.and_two_pow_sub_one_eq_mod b₀.toNat 7
  have hraw : BigEndian.ofBytes [b₀, b₁, b₂, b₃] % 2 ^ 31 =
      BigEndian.ofBytes [b₀ &&& 0x7f, b₁, b₂, b₃] := by
    rw [BigEndian.ofBytes, BigEndian.ofBytes.eq_2 (b₀ &&& 0x7f), hmask]
    simp only [List.length_cons, List.length_nil] at hrest ⊢
    omega
  rw [wireBytes, raw_fromWire, hraw]
  exact BigEndian.toBytes_ofBytes [b₀ &&& 0x7f, b₁, b₂, b₃]

theorem Header.read_wireBytes (header : Header) : ∃ b₀ b₁ b₂ b₃ b₄ b₅ b₆ b₇ b₈,
    header.wireBytes = [b₀, b₁, b₂, b₃, b₄, b₅, b₆, b₇, b₈] ∧
      Header.read b₀ b₁ b₂ b₃ b₄ b₅ b₆ b₇ b₈ = .ok header := by
  obtain ⟨b₀, b₁, b₂, hlength, hlengthBack⟩ := header.length.fromWire_wireBytes
  obtain ⟨b₅, b₆, b₇, b₈, hid, hidBack⟩ := header.streamId.fromWire_wireBytes
  refine ⟨b₀, b₁, b₂, header.kind.code, header.flags, b₅, b₆, b₇, b₈, ?_, ?_⟩
  · simp [wireBytes, hlength, hid]
  · simp only [read, Kind.fromU8_code, hlengthBack, hidBack]

/-- A header that is written is read back, and one that is read is written as the same bytes, but
for the reserved bit. -/
theorem Header.wire_codec :
    (∀ header : Header, ∃ b₀ b₁ b₂ b₃ b₄ b₅ b₆ b₇ b₈,
      header.wireBytes = [b₀, b₁, b₂, b₃, b₄, b₅, b₆, b₇, b₈] ∧
        Header.read b₀ b₁ b₂ b₃ b₄ b₅ b₆ b₇ b₈ = .ok header) ∧
    ∀ b₀ b₁ b₂ b₃ b₄ b₅ b₆ b₇ b₈ header, Header.read b₀ b₁ b₂ b₃ b₄ b₅ b₆ b₇ b₈ = .ok header →
      header.wireBytes = [b₀, b₁, b₂, b₃, b₄, b₅ &&& 0x7f, b₆, b₇, b₈] := by
  refine ⟨Header.read_wireBytes, fun b₀ b₁ b₂ b₃ b₄ b₅ b₆ b₇ b₈ header h => ?_⟩
  rw [read] at h
  cases hkind : Kind.fromU8 b₃ with
  | error actual => simp [hkind] at h
  | ok kind =>
    simp only [hkind, Except.ok.injEq] at h
    have hlength : (Length.fromWire b₀ b₁ b₂).wireBytes = [b₀, b₁, b₂] :=
      BigEndian.toBytes_ofBytes [b₀, b₁, b₂]
    rw [← h, wireBytes, hlength, Kind.code_of_fromU8 hkind, Id.wireBytes_fromWire]
    rfl

end Sark.H2.Frame
