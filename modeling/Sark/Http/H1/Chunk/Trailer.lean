import Sark.Http.H1.Chunk.Size
import Sark.Library.Fallible

/-!
# Trailer sections

The fields behind the last chunk (`http/src/h1/chunk/scan/state.rs`). `Trailer` reads them byte by
byte, up to the empty line that ends them, and refuses the fields that frame or route a message. It
recognises such a field by the names that the bytes read so far may still become.

* `Section`: the grammar of a trailer section.
* `Trailer.scanAll_iff`: the sections that are read to their end are those of the grammar, within
  the limits.
-/

namespace Sark

namespace Http

namespace Chunk

/-- `field::Error::is_text`. -/
def isText (byte : UInt8) : Bool :=
  (0x20 ≤ byte && byte != 0x7f) || byte == 0x09

namespace BannedField

/-- `Field::VALUES`. -/
def all : List BannedField :=
  [.contentLength, .transferEncoding, .host, .trailer, .connection, .keepAlive, .te, .upgrade,
    .proxyAuthenticate, .proxyAuthorization]

/-- `Field::NAMES`. -/
def name : BannedField → Bytes
  -- b"content-length"
  | .contentLength => [0x63, 0x6f, 0x6e, 0x74, 0x65, 0x6e, 0x74, 0x2d, 0x6c, 0x65, 0x6e, 0x67, 0x74,
    0x68]
  -- b"transfer-encoding"
  | .transferEncoding => [0x74, 0x72, 0x61, 0x6e, 0x73, 0x66, 0x65, 0x72, 0x2d, 0x65, 0x6e, 0x63,
    0x6f, 0x64, 0x69, 0x6e, 0x67]
  -- b"host"
  | .host => [0x68, 0x6f, 0x73, 0x74]
  -- b"trailer"
  | .trailer => [0x74, 0x72, 0x61, 0x69, 0x6c, 0x65, 0x72]
  -- b"connection"
  | .connection => [0x63, 0x6f, 0x6e, 0x6e, 0x65, 0x63, 0x74, 0x69, 0x6f, 0x6e]
  -- b"keep-alive"
  | .keepAlive => [0x6b, 0x65, 0x65, 0x70, 0x2d, 0x61, 0x6c, 0x69, 0x76, 0x65]
  -- b"te"
  | .te => [0x74, 0x65]
  -- b"upgrade"
  | .upgrade => [0x75, 0x70, 0x67, 0x72, 0x61, 0x64, 0x65]
  -- b"proxy-authenticate"
  | .proxyAuthenticate => [0x70, 0x72, 0x6f, 0x78, 0x79, 0x2d, 0x61, 0x75, 0x74, 0x68, 0x65, 0x6e,
    0x74, 0x69, 0x63, 0x61, 0x74, 0x65]
  -- b"proxy-authorization"
  | .proxyAuthorization => [0x70, 0x72, 0x6f, 0x78, 0x79, 0x2d, 0x61, 0x75, 0x74, 0x68, 0x6f, 0x72,
    0x69, 0x7a, 0x61, 0x74, 0x69, 0x6f, 0x6e]

/-- `Field::get`, on a set of fields: the only one left, if its name has the right length. -/
def get (set : List BannedField) (len : ℕ) : Option BannedField :=
  match set with
  | [field] => if field.name.length = len then some field else none
  | _ => none

end BannedField

/-- `state::Stage`. -/
inductive TrailerStage
  | lineStart
  | name
  | value
  | lineLf
  | finalLf
  deriving DecidableEq, Repr

/-- `state::State`. The counts are `u32`s; the candidates are a set of fields, a `u16` of bits in
the source. -/
structure Trailer where
  bytes : ℕ
  fields : ℕ
  nameLen : ℕ
  candidates : List BannedField
  stage : TrailerStage
  deriving DecidableEq, Repr

namespace Trailer

/-- `State::new`. -/
def new : Trailer :=
  ⟨0, 0, 0, BannedField.all, .lineStart⟩

/-- `State::matching`. -/
def matching (set : List BannedField) (index : ℕ) (byte : UInt8) : List BannedField :=
  set.filter fun field =>
    match field.name[index]? with
    | some expected => toAsciiLowercase expected == toAsciiLowercase byte
    | none => false

/-- `State::start`. -/
def start (self : Trailer) (byte : UInt8) (offset : ℕ) : Except Error Trailer :=
  if byte = 0x0d then .ok { self with stage := .finalLf }
  else if isNameByte byte then
    .ok { self with
      nameLen := 1, candidates := matching BannedField.all 0 byte, stage := .name }
  else .error (.unexpected offset .trailerStart byte)

/-- `State::name`. -/
def name (self : Trailer) (byte : UInt8) (offset : ℕ) : Except Error Trailer :=
  if byte = 0x3a then
    match BannedField.get self.candidates self.nameLen with
    | some field => .error (.forbidden offset field)
    | none => .ok { self with stage := .value }
  else if isNameByte byte then
    .ok { self with
      nameLen := (self.nameLen + 1) % 2 ^ 32
      candidates := matching self.candidates self.nameLen byte }
  else .error (.unexpected offset .trailerName byte)

/-- `State::value`. -/
def value (self : Trailer) (byte : UInt8) (offset : ℕ) : Except Error Trailer :=
  if byte = 0x0d then .ok { self with stage := .lineLf }
  else if isText byte then .ok self
  else .error (.unexpected offset .trailerValue byte)

/-- `State::line_lf`. -/
def lineLf (self : Trailer) (byte : UInt8) (offset : ℕ) (limits : Limit) :
    Except Error Trailer :=
  if byte ≠ 0x0a then .error (.unexpected offset .trailerLf byte)
  else
    let fields := (self.fields + 1) % 2 ^ 32
    if limits.trailerFields < fields then .error (.limit .fields fields limits.trailerFields)
    else .ok { self with
      fields, nameLen := 0, candidates := BannedField.all, stage := .lineStart }

/-- `State::scan`: the next state, or the length of the section that the byte ends. -/
def scan (self : Trailer) (byte : UInt8) (offset : ℕ) (limits : Limit) :
    Except Error (ℕ ⊕ Trailer) :=
  if 2 ^ 32 ≤ self.bytes + 1 then .error (.overflow .trailer self.bytes 1)
  else if limits.trailerBytes < self.bytes + 1 then
    .error (.limit .trailer (self.bytes + 1) limits.trailerBytes)
  else
    let next := { self with bytes := self.bytes + 1 }
    match self.stage with
    | .lineStart => (next.start byte offset).map .inr
    | .name => (next.name byte offset).map .inr
    | .value => (next.value byte offset).map .inr
    | .lineLf => (next.lineLf byte offset limits).map .inr
    | .finalLf =>
      if byte ≠ 0x0a then .error (.unexpected offset .trailerEnd byte)
      else .ok (.inl (self.bytes + 1))

end Trailer

/-! ## The grammar of a trailer section -/

/-- A field line without its CRLF, with a name that a trailer section may have. -/
inductive FieldLine : Bytes → Prop
  | mk {name value : Bytes} : Value.Token name →
      (∀ field : BannedField, eqIgnoreAsciiCase field.name name = false) →
      (∀ byte ∈ value, isText byte = true) → FieldLine (name ++ 0x3a :: value)

/-- The field lines of a section, with their CRLFs, and their number. -/
inductive FieldLines : Bytes → ℕ → Prop
  | nil : FieldLines [] 0
  | cons {line rest : Bytes} {count : ℕ} : FieldLine line → FieldLines rest count →
      FieldLines (line ++ 0x0d :: 0x0a :: rest) (count + 1)

/-- A trailer section: field lines within the limits, and an empty line. -/
def Section (limits : Limit) (bytes : Bytes) : Prop :=
  ∃ lines count, bytes = lines ++ [0x0d, 0x0a] ∧ FieldLines lines count ∧
    bytes.length ≤ limits.trailerBytes ∧ bytes.length < 2 ^ 32 ∧ count ≤ limits.trailerFields

/-! ## Names that may not be in a section -/

namespace BannedField

/-- The bytes of a name read so far are the first ones of the name of a field. -/
def spells (field : BannedField) (read : Bytes) : Bool :=
  decide (read.length ≤ field.name.length) && eqIgnoreAsciiCase (field.name.take read.length) read

theorem spells_name {field : BannedField} {name : Bytes}
    (h : eqIgnoreAsciiCase field.name name = true) :
    (fun other : BannedField => other.spells name) = fun other => other.spells field.name := by
  have hname : field.name.map toAsciiLowercase = name.map toAsciiLowercase := by
    simpa [eqIgnoreAsciiCase] using h
  have hlength : field.name.length = name.length := by
    simpa using congrArg List.length hname
  funext other
  simp only [spells, eqIgnoreAsciiCase, hname, hlength]

theorem filter_spells_name (field : BannedField) :
    all.filter (fun other => other.spells field.name) = [field] := by
  cases field <;> decide

/-- The fields whose names begin with the bytes read so far tell whether these are the name of
one. -/
theorem get_eq_none_iff (name : Bytes) :
    get (all.filter fun field => field.spells name) name.length = none ↔
      ∀ field : BannedField, eqIgnoreAsciiCase field.name name = false := by
  constructor
  · intro h field
    by_contra hname
    rw [Bool.not_eq_false] at hname
    have hlength : field.name.length = name.length := by
      have hmap : field.name.map toAsciiLowercase = name.map toAsciiLowercase := by
        simpa [eqIgnoreAsciiCase] using hname
      simpa using congrArg List.length hmap
    rw [spells_name hname, filter_spells_name, get, if_pos hlength] at h
    cases h
  · intro h
    unfold get
    split
    · next field hset =>
      rw [if_neg]
      intro hlength
      have hmem : field ∈ all.filter fun field => field.spells name := by
        rw [hset]
        exact List.mem_cons_self
      have hspells := (List.mem_filter.mp hmem).2
      rw [spells, Bool.and_eq_true, ← hlength, List.take_length] at hspells
      rw [h field] at hspells
      cases hspells.2
    · rfl

theorem matching_spells (read : Bytes) (byte : UInt8) :
    Trailer.matching (all.filter fun field => field.spells read) read.length byte =
      all.filter fun field => field.spells (read ++ [byte]) := by
  unfold Trailer.matching
  rw [List.filter_filter]
  congr 1
  funext field
  cases hget : field.name[read.length]? with
  | none =>
    have hle := List.getElem?_eq_none_iff.mp hget
    have hlt : ¬ read.length + 1 ≤ field.name.length := by omega
    simp [spells, hlt]
  | some expected =>
    obtain ⟨hlt, rfl⟩ := List.getElem?_eq_some_iff.mp hget
    have hle : read.length ≤ field.name.length := by omega
    simp only [spells, List.length_append, List.length_singleton, hle, hlt, Nat.succ_le_iff,
      decide_true, Bool.true_and, eqIgnoreAsciiCase, List.map_append, List.map_take,
      List.map_cons, List.map_nil]
    rw [List.take_succ_eq_append_getElem (by simpa using hlt), List.getElem_map]
    have hlength : ((field.name.map toAsciiLowercase).take read.length).length =
        (read.map toAsciiLowercase).length := by simp [hle]
    rw [Bool.eq_iff_iff]
    simp only [Bool.and_eq_true, beq_iff_eq]
    constructor
    · rintro ⟨hbyte, hread⟩
      rw [hbyte, hread]
    · intro happend
      obtain ⟨hread, hbyte⟩ := List.append_inj happend hlength
      exact ⟨List.singleton_inj.mp hbyte, hread⟩

end BannedField

/-! ## The stages read the grammar -/

namespace Trailer

/-- A list of bytes of which exactly the last one ends the section, and the length of the
section. -/
def scanAll (limits : Limit) (self : Trailer) : Bytes → Option ℕ
  | [] => none
  | byte :: bytes =>
    match self.scan byte 0 limits with
    | .error _ => none
    | .ok (.inl length) => if bytes.isEmpty then some length else none
    | .ok (.inr next) => next.scanAll limits bytes

/-- What the state records of the part of a name that was read. -/
structure Named (state : Trailer) (read : Bytes) : Prop where
  token : Value.Token read
  candidates : state.candidates = BannedField.all.filter fun field => field.spells read
  nameLen : state.nameLen = read.length
  length_le : read.length ≤ state.bytes

/-- The field lines that may follow, up to the empty line. -/
def LinesRest (limits : Limit) (fields : ℕ) (bytes : Bytes) : Prop :=
  ∃ lines count, bytes = lines ++ [0x0d, 0x0a] ∧ FieldLines lines count ∧
    fields + count ≤ limits.trailerFields

/-- What may follow each stage, behind the part of a name that was read. -/
def Rest (limits : Limit) (self : Trailer) (read bytes : Bytes) : Prop :=
  match self.stage with
  | .lineStart => LinesRest limits self.fields bytes
  | .name => ∃ more value rest, self.Named read ∧
      (∀ byte ∈ more, isNameByte byte = true) ∧
      (∀ field : BannedField, eqIgnoreAsciiCase field.name (read ++ more) = false) ∧
      (∀ byte ∈ value, isText byte = true) ∧ LinesRest limits (self.fields + 1) rest ∧
      bytes = more ++ 0x3a :: (value ++ 0x0d :: 0x0a :: rest)
  | .value => ∃ value rest, (∀ byte ∈ value, isText byte = true) ∧
      LinesRest limits (self.fields + 1) rest ∧ bytes = value ++ 0x0d :: 0x0a :: rest
  | .lineLf => ∃ rest, LinesRest limits (self.fields + 1) rest ∧ bytes = 0x0a :: rest
  | .finalLf => bytes = [0x0a]

/-- There is room for a list of bytes, in the limit and in the count; fields are counted among the
bytes. -/
structure Room (limits : Limit) (state : Trailer) (bytes : Bytes) : Prop where
  limit : state.bytes + bytes.length ≤ limits.trailerBytes
  count : state.bytes + bytes.length < 2 ^ 32
  fields_le : state.fields ≤ state.bytes

/-- The name that has been read is the name of a field that a section may have, and the state says
so. -/
theorem Named.get_iff {self : Trailer} {read : Bytes} (h : self.Named read) :
    BannedField.get self.candidates self.nameLen = none ↔
      ∀ field : BannedField, eqIgnoreAsciiCase field.name read = false := by
  rw [h.candidates, h.nameLen]
  exact BannedField.get_eq_none_iff read

theorem Named.extend {self next : Trailer} {read : Bytes} (h : self.Named read) {byte : UInt8}
    (hbyte : isNameByte byte = true) (hcount : self.bytes + 1 < 2 ^ 32)
    (hnext : next = { self with
      bytes := self.bytes + 1
      nameLen := (self.nameLen + 1) % 2 ^ 32
      candidates := matching self.candidates self.nameLen byte }) :
    next.Named (read ++ [byte]) := by
  subst hnext
  have hle := h.length_le
  refine ⟨⟨by simp, ?_⟩, ?_, ?_, ?_⟩
  · intro other hother
    rcases List.mem_append.mp hother with hother | hother
    · exact h.token.2 other hother
    · exact List.mem_singleton.mp hother ▸ hbyte
  · rw [h.candidates, h.nameLen]
    exact BannedField.matching_spells read byte
  · simp only [h.nameLen, List.length_append, List.length_singleton]
    exact Nat.mod_eq_of_lt (by omega)
  · simp only [List.length_append, List.length_singleton]
    omega

theorem named_first {next : Trailer} {byte : UInt8} (hbyte : isNameByte byte = true)
    (hcandidates : next.candidates = matching BannedField.all 0 byte) (hlen : next.nameLen = 1)
    (hbytes : 1 ≤ next.bytes) : next.Named [byte] := by
  refine ⟨⟨by simp, by simpa using hbyte⟩, hcandidates.trans ?_, hlen, hbytes⟩
  have hmatch := BannedField.matching_spells [] byte
  have hall : (BannedField.all.filter fun field => field.spells []) = BannedField.all := by decide
  rw [hall] at hmatch
  exact hmatch

/-- One byte of a section: the state goes on to what may follow, or the section ends. -/
theorem scan_rest {limits : Limit} {self : Trailer} {read : Bytes} {byte : UInt8} {bytes : Bytes}
    (hrest : Rest limits self read (byte :: bytes)) (hroom : Room limits self (byte :: bytes)) :
    (∃ next read', self.scan byte 0 limits = .ok (.inr next) ∧ Rest limits next read' bytes ∧
      next.bytes = self.bytes + 1 ∧ next.fields ≤ next.bytes) ∨
    self.scan byte 0 limits = .ok (.inl (self.bytes + 1)) ∧ bytes = [] := by
  obtain ⟨hlimit, hcount, hfields⟩ := hroom
  rw [List.length_cons] at hlimit hcount
  have hoverflow : ¬ 2 ^ 32 ≤ self.bytes + 1 := by omega
  have hbound : ¬ limits.trailerBytes < self.bytes + 1 := by omega
  have hcounted : self.fields ≤ self.bytes + 1 := by omega
  unfold scan
  rw [if_neg hoverflow, if_neg hbound]
  obtain ⟨count, fields, nameLen, candidates, stage⟩ := self
  cases stage with
  | lineStart =>
    obtain ⟨lines, lineCount, hbytes, hlines, hmax⟩ := hrest
    cases hlines with
    | nil =>
      obtain ⟨rfl, rfl⟩ := List.cons.inj hbytes
      exact .inl ⟨⟨count + 1, fields, nameLen, candidates, .finalLf⟩, read, rfl, rfl, rfl, hcounted⟩
    | @cons line rest lineCount hline hrest =>
      obtain @⟨name, value, ⟨hne, hname⟩, hfree, htext⟩ := hline
      cases name with
      | nil => exact absurd rfl hne
      | cons first more =>
        obtain ⟨rfl, rfl⟩ := List.cons.inj hbytes
        have hfirst := hname byte List.mem_cons_self
        have hcr : byte ≠ 0x0d := by rintro rfl; simp [isNameByte, isAsciiAlphanumeric] at hfirst
        refine .inl ⟨⟨count + 1, fields, 1, matching BannedField.all 0 byte, .name⟩, [byte],
          by simp [start, hcr, hfirst, Except.map], ?_, rfl, hcounted⟩
        refine ⟨more, value, rest ++ [0x0d, 0x0a], named_first hfirst rfl rfl (Nat.le_add_left _ _), ?_, hfree,
          htext, ⟨rest, lineCount, rfl, hrest, ?_⟩, by simp⟩
        · exact fun other hother => hname other (List.mem_cons_of_mem _ hother)
        · simp only at hmax ⊢
          omega
  | name =>
    obtain ⟨more, value, rest, hnamed, hmore, hfree, htext, hlines, hbytes⟩ := hrest
    cases more with
    | nil =>
      obtain ⟨rfl, rfl⟩ := List.cons.inj hbytes
      rw [List.append_nil] at hfree
      have hget : BannedField.get candidates nameLen = none := hnamed.get_iff.mpr hfree
      exact .inl ⟨⟨count + 1, fields, nameLen, candidates, .value⟩, read,
        by simp [name, hget, Except.map], ⟨value, rest, htext, hlines, rfl⟩, rfl, hcounted⟩
    | cons first more =>
      obtain ⟨rfl, rfl⟩ := List.cons.inj hbytes
      have hfirst := hmore byte List.mem_cons_self
      have hcolon : byte ≠ 0x3a := by rintro rfl; simp [isNameByte, isAsciiAlphanumeric] at hfirst
      refine .inl ⟨⟨count + 1, fields, (nameLen + 1) % 2 ^ 32, matching candidates nameLen byte,
        .name⟩, read ++ [byte], by simp [name, hcolon, hfirst, Except.map], ?_, rfl, hcounted⟩
      refine ⟨more, value, rest,
        hnamed.extend hfirst (by simp only at hcount ⊢; omega) rfl, ?_, ?_, htext, hlines, rfl⟩
      · exact fun other hother => hmore other (List.mem_cons_of_mem _ hother)
      · simpa using hfree
  | value =>
    obtain ⟨value, rest, htext, hlines, hbytes⟩ := hrest
    cases value with
    | nil =>
      obtain ⟨rfl, rfl⟩ := List.cons.inj hbytes
      exact .inl ⟨⟨count + 1, fields, nameLen, candidates, .lineLf⟩, read,
        by simp [Trailer.value, Except.map], ⟨rest, hlines, rfl⟩, rfl, hcounted⟩
    | cons first more =>
      obtain ⟨rfl, rfl⟩ := List.cons.inj hbytes
      have hfirst := htext byte List.mem_cons_self
      have hcr : byte ≠ 0x0d := by rintro rfl; simp [isText] at hfirst
      exact .inl ⟨⟨count + 1, fields, nameLen, candidates, .value⟩, read,
        by simp [Trailer.value, hcr, hfirst, Except.map],
        ⟨more, rest, fun other hother => htext other (List.mem_cons_of_mem _ hother), hlines, rfl⟩,
        rfl, hcounted⟩
  | lineLf =>
    obtain ⟨rest, hlines, hbytes⟩ := hrest
    obtain ⟨rfl, rfl⟩ := List.cons.inj hbytes
    simp only at hfields hcount
    have hmod : (fields + 1) % 2 ^ 32 = fields + 1 := Nat.mod_eq_of_lt (by omega)
    have hmax : ¬ limits.trailerFields < fields + 1 := by
      obtain ⟨lines, lineCount, -, -, hmax⟩ := hlines
      simp only at hmax
      omega
    refine .inl ⟨⟨count + 1, fields + 1, 0, BannedField.all, .lineStart⟩, read, ?_, hlines, rfl,
      Nat.succ_le_succ hfields⟩
    simp only [lineLf, hmod, ne_eq, not_true_eq_false, ↓reduceIte, if_neg hmax, Except.map]
  | finalLf =>
    obtain ⟨rfl, rfl⟩ := List.cons.inj (show byte :: bytes = [0x0a] from hrest)
    exact .inr ⟨rfl, rfl⟩

/-- What a byte leads to goes behind it: the other direction of `scan_rest`. -/
theorem rest_of_scan {limits : Limit} {self next : Trailer} {read : Bytes} {byte : UInt8}
    (h : self.scan byte 0 limits = .ok (.inr next)) (hfields : self.fields ≤ self.bytes)
    (hallowed : self.fields ≤ limits.trailerFields)
    (hnamed : self.stage = .name → self.Named read) :
    self.bytes + 1 < 2 ^ 32 ∧ self.bytes + 1 ≤ limits.trailerBytes ∧
      next.bytes = self.bytes + 1 ∧ next.fields ≤ next.bytes ∧ next.fields ≤ limits.trailerFields ∧
      ∃ read', (next.stage = .name → next.Named read') ∧
        ∀ bytes, Rest limits next read' bytes → Rest limits self read (byte :: bytes) := by
  obtain ⟨count, fields, nameLen, candidates, stage⟩ := self
  unfold scan at h
  split at h
  · cases h
  next hoverflow =>
  split at h
  · cases h
  next hbound =>
  simp only at hoverflow hbound hfields
  refine ⟨by simp only; omega, by simp only; omega, ?_⟩
  have hcounted : fields ≤ count + 1 := by omega
  cases stage with
  | lineStart =>
    simp only [start] at h
    split_ifs at h with hcr hfirst
    · cases h
      refine ⟨rfl, hcounted, hallowed, read, by simp, ?_⟩
      rintro bytes hrest
      obtain rfl : bytes = [0x0a] := hrest
      subst hcr
      exact ⟨[], 0, rfl, .nil, hallowed⟩
    · cases h
      refine ⟨rfl, hcounted, hallowed, [byte], fun _ => named_first hfirst rfl rfl (Nat.le_add_left _ _), ?_⟩
      rintro bytes ⟨more, value, rest, hnext, hmore, hfree, htext,
        ⟨lines, lineCount, rfl, hlines, hmax⟩, rfl⟩
      have hline : FieldLine (byte :: more ++ 0x3a :: value) :=
        .mk (Size.token_cons hfirst hmore) hfree htext
      refine ⟨_, lineCount + 1, ?_, .cons hline hlines, ?_⟩
      · simp
      · simp only at hmax ⊢
        omega
    · cases h
  | name =>
    simp only [name] at h
    split_ifs at h with hcolon hfirst
    · subst hcolon
      split at h
      · cases h
      next hget =>
      cases h
      refine ⟨rfl, hcounted, hallowed, read, by simp, ?_⟩
      rintro bytes ⟨value, rest, htext, hlines, rfl⟩
      refine ⟨[], value, rest, hnamed rfl, by simp, ?_, htext, hlines, rfl⟩
      rw [List.append_nil]
      exact (hnamed rfl).get_iff.mp hget
    · cases h
      have hnext := (hnamed rfl).extend hfirst (by simp only; omega) rfl
      refine ⟨rfl, hcounted, hallowed, read ++ [byte], fun _ => hnext, ?_⟩
      rintro bytes ⟨more, value, rest, -, hmore, hfree, htext, hlines, rfl⟩
      refine ⟨byte :: more, value, rest, hnamed rfl, (Size.token_cons hfirst hmore).2, ?_, htext,
        hlines, rfl⟩
      simpa using hfree
    · cases h
  | value =>
    simp only [Trailer.value] at h
    split_ifs at h with hcr htext
    · cases h
      refine ⟨rfl, hcounted, hallowed, read, by simp, ?_⟩
      rintro bytes ⟨rest, hlines, rfl⟩
      exact ⟨[], rest, by simp, hlines, by rw [hcr]; rfl⟩
    · cases h
      refine ⟨rfl, hcounted, hallowed, read, by simp, ?_⟩
      rintro bytes ⟨value, rest, hvalue, hlines, rfl⟩
      refine ⟨byte :: value, rest, ?_, hlines, rfl⟩
      exact List.forall_mem_cons.mpr ⟨htext, hvalue⟩
    · cases h
  | lineLf =>
    simp only [lineLf] at h
    split_ifs at h with hlf hmax
    · cases h
    · cases h
    · cases h
      have hmod : (fields + 1) % 2 ^ 32 = fields + 1 := Nat.mod_eq_of_lt (by omega)
      refine ⟨rfl, by simp only [hmod]; omega, not_lt.mp hmax, read, by simp, ?_⟩
      rintro bytes hrest
      rw [not_not] at hlf
      refine ⟨bytes, ?_, by rw [hlf]⟩
      simpa only [Rest, hmod] using hrest
  | finalLf =>
    simp only at h
    split_ifs at h
    cases h

theorem length_of_end {limits : Limit} {self : Trailer} {byte : UInt8} {length : ℕ}
    (h : self.scan byte 0 limits = .ok (.inl length)) :
    self.stage = .finalLf ∧ byte = 0x0a ∧ length = self.bytes + 1 ∧ self.bytes + 1 < 2 ^ 32 ∧
      self.bytes + 1 ≤ limits.trailerBytes := by
  unfold scan at h
  split at h
  · cases h
  next hoverflow =>
  split at h
  · cases h
  next hbound =>
  have hstage : self.stage = .finalLf := by
    by_contra hstage
    cases hcase : self.stage with
    | finalLf => exact hstage hcase
    | _ =>
      rw [hcase] at h
      obtain ⟨_, -, hsum⟩ := Except.map_eq_ok_iff.mp h
      cases hsum
  rw [hstage] at h
  simp only at h
  split_ifs at h with hlf
  cases h
  exact ⟨hstage, not_not.mp hlf, rfl, by omega, by omega⟩

theorem rest_of_scanAll (read : Bytes) {limits : Limit} {self : Trailer} {bytes : Bytes}
    {length : ℕ}
    (h : self.scanAll limits bytes = some length) (hfields : self.fields ≤ self.bytes)
    (hallowed : self.fields ≤ limits.trailerFields)
    (hnamed : self.stage = .name → self.Named read) :
    Rest limits self read bytes ∧ Room limits self bytes ∧ length = self.bytes + bytes.length := by
  induction bytes generalizing self read with
  | nil => cases h
  | cons byte bytes ih =>
    unfold scanAll at h
    cases hscan : self.scan byte 0 limits with
    | error error => simp [hscan] at h
    | ok result =>
      simp only [hscan] at h
      cases result with
      | inl ended =>
        obtain ⟨hstage, rfl, rfl, hcount, hlimit⟩ := length_of_end hscan
        simp only at h
        split_ifs at h with hempty
        obtain rfl := List.isEmpty_iff.mp hempty
        refine ⟨?_, ⟨hlimit, hcount, hfields⟩, (Option.some.inj h).symm⟩
        rw [Rest, hstage]
      | inr next =>
        obtain ⟨-, -, hbytes, hfields', hallowed', read', hnamed', hrest⟩ :=
          rest_of_scan hscan hfields hallowed hnamed
        obtain ⟨hnext, hroom, rfl⟩ := ih read' h hfields' hallowed' hnamed'
        have hlimit := hroom.limit
        have hcount := hroom.count
        rw [hbytes] at hlimit hcount
        refine ⟨hrest bytes hnext, ⟨?_, ?_, hfields⟩, ?_⟩
        · rw [List.length_cons]
          omega
        · rw [List.length_cons]
          omega
        · rw [List.length_cons, hbytes]
          omega

theorem scanAll_of_rest {limits : Limit} {self : Trailer} {read bytes : Bytes}
    (hrest : Rest limits self read bytes) (hroom : Room limits self bytes) :
    self.scanAll limits bytes = some (self.bytes + bytes.length) := by
  induction bytes generalizing self read with
  | nil =>
    exfalso
    cases hstage : self.stage <;> rw [Rest, hstage] at hrest
    · obtain ⟨lines, count, hbytes, -⟩ := hrest
      simp at hbytes
    · obtain ⟨more, value, rest, -, -, -, -, -, hbytes⟩ := hrest
      simp at hbytes
    · obtain ⟨value, rest, -, -, hbytes⟩ := hrest
      simp at hbytes
    · obtain ⟨rest, -, hbytes⟩ := hrest
      cases hbytes
    · cases hrest
  | cons byte bytes ih =>
    unfold scanAll
    rcases scan_rest hrest hroom with ⟨next, read', hscan, hnext, hbytes, hfields⟩ | ⟨hscan, rfl⟩
    · have hlimit := hroom.limit
      have hcount := hroom.count
      rw [List.length_cons] at hlimit hcount
      have hroom' : Room limits next bytes := ⟨by omega, by omega, hfields⟩
      simp only [hscan, ih hnext hroom', hbytes, List.length_cons]
      congr 1
      omega
    · simp [hscan]

/-- The sections that are read to their end are those of the grammar, within the limits. -/
theorem scanAll_iff {limits : Limit} {bytes : Bytes} {length : ℕ} :
    new.scanAll limits bytes = some length ↔ Section limits bytes ∧ length = bytes.length := by
  have hstart : ∀ read, Rest limits new read bytes ↔ LinesRest limits 0 bytes := fun _ => Iff.rfl
  constructor
  · intro h
    obtain ⟨hrest, hroom, rfl⟩ := rest_of_scanAll [] h le_rfl (Nat.zero_le _)
      (by simp [new])
    obtain ⟨lines, count, hbytes, hlines, hmax⟩ := (hstart []).mp hrest
    have hlimit := hroom.limit
    have hcount := hroom.count
    simp only [new, Nat.zero_add] at hlimit hcount hmax ⊢
    exact ⟨⟨lines, count, hbytes, hlines, hlimit, hcount, hmax⟩, trivial⟩
  · rintro ⟨⟨lines, count, hbytes, hlines, hlimit, hcount, hmax⟩, rfl⟩
    have hrest : LinesRest limits 0 bytes := ⟨lines, count, hbytes, hlines, by rwa [Nat.zero_add]⟩
    have hroom : Room limits new bytes := by
      refine ⟨?_, ?_, le_rfl⟩ <;> simpa [new] using by assumption
    rw [scanAll_of_rest ((hstart []).mpr hrest) hroom]
    simp [new]

end Trailer

end Chunk

end Http

end Sark
