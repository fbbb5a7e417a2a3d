import Sark.Http.Uri.Authority

/-!
# URI targets

The owned targets of the client and of the outgoing requests (`http/src/uri/target/mod.rs`): a
scheme or none, an authority, a path and perhaps a query, in one string with the offsets at which
its parts end.

* `Absolute.parse_iff`: the absolute URIs that are accepted.
* `Target.pack_has`: what is packed has the parts that it is packed of.
* `Target.Has.parse_eq`: the string of a target with a scheme is parsed as the same target.
-/

namespace Sark.Uri

/-! ## The allocator -/

/-- What the allocator does: the extents that can be planned (`array::Plan::try_new`), those that are
granted (`try_string` and `try_vec`), and what fresh memory holds. -/
structure Memory where
  plans : ℕ → Bool
  grants : ℕ → Bool
  fresh : ℕ → Bytes
  length_fresh : ∀ extent, (fresh extent).length = extent

namespace Target

/-- `target::Error`. -/
inductive Error
  | colon
  | scheme (error : Uri.Error)
  | separator (colon length : ℕ)
  | userInfo
  | authority (error : Uri.Error)
  | start (byte : Option UInt8)
  | origin (error : PathError)
  | length
  | index (value : ℕ)
  | allocation
  deriving DecidableEq, Repr

/-- `target::narrow`. -/
def narrow (value : ℕ) : Except Error ℕ :=
  if 2 ^ 32 - 1 < value then .error (.index value) else .ok value

/-- `array::Plan::try_new` with the error that it is mapped to. -/
def plan (memory : Memory) (capacity : ℕ) : Except Error Unit :=
  if memory.plans capacity then .ok () else .error .length

/-- `Plan::try_string` and `Plan::try_vec`. -/
def grant (memory : Memory) (capacity : ℕ) : Except Error Unit :=
  if memory.grants capacity then .ok () else .error .allocation

/-- `target::buffer`. -/
def buffer (memory : Memory) (capacity : ℕ) : Except Error Unit := do
  plan memory capacity
  grant memory capacity

/-- `target::authority`. -/
def authority (raw : Bytes) : Except Error Authority :=
  if 0x40 ∈ raw then .error .userInfo
  else (Authority.parse raw).mapError .authority

end Target

/-! ## Origins -/

/-- `target::Slash`. -/
inductive Slash
  | present
  | insert
  deriving DecidableEq, Repr

/-- The bytes that a slash is inserted with. -/
def Slash.text : Slash → Bytes
  | .present => []
  | .insert => [0x2f]

/-- `target::Origin`. -/
structure Origin where
  value : Bytes
  pathEnd : ℕ
  slash : Slash
  deriving DecidableEq, Repr

namespace Origin

/-- `Origin::ROOT`. -/
def root : Origin :=
  ⟨[0x2f], 1, .present⟩

/-- `Origin::validated`. -/
def validated (value : Bytes) (slash : Slash) : Except Target.Error Origin := do
  let plan ← (Scan.complete value).mapError Target.Error.origin
  let pathEnd ← Target.narrow plan.pathEnd
  pure ⟨value, pathEnd, slash⟩

/-- `Origin::parse`. -/
def parse (value : Bytes) : Except Target.Error Origin :=
  if value.head? = some 0x2f then validated value .present
  else .error (.start value.head?)

/-- `Origin::from_uri`. -/
def fromUri (value : Bytes) : Except Target.Error Origin :=
  match value.head? with
  | some byte =>
    if byte = 0x2f then validated value .present
    else if byte = 0x3f then validated value .insert
    else .error (.start (some byte))
  | none => validated value .insert

/-- `Origin::len`. -/
def length (self : Origin) : ℕ :=
  self.value.length + self.slash.text.length

/-- What `Origin::append_to` appends. -/
def text (self : Origin) : Bytes :=
  self.slash.text ++ self.value

/-- `Origin::path_end`. -/
def pathStop (self : Origin) : ℕ :=
  self.pathEnd + self.slash.text.length

end Origin

/-! ## Absolute URIs -/

/-- `target::Absolute`. -/
structure Absolute where
  scheme : Bytes
  parsed : Authority
  origin : Origin
  deriving DecidableEq, Repr

namespace Absolute

/-- The bytes in front of the origin of an absolute URI. -/
def isAuthority (byte : UInt8) : Bool :=
  byte ≠ 0x2f && byte ≠ 0x3f && byte ≠ 0x23

/-- `Absolute::parse`. -/
def parse (value : Bytes) : Except Target.Error Absolute :=
  let scheme := value.takeWhile (· ≠ 0x3a)
  match value.dropWhile (· ≠ 0x3a) with
  | [] => .error .colon
  | _ :: tail => do
    (Scheme.validate scheme).mapError Target.Error.scheme
    if [0x2f, 0x2f] <+: tail then
      let rest := tail.drop 2
      let parsed ← Target.authority (rest.takeWhile isAuthority)
      let origin ← Origin.fromUri (rest.dropWhile isAuthority)
      pure ⟨scheme, parsed, origin⟩
    else .error (.separator scheme.length value.length)

end Absolute

/-! ## Targets -/

/-- `target::Target`: the string with the ends of its parts. -/
structure Target where
  value : Bytes
  schemeEnd : Option ℕ
  hostEnd : ℕ
  authorityEnd : ℕ
  pathEnd : ℕ
  deriving DecidableEq, Repr

/-- `plan::Bounds`. -/
structure Bounds where
  schemeEnd : Option ℕ
  hostEnd : ℕ
  authorityEnd : ℕ
  pathEnd : ℕ
  deriving DecidableEq, Repr

namespace Bounds

/-- `Bounds::new`: a scheme of no bytes is none. -/
def new (scheme host stop path : ℕ) : Except Target.Error Bounds := do
  let scheme ← Target.narrow scheme
  let host ← Target.narrow host
  let stop ← Target.narrow stop
  let path ← Target.narrow path
  pure ⟨if scheme = 0 then none else some scheme, host, stop, path⟩

/-- `Bounds::build`. -/
def build (self : Bounds) (value : Bytes) : Target :=
  ⟨value, self.schemeEnd, self.hostEnd, self.authorityEnd, self.pathEnd⟩

end Bounds

namespace Target

/-- `"://"`. -/
def separator : Bytes :=
  [0x3a, 0x2f, 0x2f]

/-- The bytes of a scheme with the separator behind it, or none. -/
def lead : Option Bytes → Bytes
  | some scheme => scheme ++ separator
  | none => []

/-- `target::pack`. -/
def pack (memory : Memory) (scheme : Option Bytes) (raw : Bytes) (parsed : Authority)
    (origin : Origin) : Except Error Target := do
  let start := (lead scheme).length
  let stop := start + raw.length
  let capacity := stop + origin.length
  let bounds ← Bounds.new (scheme.elim 0 List.length) (start + parsed.host.length) stop
    (stop + origin.pathStop)
  buffer memory capacity
  pure (bounds.build (lead scheme ++ raw ++ origin.text))

/-- `Target::parse`. -/
def parse (memory : Memory) (value : Bytes) : Except Error Target := do
  let parsed ← Absolute.parse value
  let start := parsed.scheme.length + 3
  let stop := value.length - parsed.origin.value.length
  pack memory (some parsed.scheme) ((value.take stop).drop start) parsed.parsed parsed.origin

/-- `Target::new`. -/
def new (memory : Memory) (raw : Bytes) (origin : Origin) : Except Error Target := do
  let parsed ← authority raw
  pack memory none raw parsed origin

/-- `Wire::decimal`: the digits from the last one on. -/
def decimal (value : ℕ) : Bytes :=
  if value < 10 then [0x30 + UInt8.ofNat value]
  else decimal (value / 10) ++ [0x30 + UInt8.ofNat (value % 10)]

/-- The host of `Target::from_host` in the string, and where it ends. -/
def hostText (host : Bytes) (port : Option ℕ) : Except Error (Bytes × ℕ) :=
  if 0x3a ∈ host ∧ host.head? ≠ some 0x5b then
    if Authority.isIp host then .ok (0x5b :: host ++ [0x5d], host.length + 2)
    else .error (.authority .invalidHost)
  else if host.isEmpty ∧ port.isSome then .error (.authority .invalidHost)
  else do
    let parsed ← (Authority.parse host).mapError Error.authority
    if port.isSome ∧ parsed.port.isSome then .error (.authority .invalidPort)
    else pure (host, parsed.host.length)

/-- `Target::from_host`. -/
def fromHost (memory : Memory) (host : Bytes) (port : Option ℕ) (origin : Origin) :
    Except Error Target := do
  let admitted ← hostText host port
  let raw := admitted.1 ++ port.elim [] fun port => 0x3a :: decimal port
  let capacity := raw.length + origin.length
  let bounds ← Bounds.new 0 admitted.2 raw.length (raw.length + origin.pathStop)
  buffer memory capacity
  pure (bounds.build (raw ++ origin.text))

/-- `Target::start`. -/
def start (self : Target) : ℕ :=
  self.schemeEnd.elim 0 (· + 3)

/-- `target::raw::slice`. -/
def slice (value : Bytes) (start stop : ℕ) : Bytes :=
  (value.take stop).drop start

/-- `Target::scheme_str`. -/
def scheme (self : Target) : Option Bytes :=
  self.schemeEnd.map fun stop => slice self.value 0 stop

/-- `Target::authority`. -/
def rawAuthority (self : Target) : Bytes :=
  slice self.value self.start self.authorityEnd

/-- `Target::host_raw`. -/
def hostRaw (self : Target) : Bytes :=
  slice self.value self.start self.hostEnd

/-- `Target::path`. -/
def path (self : Target) : Bytes :=
  slice self.value self.authorityEnd self.pathEnd

/-- `Target::path_query`. -/
def pathQuery (self : Target) : Bytes :=
  slice self.value self.authorityEnd self.value.length

/-- `Target::query`. -/
def query (self : Target) : Option Bytes :=
  if self.pathEnd ≠ self.value.length then
    some (slice self.value (self.pathEnd + 1) self.value.length)
  else none

/-- `Target::parts`. -/
def parts (self : Target) : Authority :=
  ⟨self.hostRaw, if self.hostEnd ≠ self.authorityEnd then
    some (slice self.value (self.hostEnd + 1) self.authorityEnd) else none⟩

/-- `Origin::from`. -/
def origin (self : Target) : Origin :=
  ⟨self.pathQuery, self.pathEnd - self.authorityEnd, .present⟩

/-- `Target::retarget`. -/
def retarget (memory : Memory) (self : Target) (raw : Bytes) : Except Error Target := do
  let parsed ← authority raw
  pack memory self.scheme raw parsed self.origin

/-- `Target::with_origin`. -/
def withOrigin (memory : Memory) (self : Target) (origin : Origin) : Except Error Target :=
  pack memory self.scheme self.rawAuthority self.parts origin

/-- `Target::try_clone`. -/
def tryClone (memory : Memory) (self : Target) : Except Error Target := do
  grant memory self.value.length
  pure self

end Target

/-! ## Parts -/

/-- The parts of a target. -/
structure Components where
  scheme : Option Bytes
  raw : Bytes
  parsed : Authority
  path : Bytes
  query : Option Bytes
  deriving DecidableEq, Repr

/-- A query with its question mark, or nothing. -/
def queryText (query : Option Bytes) : Bytes :=
  query.elim [] (0x3f :: ·)

/-- A path from the root with a query. -/
structure OriginText (path : Bytes) (query : Option Bytes) : Prop where
  slash : ∃ rest, path = 0x2f :: rest
  path_chars : Scan.Chars .path path
  query_chars : ∀ text ∈ query, Scan.Chars .query text

namespace Components

/-- The string of the parts. -/
def text (self : Components) : Bytes :=
  Target.lead self.scheme ++ self.raw ++ (self.path ++ queryText self.query)

/-- The parts fit the grammar. -/
structure Valid (parts : Components) : Prop where
  scheme : ∀ scheme ∈ parts.scheme, SchemeText scheme
  authority : AuthorityText parts.raw parts.parsed
  origin : OriginText parts.path parts.query

end Components

/-- A target with given parts: its offsets are where they end. -/
structure Target.Has (target : Target) (parts : Components) : Prop where
  valid : parts.Valid
  value_eq : target.value = parts.text
  schemeEnd_eq : target.schemeEnd = parts.scheme.map List.length
  hostEnd_eq : target.hostEnd = (Target.lead parts.scheme).length + parts.parsed.host.length
  authorityEnd_eq : target.authorityEnd = (Target.lead parts.scheme).length + parts.raw.length
  pathEnd_eq : target.pathEnd =
    (Target.lead parts.scheme).length + parts.raw.length + parts.path.length
  pathEnd_lt : target.pathEnd < 2 ^ 32

/-- An origin with a given path and query. -/
structure Origin.Has (origin : Origin) (path : Bytes) (query : Option Bytes) : Prop where
  valid : OriginText path query
  text_eq : origin.text = path ++ queryText query
  pathStop_eq : origin.pathStop = path.length

/-! ### Origins -/

namespace Origin

theorem root_has : root.Has [0x2f] none :=
  ⟨⟨⟨[], rfl⟩, .plain (by decide) .nil, by simp⟩, rfl, rfl⟩

theorem narrow_iff {value result : ℕ} :
    Target.narrow value = .ok result ↔ value < 2 ^ 32 ∧ result = value := by
  rw [Target.narrow]
  split
  · refine iff_of_false (by simp) ?_
    rintro ⟨hlt, -⟩
    omega
  · rw [Except.ok.injEq]
    constructor
    · rintro rfl
      exact ⟨by omega, rfl⟩
    · rintro ⟨-, rfl⟩
      rfl

theorem validated_iff {value : Bytes} {slash : Slash} {origin : Origin} :
    validated value slash = .ok origin ↔ ∃ plan, Scan.PathQuery value plan ∧
      plan.pathEnd < 2 ^ 32 ∧ origin = ⟨value, plan.pathEnd, slash⟩ := by
  simp only [validated, Except.bind_eq_ok_iff, Except.mapError_eq_ok_iff, Scan.complete_iff,
    narrow_iff]
  constructor
  · rintro ⟨plan, hplan, _, ⟨hlt, rfl⟩, h⟩
    exact ⟨plan, hplan, hlt, (Except.ok.inj h).symm⟩
  · rintro ⟨plan, hplan, hlt, rfl⟩
    exact ⟨plan, hplan, _, ⟨hlt, rfl⟩, rfl⟩

theorem split_plan {value : Bytes} {plan : Plan}
    (h : Scan.PathQuery value plan) : ∃ path query, value = path ++ queryText query ∧
      plan.pathEnd = path.length ∧ Scan.Chars .path path ∧
        ∀ text ∈ query, Scan.Chars .query text := by
  cases h with
  | path h => exact ⟨_, none, (List.append_nil _).symm, rfl, h, by simp⟩
  | query hpath hquery => exact ⟨_, some _, rfl, rfl, hpath, by simpa using hquery⟩

theorem validated_present {value : Bytes} {origin : Origin} (hslash : value.head? = some 0x2f)
    (h : validated value .present = .ok origin) : ∃ path query, origin.Has path query := by
  obtain ⟨plan, hplan, -, rfl⟩ := validated_iff.mp h
  obtain ⟨path, query, rfl, hend, hpath, hquery⟩ := split_plan hplan
  refine ⟨path, query, ⟨?_, hpath, hquery⟩, rfl, hend⟩
  rcases path with _ | ⟨byte, path⟩
  · -- a query does not begin with a slash
    cases query with
    | none => exact absurd hslash (by simp [queryText])
    | some query => exact absurd hslash (by simp [queryText])
  · obtain rfl : byte = 0x2f := by simpa using hslash
    exact ⟨path, rfl⟩

theorem validated_insert {value : Bytes} {origin : Origin}
    (hvalue : ∀ byte ∈ value.head?, byte = 0x3f) (h : validated value .insert = .ok origin) :
    ∃ query, origin.Has [0x2f] query := by
  obtain ⟨plan, hplan, -, rfl⟩ := validated_iff.mp h
  obtain ⟨path, query, rfl, hend, hpath, hquery⟩ := split_plan hplan
  have hnil : path = [] := by
    cases hpath with
    | nil => rfl
    | plain hplain hrest =>
      obtain rfl := hvalue _ rfl
      exact absurd hplain (by decide)
    | escape => exact absurd (hvalue _ rfl) (by decide)
  subst hnil
  refine ⟨query, ⟨⟨[], rfl⟩, .plain (by decide) .nil, hquery⟩, rfl, ?_⟩
  rw [pathStop, hend]
  rfl

theorem parse_has {value : Bytes} {origin : Origin} (h : parse value = .ok origin) :
    ∃ path query, origin.Has path query := by
  rw [parse] at h
  split at h
  · exact validated_present ‹_› h
  · exact absurd h (by simp)

theorem fromUri_has {value : Bytes} {origin : Origin} (h : fromUri value = .ok origin) :
    ∃ path query, origin.Has path query := by
  rw [fromUri] at h
  cases hhead : value.head? with
  | none =>
    rw [hhead] at h
    obtain ⟨query, hquery⟩ := validated_insert (by simp [hhead]) h
    exact ⟨_, query, hquery⟩
  | some byte =>
    rw [hhead] at h
    dsimp only at h
    split at h
    · exact validated_present (by rw [hhead, ‹byte = _›]) h
    · split at h
      · obtain ⟨query, hquery⟩ := validated_insert (by simp [hhead, ‹byte = 0x3f›]) h
        exact ⟨_, query, hquery⟩
      · exact absurd h (by simp)

theorem fromUri_value {value : Bytes} {origin : Origin} (h : fromUri value = .ok origin) :
    origin.value = value := by
  have hvalidated {slash : Slash} (h : validated value slash = .ok origin) :
      origin.value = value := by
    obtain ⟨plan, -, -, rfl⟩ := validated_iff.mp h
    rfl
  rw [fromUri] at h
  split at h
  · split at h
    · exact hvalidated h
    · split at h
      · exact hvalidated h
      · exact absurd h (by simp)
  · exact hvalidated h

end Origin

namespace OriginText

variable {path : Bytes} {query : Option Bytes}

theorem scan (h : OriginText path query) : ∃ plan,
    Scan.PathQuery (path ++ queryText query) plan ∧ plan.pathEnd = path.length := by
  cases query with
  | none =>
    refine ⟨⟨path.length, .path⟩, ?_, rfl⟩
    rw [queryText, Option.elim_none, List.append_nil]
    exact .path h.path_chars
  | some query => exact ⟨_, .query h.path_chars (h.query_chars query rfl), rfl⟩

theorem fromUri (h : OriginText path query) (hlt : path.length < 2 ^ 32) :
    Origin.fromUri (path ++ queryText query) =
      .ok ⟨path ++ queryText query, path.length, .present⟩ := by
  obtain ⟨plan, hplan, hend⟩ := h.scan
  obtain ⟨rest, rfl⟩ := h.slash
  rw [Origin.fromUri, List.cons_append, List.head?_cons]
  dsimp only
  rw [if_pos rfl, Origin.validated_iff]
  exact ⟨plan, hplan, hend ▸ hlt, by rw [hend]⟩

end OriginText

/-! ### Absolute URIs -/

theorem Target.authority_iff {raw : Bytes} {parsed : Authority} :
    Target.authority raw = .ok parsed ↔ AuthorityText raw parsed := by
  rw [Target.authority]
  constructor
  · intro h
    split at h
    · exact absurd h (by simp)
    · exact Authority.parse_iff.mp (Except.mapError_eq_ok_iff.mp h)
  · intro h
    rw [if_neg (h.notMem (by decide)), Except.mapError_eq_ok_iff, Authority.parse_iff]
    exact h

namespace Absolute

theorem notMem_of_isAuthorityByte {raw : Bytes} {parsed : Authority}
    (h : AuthorityText raw parsed) : ∀ byte ∈ raw, isAuthority byte = true := by
  intro byte hmem
  simp only [isAuthority, Bool.and_eq_true, decide_eq_true_eq]
  refine ⟨⟨?_, ?_⟩, ?_⟩
  · rintro rfl
    exact h.notMem (by decide) hmem
  · rintro rfl
    exact h.notMem (by decide) hmem
  · rintro rfl
    exact h.notMem (by decide) hmem

theorem head_fromUri {value : Bytes} {origin : Origin} (h : Origin.fromUri value = .ok origin) :
    ∀ byte ∈ value.head?, isAuthority byte = false := by
  intro byte hmem
  rw [Option.mem_def] at hmem
  rw [Origin.fromUri, hmem] at h
  dsimp only at h
  split at h
  · rename_i hbyte
    subst hbyte
    rfl
  · split at h
    · rename_i hbyte
      subst hbyte
      rfl
    · exact absurd h (by simp)

/-- The URIs that are accepted, with their parts. -/
theorem parse_iff {value : Bytes} {absolute : Absolute} :
    parse value = .ok absolute ↔ ∃ raw rest,
      value = absolute.scheme ++ Target.separator ++ raw ++ rest ∧ SchemeText absolute.scheme ∧
        AuthorityText raw absolute.parsed ∧ Origin.fromUri rest = .ok absolute.origin := by
  constructor
  · intro h
    rw [parse] at h
    dsimp only at h
    cases hdrop : value.dropWhile (· ≠ 0x3a) with
    | nil =>
      rw [hdrop] at h
      exact absurd h (by simp)
    | cons colon tail =>
      obtain ⟨-, hvalue⟩ := dropWhile_ne_eq_cons hdrop
      rw [hdrop] at h
      dsimp only at h
      rw [Except.bind_eq_ok_iff] at h
      obtain ⟨_, hscheme, h⟩ := h
      rw [Except.mapError_eq_ok_iff, Scheme.validate_iff] at hscheme
      split at h
      · rename_i hslashes
        obtain ⟨rest, rfl⟩ := hslashes
        simp only [List.cons_append, List.nil_append, List.drop_succ_cons, List.drop_zero,
          Except.bind_eq_ok_iff, Target.authority_iff] at h
        obtain ⟨parsed, hparsed, origin, horigin, h⟩ := h
        obtain rfl := Except.ok.inj h
        refine ⟨_, _, ?_, hscheme, hparsed, horigin⟩
        conv_lhs => rw [hvalue]
        rw [List.append_assoc, List.append_assoc, List.takeWhile_append_dropWhile]
        rfl
      · exact absurd h (by simp)
  · rintro ⟨raw, rest, rfl, hscheme, hparsed, horigin⟩
    obtain ⟨scheme, parsed, origin⟩ := absolute
    dsimp only at hscheme hparsed horigin ⊢
    have hcolon : 0x3a ∉ scheme := hscheme.notMem (by decide)
    have hraw := notMem_of_isAuthorityByte hparsed
    have hrest := head_fromUri horigin
    have htake : (raw ++ rest).takeWhile isAuthority = raw := by
      rw [List.takeWhile_append_of_pos hraw]
      rcases rest with _ | ⟨byte, rest⟩
      · simp
      · simp [hrest byte rfl]
    have hdrop : (raw ++ rest).dropWhile isAuthority = rest := by
      rw [List.dropWhile_append_of_pos hraw]
      rcases rest with _ | ⟨byte, rest⟩
      · simp
      · simp [hrest byte rfl]
    have hvalue : scheme ++ Target.separator ++ raw ++ rest =
        scheme ++ 0x3a :: 0x2f :: 0x2f :: (raw ++ rest) := by
      simp [Target.separator]
    rw [hvalue, parse]
    simp only [dropWhile_ne_append hcolon, takeWhile_ne_append hcolon]
    rw [Except.bind_eq_ok_iff]
    refine ⟨(), Except.mapError_eq_ok_iff.mpr (Scheme.validate_iff.mpr hscheme), ?_⟩
    rw [if_pos ⟨raw ++ rest, rfl⟩]
    simp only [List.drop_succ_cons, List.drop_zero, htake, hdrop, horigin,
      Target.authority_iff.mpr hparsed]
    rfl

end Absolute

/-! ### The string and the offsets -/

theorem AuthorityText.raw_eq {raw : Bytes} {parsed : Authority} (h : AuthorityText raw parsed) :
    raw = parsed.host ++ parsed.port.elim [] (0x3a :: ·) := by
  cases h with
  | alone => simp
  | port => rfl

theorem Bounds.new_iff {scheme host stop path : ℕ} {bounds : Bounds} :
    Bounds.new scheme host stop path = .ok bounds ↔
      (scheme < 2 ^ 32 ∧ host < 2 ^ 32 ∧ stop < 2 ^ 32 ∧ path < 2 ^ 32) ∧
        bounds = ⟨if scheme = 0 then none else some scheme, host, stop, path⟩ := by
  simp only [Bounds.new, Except.bind_eq_ok_iff, Origin.narrow_iff]
  constructor
  · rintro ⟨_, ⟨hscheme, rfl⟩, _, ⟨hhost, rfl⟩, _, ⟨hstop, rfl⟩, _, ⟨hpath, rfl⟩, h⟩
    exact ⟨⟨hscheme, hhost, hstop, hpath⟩, (Except.ok.inj h).symm⟩
  · rintro ⟨⟨hscheme, hhost, hstop, hpath⟩, rfl⟩
    exact ⟨_, ⟨hscheme, rfl⟩, _, ⟨hhost, rfl⟩, _, ⟨hstop, rfl⟩, _, ⟨hpath, rfl⟩, rfl⟩

namespace Target

theorem length_lead (scheme : Option Bytes) :
    (lead scheme).length = scheme.elim 0 fun scheme => scheme.length + 3 := by
  cases scheme with
  | none => rfl
  | some scheme => rw [lead, List.length_append]; rfl

theorem slice_middle (front part back : Bytes) :
    slice (front ++ part ++ back) front.length (front.length + part.length) = part := by
  rw [slice, ← List.length_append, List.take_left, List.drop_left]

theorem slice_last (front part : Bytes) :
    slice (front ++ part) front.length (front ++ part).length = part := by
  rw [slice, List.take_length, List.drop_left]

theorem pack_iff {memory : Memory} {scheme : Option Bytes} {raw : Bytes} {parsed : Authority}
    {origin : Origin} {target : Target} :
    pack memory scheme raw parsed origin = .ok target ↔
      ((scheme.elim 0 List.length) < 2 ^ 32 ∧ (lead scheme).length + parsed.host.length < 2 ^ 32 ∧
        (lead scheme).length + raw.length < 2 ^ 32 ∧
        (lead scheme).length + raw.length + origin.pathStop < 2 ^ 32) ∧
      buffer memory ((lead scheme).length + raw.length + origin.length) = .ok () ∧
      target = ⟨lead scheme ++ raw ++ origin.text,
        if scheme.elim 0 List.length = 0 then none else some (scheme.elim 0 List.length),
        (lead scheme).length + parsed.host.length, (lead scheme).length + raw.length,
        (lead scheme).length + raw.length + origin.pathStop⟩ := by
  simp only [pack, Except.bind_eq_ok_iff, Bounds.new_iff]
  constructor
  · rintro ⟨_, ⟨hbounds, rfl⟩, _, hbuffer, h⟩
    exact ⟨hbounds, hbuffer, (Except.ok.inj h).symm⟩
  · rintro ⟨hbounds, hbuffer, rfl⟩
    exact ⟨_, ⟨hbounds, rfl⟩, (), hbuffer, rfl⟩

theorem exists_pack {memory : Memory} {scheme : Option Bytes} {raw : Bytes} {parsed : Authority}
    {origin : Origin} (hparsed : AuthorityText raw parsed)
    (hlt : (lead scheme).length + raw.length + origin.pathStop < 2 ^ 32)
    (hbuffer : buffer memory ((lead scheme).length + raw.length + origin.length) = .ok ()) :
    ∃ target, pack memory scheme raw parsed origin = .ok target := by
  have hhost := congrArg List.length hparsed.raw_eq
  rw [List.length_append] at hhost
  refine ⟨_, pack_iff.mpr ⟨⟨?_, by omega, by omega, hlt⟩, hbuffer, rfl⟩⟩
  rw [length_lead] at hlt
  cases scheme with
  | none => norm_num
  | some scheme =>
    rw [Option.elim_some] at hlt
    rw [Option.elim_some]
    omega

theorem schemeEnd_eq {scheme : Option Bytes} (h : ∀ text ∈ scheme, SchemeText text) :
    (if scheme.elim 0 List.length = 0 then none else some (scheme.elim 0 List.length)) =
      scheme.map List.length := by
  cases scheme with
  | none => rfl
  | some scheme =>
    obtain ⟨hfirst, hrest⟩ := h scheme rfl
    simp

theorem pack_has {memory : Memory} {scheme : Option Bytes} {raw path : Bytes}
    {query : Option Bytes} {parsed : Authority} {origin : Origin} {target : Target}
    (hscheme : ∀ text ∈ scheme, SchemeText text) (hparsed : AuthorityText raw parsed)
    (horigin : origin.Has path query) (h : pack memory scheme raw parsed origin = .ok target) :
    target.Has ⟨scheme, raw, parsed, path, query⟩ := by
  obtain ⟨⟨-, -, -, hpath⟩, -, rfl⟩ := pack_iff.mp h
  refine ⟨⟨hscheme, hparsed, horigin.valid⟩, ?_, schemeEnd_eq hscheme, rfl, rfl, ?_, hpath⟩
  · rw [horigin.text_eq]
    rfl
  · rw [horigin.pathStop_eq]

section Has

variable {target : Target} {parts : Components}

theorem Has.length_value (h : target.Has parts) : target.value.length =
    (lead parts.scheme).length + parts.raw.length + parts.path.length +
      (queryText parts.query).length := by
  rw [h.value_eq, Components.text]
  simp only [List.length_append]
  omega

theorem Has.start_eq (h : target.Has parts) : target.start = (lead parts.scheme).length := by
  rw [start, h.schemeEnd_eq, length_lead]
  cases parts.scheme <;> rfl

theorem Has.scheme_eq (h : target.Has parts) : target.scheme = parts.scheme := by
  rw [scheme, h.schemeEnd_eq, h.value_eq, Components.text]
  cases parts.scheme with
  | none => rfl
  | some scheme =>
    rw [Option.map_some, Option.map_some, lead, slice, List.drop_zero, List.append_assoc,
      List.append_assoc, List.take_left]

theorem Has.rawAuthority_eq (h : target.Has parts) : target.rawAuthority = parts.raw := by
  rw [rawAuthority, h.start_eq, h.authorityEnd_eq, h.value_eq, Components.text, slice_middle]

theorem Has.hostRaw_eq (h : target.Has parts) : target.hostRaw = parts.parsed.host := by
  have hvalue : target.value = lead parts.scheme ++ parts.parsed.host ++
      (parts.parsed.port.elim [] (0x3a :: ·) ++ (parts.path ++ queryText parts.query)) := by
    rw [h.value_eq, Components.text, h.valid.authority.raw_eq]
    simp only [List.append_assoc]
  rw [hostRaw, h.start_eq, h.hostEnd_eq, hvalue, slice_middle]

theorem Has.path_eq (h : target.Has parts) : target.path = parts.path := by
  rw [path, h.authorityEnd_eq, h.pathEnd_eq, h.value_eq, Components.text, ← List.append_assoc,
    ← List.length_append, slice_middle]

theorem Has.pathQuery_eq (h : target.Has parts) :
    target.pathQuery = parts.path ++ queryText parts.query := by
  rw [pathQuery, h.authorityEnd_eq, h.value_eq, Components.text, ← List.length_append, slice_last]

theorem Has.query_eq (h : target.Has parts) : target.query = parts.query := by
  have hlength := h.length_value
  rw [query, h.pathEnd_eq, hlength]
  cases hquery : parts.query with
  | none =>
    rw [if_neg]
    simp [queryText]
  | some text =>
    rw [if_pos (by simp [queryText])]
    have hvalue : target.value = (lead parts.scheme ++ parts.raw ++ parts.path ++ [0x3f]) ++ text := by
      rw [h.value_eq, Components.text, hquery, queryText]
      simp
    have hslice := slice_last (lead parts.scheme ++ parts.raw ++ parts.path ++ [0x3f]) text
    rw [← hvalue, hlength, hquery] at hslice
    simp only [List.length_append, List.length_singleton] at hslice
    rw [hslice]

theorem Has.parts_eq (h : target.Has parts) : target.parts = parts.parsed := by
  have hraw := h.valid.authority.raw_eq
  have hlength := congrArg List.length hraw
  rw [Target.parts, h.hostRaw_eq, h.hostEnd_eq, h.authorityEnd_eq]
  rcases hparsed : parts.parsed with ⟨host, port⟩
  rw [hparsed] at hraw hlength
  dsimp only at hraw hlength ⊢
  cases port with
  | none =>
    rw [if_neg]
    simp [hraw]
  | some port =>
    have hvalue : target.value = (lead parts.scheme ++ host ++ [0x3a]) ++ port ++
        (parts.path ++ queryText parts.query) := by
      rw [h.value_eq, Components.text, hraw]
      simp
    have hslice := slice_middle (lead parts.scheme ++ host ++ [0x3a]) port
      (parts.path ++ queryText parts.query)
    rw [← hvalue] at hslice
    simp only [List.length_append, List.length_singleton] at hslice
    rw [if_pos (by rw [hraw]; simp), hraw]
    simp only [Option.elim_some, List.length_append, List.length_cons]
    rw [show (lead parts.scheme).length + (host.length + (port.length + 1)) =
      (lead parts.scheme).length + host.length + 1 + port.length by omega, hslice]

theorem Has.origin_has (h : target.Has parts) : target.origin.Has parts.path parts.query := by
  refine ⟨h.valid.origin, ?_, ?_⟩
  · rw [Origin.text, origin, Slash.text, List.nil_append, h.pathQuery_eq]
  · rw [Origin.pathStop, origin, h.pathEnd_eq, h.authorityEnd_eq]
    simp [Slash.text]

/-- The string of a target with a scheme is parsed as the same target. -/
theorem Has.parse_eq {memory : Memory} (h : target.Has parts) (hscheme : parts.scheme.isSome)
    (hbuffer : buffer memory target.value.length = .ok ()) :
    parse memory target.value = .ok target := by
  obtain ⟨scheme, hscheme⟩ := Option.isSome_iff_exists.mp hscheme
  have hlength := h.length_value
  have hpath := h.pathEnd_lt
  have hhost := congrArg List.length h.valid.authority.raw_eq
  rw [h.pathEnd_eq] at hpath
  rw [List.length_append] at hhost
  have habsolute : Absolute.parse target.value = .ok ⟨scheme, parts.parsed,
      ⟨parts.path ++ queryText parts.query, parts.path.length, .present⟩⟩ := by
    rw [Absolute.parse_iff]
    refine ⟨parts.raw, parts.path ++ queryText parts.query, ?_, h.valid.scheme scheme hscheme,
      h.valid.authority, h.valid.origin.fromUri (by omega)⟩
    rw [h.value_eq, Components.text, hscheme]
    rfl
  have hlead : (lead parts.scheme).length = scheme.length + 3 := by
    rw [hscheme, length_lead]
    rfl
  have hraw : slice target.value (scheme.length + 3)
      (target.value.length - (parts.path ++ queryText parts.query).length) = parts.raw := by
    rw [hlength, ← hlead, List.length_append,
      show (lead parts.scheme).length + parts.raw.length + parts.path.length +
        (queryText parts.query).length - (parts.path.length + (queryText parts.query).length) =
          (lead parts.scheme).length + parts.raw.length by omega, h.value_eq, Components.text,
      slice_middle]
  rw [parse, habsolute, Except.bind_eq_ok_iff]
  refine ⟨_, rfl, ?_⟩
  dsimp only
  rw [slice] at hraw
  rw [hraw, ← hscheme, pack_iff]
  have hsize : (Origin.mk (parts.path ++ queryText parts.query) parts.path.length .present).length =
      parts.path.length + (queryText parts.query).length := by
    rw [Origin.length, List.length_append]
    rfl
  refine ⟨⟨?_, by omega, by omega, hpath⟩, ?_, ?_⟩
  · rw [hscheme, Option.elim_some]
    omega
  · rw [hsize, ← hbuffer, hlength, Nat.add_assoc _ parts.path.length]
  · rw [Target.schemeEnd_eq h.valid.scheme]
    rcases target with ⟨value, schemeEnd, hostEnd, authorityEnd, pathEnd⟩
    obtain ⟨-, rfl, rfl, rfl, rfl, rfl, -⟩ := h
    rfl

end Has

/-! ### The constructors -/

section Constructors

variable {memory : Memory} {value raw : Bytes} {origin : Origin} {target result : Target}
  {parts : Components}

theorem parse_has (h : parse memory value = .ok target) :
    ∃ parts, target.Has parts ∧ parts.scheme.isSome := by
  rw [parse, Except.bind_eq_ok_iff] at h
  obtain ⟨absolute, habsolute, h⟩ := h
  obtain ⟨raw, rest, hvalue, hscheme, hparsed, horigin⟩ := Absolute.parse_iff.mp habsolute
  have hrest : absolute.origin.value = rest := Origin.fromUri_value horigin
  obtain ⟨path, query, horigin⟩ := Origin.fromUri_has horigin
  have hraw : (value.take (value.length - absolute.origin.value.length)).drop
      (absolute.scheme.length + 3) = raw := by
    have hslice := slice_middle (absolute.scheme ++ separator) raw rest
    rw [← hvalue, List.length_append, slice] at hslice
    have hstop : value.length - absolute.origin.value.length =
        absolute.scheme.length + 3 + raw.length := by
      rw [hrest, hvalue]
      simp only [List.length_append, separator, List.length_cons, List.length_nil]
      omega
    rw [hstop]
    exact hslice
  dsimp only at h
  rw [hraw] at h
  exact ⟨_, pack_has (by simpa using hscheme) hparsed horigin h, rfl⟩

theorem new_has {path : Bytes} {query : Option Bytes} (horigin : origin.Has path query)
    (h : new memory raw origin = .ok target) :
    ∃ parsed, target.Has ⟨none, raw, parsed, path, query⟩ := by
  rw [new, Except.bind_eq_ok_iff] at h
  obtain ⟨parsed, hparsed, h⟩ := h
  exact ⟨parsed, pack_has (by simp) (authority_iff.mp hparsed) horigin h⟩

theorem retarget_has (ht : target.Has parts) (h : retarget memory target raw = .ok result) :
    ∃ parsed, result.Has ⟨parts.scheme, raw, parsed, parts.path, parts.query⟩ := by
  rw [retarget, Except.bind_eq_ok_iff] at h
  obtain ⟨parsed, hparsed, h⟩ := h
  rw [ht.scheme_eq] at h
  exact ⟨parsed, pack_has ht.valid.scheme (authority_iff.mp hparsed) ht.origin_has h⟩

theorem withOrigin_has {path : Bytes} {query : Option Bytes} (ht : target.Has parts)
    (horigin : origin.Has path query) (h : withOrigin memory target origin = .ok result) :
    result.Has ⟨parts.scheme, parts.raw, parts.parsed, path, query⟩ := by
  rw [withOrigin, ht.scheme_eq, ht.rawAuthority_eq, ht.parts_eq] at h
  exact pack_has ht.valid.scheme ht.valid.authority horigin h

theorem tryClone_eq (h : tryClone memory target = .ok result) : result = target := by
  rw [tryClone, Except.bind_eq_ok_iff] at h
  obtain ⟨-, -, h⟩ := h
  exact (Except.ok.inj h).symm

/-! #### Hosts -/

theorem isDigit_add {number : ℕ} (h : number < 10) :
    isDigit (0x30 + UInt8.ofNat number) = true := by
  interval_cases number <;> decide

theorem decimal_digits (number : ℕ) : ∀ byte ∈ decimal number, isDigit byte = true := by
  induction number using Nat.strong_induction_on with
  | _ number ih =>
    rw [decimal]
    split
    · rename_i hlt
      intro byte hmem
      obtain rfl := List.mem_singleton.mp hmem
      exact isDigit_add hlt
    · intro byte hmem
      rcases List.mem_append.mp hmem with hmem | hmem
      · exact ih (number / 10) (by omega) byte hmem
      · obtain rfl := List.mem_singleton.mp hmem
        exact isDigit_add (Nat.mod_lt _ (by norm_num))

/-- The text of a host and a port is an authority. -/
theorem hostText_iff {host : Bytes} {port : Option ℕ} {admitted : Bytes × ℕ}
    (h : hostText host port = .ok admitted) : ∃ parsed,
      AuthorityText (admitted.1 ++ port.elim [] fun port => 0x3a :: decimal port) parsed ∧
        parsed.host.length = admitted.2 := by
  have hwith {text : Bytes} (htext : Host text) : ∃ parsed,
      AuthorityText (text ++ port.elim [] fun port => 0x3a :: decimal port) parsed ∧
        parsed.host = text := by
    cases port with
    | none =>
      rw [Option.elim_none, List.append_nil]
      exact ⟨_, .alone htext, rfl⟩
    | some port => exact ⟨_, .port htext (decimal_digits port), rfl⟩
  rw [hostText] at h
  split at h
  · split at h
    · rename_i hip
      obtain rfl := Except.ok.inj h
      obtain ⟨parsed, hparsed, hhost⟩ := hwith (.literal (Authority.isIp_iff.mp hip))
      refine ⟨parsed, hparsed, ?_⟩
      rw [hhost]
      simp
    · exact absurd h (by simp)
  · split at h
    · exact absurd h (by simp)
    · rw [Except.bind_eq_ok_iff] at h
      obtain ⟨parsed, hparsed, h⟩ := h
      rw [Except.mapError_eq_ok_iff, Authority.parse_iff] at hparsed
      split at h
      · exact absurd h (by simp)
      · rename_i hport
        obtain rfl := Except.ok.inj h
        cases port with
        | none =>
          rw [Option.elim_none, List.append_nil]
          exact ⟨parsed, hparsed, rfl⟩
        | some port =>
          -- the host brings no port of its own
          cases hparsed with
          | port => exact absurd ⟨rfl, rfl⟩ hport
          | alone hhost =>
            obtain ⟨parsed, hparsed, hhost⟩ := hwith hhost
            exact ⟨parsed, hparsed, by rw [hhost]⟩

theorem fromHost_has {host path : Bytes} {port : Option ℕ} {query : Option Bytes}
    (horigin : origin.Has path query) (h : fromHost memory host port origin = .ok target) :
    ∃ raw parsed, target.Has ⟨none, raw, parsed, path, query⟩ := by
  simp only [fromHost, Except.bind_eq_ok_iff, Bounds.new_iff] at h
  obtain ⟨admitted, hadmitted, _, ⟨⟨-, -, -, hpath⟩, rfl⟩, _, -, h⟩ := h
  obtain ⟨parsed, hparsed, hhost⟩ := hostText_iff hadmitted
  obtain rfl := Except.ok.inj h
  refine ⟨_, parsed, ⟨by simp, hparsed, horigin.valid⟩, ?_, rfl, ?_, ?_, ?_, hpath⟩
  · rw [Bounds.build, horigin.text_eq]
    rfl
  · rw [Bounds.build, ← hhost]
    exact (Nat.zero_add _).symm
  · exact (Nat.zero_add _).symm
  · rw [Bounds.build, horigin.pathStop_eq]
    simp [lead]

end Constructors

end Target

end Sark.Uri
