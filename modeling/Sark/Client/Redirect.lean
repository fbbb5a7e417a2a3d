import Sark.Client.Retry
import Sark.Http.Uri.Plan
import Sark.Http.Uri.Same

/-!
# Redirects of client requests

The redirect machine of a client call (`client/src/protocol/redirect.rs`): the location of a
response is resolved against the current target and followed as long as it stays at the origin, the
limit is not reached and the request would not be one that was sent before. The first target is
borrowed until a redirect needs it.

* `originRelation_trans`: being of one origin is passed on.
* `invariant_follow`: what a redirect that is followed keeps.
* `Machine.run_safe`: what holds along every run.
-/

namespace Sark.Client.Redirect

open Uri (Memory Relative Constructed)

/-- `redirect::Error`, with the other errors that a redirect fails with. -/
inductive Error
  | uri (error : Uri.Target.Error)
  | parts (error : Uri.Target.Error)
  | missingScheme
  | location
  | locationUtf8
  | limit
  | loop
  | unsupportedScheme
  | crossOrigin
  /-- A misuse of memory, which no step may come to. -/
  | fault
  deriving DecidableEq, Repr

/-- `redirect::Relation`. -/
inductive Relation
  | same
  | cross
  deriving DecidableEq, Repr

/-- `"http"`. -/
def http : Bytes :=
  [0x68, 0x74, 0x74, 0x70]

/-- `"https"`. -/
def https : Bytes :=
  [0x68, 0x74, 0x74, 0x70, 0x73]

/-- The scheme that ports are compared by. -/
def schemeOf (scheme : Bytes) : Uri.Scheme :=
  if Http.eqIgnoreAsciiCase scheme http then .http
  else if Http.eqIgnoreAsciiCase scheme https then .https
  else .other

/-- `redirect::origin_relation`. -/
def originRelation (a b : Uri.Target) : Relation :=
  match a.scheme, b.scheme with
  | some left, some right =>
    if Http.eqIgnoreAsciiCase left right && a.parts.isSame b.parts (schemeOf left) then .same
    else .cross
  | _, _ => .cross

/-! ## Resolution -/

/-- A step with an error of its own, for a result that is nothing where memory is misused. -/
def settle (error : Uri.Target.Error → Error)
    (result : Option (Except Uri.Target.Error Uri.Target)) : Except Error Uri.Target :=
  match result with
  | none => .error .fault
  | some answer => answer.mapError error

/-- The location in front of its fragment. -/
def withoutFragment (location : Bytes) : Bytes :=
  location.takeWhile (· ≠ 0x23)

/-- The bytes that a scheme does not contain. -/
def isSchemeEnd (byte : UInt8) : Bool :=
  byte == 0x3a || byte == 0x2f || byte == 0x3f

/-- What stands in front of the first of `:`, `/` and `?`, if that is a colon. -/
def locationScheme (location : Bytes) : Option Bytes :=
  if (location.dropWhile (!isSchemeEnd ·)).head? = some 0x3a then
    some (location.takeWhile (!isSchemeEnd ·))
  else none

/-- `uri::Scheme::parse` as far as its error. -/
def checkScheme (scheme : Bytes) : Except Error Unit :=
  if Http.eqIgnoreAsciiCase scheme http ∨ Http.eqIgnoreAsciiCase scheme https then .ok ()
  else (Uri.Scheme.validate scheme).mapError fun error => .uri (.scheme error)

/-- `redirect::absolute`. -/
def absolute (memory : Memory) (target : Except Error Uri.Target) : Except Error Uri.Target := do
  let target ← target
  settle .parts (target.normalize memory)

/-- `redirect::resolve`, behind the step that takes the fragment off. -/
def resolveLocation (memory : Memory) (base : Uri.Target) (location : Bytes) :
    Except Error Uri.Target :=
  if location = [] then (base.tryClone memory).mapError .parts
  else
    match locationScheme location with
    | some scheme =>
      if Http.eqIgnoreAsciiCase scheme http ∨ Http.eqIgnoreAsciiCase scheme https then
        absolute memory ((Uri.Target.parse memory location).mapError .uri)
      else do
        checkScheme scheme
        .error .unsupportedScheme
    | none =>
      if [0x2f, 0x2f] <+: location then
        match base.scheme with
        | none => .error .missingScheme
        | some scheme =>
          -- the reservation is exact
          absolute memory
            (settle .uri (Uri.Target.Plan.built memory (.exactly (scheme ++ 0x3a :: location))))
      else do
        let reference ← (Relative.parse location).mapError Error.uri
        settle .parts (reference.resolve memory base)

/-- `redirect::resolve`. -/
def resolve (memory : Memory) (base : Uri.Target) (location : Bytes) : Except Error Uri.Target :=
  resolveLocation memory base (withoutFragment location)

/-- `redirect::resolve_redirect`. -/
def resolveRedirect (memory : Memory) (current : Uri.Target) (location : Bytes) :
    Except Error Uri.Target := do
  let next ← resolve memory current location
  if originRelation current next = .cross then .error .crossOrigin
  else pure next

/-! ## History -/

/-- `redirect::History`, with the prior targets from the oldest on. -/
structure History where
  current : Uri.Target
  prior : List Uri.Target
  deriving DecidableEq

namespace History

/-- `History::contains`: the current target and the last `prior` ones are looked at. -/
def contains (self : History) (target : Uri.Target) (prior : ℕ) : Bool :=
  self.current.pathQuery = target.pathQuery ||
    (self.prior.reverse.take prior).any (·.pathQuery = target.pathQuery)

/-- `History::try_push`. -/
def push (self : History) (target : Uri.Target) : History :=
  ⟨target, self.prior ++ [self.current]⟩

end History

/-- `redirect::Current`. -/
inductive Current
  | borrowed (path : Bytes)
  | owned (visited : History) (relation : Relation)
  deriving DecidableEq

/-- `redirect::has_dot_segment`. -/
def hasDotSegment (path : Bytes) : Bool :=
  (path.splitOn 0x2f).any fun segment => segment = Uri.dot || segment = Uri.dotDot

/-- `redirect::borrowable_target`. -/
def borrowableTarget (base : Uri.Target) (target : Bytes) : Option Bytes :=
  let target := withoutFragment target
  if target = [] then some base.pathQuery
  else
    let path := target.takeWhile (· ≠ 0x3f)
    if path.head? ≠ some 0x2f ∨ [0x2f, 0x2f] <+: path ∨ hasDotSegment path = true then none
    else
      match Uri.Origin.parse target with
      | .ok _ => some target
      | .error _ => none

/-- `redirect::State`. -/
structure State where
  limit : ℕ
  phaseLimit : ℕ
  base : Uri.Target
  current : Current
  deriving DecidableEq

namespace State

/-- `State::new`. -/
def new (memory : Memory) (limit : ℕ) (base : Uri.Target) (path : Bytes) : Except Error State :=
  match borrowableTarget base path with
  | some path => .ok ⟨limit, limit, base, .borrowed path⟩
  | none => do
    let target ← resolve memory base path
    pure ⟨limit, limit, base, .owned ⟨target, []⟩ (originRelation base target)⟩

/-- The target of the next request: the base with a borrowed path, or the current one. -/
def target (self : State) : Uri.Target :=
  match self.current with
  | .borrowed _ => self.base
  | .owned visited _ => visited.current

/-- `State::origin_form`. -/
def originForm (self : State) : Bytes :=
  match self.current with
  | .borrowed path => path
  | .owned visited _ => visited.current.pathQuery

/-- `State::origin`. -/
def origin (self : State) : Uri.Target :=
  match self.current with
  | .borrowed _ => self.base
  | .owned visited _ => visited.prior.head?.getD visited.current

/-- `State::advance`. -/
def advance (memory : Memory) (self : State) (location : Bytes) (changed : Bool) :
    Except Error State :=
  if self.limit = 0 then .error .limit
  else
    let phase := if changed then self.limit - 1 else self.phaseLimit
    match self.current with
    | .borrowed path => do
      let initial ← resolve memory self.base path
      let next ← resolveRedirect memory initial location
      if !changed && initial.pathQuery = next.pathQuery then .error .loop
      else pure ⟨self.limit - 1, phase, self.base, .owned (History.push ⟨initial, []⟩ next) .same⟩
    | .owned visited relation => do
      let next ← resolveRedirect memory visited.current location
      if !changed && visited.contains next (self.phaseLimit - self.limit) then .error .loop
      else pure ⟨self.limit - 1, phase, self.base, .owned (visited.push next) relation⟩

end State

/-! ## The machine -/

/-- `redirect::Machine`. -/
structure Machine where
  target : State
  method : Method
  body : Option Bytes
  deriving DecidableEq

/-- `redirect::Action`. -/
inductive Action
  | complete
  | follow (machine : Machine)
  deriving DecidableEq

namespace Machine

/-- `Machine::new`. -/
def new (memory : Memory) (limit : ℕ) (base : Uri.Target) (path : Bytes) (method : Method)
    (body : Bytes) : Except Error Machine := do
  let target ← State.new memory limit base path
  pure ⟨target, method, some body⟩

/-- `str::from_utf8`. -/
def isUtf8 (location : Bytes) : Bool :=
  (ByteArray.mk location.toArray).validateUTF8

/-- `Machine::response`. -/
def response (memory : Memory) (self : Machine) (status : ℕ) (location : Option Bytes) :
    Except Error Action :=
  match Rewrite.select status self.method with
  | none => .ok .complete
  | some rewrite =>
    match location with
    | none => .error .location
    | some location =>
      if isUtf8 location then do
        let changed := rewrite = .get ∧ self.method ≠ .get
        let target ← self.target.advance memory location (decide changed)
        pure (.follow (if rewrite = .preserve then ⟨target, self.method, self.body⟩
          else ⟨target, .get, none⟩))
      else .error .locationUtf8

end Machine

/-! ## One origin -/

section Relation

variable {a b c : Uri.Target}

theorem originRelation_iff : originRelation a b = .same ↔
    ∃ left right, a.scheme = some left ∧ b.scheme = some right ∧
      Http.eqIgnoreAsciiCase left right = true ∧
        a.parts.isSame b.parts (schemeOf left) = true := by
  rw [originRelation]
  cases ha : a.scheme with
  | none => simp
  | some left =>
    cases hb : b.scheme with
    | none => simp
    | some right =>
      simp only [Bool.and_eq_true]
      constructor
      · intro h
        split at h
        · rename_i hsame
          exact ⟨left, right, rfl, rfl, hsame⟩
        · exact absurd h (by simp)
      · rintro ⟨_, _, hleft, hright, hsame⟩
        obtain rfl := Option.some.inj hleft
        obtain rfl := Option.some.inj hright
        rw [if_pos hsame]

theorem schemeOf_congr {left right : Bytes} (h : Http.eqIgnoreAsciiCase left right = true) :
    schemeOf left = schemeOf right := by
  rw [Http.eqIgnoreAsciiCase, beq_iff_eq] at h
  rw [schemeOf, schemeOf, Http.eqIgnoreAsciiCase, Http.eqIgnoreAsciiCase, Http.eqIgnoreAsciiCase,
    Http.eqIgnoreAsciiCase, h]

/-- Being of one origin is passed on. -/
theorem originRelation_trans (h : originRelation a b = .same) (h' : originRelation b c = .same) :
    originRelation a c = .same := by
  rw [originRelation_iff] at h h' ⊢
  obtain ⟨left, middle, hleft, hmiddle, hcase, hsame⟩ := h
  obtain ⟨middle', right, hmiddle', hright, hcase', hsame'⟩ := h'
  obtain rfl := Option.some.inj (hmiddle.symm.trans hmiddle')
  rw [← schemeOf_congr hcase] at hsame'
  refine ⟨left, right, hleft, hright, ?_, Uri.Authority.isSame_trans hsame hsame'⟩
  rw [Http.eqIgnoreAsciiCase, beq_iff_eq] at hcase hcase' ⊢
  exact hcase.trans hcase'

theorem originRelation_congr (hscheme : a.scheme = b.scheme) (hparts : a.parts = b.parts) :
    originRelation a c = originRelation b c := by
  rw [originRelation, originRelation, hscheme, hparts]

end Relation

/-! ## Paths without dot segments -/

/-- A target whose path has no dot segment. -/
def Dotless (target : Uri.Target) : Prop :=
  ∃ parts, target.Has parts ∧ Uri.NoDots (parts.path.splitOn 0x2f)

section Dotless

variable {memory : Memory} {base target result : Uri.Target} {location : Bytes}
  {parts : Uri.Components}

theorem settle_iff {error : Uri.Target.Error → Error}
    {answer : Option (Except Uri.Target.Error Uri.Target)} :
    settle error answer = .ok result ↔ answer = some (.ok result) := by
  cases answer with
  | none => simp [settle]
  | some answer => rw [settle, Except.mapError_eq_ok_iff, Option.some.injEq]

theorem noDots_removeDotSegments {path : Bytes} {query : Option Bytes}
    (h : Uri.OriginText path query) :
    Uri.NoDots ((Uri.removeDotSegments path).splitOn 0x2f) := by
  obtain ⟨text, rfl⟩ := h.slash
  exact Uri.Target.noDots_removed text

theorem dotless_normalize (h : target.Has parts)
    (hresult : target.normalize memory = some (.ok result)) : Dotless result := by
  obtain ⟨answer, hanswer, hhas, -⟩ := @Uri.Target.normalize_has memory _ _ h
  exact ⟨_, hhas result (Option.some.inj (hanswer.symm.trans hresult)),
    noDots_removeDotSegments h.valid.origin⟩

theorem dotless_absolute {target : Except Error Uri.Target}
    (htarget : ∀ value, target = .ok value → ∃ parts, value.Has parts)
    (h : absolute memory target = .ok result) : Dotless result := by
  rw [absolute, Except.bind_eq_ok_iff] at h
  obtain ⟨value, hvalue, h⟩ := h
  obtain ⟨parts, hparts⟩ := htarget value hvalue
  exact dotless_normalize hparts (settle_iff.mp h)

/-- The path of a reference that is resolved has no dot segments, unless it is the base's. -/
theorem noDots_resolvedPath {path reference : Bytes} {query : Option Bytes}
    (hbase : Uri.OriginText path query) (hdots : Uri.NoDots (path.splitOn 0x2f)) :
    Uri.NoDots ((Uri.resolvedPath path reference).splitOn 0x2f) := by
  obtain ⟨text, rfl⟩ := hbase.slash
  rw [Uri.resolvedPath]
  split
  · exact hdots
  · split
    · rename_i hslash
      obtain ⟨rest, rfl⟩ := List.head?_eq_some_iff.mp hslash
      exact Uri.Target.noDots_removed rest
    · rw [Uri.merge_eq]
      exact Uri.Target.noDots_removed _

theorem resolve_dotless (hbase : Dotless base) (h : resolve memory base location = .ok result) :
    Dotless result := by
  rw [resolve, resolveLocation] at h
  split at h
  · rw [Uri.Target.tryClone_eq (Except.mapError_eq_ok_iff.mp h)]
    exact hbase
  · split at h
    · split at h
      · refine dotless_absolute ?_ h
        intro value hvalue
        obtain ⟨parts, hparts, -⟩ := Uri.Target.parse_has (Except.mapError_eq_ok_iff.mp hvalue)
        exact ⟨parts, hparts⟩
      · rw [Except.bind_eq_ok_iff] at h
        obtain ⟨-, -, h⟩ := h
        exact absurd h (by simp)
    · split at h
      · split at h
        · exact absurd h (by simp)
        · refine dotless_absolute ?_ h
          intro value hvalue
          exact Uri.Target.Plan.built_has (settle_iff.mp hvalue)
      · rw [Except.bind_eq_ok_iff] at h
        obtain ⟨reference, hreference, h⟩ := h
        obtain ⟨path, query, href⟩ := Relative.parse_has (Except.mapError_eq_ok_iff.mp hreference)
        obtain ⟨parts, hparts, hdots⟩ := hbase
        obtain ⟨answer, hanswer, hhas, -⟩ := @Relative.resolve_has memory _ _ _ _ _ hparts href
        exact ⟨_, hhas result (Option.some.inj (hanswer.symm.trans (settle_iff.mp h))),
          noDots_resolvedPath hparts.valid.origin hdots⟩

end Dotless

/-! ## The borrowed path -/

/-- A path that can be borrowed: from the root, and not what a network path begins with. -/
structure Borrowable (text path : Bytes) (query : Option Bytes) : Prop where
  text_eq : text = path ++ Uri.queryText query
  origin : Uri.OriginText path query
  not_network : ¬[0x2f, 0x2f] <+: text

section Borrowed

variable {memory : Memory} {base initial target : Uri.Target} {parts : Uri.Components}
  {text path : Bytes} {query : Option Bytes}

theorem hash_notMem (h : Uri.OriginText path query) : 0x23 ∉ path ++ Uri.queryText query := by
  have hplain (context : Uri.Context) : Uri.Scan.isPath context 0x23 = false := by
    cases context <;> decide
  rw [List.mem_append, not_or]
  refine ⟨h.path_chars.notMem (hplain _) (by decide), ?_⟩
  cases query with
  | none => simp [Uri.queryText]
  | some text =>
    rw [Uri.queryText, Option.elim_some, List.mem_cons, not_or]
    exact ⟨by decide, (h.query_chars text rfl).notMem (hplain _) (by decide)⟩

/-- What is borrowed is a path from the root. -/
theorem borrowable_of_borrowed {location : Bytes} (hbase : base.Has parts)
    (hnetwork : ¬(withoutFragment location = [] ∧ [0x2f, 0x2f] <+: base.pathQuery))
    (h : borrowableTarget base location = some text) :
    ∃ path query, Borrowable text path query ∧
      (Uri.NoDots (path.splitOn 0x2f) ∨ text = base.pathQuery) := by
  rw [borrowableTarget] at h
  split at h
  · rename_i hempty
    obtain rfl := Option.some.inj h
    exact ⟨parts.path, parts.query, ⟨hbase.pathQuery_eq, hbase.valid.origin,
      fun h => hnetwork ⟨hempty, h⟩⟩, .inr rfl⟩
  · dsimp only at h
    split at h
    · exact absurd h (by simp)
    · rename_i hpath
      split at h
      · rename_i origin horigin
        obtain rfl := Option.some.inj h
        obtain ⟨path, query, hhas⟩ := Uri.Origin.parse_has horigin
        have htext : withoutFragment location = path ++ Uri.queryText query := by
          rw [← hhas.text_eq]
          rw [Uri.Origin.parse] at horigin
          split at horigin
          · obtain ⟨plan, -, -, rfl⟩ := Uri.Origin.validated_iff.mp horigin
            rfl
          · exact absurd horigin (by simp)
        have hmark : 0x3f ∉ path := hhas.valid.path_chars.notMem (by decide) (by decide)
        have htake : (withoutFragment location).takeWhile (· ≠ 0x3f) = path := by
          rw [htext]
          cases query with
          | none =>
            rw [Uri.queryText, Option.elim_none, List.append_nil, takeWhile_ne_eq_self hmark]
          | some text => rw [Uri.queryText, Option.elim_some, takeWhile_ne_append hmark]
        rw [htake, not_or, not_or, Bool.not_eq_true] at hpath
        obtain ⟨-, hslashes, hdots⟩ := hpath
        refine ⟨path, query, ⟨htext, hhas.valid, ?_⟩, .inl ?_⟩
        · rintro ⟨rest, hrest⟩
          rw [htext] at hrest
          rcases path with _ | ⟨first, _ | ⟨second, path⟩⟩
          · obtain ⟨_, hslash⟩ := hhas.valid.slash
            exact absurd hslash (by simp)
          · cases query with
            | none => simp [Uri.queryText] at hrest
            | some text => simp [Uri.queryText] at hrest
          · simp only [List.cons_append, List.nil_append, List.cons.injEq] at hrest
            obtain ⟨rfl, rfl, -⟩ := hrest
            exact hslashes ⟨path, rfl⟩
        · rw [hasDotSegment, List.any_eq_false] at hdots
          intro part hmem
          simpa using hdots part hmem
      · exact absurd h (by simp)

/-- A borrowed path is resolved as a path of the base's origin. -/
theorem resolve_borrowed (hbase : base.Has parts) (h : Borrowable text path query)
    (hinitial : resolve memory base text = .ok initial) :
    initial.Has { parts with path := Uri.removeDotSegments path, query } := by
  obtain ⟨rest, hpath⟩ := h.origin.slash
  have hfragment : withoutFragment text = text := by
    rw [withoutFragment, h.text_eq, takeWhile_ne_eq_self (hash_notMem h.origin)]
  have hne : text ≠ [] := by
    rw [h.text_eq, hpath]
    simp
  have hscheme : locationScheme text = none := by
    rw [locationScheme, h.text_eq, hpath, List.cons_append, List.dropWhile_cons_of_neg (by decide),
      List.head?_cons, if_neg (by decide)]
  rw [resolve, hfragment, resolveLocation, if_neg hne, hscheme] at hinitial
  dsimp only at hinitial
  rw [if_neg h.not_network, Except.bind_eq_ok_iff] at hinitial
  obtain ⟨reference, hreference, hinitial⟩ := hinitial
  rw [Except.mapError_eq_ok_iff] at hreference
  have href : reference.Has path query := by
    simp only [Relative.parse, Except.bind_eq_ok_iff, Except.mapError_eq_ok_iff,
      Uri.Scan.complete_iff, Uri.Origin.narrow_iff] at hreference
    obtain ⟨plan, hplan, _, ⟨-, rfl⟩, hreference⟩ := hreference
    obtain rfl := Except.ok.inj hreference
    obtain ⟨plan', hplan', hend⟩ := h.origin.scan
    have hsame : plan = plan' := by
      rw [h.text_eq] at hplan
      exact Except.ok.inj ((Uri.Scan.complete_iff.mpr hplan).symm.trans
        (Uri.Scan.complete_iff.mpr hplan'))
    exact ⟨h.origin.path_chars, h.origin.query_chars, h.text_eq, by rw [hsame, hend]⟩
  obtain ⟨answer, hanswer, hhas, -⟩ := @Relative.resolve_has memory _ _ _ _ _ hbase href
  have hresult := hhas initial (Option.some.inj (hanswer.symm.trans (settle_iff.mp hinitial)))
  have hresolved : parts.resolved path query =
      { parts with path := Uri.removeDotSegments path, query } := by
    rw [Uri.Components.resolved, Uri.resolvedPath, Uri.resolvedQuery, hpath, if_neg (by simp),
      if_pos (List.head?_cons ..), if_neg (by simp)]
  rwa [hresolved] at hresult

/-- A borrowed path is that of the initial target, unless it has dot segments, which no later target
has. -/
theorem initial_pathQuery (hbase : base.Has parts) (h : Borrowable text path query)
    (hinitial : resolve memory base text = .ok initial) :
    initial.pathQuery = text ∨ Dotless initial ∧ ∀ target, Dotless target →
      target.pathQuery ≠ text := by
  have hhas := resolve_borrowed hbase h hinitial
  by_cases hdots : Uri.NoDots (path.splitOn 0x2f)
  · left
    obtain ⟨rest, hpath⟩ := h.origin.slash
    have hsame : Uri.removeDotSegments path = path := by
      have hresolved := @Relative.resolvedPath_of_noDots [] rest (hpath ▸ hdots)
      rwa [Uri.resolvedPath, if_neg (by simp), if_pos (List.head?_cons ..), ← hpath] at hresolved
    rw [hhas.pathQuery_eq, hsame, h.text_eq]
  · right
    refine ⟨⟨_, hhas, noDots_removeDotSegments h.origin⟩, ?_⟩
    rintro target ⟨parts', htarget, hnoDots⟩ heq
    rw [htarget.pathQuery_eq, h.text_eq] at heq
    have htake {path : Bytes} {query : Option Bytes} (h : Uri.OriginText path query) :
        (path ++ Uri.queryText query).takeWhile (· ≠ 0x3f) = path := by
      have hmark : 0x3f ∉ path := h.path_chars.notMem (by decide) (by decide)
      cases query with
      | none => rw [Uri.queryText, Option.elim_none, List.append_nil, takeWhile_ne_eq_self hmark]
      | some text => rw [Uri.queryText, Option.elim_some, takeWhile_ne_append hmark]
    have hpath := htake htarget.valid.origin
    rw [heq, htake h.origin] at hpath
    exact hdots (hpath ▸ hnoDots)

end Borrowed

/-! ## One step -/

section Step

variable {memory : Memory}

theorem resolveRedirect_iff {current next : Uri.Target} {location : Bytes} :
    resolveRedirect memory current location = .ok next ↔
      resolve memory current location = .ok next ∧ originRelation current next = .same := by
  rw [resolveRedirect, Except.bind_eq_ok_iff]
  constructor
  · rintro ⟨target, htarget, h⟩
    split at h
    · exact absurd h (by simp)
    · rename_i hcross
      obtain rfl := Except.ok.inj h
      refine ⟨htarget, ?_⟩
      cases hrelation : originRelation current target with
      | same => rfl
      | cross => exact absurd hrelation hcross
  · rintro ⟨hnext, hsame⟩
    refine ⟨next, hnext, ?_⟩
    rw [hsame, if_neg (by simp)]
    rfl

/-- The history that a target is appended to: the one so far, or the initial target. -/
structure Visited (memory : Memory) (state : State) (visited : History) (relation : Relation) :
    Prop where
  owned : (∃ path, state.current = .borrowed path ∧ visited.prior = [] ∧ relation = .same ∧
    resolve memory state.base path = .ok visited.current) ∨
      state.current = .owned visited relation

/-- The prior targets that are compared: those of the phase. -/
def lookback (self : State) (visited : History) : List Uri.Target :=
  visited.current :: visited.prior.reverse.take (self.phaseLimit - self.limit)

/-- What a step does: a target of the same origin is appended that the phase has not seen. -/
theorem advance_cases {self next : State} {location : Bytes} {changed : Bool}
    (h : self.advance memory location changed = .ok next) :
    ∃ visited relation target, Visited memory self visited relation ∧
      self.limit ≠ 0 ∧ resolve memory visited.current location = .ok target ∧
        originRelation visited.current target = .same ∧
          (changed = false → ∀ prior ∈ lookback self visited,
            prior.pathQuery ≠ target.pathQuery) ∧
            next = ⟨self.limit - 1, if changed then self.limit - 1 else self.phaseLimit, self.base,
              .owned (visited.push target) relation⟩ := by
  rw [State.advance] at h
  split at h
  · exact absurd h (by simp)
  · rename_i hlimit
    cases hcurrent : self.current with
    | borrowed path =>
      simp only [hcurrent, Except.bind_eq_ok_iff, resolveRedirect_iff] at h
      obtain ⟨initial, hinitial, target, ⟨htarget, hsame⟩, h⟩ := h
      split at h
      · exact absurd h (by simp)
      · rename_i hloop
        obtain rfl := Except.ok.inj h
        refine ⟨⟨initial, []⟩, .same, target, ⟨.inl ⟨path, hcurrent, rfl, rfl, hinitial⟩⟩, hlimit,
          htarget, hsame, ?_, rfl⟩
        rintro rfl prior hprior
        obtain rfl : prior = initial := by simpa [lookback] using hprior
        simpa using hloop
    | owned visited relation =>
      simp only [hcurrent, Except.bind_eq_ok_iff, resolveRedirect_iff] at h
      obtain ⟨target, ⟨htarget, hsame⟩, h⟩ := h
      split at h
      · exact absurd h (by simp)
      · rename_i hloop
        obtain rfl := Except.ok.inj h
        refine ⟨visited, relation, target, ⟨.inr hcurrent⟩, hlimit, htarget, hsame, ?_, rfl⟩
        rintro rfl prior hprior
        simp only [Bool.not_false, Bool.true_and, Bool.not_eq_true, History.contains,
          Bool.or_eq_false_iff, decide_eq_false_iff_not, List.any_eq_false,
          decide_eq_true_eq] at hloop
        rcases List.mem_cons.mp hprior with rfl | hprior
        · exact hloop.1
        · exact hloop.2 prior hprior

/-- How a request follows another: with the same method, or as a `GET` without a body. -/
theorem response_cases {self next : Machine} {status : ℕ} {location : Option Bytes}
    (h : self.response memory status location = .ok (.follow next)) :
    ∃ location changed, self.target.advance memory location changed = .ok next.target ∧
      (changed = false ∧ next.method = self.method ∧ (next.body = self.body ∨ next.body = none) ∨
        changed = true ∧ self.method ≠ .get ∧ next.method = .get ∧ next.body = none) := by
  rw [Machine.response] at h
  split at h
  · exact absurd h (by simp)
  · rename_i rewrite hrewrite
    split at h
    · exact absurd h (by simp)
    · rename_i location
      split at h
      · rw [Except.bind_eq_ok_iff] at h
        obtain ⟨target, htarget, h⟩ := h
        have hnext := Action.follow.inj (Except.ok.inj h)
        refine ⟨location, decide (rewrite = .get ∧ self.method ≠ .get), ?_, ?_⟩
        · rw [htarget, ← hnext]
          split <;> rfl
        · cases rewrite with
          | preserve =>
            rw [if_pos rfl] at hnext
            subst hnext
            exact .inl ⟨by simp, rfl, .inl rfl⟩
          | get =>
            rw [if_neg (by simp)] at hnext
            subst hnext
            by_cases hmethod : self.method = .get
            · exact .inl ⟨by simp [hmethod], hmethod.symm, .inr rfl⟩
            · exact .inr ⟨by simp [hmethod], hmethod, rfl, rfl⟩
      · exact absurd h (by simp)

end Step

/-! ## Runs -/

/-- The requests of a run: those that were redirected, and the current one. -/
inductive Run (memory : Memory) (first : Machine) : List Machine → Machine → Prop
  | start : Run memory first [] first
  | follow {sent : List Machine} {current next : Machine} {status : ℕ} {location : Option Bytes}
      (hrun : Run memory first sent current)
      (h : current.response memory status location = .ok (.follow next)) :
      Run memory first (sent ++ [current]) next

/-- Requests of one method phase have different paths. -/
def Distinct (earlier later : Machine) : Prop :=
  earlier.method = later.method → earlier.target.originForm ≠ later.target.originForm

/-- A request of the origin of the first one, which it is sent to. -/
structure AtOrigin (first machine : Machine) : Prop where
  target : machine = first ∨ originRelation first.target.target machine.target.target = .same
  scheme_eq : machine.target.origin.scheme = first.target.target.scheme
  parts_eq : machine.target.origin.parts = first.target.target.parts

/-- What holds after every prefix of a run. -/
structure Invariant (limit : ℕ) (first : Machine) (sent : List Machine) (current : Machine) :
    Prop where
  count : sent.length + current.target.limit = limit
  phase_le : current.target.limit ≤ current.target.phaseLimit
  borrowed : ∀ path, current.target.current = .borrowed path → sent = [] ∧ current = first
  at_origin : ∀ machine ∈ sent ++ [current], AtOrigin first machine
  methods : ∃ before after, sent ++ [current] = before ++ after ∧
    (∀ machine ∈ before, machine.method = first.method) ∧
      ∀ machine ∈ after, machine.method = .get ∧ machine.body = none
  distinct : (sent ++ [current]).Pairwise Distinct
  seen : ∀ visited relation, current.target.current = .owned visited relation →
    ∀ machine ∈ sent, machine.method = current.method →
      (∃ target ∈ lookback current.target visited,
        target.pathQuery = machine.target.originForm) ∨
        Dotless visited.current ∧ ∀ target, Dotless target →
          target.pathQuery ≠ machine.target.originForm

section Invariant

variable {memory : Memory} {limit : ℕ} {first current next : Machine} {sent : List Machine}

/-- A borrowed first target is the base with a path of its own. -/
def Admitted (first : Machine) : Prop :=
  ∀ text, first.target.current = .borrowed text → ∃ parts path query,
    first.target.base.Has parts ∧ Borrowable text path query

theorem invariant_start (hlimit : first.target.limit = limit)
    (hphase : first.target.phaseLimit = limit)
    (hprior : ∀ visited relation, first.target.current = .owned visited relation →
      visited.prior = []) : Invariant limit first [] first where
  count := by rw [List.length_nil, Nat.zero_add, hlimit]
  phase_le := by rw [hlimit, hphase]
  borrowed _ _ := ⟨rfl, rfl⟩
  at_origin := by
    intro machine hmem
    obtain rfl : machine = first := by simpa using hmem
    have horigin : machine.target.origin = machine.target.target := by
      rw [State.origin, State.target]
      cases hcurrent : machine.target.current with
      | borrowed path => rfl
      | owned visited relation => simp [hprior visited relation hcurrent]
    exact ⟨.inl rfl, by rw [horigin], by rw [horigin]⟩
  methods := ⟨[first], [], rfl, by simp, by simp⟩
  distinct := by simp
  seen := by simp

theorem mem_lookback_push {self : State} {visited : History} {target : Uri.Target}
    {limit phaseLimit : ℕ} {base : Uri.Target} {relation : Current}
    (hlimit : self.limit ≠ 0) (hphase : self.limit ≤ self.phaseLimit)
    {prior : Uri.Target} (h : prior ∈ lookback self visited)
    (hnext : limit = self.limit - 1) (hsame : phaseLimit = self.phaseLimit) :
    prior ∈ lookback ⟨limit, phaseLimit, base, relation⟩ (visited.push target) := by
  have hcount : phaseLimit - limit = self.phaseLimit - self.limit + 1 := by omega
  rw [lookback, History.push]
  dsimp only
  rw [hcount, List.reverse_append, List.reverse_singleton, List.singleton_append,
    List.take_succ_cons]
  exact List.mem_cons_of_mem _ h

theorem origin_push {self : State} {visited : History} {relation : Relation}
    {target : Uri.Target} {limit phaseLimit : ℕ} (h : self.current = .owned visited relation) :
    (State.mk limit phaseLimit self.base (.owned (visited.push target) relation)).origin =
      self.origin := by
  rw [State.origin, State.origin, h]
  dsimp only
  rw [History.push]
  cases visited.prior <;> rfl

/-- The requests so far are remembered, or no later target can be one of them. -/
def Remembered (self : State) (visited : History) (machine : Machine) : Prop :=
  (∃ target ∈ lookback self visited, target.pathQuery = machine.target.originForm) ∨
    Dotless visited.current ∧ ∀ target, Dotless target →
      target.pathQuery ≠ machine.target.originForm

/-- What the history that is appended to has to do with the requests so far. -/
structure Continues (first : Machine) (sent : List Machine) (current : Machine)
    (visited : History) (relation : Relation) : Prop where
  at_origin : ∀ target, originRelation visited.current target = .same →
    originRelation first.target.target target = .same
  scheme_eq : ∀ target limit phaseLimit,
    (State.mk limit phaseLimit current.target.base
      (.owned (visited.push target) relation)).origin.scheme = first.target.target.scheme
  parts_eq : ∀ target limit phaseLimit,
    (State.mk limit phaseLimit current.target.base
      (.owned (visited.push target) relation)).origin.parts = first.target.target.parts
  remembered : ∀ machine ∈ sent ++ [current], machine.method = current.method →
    Remembered current.target visited machine

theorem continues_of_visited {visited : History} {relation : Relation} (hadmitted : Admitted first)
    (h : Invariant limit first sent current)
    (hvisited : Visited memory current.target visited relation) :
    Continues first sent current visited relation := by
  rcases hvisited.owned with ⟨text, hcurrent, hprior, -, hinitial⟩ | hcurrent
  · -- the first request is redirected
    obtain ⟨rfl, rfl⟩ := h.borrowed text hcurrent
    obtain ⟨parts, path, query, hbase, htext⟩ := hadmitted text hcurrent
    have hhas := resolve_borrowed hbase htext hinitial
    have htarget : current.target.target = current.target.base := by rw [State.target, hcurrent]
    have hscheme : visited.current.scheme = current.target.target.scheme := by
      rw [htarget, hhas.scheme_eq, hbase.scheme_eq]
    have hparts : visited.current.parts = current.target.target.parts := by
      rw [htarget, hhas.parts_eq, hbase.parts_eq]
    have horigin (target : Uri.Target) (limit phaseLimit : ℕ) : (State.mk limit phaseLimit
        current.target.base (.owned (visited.push target) relation)).origin = visited.current := by
      rw [State.origin, History.push, hprior]
      rfl
    refine ⟨fun target hsame => ?_, fun _ _ _ => ?_, fun _ _ _ => ?_, ?_⟩
    · rwa [← originRelation_congr hscheme hparts]
    · rw [horigin, hscheme]
    · rw [horigin, hparts]
    · intro machine hmem _
      obtain rfl : machine = current := by simpa using hmem
      have hform : machine.target.originForm = text := by rw [State.originForm, hcurrent]
      rw [Remembered, hform]
      rcases initial_pathQuery hbase htext hinitial with heq | hdots
      · exact .inl ⟨visited.current, List.mem_cons_self, heq⟩
      · exact .inr hdots
  · have hcurrentMem : current ∈ sent ++ [current] := by simp
    obtain ⟨hsame, hscheme, hparts⟩ := h.at_origin current hcurrentMem
    have htarget : current.target.target = visited.current := by rw [State.target, hcurrent]
    refine ⟨?_, fun _ _ _ => ?_, fun _ _ _ => ?_, ?_⟩
    · intro target hnext
      rcases hsame with rfl | hsame
      · rwa [htarget]
      · rw [htarget] at hsame
        exact originRelation_trans hsame hnext
    · rw [origin_push hcurrent, hscheme]
    · rw [origin_push hcurrent, hparts]
    · intro machine hmem hmethod
      rcases List.mem_append.mp hmem with hmem | hmem
      · exact h.seen visited relation hcurrent machine hmem hmethod
      · obtain rfl := List.mem_singleton.mp hmem
        refine .inl ⟨visited.current, List.mem_cons_self, ?_⟩
        rw [State.originForm, hcurrent]

theorem method_eq (h : Invariant limit first sent current) (hget : current.method ≠ .get) :
    ∀ machine ∈ sent ++ [current], machine.method = current.method := by
  obtain ⟨before, after, hsplit, hbefore, hafter⟩ := h.methods
  have hnil : after = [] := by
    rcases after.eq_nil_or_concat' with hnil | ⟨lead, last, rfl⟩
    · exact hnil
    · rw [← List.append_assoc] at hsplit
      obtain ⟨-, hlast⟩ := List.append_inj' hsplit rfl
      obtain rfl : current = last := by simpa using hlast
      exact absurd (hafter current (by simp)).1 hget
  subst hnil
  rw [List.append_nil] at hsplit
  rw [hsplit]
  have hcurrent : current ∈ before := hsplit ▸ (by simp : current ∈ sent ++ [current])
  intro machine hmem
  rw [hbefore machine hmem, hbefore current hcurrent]

theorem methods_follow (h : Invariant limit first sent current)
    (hmethod : next.method = current.method ∧ (next.body = current.body ∨ next.body = none) ∨
      current.method ≠ .get ∧ next.method = .get ∧ next.body = none) :
    ∃ before after, sent ++ [current] ++ [next] = before ++ after ∧
      (∀ machine ∈ before, machine.method = first.method) ∧
        ∀ machine ∈ after, machine.method = .get ∧ machine.body = none := by
  obtain ⟨before, after, hsplit, hbefore, hafter⟩ := h.methods
  have happend (hnext : next.method = .get ∧ next.body = none) :
      ∀ machine ∈ after ++ [next], machine.method = .get ∧ machine.body = none := by
    intro machine hmem
    rcases List.mem_append.mp hmem with hmem | hmem
    · exact hafter machine hmem
    · obtain rfl := List.mem_singleton.mp hmem
      exact hnext
  rcases hmethod with ⟨hsame, hbody⟩ | ⟨-, hnext⟩
  · rcases after.eq_nil_or_concat' with rfl | ⟨lead, last, rfl⟩
    · refine ⟨before ++ [next], [], ?_, ?_, by simp⟩
      · rw [hsplit, List.append_nil, List.append_nil]
      · rw [List.append_nil] at hsplit
        have hcurrent : current ∈ before := hsplit ▸ (by simp : current ∈ sent ++ [current])
        intro machine hmem
        rcases List.mem_append.mp hmem with hmem | hmem
        · exact hbefore machine hmem
        · obtain rfl := List.mem_singleton.mp hmem
          rw [hsame, hbefore current hcurrent]
    · -- the current request is a `GET` already
      have hlast := hsplit
      rw [← List.append_assoc] at hlast
      obtain ⟨-, hlast⟩ := List.append_inj' hlast rfl
      obtain rfl : current = last := by simpa using hlast
      obtain ⟨hget, hnone⟩ := hafter current (by simp)
      refine ⟨before, lead ++ [current] ++ [next], ?_, hbefore, happend ⟨hsame.trans hget, ?_⟩⟩
      · rw [hsplit, List.append_assoc]
      · rcases hbody with hbody | hbody
        · rw [hbody, hnone]
        · exact hbody
  · refine ⟨before, after ++ [next], ?_, hbefore, happend hnext⟩
    rw [hsplit, List.append_assoc]

/-- A response that is followed keeps the invariant. -/
theorem invariant_follow {status : ℕ} {location : Option Bytes} (hadmitted : Admitted first)
    (h : Invariant limit first sent current)
    (hnext : current.response memory status location = .ok (.follow next)) :
    Invariant limit first (sent ++ [current]) next := by
  obtain ⟨location, changed, hadvance, hmethod⟩ := response_cases hnext
  obtain ⟨visited, relation, target, hvisited, hlimit, htarget, hsame, hloop, hstate⟩ :=
    advance_cases hadvance
  have hcontinues := continues_of_visited hadmitted h hvisited
  have hcurrent : next.target.current = .owned (visited.push target) relation := by rw [hstate]
  have hform : next.target.originForm = target.pathQuery := by
    rw [State.originForm, hcurrent]
    rfl
  have hdotless : Dotless visited.current → Dotless target := fun hdots =>
    resolve_dotless hdots htarget
  -- a request of the phase is remembered
  have hphase : ∀ machine ∈ sent ++ [current], machine.method = next.method →
      changed = false ∧ Remembered current.target visited machine := by
    intro machine hmem hsameMethod
    rcases hmethod with ⟨hchanged, hnextMethod, -⟩ | ⟨-, hget, hnextGet, -⟩
    · exact ⟨hchanged, hcontinues.remembered machine hmem (hsameMethod.trans hnextMethod)⟩
    · have hfirst := method_eq h hget machine hmem
      exact absurd (hfirst.symm.trans (hsameMethod.trans hnextGet)) hget
  refine ⟨?_, ?_, ?_, ?_, ?_, ?_, ?_⟩
  · have hcount := h.count
    rw [hstate, List.length_append, List.length_singleton]
    dsimp only
    omega
  · have hle := h.phase_le
    rw [hstate]
    dsimp only
    split <;> omega
  · intro path hpath
    rw [hcurrent] at hpath
    exact absurd hpath (by simp)
  · intro machine hmem
    rcases List.mem_append.mp hmem with hmem | hmem
    · exact h.at_origin machine hmem
    · obtain rfl := List.mem_singleton.mp hmem
      refine ⟨.inr ?_, ?_, ?_⟩
      · have htargetEq : machine.target.target = target := by
          rw [State.target, hcurrent]
          rfl
        rw [htargetEq]
        exact hcontinues.at_origin target hsame
      · rw [hstate]
        exact hcontinues.scheme_eq target _ _
      · rw [hstate]
        exact hcontinues.parts_eq target _ _
  · refine methods_follow h ?_
    rcases hmethod with ⟨-, hmethod⟩ | ⟨-, hmethod⟩
    · exact .inl hmethod
    · exact .inr hmethod
  · rw [List.pairwise_append]
    refine ⟨h.distinct, by simp, ?_⟩
    intro machine hmem later hlater
    obtain rfl := List.mem_singleton.mp hlater
    intro hsameMethod heq
    obtain ⟨hchanged, hremembered⟩ := hphase machine hmem hsameMethod
    rw [hform] at heq
    rcases hremembered with ⟨prior, hprior, hpath⟩ | ⟨hdots, hnever⟩
    · exact hloop hchanged prior hprior (hpath.trans heq)
    · exact hnever target (hdotless hdots) heq.symm
  · intro visited' relation' hcurrent' machine hmem hsameMethod
    rw [hcurrent] at hcurrent'
    obtain ⟨rfl, rfl⟩ := Current.owned.inj hcurrent'
    obtain ⟨hchanged, hremembered⟩ := hphase machine hmem hsameMethod
    rcases hremembered with ⟨prior, hprior, hpath⟩ | ⟨hdots, hnever⟩
    · refine .inl ⟨prior, ?_, hpath⟩
      rw [hstate, hchanged]
      exact mem_lookback_push hlimit h.phase_le hprior rfl rfl
    · exact .inr ⟨hdotless hdots, hnever⟩

theorem invariant_run (hadmitted : Admitted first) (hstart : Invariant limit first [] first)
    (hrun : Run memory first sent current) : Invariant limit first sent current := by
  induction hrun with
  | start => exact hstart
  | follow hrun hnext ih => exact invariant_follow hadmitted ih hnext

/-- A base with parts admits the machines whose first target is not taken for a network path. -/
theorem admitted_new {base : Uri.Target} {path body : Bytes} {method : Method}
    (hbase : Constructed memory (.inr base))
    (hpath : ¬(withoutFragment path = [] ∧ [0x2f, 0x2f] <+: base.pathQuery))
    (h : Machine.new memory limit base path method body = .ok first) :
    Admitted first ∧ Invariant limit first [] first ∧ first.method = method := by
  rw [Machine.new, Except.bind_eq_ok_iff] at h
  obtain ⟨target, htarget, h⟩ := h
  obtain rfl := Except.ok.inj h
  rw [State.new] at htarget
  split at htarget
  · rename_i text htext
    obtain rfl := Except.ok.inj htarget
    refine ⟨?_, invariant_start rfl rfl (by simp), rfl⟩
    intro text' htext'
    obtain rfl := Current.borrowed.inj htext'
    obtain ⟨parts, hparts⟩ := hbase.has
    obtain ⟨path, query, hborrowable, -⟩ := borrowable_of_borrowed hparts hpath htext
    exact ⟨parts, path, query, hparts, hborrowable⟩
  · rw [Except.bind_eq_ok_iff] at htarget
    obtain ⟨initial, -, htarget⟩ := htarget
    obtain rfl := Except.ok.inj htarget
    refine ⟨?_, invariant_start rfl rfl ?_, rfl⟩
    · intro text htext
      exact absurd htext (by simp)
    · intro visited relation hvisited
      obtain ⟨rfl, -⟩ := Current.owned.inj hvisited
      rfl

end Invariant

namespace Machine

/-- A run of redirects follows no more than its limit, stays at the origin of the first target,
sends no path and query twice with one method, and changes the method once, to a `GET` without a
body. The first target must not be an empty one that stands for a path of the base with two slashes
in front, which is resolved as a network path when it is redirected. -/
theorem run_safe {memory : Memory} {limit : ℕ} {base : Uri.Target} {path body : Bytes}
    {method : Method} {first current : Machine} {sent : List Machine}
    (hbase : Constructed memory (.inr base))
    (hpath : ¬(withoutFragment path = [] ∧ [0x2f, 0x2f] <+: base.pathQuery))
    (hnew : new memory limit base path method body = .ok first)
    (hrun : Run memory first sent current) :
    sent.length ≤ limit ∧ (∀ machine ∈ sent ++ [current], AtOrigin first machine) ∧
      (sent ++ [current]).Pairwise Distinct ∧ first.method = method ∧
        ∃ before after, sent ++ [current] = before ++ after ∧
          (∀ machine ∈ before, machine.method = method) ∧
            ∀ machine ∈ after, machine.method = .get ∧ machine.body = none := by
  obtain ⟨hadmitted, hstart, hmethod⟩ := admitted_new hbase hpath hnew
  have h := invariant_run hadmitted hstart hrun
  have hcount := h.count
  refine ⟨by omega, h.at_origin, h.distinct, hmethod, ?_⟩
  rw [← hmethod]
  exact h.methods

/-- `http://h//e/x`, whose path is `//e/x`. -/
def doubleSlash : Bytes :=
  [0x68, 0x74, 0x74, 0x70, 0x3a, 0x2f, 0x2f, 0x68, 0x2f, 0x2f, 0x65, 0x2f, 0x78]

/-- The target that it is parsed as. -/
def doubleSlashBase : Uri.Target :=
  ⟨doubleSlash, some 4, 8, 8, 13⟩

/-- `http` with a host and a path of one letter. -/
def lettered (host path : UInt8) : Uri.Target :=
  ⟨[0x68, 0x74, 0x74, 0x70, 0x3a, 0x2f, 0x2f, host, 0x2f, path], some 4, 8, 8, 10⟩

/-- The first machine of a `GET` request with a redirect to follow. -/
def getting (path : Bytes) : Machine :=
  ⟨⟨1, 1, doubleSlashBase, .borrowed path⟩, .get, some []⟩

/-- The machine behind a redirect of `/x` to `/y`. -/
def redirected (host : UInt8) : Machine :=
  ⟨⟨0, 1, doubleSlashBase, .owned ⟨lettered host 0x79, [lettered host 0x78]⟩ .same⟩, .get, some []⟩

theorem parse_doubleSlash : Uri.Target.parse Uri.Target.unlimited doubleSlash =
    .ok doubleSlashBase := by
  decide +kernel

/-- `/x` at the base is redirected to `/y`. -/
theorem run_safe_redirected : AtOrigin (getting [0x2f, 0x78]) (redirected 0x68) ∧
    Distinct (getting [0x2f, 0x78]) (redirected 0x68) := by
  have hrun : Run Uri.Target.unlimited (getting [0x2f, 0x78]) [getting [0x2f, 0x78]]
      (redirected 0x68) := by
    have hnext : (getting [0x2f, 0x78]).response Uri.Target.unlimited 302 (some [0x2f, 0x79]) =
        .ok (.follow (redirected 0x68)) := by
      decide +kernel
    exact .follow .start hnext
  obtain ⟨-, horigin, hdistinct, -⟩ := run_safe (.parse parse_doubleSlash) (by decide +kernel)
    (show new Uri.Target.unlimited 1 doubleSlashBase [0x2f, 0x78] .get [] =
      .ok (getting [0x2f, 0x78]) by decide +kernel) hrun
  exact ⟨horigin _ (by simp), by simpa using hdistinct⟩

/-- The empty target stands for `//e/x`, and a redirect to `/y` leads to `http://e/y`. -/
theorem run_leaves_origin : Constructed Uri.Target.unlimited (.inr doubleSlashBase) ∧
    new Uri.Target.unlimited 1 doubleSlashBase [] .get [] =
      .ok (getting doubleSlashBase.pathQuery) ∧
    Run Uri.Target.unlimited (getting doubleSlashBase.pathQuery)
      [getting doubleSlashBase.pathQuery] (redirected 0x65) ∧
    originRelation (getting doubleSlashBase.pathQuery).target.target
      (redirected 0x65).target.target = .cross ∧
        ¬AtOrigin (getting doubleSlashBase.pathQuery) (redirected 0x65) := by
  have hnext : (getting doubleSlashBase.pathQuery).response Uri.Target.unlimited 302
      (some [0x2f, 0x79]) = .ok (.follow (redirected 0x65)) := by
    decide +kernel
  have hcross : originRelation (getting doubleSlashBase.pathQuery).target.target
      (redirected 0x65).target.target = .cross := by
    decide +kernel
  refine ⟨.parse parse_doubleSlash, by decide +kernel, .follow .start hnext, hcross, ?_⟩
  rintro ⟨hfirst | hsame, -, -⟩
  · exact absurd hfirst (by decide +kernel)
  · rw [hcross] at hsame
    exact absurd hsame (by simp)

end Machine

end Sark.Client.Redirect
