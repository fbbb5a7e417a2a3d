import Sark.Http.Uri.Authority

/-!
# Request targets

The target of an HTTP/1 request line (`http/src/h1/target.rs`). A whole target is parsed as one of
four forms; the head parser looks for the end of the target at the same time. The ranges of the
parts are kept as 32-bit spans (`http/src/request/span.rs`).

* `Target.parse_iff`: the targets that are accepted, with the ranges of their parts.
* `Target.parsePrefix_iff`: a target in front of a space is parsed as it is alone, and then moved.
* `Target.exists_iff`: the targets of a length that spans reach are those of the four forms.
-/

namespace Sark.Http

/-! ## Spans -/

/-- `span::Error`. -/
inductive SpanError
  | order (start stop : ℕ)
  | overflow (start length : ℕ)
  | bounds (start length : ℕ)
  | shift (start length base : ℕ)
  deriving DecidableEq, Repr

/-- `span::Span`: a range whose start can be stored plus one in 32 bits, and whose end can be. -/
structure Span where
  start : ℕ
  length : ℕ
  start_lt : start < 2 ^ 32 - 1
  end_le : start + length ≤ 2 ^ 32 - 1
  deriving DecidableEq, Repr

namespace Span

/-- `Span::checked`. -/
def checked (start length : ℕ) : Except SpanError Span :=
  if 2 ^ 64 ≤ start + length then .error (.overflow start length)
  else if h : 2 ^ 32 - 1 ≤ start ∨ 2 ^ 32 - 1 < start + length then
    .error (.bounds start length)
  else .ok ⟨start, length, by omega, by omega⟩

/-- `Span::shifted`. -/
def shifted (self : Span) (base : ℕ) : Except SpanError Span :=
  if 2 ^ 64 ≤ base + self.start then .error (.shift self.start self.length base)
  else if 2 ^ 64 ≤ base + self.start + self.length then .error (.shift self.start self.length base)
  else if h : 2 ^ 32 - 1 ≤ base + self.start ∨ 2 ^ 32 - 1 < base + self.start + self.length then
    .error (.shift self.start self.length base)
  else .ok ⟨base + self.start, self.length, by omega, by omega⟩

/-- `Span::default`. -/
def default : Span :=
  ⟨0, 0, by norm_num, by norm_num⟩

/-- `Span::end`. -/
def stop (self : Span) : ℕ :=
  self.start + self.length

/-- A span of a given range. -/
structure Is (span : Span) (start length : ℕ) : Prop where
  start_eq : span.start = start
  length_eq : span.length = length

theorem checked_iff {start length : ℕ} {span : Span} :
    checked start length = .ok span ↔ span.Is start length := by
  rw [checked]
  constructor
  · intro h
    split at h
    · exact absurd h (by simp)
    · split at h
      · exact absurd h (by simp)
      · obtain rfl := Except.ok.inj h
        exact ⟨rfl, rfl⟩
  · rintro ⟨rfl, rfl⟩
    have hstart := span.start_lt
    have hend := span.end_le
    rw [if_neg (by omega), dif_neg (by omega)]

theorem shifted_iff {self span : Span} {base : ℕ} :
    self.shifted base = .ok span ↔ span.Is (base + self.start) self.length := by
  rw [shifted]
  constructor
  · intro h
    split at h
    · exact absurd h (by simp)
    · split at h
      · exact absurd h (by simp)
      · split at h
        · exact absurd h (by simp)
        · obtain rfl := Except.ok.inj h
          exact ⟨rfl, rfl⟩
  · rintro ⟨hstart', hlength'⟩
    have hstart := span.start_lt
    have hend := span.end_le
    rw [if_neg (by omega), if_neg (by omega), dif_neg (by omega)]
    simp only [← hstart', ← hlength']

theorem exists_is {start length : ℕ} (h : start + length < 2 ^ 32 - 1) :
    ∃ span : Span, span.Is start length :=
  ⟨⟨start, length, by omega, by omega⟩, rfl, rfl⟩

end Span

/-! ## The parser -/

namespace Target

/-- `target::Operation`. -/
inductive Operation
  | path
  | query
  | authority
  | pathShift
  | queryShift
  | authorityShift
  deriving DecidableEq, Repr

/-- `target::Error`, as far as targets are concerned. -/
inductive Error
  | invalidTarget
  | path (error : Uri.PathError)
  | authority (error : Uri.Error)
  | span (operation : Operation) (error : SpanError)
  deriving DecidableEq, Repr

/-- `target::Form`. -/
inductive Form
  | origin
  | absolute
  | authority
  | asterisk
  deriving DecidableEq, Repr

/-- `target::Route`. -/
inductive Route
  | borrowed
  | root
  | none
  deriving DecidableEq, Repr

/-- `Operation::check`. -/
def Operation.check (self : Operation) (start length : ℕ) : Except Error Span :=
  (Span.checked start length).mapError (.span self)

/-- `Operation::shift`. -/
def Operation.shift (self : Operation) (span : Span) (base : ℕ) : Except Error Span :=
  (span.shifted base).mapError (.span self)

end Target

/-- `target::Target`, with the present parts as options. -/
structure Target where
  path : Span
  query : Option Span
  authority : Option Span
  form : Target.Form
  route : Target.Route
  deriving DecidableEq, Repr

namespace Target

/-- `b"OPTIONS"`. -/
def options : Bytes :=
  [0x4f, 0x50, 0x54, 0x49, 0x4f, 0x4e, 0x53]

/-- `b"CONNECT"`. -/
def connect : Bytes :=
  [0x43, 0x4f, 0x4e, 0x4e, 0x45, 0x43, 0x54]

/-- The query's range, if there is a query. -/
def queryPart (scan : Uri.Plan) (base : ℕ) : Except Error (Option Span) :=
  match scan.query with
  | .query index => (Operation.query.check (base + index + 1) (scan.stop - index - 1)).map some
  | .path => .ok none

/-- `target::origin`. -/
def origin (scan : Uri.Plan) (base : ℕ) : Except Error Target := do
  let path ← Operation.path.check base scan.pathEnd
  let query ← queryPart scan base
  pure ⟨path, query, none, .origin, .borrowed⟩

/-- The loop of `target::scheme`. -/
def schemeLoop : Bytes → Option Bytes
  | [] => none
  | byte :: rest =>
    if byte = 0x3a then some rest
    else if Uri.isSchemeByte byte then schemeLoop rest
    else none

/-- `target::scheme`: what follows the colon. -/
def scheme : Bytes → Option Bytes
  | [] => none
  | first :: rest => if Uri.isAlphabetic first then schemeLoop rest else none

/-- `target::is_connect`. -/
def isConnect (value : Bytes) : Bool :=
  if value.head? = some 0x5b then
    let literal := value.tail.takeWhile (· ≠ 0x5d)
    match value.tail.dropWhile (· ≠ 0x5d) with
    | [] => false
    | _ :: port => !literal.isEmpty && Uri.Authority.isIp literal && Uri.Authority.isPort port
  else
    -- the last colon is searched from behind
    let port := (value.reverse.takeWhile (· ≠ 0x3a)).reverse
    match value.reverse.dropWhile (· ≠ 0x3a) with
    | [] => false
    | colon :: front =>
      !front.reverse.contains 0x3a && Uri.isReg front.reverse &&
        Uri.Authority.isPort (colon :: port)

/-- The authority of an absolute target, which may be empty. -/
def authorityPart (value : Bytes) (start : ℕ) : Except Error (Option Span) :=
  if value.isEmpty then .ok none
  else do
    let _ ← (Uri.Authority.parse value).mapError Error.authority
    (Operation.authority.check start value.length).map some

/-- The route of an absolute target. -/
def absoluteRoute (suffix : Bytes) (pathLength : ℕ) : Route :=
  if pathLength = 0 then .root
  else if suffix.head? = some 0x2f then .borrowed
  else .none

/-- The path and the query of an absolute target. -/
def absolute (authority : Option Span) (start : ℕ) (suffix : Bytes) : Except Error Target := do
  let scan ← (Uri.Scan.complete suffix).mapError Error.path
  let path ← Operation.path.check start scan.pathEnd
  let query ← queryPart scan start
  pure ⟨path, query, authority, .absolute, absoluteRoute suffix scan.pathEnd⟩

/-- The bytes in front of the path of an absolute target. -/
def isAuthority (byte : UInt8) : Bool :=
  byte ≠ 0x2f && byte ≠ 0x3f

/-- `Target::parse`. -/
def parse (method target : Bytes) : Except Error Target :=
  if method.isEmpty || !method.all isNameByte || target.isEmpty then .error .invalidTarget
  else if target = [0x2a] then
    if method = options then
      .ok ⟨Span.default, none, none, .asterisk, .none⟩
    else .error .invalidTarget
  else if method = connect then
    if isConnect target then do
      let authority ← Operation.authority.check 0 target.length
      pure ⟨Span.default, none, some authority, .authority, .none⟩
    else .error .invalidTarget
  else if target.head? = some 0x2f then do
    let scan ← (Uri.Scan.complete target).mapError Error.path
    origin scan 0
  else
    match scheme target with
    | none => .error .invalidTarget
    | some rest =>
      let restAt := target.length - rest.length
      if [0x2f, 0x2f] <+: rest then do
        let value := (rest.drop 2).takeWhile isAuthority
        let suffix := (rest.drop 2).dropWhile isAuthority
        let authority ← authorityPart value (restAt + 2)
        absolute authority (restAt + 2 + value.length) suffix
      else absolute none restAt rest

/-- `Operation::shift` of a part that may be missing. -/
def shiftPart (operation : Operation) (part : Option Span) (base : ℕ) :
    Except Error (Option Span) :=
  match part with
  | none => .ok none
  | some span => (operation.shift span base).map some

/-- `Target::shifted`. -/
def shifted (self : Target) (base : ℕ) : Except Error Target := do
  let path ← Operation.pathShift.shift self.path base
  let query ← shiftPart .queryShift self.query base
  let authority ← shiftPart .authorityShift self.authority base
  pure { self with path, query, authority }

/-- The bytes that end a target in its line. -/
def isTargetEnd (byte : UInt8) : Bool :=
  byte == 0x20 || byte == 0x0d

/-- `Target::parse_prefix`: the target and where it ends, or nothing as long as its end is not
there. -/
def parsePrefix (method bytes : Bytes) (base : ℕ) : Except Error (Option (ℕ × Target)) :=
  if bytes.head? = some 0x2f ∧ method ≠ connect then
    match Uri.Scan.prefixPlan bytes with
    | .complete scan => (origin scan base).map fun target => some (scan.stop, target)
    | .incomplete => .ok none
    | .invalid error => .error (.path error)
  else
    match bytes.findIdx? isTargetEnd with
    | none => .ok none
    | some stop =>
      if stop = 0 ∨ bytes[stop]? = some 0x0d then .error .invalidTarget
      else do
        let target ← parse method (bytes.take stop)
        let target ← target.shifted base
        pure (some (stop, target))

/-! ## The grammar -/

open Uri (AuthorityText Host Plan SchemeText)
open Uri.Scan (PathQuery)

/-- The range of the query of a text that begins at `base`. -/
inductive QueryAt (base : ℕ) (scan : Plan) : Option Span → Prop
  | absent (h : scan.query = .path) : QueryAt base scan none
  | present {index : ℕ} {span : Span} (h : scan.query = .query index)
      (hspan : span.Is (base + index + 1) (scan.stop - index - 1)) : QueryAt base scan (some span)

/-- The range of an authority, unless it is empty. -/
inductive AuthorityAt (start : ℕ) : Bytes → Option Span → Prop
  | absent : AuthorityAt start [] none
  | present {value : Bytes} {authority : Uri.Authority} {span : Span}
      (h : AuthorityText value authority) (hspan : span.Is start value.length) :
      AuthorityAt start value (some span)

/-- What may follow an authority. -/
def Suffix (value : Bytes) : Prop :=
  ∀ byte ∈ value.head?, isAuthority byte = false

/-- The targets of a request with a method, and the ranges of their parts. -/
inductive TargetText (method : Bytes) : Bytes → Target → Prop
  | origin {text : Bytes} {scan : Plan} {path : Span} {query : Option Span}
      (hmethod : method ≠ connect) (hscan : PathQuery (0x2f :: text) scan)
      (hpath : path.Is 0 scan.pathEnd) (hquery : QueryAt 0 scan query) :
      TargetText method (0x2f :: text) ⟨path, query, none, .origin, .borrowed⟩
  | absolute {scheme value suffix : Bytes} {scan : Plan} {path : Span}
      {query authority : Option Span} (hmethod : method ≠ connect) (hscheme : SchemeText scheme)
      (hauthority : AuthorityAt (scheme.length + 3) value authority) (hsuffix : Suffix suffix)
      (hscan : PathQuery suffix scan)
      (hpath : path.Is (scheme.length + 3 + value.length) scan.pathEnd)
      (hquery : QueryAt (scheme.length + 3 + value.length) scan query) :
      TargetText method (scheme ++ 0x3a :: 0x2f :: 0x2f :: (value ++ suffix))
        ⟨path, query, authority, .absolute, absoluteRoute suffix scan.pathEnd⟩
  | pathOnly {scheme rest : Bytes} {scan : Plan} {path : Span} {query : Option Span}
      (hmethod : method ≠ connect) (hscheme : SchemeText scheme) (hrest : ¬[0x2f, 0x2f] <+: rest)
      (hscan : PathQuery rest scan) (hpath : path.Is (scheme.length + 1) scan.pathEnd)
      (hquery : QueryAt (scheme.length + 1) scan query) :
      TargetText method (scheme ++ 0x3a :: rest)
        ⟨path, query, none, .absolute, absoluteRoute rest scan.pathEnd⟩
  | authority {host port : Bytes} {span : Span} (hmethod : method = connect) (hhost : Host host)
      (hport : port ≠ []) (hdigits : ∀ byte ∈ port, Uri.isDigit byte = true)
      (hspan : span.Is 0 (host ++ 0x3a :: port).length) :
      TargetText method (host ++ 0x3a :: port) ⟨Span.default, none, some span, .authority, .none⟩
  | asterisk (hmethod : method = options) :
      TargetText method [0x2a] ⟨Span.default, none, none, .asterisk, .none⟩

/-- The forms of a target, whatever its length. -/
inductive RequestTarget (method : Bytes) : Bytes → Form → Prop
  | origin {text : Bytes} {scan : Plan} (hmethod : method ≠ connect)
      (hscan : PathQuery (0x2f :: text) scan) : RequestTarget method (0x2f :: text) .origin
  | absolute {scheme value suffix : Bytes} {scan : Plan} (hmethod : method ≠ connect)
      (hscheme : SchemeText scheme)
      (hvalue : value = [] ∨ ∃ authority, AuthorityText value authority) (hsuffix : Suffix suffix)
      (hscan : PathQuery suffix scan) :
      RequestTarget method (scheme ++ 0x3a :: 0x2f :: 0x2f :: (value ++ suffix)) .absolute
  | pathOnly {scheme rest : Bytes} {scan : Plan} (hmethod : method ≠ connect)
      (hscheme : SchemeText scheme) (hrest : ¬[0x2f, 0x2f] <+: rest)
      (hscan : PathQuery rest scan) : RequestTarget method (scheme ++ 0x3a :: rest) .absolute
  | authority {host port : Bytes} (hmethod : method = connect) (hhost : Host host)
      (hport : port ≠ []) (hdigits : ∀ byte ∈ port, Uri.isDigit byte = true) :
      RequestTarget method (host ++ 0x3a :: port) .authority
  | asterisk (hmethod : method = options) : RequestTarget method [0x2a] .asterisk

/-! ## The parts -/

theorem check_iff {operation : Operation} {start length : ℕ} {span : Span} :
    operation.check start length = .ok span ↔ span.Is start length := by
  rw [Operation.check, Except.mapError_eq_ok_iff, Span.checked_iff]

theorem shift_iff {operation : Operation} {self span : Span} {base : ℕ} :
    operation.shift self base = .ok span ↔ span.Is (base + self.start) self.length := by
  rw [Operation.shift, Except.mapError_eq_ok_iff, Span.shifted_iff]

theorem queryPart_iff {scan : Plan} {base : ℕ} {part : Option Span} :
    queryPart scan base = .ok part ↔ QueryAt base scan part := by
  rw [queryPart]
  cases hquery : scan.query with
  | path =>
    constructor
    · intro h
      obtain rfl := Except.ok.inj h
      exact .absent hquery
    · rintro (h | ⟨h, hspan⟩)
      · rfl
      · exact absurd (hquery.symm.trans h) (by simp)
  | query index =>
    simp only [Except.map_eq_ok_iff, check_iff]
    constructor
    · rintro ⟨span, hspan, rfl⟩
      exact .present hquery hspan
    · rintro (h | ⟨h, hspan⟩)
      · exact absurd (hquery.symm.trans h) (by simp)
      · obtain rfl := Uri.At.query.inj (hquery.symm.trans h)
        exact ⟨_, hspan, rfl⟩

theorem origin_iff {scan : Plan} {base : ℕ} {target : Target} :
    origin scan base = .ok target ↔ ∃ path query, path.Is base scan.pathEnd ∧
      QueryAt base scan query ∧ target = ⟨path, query, none, .origin, .borrowed⟩ := by
  simp only [origin, Except.bind_eq_ok_iff, check_iff, queryPart_iff]
  constructor
  · rintro ⟨path, hpath, query, hquery, h⟩
    exact ⟨path, query, hpath, hquery, (Except.ok.inj h).symm⟩
  · rintro ⟨path, query, hpath, hquery, rfl⟩
    exact ⟨path, hpath, query, hquery, rfl⟩

theorem absolute_iff {authority : Option Span} {start : ℕ} {suffix : Bytes} {target : Target} :
    absolute authority start suffix = .ok target ↔ ∃ scan path query, PathQuery suffix scan ∧
      path.Is start scan.pathEnd ∧ QueryAt start scan query ∧
      target = ⟨path, query, authority, .absolute, absoluteRoute suffix scan.pathEnd⟩ := by
  simp only [absolute, Except.bind_eq_ok_iff, Except.mapError_eq_ok_iff, Uri.Scan.complete_iff,
    check_iff, queryPart_iff]
  constructor
  · rintro ⟨scan, hscan, path, hpath, query, hquery, h⟩
    exact ⟨scan, path, query, hscan, hpath, hquery, (Except.ok.inj h).symm⟩
  · rintro ⟨scan, path, query, hscan, hpath, hquery, rfl⟩
    exact ⟨scan, hscan, path, hpath, query, hquery, rfl⟩

theorem authorityPart_iff {value : Bytes} {start : ℕ} {part : Option Span} :
    authorityPart value start = .ok part ↔ AuthorityAt start value part := by
  rw [authorityPart]
  cases value with
  | nil =>
    rw [List.isEmpty_nil, if_pos rfl, Except.ok.injEq]
    constructor
    · rintro rfl
      exact .absent
    · rintro (_ | ⟨h, -⟩)
      · rfl
      · exact absurd rfl h.ne_nil
  | cons byte value =>
    rw [List.isEmpty_cons, if_neg Bool.false_ne_true]
    simp only [Except.bind_eq_ok_iff, Except.mapError_eq_ok_iff, Uri.Authority.parse_iff,
      Except.map_eq_ok_iff, check_iff]
    constructor
    · rintro ⟨authority, h, span, hspan, rfl⟩
      exact .present h hspan
    · rintro (_ | ⟨h, hspan⟩)
      exact ⟨_, h, _, hspan, rfl⟩

/-! ## Schemes and authorities -/

theorem schemeLoop_iff {value rest : Bytes} : schemeLoop value = some rest ↔
    ∃ name, (∀ byte ∈ name, Uri.isSchemeByte byte = true) ∧ value = name ++ 0x3a :: rest := by
  have hcolon : Uri.isSchemeByte 0x3a = false := by decide
  induction value with
  | nil => simp [schemeLoop]
  | cons byte value ih =>
    rw [schemeLoop]
    constructor
    · intro h
      split at h
      · rename_i hbyte
        obtain rfl := Option.some.inj h
        exact ⟨[], by simp, by rw [hbyte]; rfl⟩
      · split at h
        · rename_i hscheme
          obtain ⟨name, hname, rfl⟩ := ih.mp h
          exact ⟨byte :: name, List.forall_mem_cons.mpr ⟨hscheme, hname⟩, rfl⟩
        · exact absurd h (by simp)
    · rintro ⟨_ | ⟨first, name⟩, hname, hvalue⟩
      · obtain ⟨rfl, rfl⟩ := List.cons.inj hvalue
        rw [if_pos rfl]
      · obtain ⟨rfl, rfl⟩ := List.cons.inj hvalue
        obtain ⟨hfirst, hname⟩ := List.forall_mem_cons.mp hname
        have hne : byte ≠ 0x3a := by
          rintro rfl
          rw [hcolon] at hfirst
          exact Bool.noConfusion hfirst
        rw [if_neg hne, if_pos hfirst]
        exact ih.mpr ⟨name, hname, rfl⟩

theorem scheme_iff {value rest : Bytes} : scheme value = some rest ↔
    ∃ name, SchemeText name ∧ value = name ++ 0x3a :: rest := by
  rcases value with _ | ⟨first, value⟩
  · refine iff_of_false (by simp [scheme]) ?_
    rintro ⟨name, -, h⟩
    exact absurd h (by simp)
  · rw [scheme]
    constructor
    · intro h
      split at h
      · rename_i hfirst
        obtain ⟨name, hname, rfl⟩ := schemeLoop_iff.mp h
        exact ⟨first :: name, .mk hfirst hname, rfl⟩
      · exact absurd h (by simp)
    · rintro ⟨_, ⟨hfirst, hrest⟩, hvalue⟩
      obtain ⟨rfl, rfl⟩ := List.cons.inj hvalue
      rw [if_pos hfirst]
      exact schemeLoop_iff.mpr ⟨_, hrest, rfl⟩

theorem isPort_iff {value : Bytes} : Uri.Authority.isPort value = true ↔
    ∃ port, value = 0x3a :: port ∧ port ≠ [] ∧ ∀ byte ∈ port, Uri.isDigit byte = true := by
  rcases value with _ | ⟨colon, port⟩
  · simp [Uri.Authority.isPort]
  · simp only [Uri.Authority.isPort, Uri.isDigits, Bool.and_eq_true, beq_iff_eq,
      Bool.not_eq_true', List.isEmpty_eq_false_iff, List.all_eq_true, List.cons.injEq]
    constructor
    · rintro ⟨⟨rfl, hne⟩, hdigits⟩
      exact ⟨port, ⟨rfl, rfl⟩, hne, hdigits⟩
    · rintro ⟨_, ⟨rfl, rfl⟩, hne, hdigits⟩
      exact ⟨⟨rfl, hne⟩, hdigits⟩

theorem isConnect_iff {value : Bytes} : isConnect value = true ↔ ∃ host port, Host host ∧
    port ≠ [] ∧ (∀ byte ∈ port, Uri.isDigit byte = true) ∧ value = host ++ 0x3a :: port := by
  constructor
  · intro h
    rw [isConnect] at h
    split at h
    · -- a literal in brackets
      rename_i hfirst
      obtain ⟨body, rfl⟩ := List.head?_eq_some_iff.mp hfirst
      rw [List.tail_cons] at h
      cases hdrop : body.dropWhile (· ≠ 0x5d) with
      | nil =>
        rw [hdrop] at h
        exact Bool.noConfusion h
      | cons close rest =>
        obtain ⟨rfl, hbody⟩ := dropWhile_ne_eq_cons hdrop
        rw [hdrop] at h
        simp only [Bool.and_eq_true] at h
        obtain ⟨⟨-, hip⟩, hport⟩ := h
        obtain ⟨port, rfl, hne, hdigits⟩ := isPort_iff.mp hport
        refine ⟨_, port, .literal (Uri.Authority.isIp_iff.mp hip), hne, hdigits, ?_⟩
        simpa using hbody
    · dsimp only at h
      cases hdrop : value.reverse.dropWhile (· ≠ 0x3a) with
      | nil =>
        rw [hdrop] at h
        exact Bool.noConfusion h
      | cons colon front =>
        obtain ⟨rfl, hvalue⟩ := dropWhile_ne_eq_cons hdrop
        rw [hdrop] at h
        simp only [Bool.and_eq_true] at h
        obtain ⟨⟨-, hreg⟩, hport⟩ := h
        obtain ⟨port, hcons, hne, hdigits⟩ := isPort_iff.mp hport
        obtain ⟨-, rfl⟩ := List.cons.inj hcons
        refine ⟨_, _, .name (Uri.isReg_iff.mp hreg), hne, hdigits, ?_⟩
        have hreverse := congrArg List.reverse hvalue
        rw [List.reverse_reverse] at hreverse
        exact hreverse.trans (by simp)
  · rintro ⟨host, port, hhost, hne, hdigits, rfl⟩
    have hport : Uri.Authority.isPort (0x3a :: port) = true :=
      isPort_iff.mpr ⟨port, rfl, hne, hdigits⟩
    rw [isConnect]
    cases hhost with
    | literal h =>
      rename_i literal
      have hbracket := h.bracket_notMem
      rw [if_pos (by simp)]
      have htail : (0x5b :: literal ++ [0x5d] ++ 0x3a :: port).tail =
          literal ++ 0x5d :: 0x3a :: port := by
        simp
      rw [htail]
      simp only [takeWhile_ne_append hbracket, dropWhile_ne_append hbracket, hport,
        Uri.Authority.isIp_iff.mpr h, Bool.and_true]
      simpa using h.ne_nil
    | name h =>
      have hcolon : 0x3a ∉ host := fun hmem => (h.chars.mem hmem).1 rfl
      have hdigit : 0x3a ∉ port.reverse := fun hmem =>
        absurd (hdigits _ (List.mem_reverse.mp hmem)) (by decide)
      obtain ⟨first, name, rfl⟩ := List.exists_cons_of_ne_nil h.ne_nil
      have hfirst : first ≠ 0x5b := (h.chars.mem List.mem_cons_self).2.1
      have hreverse : (first :: name ++ 0x3a :: port).reverse =
          port.reverse ++ 0x3a :: (first :: name).reverse := by
        simp
      rw [if_neg (by simpa using hfirst), hreverse]
      simp only [takeWhile_ne_append hdigit, dropWhile_ne_append hdigit, List.reverse_reverse,
        hport, Uri.isReg_iff.mpr h, Bool.and_true, Bool.not_eq_true']
      simpa using hcolon

/-! ## Whole targets -/

/-- A method is a token. -/
def MethodText (method : Bytes) : Prop :=
  method ≠ [] ∧ ∀ byte ∈ method, isNameByte byte = true

section Parse

variable {method target : Bytes} {result : Target}

theorem prefix_slashes_iff {value : Bytes} :
    [0x2f, 0x2f] <+: value ↔ ∃ rest, value = 0x2f :: 0x2f :: rest := by
  constructor
  · rintro ⟨rest, rfl⟩
    exact ⟨rest, rfl⟩
  · rintro ⟨rest, rfl⟩
    exact ⟨rest, rfl⟩

theorem authority_split {value suffix : Bytes} {start : ℕ} {authority : Option Span}
    (hauthority : AuthorityAt start value authority) (hsuffix : Suffix suffix) :
    (value ++ suffix).takeWhile isAuthority = value ∧
      (value ++ suffix).dropWhile isAuthority = suffix := by
  have hall : ∀ byte ∈ value, isAuthority byte = true := by
    intro byte hmem
    cases hauthority with
    | absent => simp at hmem
    | present h hspan =>
      simp only [isAuthority, Bool.and_eq_true, decide_eq_true_eq]
      constructor
      · rintro rfl
        exact h.notMem (by decide) hmem
      · rintro rfl
        exact h.notMem (by decide) hmem
  rw [List.takeWhile_append_of_pos hall, List.dropWhile_append_of_pos hall]
  rcases suffix with _ | ⟨byte, suffix⟩
  · simp
  · have hbyte := hsuffix byte rfl
    simp [hbyte]

theorem suffix_dropWhile (value : Bytes) : Suffix (value.dropWhile isAuthority) := by
  intro byte hmem
  have hhead := List.head?_dropWhile_not isAuthority value
  rw [Option.mem_def] at hmem
  rw [hmem] at hhead
  simpa using hhead

theorem parse_absolute {rest : Bytes} {restAt : ℕ} :
    (if [0x2f, 0x2f] <+: rest then do
        let value := (rest.drop 2).takeWhile isAuthority
        let suffix := (rest.drop 2).dropWhile isAuthority
        let authority ← authorityPart value (restAt + 2)
        absolute authority (restAt + 2 + value.length) suffix
      else absolute none restAt rest : Except Error Target) = .ok result ↔
    (∃ value suffix authority, rest = 0x2f :: 0x2f :: (value ++ suffix) ∧
        AuthorityAt (restAt + 2) value authority ∧ Suffix suffix ∧
        absolute authority (restAt + 2 + value.length) suffix = .ok result) ∨
      ¬[0x2f, 0x2f] <+: rest ∧ absolute none restAt rest = .ok result := by
  by_cases hslashes : [0x2f, 0x2f] <+: rest
  · obtain ⟨rest, rfl⟩ := prefix_slashes_iff.mp hslashes
    simp only [hslashes, if_true, Except.bind_eq_ok_iff, authorityPart_iff, not_true_eq_false,
      false_and, or_false, List.drop_succ_cons, List.drop_zero]
    constructor
    · rintro ⟨authority, hauthority, h⟩
      refine ⟨_, _, authority, ?_, hauthority, suffix_dropWhile rest, h⟩
      rw [List.takeWhile_append_dropWhile]
    · rintro ⟨value, suffix, authority, hrest, hauthority, hsuffix, h⟩
      obtain rfl : rest = value ++ suffix := by simpa using hrest
      obtain ⟨htake, hdrop⟩ := authority_split hauthority hsuffix
      rw [htake, hdrop]
      exact ⟨authority, hauthority, h⟩
  · rw [if_neg hslashes]
    constructor
    · exact fun h => .inr ⟨hslashes, h⟩
    · rintro (⟨value, suffix, authority, rfl, -⟩ | ⟨-, h⟩)
      · exact absurd (prefix_slashes_iff.mpr ⟨_, rfl⟩) hslashes
      · exact h

theorem scheme_ne {scheme rest : Bytes} (h : SchemeText scheme) :
    scheme ++ 0x3a :: rest ≠ [0x2a] ∧ (scheme ++ 0x3a :: rest).head? ≠ some 0x2f := by
  obtain ⟨hfirst, -⟩ := h
  constructor
  · simp
  · rw [List.cons_append, List.head?_cons, Ne, Option.some.injEq]
    rintro rfl
    exact absurd hfirst (by decide)

/-- The targets that are accepted, with the ranges of their parts. -/
theorem parse_iff (hmethod : MethodText method) :
    parse method target = .ok result ↔ TargetText method target result := by
  have hvalid : (method.isEmpty || !method.all isNameByte) = false := by
    rw [Bool.or_eq_false_iff, List.isEmpty_eq_false_iff, Bool.not_eq_false', List.all_eq_true]
    exact hmethod
  rw [parse, hvalid, Bool.false_or]
  constructor
  · intro h
    split at h
    · exact absurd h (by simp)
    split at h
    · -- the asterisk
      rename_i hstar
      subst hstar
      split at h
      · obtain rfl := Except.ok.inj h
        exact .asterisk ‹_›
      · exact absurd h (by simp)
    split at h
    · split at h
      · rename_i hconnect hauthority
        obtain ⟨host, port, hhost, hne, hdigits, rfl⟩ := isConnect_iff.mp hauthority
        rw [Except.bind_eq_ok_iff] at h
        obtain ⟨span, hspan, h⟩ := h
        obtain rfl := Except.ok.inj h
        exact .authority hconnect hhost hne hdigits (check_iff.mp hspan)
      · exact absurd h (by simp)
    rename_i hconnect
    split at h
    · rename_i hslash
      obtain ⟨text, rfl⟩ := List.head?_eq_some_iff.mp hslash
      simp only [Except.bind_eq_ok_iff, Except.mapError_eq_ok_iff, Uri.Scan.complete_iff,
        origin_iff] at h
      obtain ⟨scan, hscan, path, query, hpath, hquery, rfl⟩ := h
      exact .origin hconnect hscan hpath hquery
    · cases hscheme : scheme target with
      | none =>
        rw [hscheme] at h
        exact absurd h (by simp)
      | some rest =>
        rw [hscheme] at h
        dsimp only at h
        obtain ⟨name, hname, rfl⟩ := scheme_iff.mp hscheme
        have hlength : (name ++ 0x3a :: rest).length - rest.length = name.length + 1 := by
          rw [List.length_append, List.length_cons]
          omega
        rw [hlength] at h
        rcases parse_absolute.mp h with ⟨value, suffix, authority, rfl, hauthority, hsuffix, h⟩ |
          ⟨hrest, h⟩
        · obtain ⟨scan, path, query, hscan, hpath, hquery, rfl⟩ := absolute_iff.mp h
          exact .absolute hconnect hname hauthority hsuffix hscan hpath hquery
        · obtain ⟨scan, path, query, hscan, hpath, hquery, rfl⟩ := absolute_iff.mp h
          exact .pathOnly hconnect hname hrest hscan hpath hquery
  · intro h
    cases h with
    | origin hconnect hscan hpath hquery =>
      rw [if_neg (by simp), if_neg (by simp), if_neg hconnect, if_pos (by simp)]
      simp only [Except.bind_eq_ok_iff, Except.mapError_eq_ok_iff, Uri.Scan.complete_iff,
        origin_iff]
      exact ⟨_, hscan, _, _, hpath, hquery, rfl⟩
    | absolute hconnect hscheme hauthority hsuffix hscan hpath hquery =>
      rename_i name value suffix scan path query authority
      have hne := @scheme_ne name (0x2f :: 0x2f :: (value ++ suffix)) hscheme
      rw [if_neg (by simp), if_neg hne.1, if_neg hconnect, if_neg hne.2,
        scheme_iff.mpr ⟨name, hscheme, rfl⟩]
      have hlength : (name ++ 0x3a :: 0x2f :: 0x2f :: (value ++ suffix)).length -
          (0x2f :: 0x2f :: (value ++ suffix)).length = name.length + 1 := by
        simp only [List.length_append, List.length_cons]
        omega
      dsimp only
      rw [hlength]
      exact parse_absolute.mpr (.inl ⟨value, suffix, authority, rfl, hauthority, hsuffix,
        absolute_iff.mpr ⟨scan, path, query, hscan, hpath, hquery, rfl⟩⟩)
    | pathOnly hconnect hscheme hrest hscan hpath hquery =>
      rename_i name rest scan path query
      have hne := @scheme_ne name rest hscheme
      rw [if_neg (by simp), if_neg hne.1, if_neg hconnect, if_neg hne.2,
        scheme_iff.mpr ⟨name, hscheme, rfl⟩]
      have hlength : (name ++ 0x3a :: rest).length - rest.length = name.length + 1 := by
        simp only [List.length_append, List.length_cons]
        omega
      dsimp only
      rw [hlength]
      exact parse_absolute.mpr (.inr ⟨hrest,
        absolute_iff.mpr ⟨scan, path, query, hscan, hpath, hquery, rfl⟩⟩)
    | authority hconnect hhost hport hdigits hspan =>
      rename_i host port span
      have hstar : host ++ 0x3a :: port ≠ [0x2a] := by
        intro h
        have hlength := congrArg List.length h
        have hhost := List.length_pos_iff.mpr hhost.ne_nil
        simp only [List.length_append, List.length_cons, List.length_nil] at hlength
        omega
      rw [if_neg (by simp), if_neg hstar, if_pos hconnect,
        if_pos (isConnect_iff.mpr ⟨host, port, hhost, hport, hdigits, rfl⟩), Except.bind_eq_ok_iff]
      exact ⟨span, check_iff.mpr hspan, rfl⟩
    | asterisk hoptions =>
      rw [if_neg (by simp), if_pos rfl, if_pos hoptions]

end Parse

/-! ## Targets in front of a space -/

/-- A part that is moved. -/
inductive PartShifted (base : ℕ) : Option Span → Option Span → Prop
  | absent : PartShifted base none none
  | present {span moved : Span} (h : moved.Is (base + span.start) span.length) :
      PartShifted base (some span) (some moved)

/-- A target all whose spans are moved. -/
structure Shifted (base : ℕ) (whole moved : Target) : Prop where
  path : moved.path.Is (base + whole.path.start) whole.path.length
  query : PartShifted base whole.query moved.query
  authority : PartShifted base whole.authority moved.authority
  form_eq : moved.form = whole.form
  route_eq : moved.route = whole.route

section Shifted

variable {operation : Operation} {part moved : Option Span} {base : ℕ}

theorem shiftPart_iff :
    shiftPart operation part base = .ok moved ↔ PartShifted base part moved := by
  cases part with
  | none =>
    rw [shiftPart, Except.ok.injEq]
    constructor
    · rintro rfl
      exact .absent
    · rintro ⟨⟩
      rfl
  | some span =>
    simp only [shiftPart, Except.map_eq_ok_iff, shift_iff]
    constructor
    · rintro ⟨moved, h, rfl⟩
      exact .present h
    · rintro (_ | h)
      exact ⟨_, h, rfl⟩

theorem shifted_iff {self result : Target} :
    self.shifted base = .ok result ↔ Shifted base self result := by
  simp only [shifted, Except.bind_eq_ok_iff, shift_iff, shiftPart_iff]
  constructor
  · rintro ⟨path, hpath, query, hquery, authority, hauthority, h⟩
    obtain rfl := Except.ok.inj h
    exact ⟨hpath, hquery, hauthority, rfl, rfl⟩
  · rintro ⟨hpath, hquery, hauthority, hform, hroute⟩
    refine ⟨_, hpath, _, hquery, _, hauthority, ?_⟩
    rw [← hform, ← hroute]
    rfl

theorem exists_unshifted {start length : ℕ} {span : Span} (h : span.Is (base + start) length) :
    ∃ whole : Span, whole.Is start length := by
  have hstart := span.start_lt
  have hend := span.end_le
  rw [h.start_eq] at hstart hend
  rw [h.length_eq] at hend
  exact ⟨⟨start, length, by omega, by omega⟩, rfl, rfl⟩

theorem queryAt_shift {scan : Plan} :
    QueryAt base scan moved ↔ ∃ part, QueryAt 0 scan part ∧ PartShifted base part moved := by
  constructor
  · rintro (h | ⟨h, hspan⟩)
    · exact ⟨none, .absent h, .absent⟩
    · rw [Nat.add_assoc] at hspan
      obtain ⟨whole, hwhole⟩ := exists_unshifted hspan
      refine ⟨some whole, .present h (by rwa [Nat.zero_add]), .present ?_⟩
      rwa [hwhole.start_eq, hwhole.length_eq]
  · rintro ⟨part, h | ⟨h, hspan⟩, hmoved⟩
    · obtain ⟨⟩ := hmoved
      exact .absent h
    · obtain _ | hmoved := hmoved
      rw [hspan.start_eq, hspan.length_eq, Nat.zero_add, ← Nat.add_assoc] at hmoved
      exact .present h hmoved

theorem origin_shift {scan : Plan} {result : Target} : origin scan base = .ok result ↔
    ∃ whole, origin scan 0 = .ok whole ∧ Shifted base whole result := by
  simp only [origin_iff]
  constructor
  · rintro ⟨path, query, hpath, hquery, rfl⟩
    obtain ⟨part, hpart, hmoved⟩ := queryAt_shift.mp hquery
    obtain ⟨whole, hwhole⟩ := exists_unshifted (show path.Is (base + 0) scan.pathEnd from hpath)
    refine ⟨_, ⟨whole, part, hwhole, hpart, rfl⟩, ?_, hmoved, .absent, rfl, rfl⟩
    rwa [hwhole.start_eq, hwhole.length_eq]
  · rintro ⟨_, ⟨path, query, hpath, hquery, rfl⟩, hmoved⟩
    rcases result with ⟨moved, movedQuery, movedAuthority, form, route⟩
    obtain ⟨hmovedPath, hmovedQuery, hmovedAuthority, rfl, rfl⟩ := hmoved
    obtain ⟨⟩ := hmovedAuthority
    refine ⟨moved, movedQuery, ?_, queryAt_shift.mpr ⟨query, hquery, hmovedQuery⟩, rfl⟩
    rwa [hpath.start_eq, hpath.length_eq] at hmovedPath

end Shifted

section Prefix

variable {method target rest : Bytes} {base stop : ℕ} {result : Target}

theorem TargetText.return_notMem (h : TargetText method target result) : 0x0d ∉ target := by
  have hpath {text : Bytes} {scan : Plan} (h : PathQuery text scan) : 0x0d ∉ text :=
    h.notMem (by decide) (by decide) (by decide)
  have hscheme {scheme : Bytes} (h : SchemeText scheme) : 0x0d ∉ scheme := h.notMem (by decide)
  cases h with
  | origin hconnect hscan => exact hpath hscan
  | absolute hconnect hname hauthority hsuffix hscan hspan hquery =>
    rename_i scheme value suffix scan path query authority
    have hvalue : 0x0d ∉ value := by
      cases hauthority with
      | absent => simp
      | present h => exact h.notMem (by decide)
    simp only [List.mem_append, List.mem_cons, not_or]
    exact ⟨hscheme hname, by decide, by decide, by decide, hvalue, hpath hscan⟩
  | pathOnly hconnect hname hrest hscan =>
    simp only [List.mem_append, List.mem_cons, not_or]
    exact ⟨hscheme hname, by decide, hpath hscan⟩
  | authority hconnect hhost hport hdigits =>
    exact (AuthorityText.port hhost hdigits).notMem (by decide)
  | asterisk => decide

theorem findIdx_targetEnd {left : Bytes} {byte : UInt8} (hspace : 0x20 ∉ left)
    (hreturn : 0x0d ∉ left) (hbyte : isTargetEnd byte = true) :
    (left ++ byte :: rest).findIdx? isTargetEnd = some left.length := by
  have hleft : left.findIdx? isTargetEnd = none := by
    rw [List.findIdx?_eq_none_iff]
    intro other hmem
    rw [isTargetEnd, Bool.or_eq_false_iff, beq_eq_false_iff_ne, beq_eq_false_iff_ne]
    exact ⟨fun h => hspace (h ▸ hmem), fun h => hreturn (h ▸ hmem)⟩
  rw [List.findIdx?_append, hleft, List.findIdx?_cons, hbyte]
  simp

/-- A target that is no origin form is parsed as a whole. -/
theorem parsePrefix_whole (hspace : 0x20 ∉ target) (hmethod : MethodText method)
    (hform : ¬((target ++ 0x20 :: rest).head? = some 0x2f ∧ method ≠ connect)) :
    parsePrefix method (target ++ 0x20 :: rest) base ≠ .ok none ∧
      (parsePrefix method (target ++ 0x20 :: rest) base = .ok (some (stop, result)) ↔
        stop = target.length ∧ ∃ whole, parse method target = .ok whole ∧
          whole.shifted base = .ok result) := by
  rw [parsePrefix, if_neg hform]
  by_cases hreturn : 0x0d ∈ target
  · -- a line that ends in the target
    have hrejected (whole : Target) : parse method target ≠ .ok whole := fun h =>
      ((parse_iff hmethod).mp h).return_notMem hreturn
    obtain ⟨left, right, rfl, hleft⟩ := List.eq_append_cons_of_mem hreturn
    have hfind := @findIdx_targetEnd (right ++ 0x20 :: rest) left 0x0d
      (fun hmem => hspace (List.mem_append_left _ hmem)) hleft rfl
    have hlast : (left ++ 0x0d :: (right ++ 0x20 :: rest))[left.length]? = some 0x0d := by simp
    rw [List.append_assoc, List.cons_append, hfind]
    dsimp only
    rw [hlast, if_pos (.inr rfl)]
    refine ⟨by simp, iff_of_false (by simp) ?_⟩
    rintro ⟨-, whole, hwhole, -⟩
    exact hrejected whole hwhole
  · rw [findIdx_targetEnd hspace hreturn rfl]
    have hlast : (target ++ 0x20 :: rest)[target.length]? = some 0x20 := by simp
    dsimp only
    rw [hlast, List.take_left]
    by_cases hempty : target = []
    · subst hempty
      rw [if_pos (by simp)]
      refine ⟨by simp, iff_of_false (by simp) ?_⟩
      rintro ⟨-, whole, hwhole, -⟩
      simp [parse] at hwhole
    · have hlength : target.length ≠ 0 := by simpa using hempty
      rw [if_neg (by simp [hempty])]
      constructor
      · intro h
        simp only [Except.bind_eq_ok_iff] at h
        obtain ⟨whole, -, moved, -, h⟩ := h
        exact absurd (Except.ok.inj h) (by simp)
      · simp only [Except.bind_eq_ok_iff]
        constructor
        · rintro ⟨whole, hwhole, moved, hmoved, h⟩
          obtain ⟨rfl, rfl⟩ : target.length = stop ∧ moved = result := by
            simpa using Except.ok.inj h
          exact ⟨rfl, whole, hwhole, hmoved⟩
        · rintro ⟨rfl, whole, hwhole, hmoved⟩
          exact ⟨whole, hwhole, result, hmoved, rfl⟩

/-- A target in front of a space is parsed as it is alone, and then moved. -/
theorem parsePrefix_iff (hmethod : MethodText method) (hspace : 0x20 ∉ target) :
    parsePrefix method (target ++ 0x20 :: rest) base ≠ .ok none ∧
      (parsePrefix method (target ++ 0x20 :: rest) base = .ok (some (stop, result)) ↔
        stop = target.length ∧ ∃ whole, parse method target = .ok whole ∧
          whole.shifted base = .ok result) := by
  by_cases hform : (target ++ 0x20 :: rest).head? = some 0x2f ∧ method ≠ connect
  · obtain ⟨hslash, hconnect⟩ := hform
    rcases target with _ | ⟨byte, text⟩
    · exact absurd hslash (by simp)
    obtain rfl : byte = 0x2f := by simpa using hslash
    have hvalid : (method.isEmpty || !method.all isNameByte) = false := by
      rw [Bool.or_eq_false_iff, List.isEmpty_eq_false_iff, Bool.not_eq_false', List.all_eq_true]
      exact hmethod
    have hparse (whole : Target) : parse method (0x2f :: text) = .ok whole ↔
        ∃ scan, Uri.Scan.complete (0x2f :: text) = .ok scan ∧ origin scan 0 = .ok whole := by
      rw [parse, hvalid, Bool.false_or, if_neg (by simp), if_neg (by simp), if_neg hconnect,
        if_pos (by simp)]
      simp only [Except.bind_eq_ok_iff, Except.mapError_eq_ok_iff]
    have hcomplete (scan : Plan) := @Uri.Scan.prefixPlan_iff (0x2f :: text) rest hspace scan
    have hincomplete := @Uri.Scan.prefixPlan_ne_incomplete (0x2f :: text) rest hspace
    rw [parsePrefix, if_pos ⟨hslash, hconnect⟩]
    simp only [hparse, ← hcomplete, shifted_iff]
    cases hscan : Uri.Scan.prefixPlan (0x2f :: text ++ 0x20 :: rest) with
    | incomplete => exact absurd hscan hincomplete
    | invalid error => simp
    | complete scan =>
      have hstop : scan.stop = (0x2f :: text).length :=
        (Uri.Scan.complete_iff.mp ((hcomplete scan).mp hscan)).pathEnd_le.1
      refine ⟨?_, ?_⟩
      · dsimp only
        rw [Ne, Except.map_eq_ok_iff]
        rintro ⟨target, -, h⟩
        exact absurd h (by simp)
      · rw [Except.map_eq_ok_iff]
        constructor
        · rintro ⟨moved, hmoved, h⟩
          obtain ⟨rfl, rfl⟩ : scan.stop = stop ∧ moved = result := by simpa using h
          obtain ⟨whole, hwhole, hmoved⟩ := origin_shift.mp hmoved
          exact ⟨hstop, whole, ⟨scan, rfl, hwhole⟩, hmoved⟩
        · rintro ⟨rfl, whole, ⟨scan', hscan', hwhole⟩, hmoved⟩
          obtain rfl := Uri.Outcome.complete.inj hscan'
          exact ⟨result, origin_shift.mpr ⟨whole, hwhole, hmoved⟩, by rw [hstop]⟩
  · exact parsePrefix_whole hspace hmethod hform

end Prefix

/-! ## Ranges -/

/-- The ranges of the parts. -/
def spans (self : Target) : List Span :=
  self.path :: (self.query.toList ++ self.authority.toList)

section Ranges

variable {method target : Bytes} {base : ℕ} {whole : Target}

theorem QueryAt.stop_le {scan : Plan} {text : Bytes} {query : Option Span}
    (h : QueryAt base scan query) (hscan : PathQuery text scan) :
    ∀ span ∈ query, span.stop ≤ base + text.length := by
  intro span hmem
  obtain _ | ⟨hquery, hspan⟩ := h
  · simp at hmem
  · obtain rfl := Option.some.inj hmem
    have hstop := hscan.pathEnd_le
    rw [Plan.pathEnd, hquery] at hstop
    cases hscan with
    | path => exact absurd hquery (by simp)
    | query hpath hquery' =>
      obtain rfl := Uri.At.query.inj hquery
      rw [Span.stop, hspan.start_eq, hspan.length_eq]
      simp only [List.length_append, List.length_cons]
      omega

theorem AuthorityAt.stop_le {start : ℕ} {value : Bytes} {authority : Option Span}
    (h : AuthorityAt start value authority) :
    ∀ span ∈ authority, span.stop ≤ start + value.length := by
  intro span hmem
  obtain _ | ⟨-, hspan⟩ := h
  · simp at hmem
  · obtain rfl := Option.some.inj hmem
    rw [Span.stop, hspan.start_eq, hspan.length_eq]

/-- The ranges of the parts are inside the target. -/
theorem TargetText.stop_le (h : TargetText method target whole) :
    ∀ span ∈ whole.spans, span.stop ≤ target.length := by
  intro span hmem
  rw [spans, List.mem_cons, List.mem_append, Option.mem_toList, Option.mem_toList] at hmem
  cases h with
  | origin hconnect hscan hpath hquery =>
    rcases hmem with rfl | hmem | hmem
    · rw [Span.stop, hpath.start_eq, hpath.length_eq, Nat.zero_add]
      exact hscan.pathEnd_le.2
    · simpa using hquery.stop_le hscan span hmem
    · exact absurd hmem (by simp)
  | absolute hconnect hname hauthority hsuffix hscan hpath hquery =>
    have hend := hscan.pathEnd_le.2
    simp only [List.length_append, List.length_cons]
    rcases hmem with rfl | hmem | hmem
    · rw [Span.stop, hpath.start_eq, hpath.length_eq]
      omega
    · have := hquery.stop_le hscan span hmem
      omega
    · have := hauthority.stop_le span hmem
      omega
  | pathOnly hconnect hname hrest hscan hpath hquery =>
    have hend := hscan.pathEnd_le.2
    simp only [List.length_append, List.length_cons]
    rcases hmem with rfl | hmem | hmem
    · rw [Span.stop, hpath.start_eq, hpath.length_eq]
      omega
    · have := hquery.stop_le hscan span hmem
      omega
    · exact absurd hmem (by simp)
  | authority hconnect hhost hport hdigits hspan =>
    rcases hmem with rfl | hmem | hmem
    · exact Nat.zero_le _
    · exact absurd hmem (by simp)
    · obtain rfl := Option.some.inj hmem
      rw [Span.stop, hspan.start_eq, hspan.length_eq, Nat.zero_add]
  | asterisk =>
    rcases hmem with rfl | hmem | hmem
    · exact Nat.zero_le _
    · exact absurd hmem (by simp)
    · exact absurd hmem (by simp)

theorem exists_partShifted {part : Option Span} {length : ℕ} (hbase : base + length < 2 ^ 32 - 1)
    (h : ∀ span ∈ part, span.stop ≤ length) : ∃ moved, PartShifted base part moved := by
  cases part with
  | none => exact ⟨none, .absent⟩
  | some span =>
    have hstop := h span rfl
    rw [Span.stop] at hstop
    obtain ⟨moved, hmoved⟩ := @Span.exists_is (base + span.start) span.length (by omega)
    exact ⟨some moved, .present hmoved⟩

theorem exists_shifted {length : ℕ} (hbase : base + length < 2 ^ 32 - 1)
    (h : ∀ span ∈ whole.spans, span.stop ≤ length) : ∃ moved, Shifted base whole moved := by
  have hpath := h whole.path List.mem_cons_self
  rw [Span.stop] at hpath
  obtain ⟨path, hpath⟩ := @Span.exists_is (base + whole.path.start) whole.path.length (by omega)
  obtain ⟨query, hquery⟩ := @exists_partShifted base whole.query length hbase fun span hmem =>
    h span (List.mem_cons_of_mem _ (List.mem_append_left _ (Option.mem_toList.mpr hmem)))
  obtain ⟨authority, hauthority⟩ := @exists_partShifted base whole.authority length hbase
    fun span hmem =>
      h span (List.mem_cons_of_mem _ (List.mem_append_right _ (Option.mem_toList.mpr hmem)))
  exact ⟨⟨path, query, authority, whole.form, whole.route⟩, hpath, hquery, hauthority, rfl, rfl⟩

theorem exists_queryAt {scan : Plan} {text : Bytes} (hscan : PathQuery text scan)
    (hbase : base + text.length < 2 ^ 32 - 1) : ∃ query, QueryAt base scan query := by
  cases hscan with
  | path => exact ⟨none, .absent rfl⟩
  | query =>
    rename_i path query _ _
    simp only [List.length_append, List.length_cons] at hbase
    obtain ⟨span, hspan⟩ := @Span.exists_is (base + path.length + 1)
      ((path ++ 0x3f :: query).length - path.length - 1)
      (by simp only [List.length_append, List.length_cons]; omega)
    exact ⟨some span, .present rfl hspan⟩

theorem exists_authorityAt {value : Bytes} (hbase : base + value.length < 2 ^ 32 - 1)
    (h : value = [] ∨ ∃ authority, AuthorityText value authority) :
    ∃ part, AuthorityAt base value part := by
  rcases h with rfl | ⟨authority, h⟩
  · exact ⟨none, .absent⟩
  · obtain ⟨span, hspan⟩ := Span.exists_is hbase
    exact ⟨some span, .present h hspan⟩

/-- The targets that spans reach are those of the four forms. -/
theorem exists_iff {form : Form} (hlength : target.length < 2 ^ 32 - 1) :
    (∃ whole, TargetText method target whole ∧ whole.form = form) ↔
      RequestTarget method target form := by
  constructor
  · rintro ⟨whole, h, rfl⟩
    cases h with
    | origin hconnect hscan => exact .origin hconnect hscan
    | absolute hconnect hname hauthority hsuffix hscan =>
      refine .absolute hconnect hname ?_ hsuffix hscan
      cases hauthority with
      | absent => exact .inl rfl
      | present h => exact .inr ⟨_, h⟩
    | pathOnly hconnect hname hrest hscan => exact .pathOnly hconnect hname hrest hscan
    | authority hconnect hhost hport hdigits => exact .authority hconnect hhost hport hdigits
    | asterisk hoptions => exact .asterisk hoptions
  · intro h
    cases h with
    | origin hconnect hscan =>
      have hend := hscan.pathEnd_le.2
      rename_i text scan
      obtain ⟨path, hpath⟩ := @Span.exists_is 0 scan.pathEnd (by omega)
      obtain ⟨query, hquery⟩ := exists_queryAt hscan (by rwa [Nat.zero_add])
      exact ⟨_, .origin hconnect hscan hpath hquery, rfl⟩
    | absolute hconnect hname hvalue hsuffix hscan =>
      rename_i name value suffix scan
      have hend := hscan.pathEnd_le.2
      simp only [List.length_append, List.length_cons] at hlength
      obtain ⟨path, hpath⟩ :=
        @Span.exists_is (name.length + 3 + value.length) scan.pathEnd (by omega)
      obtain ⟨query, hquery⟩ :=
        @exists_queryAt (name.length + 3 + value.length) _ _ hscan (by omega)
      obtain ⟨part, hpart⟩ := @exists_authorityAt (name.length + 3) _ (by omega) hvalue
      exact ⟨_, .absolute hconnect hname hpart hsuffix hscan hpath hquery, rfl⟩
    | pathOnly hconnect hname hrest hscan =>
      rename_i name rest scan
      have hend := hscan.pathEnd_le.2
      simp only [List.length_append, List.length_cons] at hlength
      obtain ⟨path, hpath⟩ := @Span.exists_is (name.length + 1) scan.pathEnd (by omega)
      obtain ⟨query, hquery⟩ := @exists_queryAt (name.length + 1) _ _ hscan (by omega)
      exact ⟨_, .pathOnly hconnect hname hrest hscan hpath hquery, rfl⟩
    | authority hconnect hhost hport hdigits =>
      obtain ⟨span, hspan⟩ := @Span.exists_is 0 _ (by rwa [Nat.zero_add])
      exact ⟨_, .authority hconnect hhost hport hdigits hspan, rfl⟩
    | asterisk hoptions => exact ⟨_, .asterisk hoptions, rfl⟩

end Ranges

/-! ## Agreement -/

/-- The head parser and the standalone parser see the same target: in front of a space a target is
accepted exactly if it is alone and its ranges can be moved, and the result is the one that is moved.
The ranges are inside the target, and the targets that are accepted are those of the four forms. -/
theorem parsers_agree (method target rest : Bytes) (base : ℕ) (hmethod : MethodText method)
    (hspace : 0x20 ∉ target) :
    parsePrefix method (target ++ 0x20 :: rest) base ≠ .ok none ∧
      (∀ stop result, parsePrefix method (target ++ 0x20 :: rest) base = .ok (some (stop, result)) ↔
        stop = target.length ∧ ∃ whole, parse method target = .ok whole ∧
          Shifted base whole result) ∧
      (∀ whole, parse method target = .ok whole → base + target.length < 2 ^ 32 - 1 →
        ∃ result, Shifted base whole result) ∧
      (∀ whole, parse method target = .ok whole → ∀ span ∈ whole.spans,
        span.stop ≤ target.length) ∧
      (∀ whole, parse method target = .ok whole ↔ TargetText method target whole) ∧
      (target.length < 2 ^ 32 - 1 → ∀ form,
        (∃ whole, parse method target = .ok whole ∧ whole.form = form) ↔
          RequestTarget method target form) := by
  refine ⟨(@parsePrefix_iff _ _ rest base 0 ⟨Span.default, none, none, .origin, .none⟩ hmethod
    hspace).1, ?_, ?_, ?_, fun whole => parse_iff hmethod, ?_⟩
  · intro stop result
    simp only [(@parsePrefix_iff _ _ rest base stop result hmethod hspace).2, shifted_iff]
  · intro whole hwhole hbase
    exact exists_shifted hbase ((parse_iff hmethod).mp hwhole).stop_le
  · intro whole hwhole
    exact ((parse_iff hmethod).mp hwhole).stop_le
  · intro hlength form
    simp only [parse_iff hmethod, exists_iff hlength]

/-- `GET` with the root as its target. -/
theorem parsers_agree_root :
    (∃ whole, parse [0x47, 0x45, 0x54] [0x2f] = .ok whole) ∧
      ∃ result, parsePrefix [0x47, 0x45, 0x54] ([0x2f] ++ 0x20 :: []) 4 = .ok (some (1, result)) := by
  have hmethod : MethodText [0x47, 0x45, 0x54] := ⟨by simp, by decide +kernel⟩
  have hagree := parsers_agree [0x47, 0x45, 0x54] [0x2f] [] 4 hmethod (by decide)
  obtain ⟨-, hfront, hmoved, -, -, hforms⟩ := hagree
  obtain ⟨whole, hwhole, -⟩ := (hforms (by norm_num) .origin).mpr
    (.origin (by decide) (.path (.plain (by decide) .nil)))
  obtain ⟨result, hresult⟩ := hmoved whole hwhole (by norm_num)
  exact ⟨⟨whole, hwhole⟩, result, (hfront 1 result).mpr ⟨rfl, whole, hwhole, hresult⟩⟩

/-- A target that is accepted alone is not accepted where its spans cannot be moved to. -/
theorem parsers_differ :
    (∃ whole, parse [0x47, 0x45, 0x54] [0x2f] = .ok whole) ∧
      ¬∃ stop result, parsePrefix [0x47, 0x45, 0x54] ([0x2f] ++ 0x20 :: []) 4294967295 =
        .ok (some (stop, result)) := by
  have hmethod : MethodText [0x47, 0x45, 0x54] := ⟨by simp, by decide +kernel⟩
  constructor
  · have htext : RequestTarget [0x47, 0x45, 0x54] [0x2f] .origin :=
      .origin (by decide) (.path (.plain (by decide) .nil))
    obtain ⟨whole, hwhole, -⟩ := (exists_iff (by norm_num)).mpr htext
    exact ⟨whole, (parse_iff hmethod).mpr hwhole⟩
  · rintro ⟨stop, result, h⟩
    obtain ⟨-, whole, -, hmoved⟩ := (parsePrefix_iff hmethod (by decide)).2.mp h
    have hstart := result.path.start_lt
    rw [(shifted_iff.mp hmoved).path.start_eq] at hstart
    omega

end Target

end Sark.Http
