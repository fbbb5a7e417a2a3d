import Sark.Http.H1.Chunk.Trailer
import Sark.Library.Transducer

/-!
# The chunk framer

`http/src/h1/chunk/mod.rs` reads a chunked body from its input: size lines, data, and the trailer
section. One loop serves two modes. A scan reads on to the end of the framing or of the input; a
decoder returns at every piece of data, of a length that its caller caps.

`Framer.step` is what the framer does with a single byte. Both modes are runs of it.

* `Framer.drive_spec`: whatever the mode, the loop is a run of single bytes.
-/

namespace Sark.Http.Chunk

/-- `chunk::Boundary`. -/
inductive Boundary
  | more
  | end
  deriving DecidableEq, Repr

/-- `Active`. -/
inductive Active
  | size (size : Size)
  | sizeLf (size : Size)
  | data (left : ℕ) (left_ne : left ≠ 0)
  | dataCr
  | dataLf
  | trailer (trailer : Trailer)
  deriving DecidableEq, Repr

/-- The phase of a framer: the length of its trailer section when it is done. -/
inductive Phase
  | done (trailers : ℕ)
  | active (active : Active)
  deriving DecidableEq, Repr

/-- `Framer`. -/
structure Framer where
  phase : Phase
  wireBytes : ℕ
  bodyBytes : ℕ
  deriving DecidableEq, Repr

/-- `scan::Mode`: what the loop returns, and whether it returns at data. -/
structure Mode (O : Type) where
  data : ℕ → Bytes → Boundary → Option O
  pending : ℕ → O
  trailer : ℕ → O
  complete : ℕ → Bytes → O
  finished : O

/-- `Run`: how much of its input a scan has read. -/
structure Run where
  scanned : ℕ
  isComplete : Bool
  deriving DecidableEq, Repr

/-- `Fragment`. -/
inductive Fragment
  | more (consumed : ℕ)
  | data (consumed : ℕ) (bytes : Bytes) (boundary : Boundary)
  | trailer (consumed : ℕ)
  | complete (consumed : ℕ) (bytes : Bytes)
  deriving DecidableEq, Repr

/-- `scan::Whole`. -/
def whole : Mode Run where
  data _ _ _ := none
  pending consumed := ⟨consumed, false⟩
  trailer consumed := ⟨consumed, false⟩
  complete consumed _ := ⟨consumed, true⟩
  finished := ⟨0, true⟩

/-- `scan::Fragments`. The trailer bytes of a fragment do without the empty line. -/
def fragments : Mode Fragment where
  data consumed bytes boundary := some (.data consumed bytes boundary)
  pending consumed := .more consumed
  trailer consumed := .trailer consumed
  complete consumed bytes := .complete consumed (bytes.take (bytes.length - 2))
  finished := .more 0

/-- `trailer::Progress`. -/
inductive Progress
  | more (next : Trailer) (wire : ℕ) (consumed : ℕ)
  | complete (wire consumed trailers : ℕ)
  deriving DecidableEq, Repr

namespace Framer

/-- `Framer::new`. -/
def new : Framer :=
  ⟨.active (.size .new), 0, 0⟩

/-- `Framer::wire`. -/
def wire (current amount : ℕ) (limits : Limit) : Except Error ℕ :=
  if 2 ^ 64 ≤ current + amount then .error (.overflow .wire current amount)
  else if limits.wireBytes < current + amount then
    .error (.limit .wire (current + amount) limits.wireBytes)
  else .ok (current + amount)

/-- `Framer::exact`. -/
def exact (wireBytes : ℕ) (byte expected : UInt8) (place : Place) (limits : Limit) :
    Except Error ℕ := do
  let actual ← wire wireBytes 1 limits
  if byte = expected then .ok actual else .error (.unexpected wireBytes place byte)

/-- `Framer::check_size`. -/
def checkSize (current size : ℕ) (limits : Limit) : Except Error (ℕ × Active) :=
  if 2 ^ 64 ≤ current + size then .error (.overflow .body current size)
  else if limits.bodyBytes < current + size then
    .error (.limit .body (current + size) limits.bodyBytes)
  else if h : size = 0 then .ok (current + size, .trailer .new)
  else .ok (current + size, .data size h)

/-- The phase behind a part of the data. -/
def afterData (left : ℕ) : Active :=
  if h : left = 0 then .dataCr else .data left h

/-- `trailer::Trailer::scan`, behind `consumed` bytes of its input. -/
def scanTrailer (limits : Limit) (state : Trailer) (current consumed : ℕ) :
    Bytes → Except Error Progress
  | [] => .ok (.more state current consumed)
  | byte :: rest => do
    let next ← wire current 1 limits
    let progress ← state.scan byte current limits
    match progress with
    | .inr state => scanTrailer limits state next (consumed + 1) rest
    | .inl trailers => .ok (.complete next (consumed + 1) trailers)

/-- `Framer::drive`: the loop, at a position of its input. The phase of the framer itself is the one
that it was called with. -/
def drive {O : Type} (mode : Mode O) (limits : Limit) (cap : ℕ) (input : Bytes) (self : Framer)
    (active : Active) (pos : ℕ) : Except Error (Framer × O) :=
  match _hpos : input.drop pos with
  | [] => .ok ({ self with phase := .active active }, mode.pending pos)
  | byte :: _ =>
    match active with
    | .size size => do
      let wireBytes ← wire self.wireBytes 1 limits
      let (size, progress) ← size.scan byte self.wireBytes limits.lineBytes
      drive mode limits cap input { self with wireBytes }
        (if progress = .complete then .sizeLf size else .size size) (pos + 1)
    | .sizeLf size => do
      let wireBytes ← wire self.wireBytes 1 limits
      let size ← size.finish byte self.wireBytes limits.lineBytes
      let (bodyBytes, next) ← checkSize self.bodyBytes size.value limits
      drive mode limits cap input { self with wireBytes, bodyBytes } next (pos + 1)
    | .data left _ =>
      let amount := min (min left (input.drop pos).length) cap
      if _hamount : amount = 0 then
        .ok ({ self with phase := .active active }, mode.pending pos)
      else do
        let wireBytes ← wire self.wireBytes amount limits
        let next := afterData (left - amount)
        let boundary : Boundary := if left - amount = 0 then .end else .more
        match mode.data (pos + amount) ((input.drop pos).take amount) boundary with
        | some output => .ok ({ self with wireBytes, phase := .active next }, output)
        | none => drive mode limits cap input { self with wireBytes } next (pos + amount)
    | .dataCr => do
      let wireBytes ← exact self.wireBytes byte 0x0d .dataCr limits
      drive mode limits cap input { self with wireBytes } .dataLf (pos + 1)
    | .dataLf => do
      let wireBytes ← exact self.wireBytes byte 0x0a .dataLf limits
      drive mode limits cap input { self with wireBytes } (.size .new) (pos + 1)
    | .trailer state => do
      let progress ← scanTrailer limits state self.wireBytes 0 (input.drop pos)
      match progress with
      | .more next wireBytes consumed =>
        .ok ({ self with wireBytes, phase := .active (.trailer next) },
          if consumed = 0 then mode.pending pos else mode.trailer (pos + consumed))
      | .complete wireBytes consumed trailers =>
        .ok ({ self with wireBytes, phase := .done trailers },
          mode.complete (pos + consumed) ((input.drop pos).take consumed))
  termination_by input.length - pos
  decreasing_by
    all_goals
      have hlt : pos < input.length := by
        by_contra hge
        rw [List.drop_eq_nil_of_le (not_lt.mp hge)] at _hpos
        cases _hpos
      omega

/-- `Framer::prepare`. -/
def prepare {O : Type} (mode : Mode O) (self : Framer) (input : Bytes) (limits : Limit)
    (cap : ℕ) : Except Error (Framer × O) :=
  match self.phase with
  | .done _ => .ok (self, mode.finished)
  | .active active => drive mode limits cap input self active 0

/-- `Framer::scan`. A scan that fails leaves the framer as it was. -/
def scan (self : Framer) (input : Bytes) (limits : Limit) : Except Error (Framer × Run) :=
  self.prepare whole input limits (2 ^ 64 - 1)

/-- `Framer::decode`. -/
def decode (self : Framer) (input : Bytes) (limits : Limit) (cap : ℕ) :
    Except Error (Framer × Fragment) :=
  self.prepare fragments input limits cap

/-! ## Single bytes -/

/-- The framer in a phase that is not done. -/
def inPhase (self : Framer) (active : Active) : Framer :=
  { self with phase := .active active }

/-- The framing is complete. -/
def IsDone (self : Framer) : Prop :=
  ∃ trailers, self.phase = .done trailers

/-- What a framer does with a single byte, and the data that the byte is. -/
def step (limits : Limit) (self : Framer) (byte : UInt8) : Option (Framer × Bytes) :=
  match self.phase with
  | .done _ => none
  | .active active => do
    let wireBytes ← (wire self.wireBytes 1 limits).toOption
    match active with
    | .size size => do
      let (size, progress) ← (size.scan byte self.wireBytes limits.lineBytes).toOption
      some ({ self with
        wireBytes
        phase := .active (if progress = .complete then .sizeLf size else .size size) }, [])
    | .sizeLf size => do
      let size ← (size.finish byte self.wireBytes limits.lineBytes).toOption
      let (bodyBytes, next) ← (checkSize self.bodyBytes size.value limits).toOption
      some ({ wireBytes, bodyBytes, phase := .active next }, [])
    | .data left _ => some ({ self with wireBytes, phase := .active (afterData (left - 1)) }, [byte])
    | .dataCr =>
      if byte = 0x0d then some ({ self with wireBytes, phase := .active .dataLf }, []) else none
    | .dataLf =>
      if byte = 0x0a then some ({ self with wireBytes, phase := .active (.size .new) }, [])
      else none
    | .trailer state => do
      let progress ← (state.scan byte self.wireBytes limits).toOption
      match progress with
      | .inr state => some ({ self with wireBytes, phase := .active (.trailer state) }, [])
      | .inl trailers => some ({ self with wireBytes, phase := .done trailers }, [])

/-- A run over a list of bytes, and the data among them. -/
abbrev Runs (limits : Limit) (start : Framer) (bytes : Bytes) (next : Framer) (body : Bytes) :
    Prop :=
  Transducer.run (step limits) start bytes = some (next, body)

/-- Some byte is refused, before the framing is complete. -/
def Refuses (limits : Limit) (start : Framer) (bytes : Bytes) : Prop :=
  ∃ before byte rest mid body, bytes = before ++ byte :: rest ∧ Runs limits start before mid body ∧
    ¬ mid.IsDone ∧ step limits mid byte = none

variable {limits : Limit} {self start mid next : Framer} {bytes before body more : Bytes}
  {byte : UInt8} {active : Active}

theorem inPhase_not_done (self : Framer) (active : Active) : ¬ (self.inPhase active).IsDone := by
  rintro ⟨trailers, h⟩
  cases h

theorem step_done (h : self.IsDone) (byte : UInt8) : step limits self byte = none := by
  obtain ⟨trailers, h⟩ := h
  simp only [step, h]

theorem runs_nil (self : Framer) : Runs limits self [] self [] :=
  rfl

theorem runs_cons (hstep : step limits start byte = some (mid, before))
    (h : Runs limits mid bytes next body) : Runs limits start (byte :: bytes) next (before ++ body) :=
  Transducer.run_cons_eq_some_iff.mpr ⟨mid, before, body, hstep, h, rfl⟩

theorem runs_append (hfirst : Runs limits start bytes mid before)
    (hsecond : Runs limits mid more next body) :
    Runs limits start (bytes ++ more) next (before ++ body) := by
  unfold Runs
  rw [Transducer.run_append, hfirst, Option.bind_some, hsecond]
  rfl

theorem runs_append_iff : Runs limits start (bytes ++ more) next body ↔
    ∃ mid before after, Runs limits start bytes mid before ∧ Runs limits mid more next after ∧
      body = before ++ after := by
  constructor
  · intro h
    unfold Runs at h
    rw [Transducer.run_append, Option.bind_eq_some_iff] at h
    obtain ⟨⟨mid, before⟩, hfirst, hsecond⟩ := h
    obtain ⟨⟨last, after⟩, hlast, heq⟩ := Option.map_eq_some_iff.mp hsecond
    obtain ⟨rfl, rfl⟩ := Prod.mk.inj heq
    exact ⟨mid, before, after, hfirst, hlast, rfl⟩
  · rintro ⟨mid, before, after, hfirst, hsecond, rfl⟩
    exact runs_append hfirst hsecond

theorem runs_of_done (hdone : start.IsDone) (h : Runs limits start bytes next body) :
    bytes = [] := by
  cases bytes with
  | nil => rfl
  | cons byte bytes =>
    obtain ⟨mid, first, rest, hstep, -⟩ := Transducer.run_cons_eq_some_iff.mp h
    rw [step_done hdone] at hstep
    cases hstep

theorem Refuses.append (hrun : Runs limits start bytes mid body) (h : Refuses limits mid more) :
    Refuses limits start (bytes ++ more) := by
  obtain ⟨before, byte, rest, last, data, rfl, hbefore, hdone, hstep⟩ := h
  exact ⟨bytes ++ before, byte, rest, last, _, (List.append_assoc ..).symm,
    runs_append hrun hbefore, hdone, hstep⟩

theorem refuses_cons (hdone : ¬ start.IsDone) (hstep : step limits start byte = none) :
    Refuses limits start (byte :: bytes) :=
  ⟨[], byte, bytes, start, [], rfl, rfl, hdone, hstep⟩

theorem Refuses.extend (h : Refuses limits start bytes) (more : Bytes) :
    Refuses limits start (bytes ++ more) := by
  obtain ⟨before, byte, rest, mid, body, rfl, hrest⟩ := h
  exact ⟨before, byte, rest ++ more, mid, body, by simp, hrest⟩

theorem Refuses.of_runs (h : Refuses limits start bytes) {read : Bytes} (hread : read <+: bytes)
    (hrun : Runs limits start read next body) : ¬ next.IsDone ∧ read ≠ bytes := by
  obtain ⟨before, byte, rest, mid, data, rfl, hbefore, hdone, hstep⟩ := h
  -- The run cannot go past the byte.
  have hshort : read <+: before := by
    rcases List.prefix_or_prefix_of_prefix hread (List.prefix_append before (byte :: rest)) with
      hshort | ⟨tail, rfl⟩
    · exact hshort
    · cases tail with
      | nil => simp
      | cons first tail =>
        obtain ⟨rfl, -⟩ := List.cons_prefix_cons.mp
          ((List.prefix_append_right_inj before).mp hread)
        obtain ⟨mid', _, _, hfirst, hsecond, -⟩ := runs_append_iff.mp hrun
        obtain ⟨rfl, -⟩ := Prod.mk.inj (Option.some.inj (hbefore.symm.trans hfirst))
        obtain ⟨_, _, _, hnext, -⟩ := Transducer.run_cons_eq_some_iff.mp hsecond
        rw [hstep] at hnext
        cases hnext
  obtain ⟨tail, rfl⟩ := hshort
  refine ⟨fun hnext => ?_, fun heq => ?_⟩
  · obtain ⟨mid', _, _, hfirst, hsecond, -⟩ := runs_append_iff.mp hbefore
    obtain ⟨rfl, -⟩ := Prod.mk.inj (Option.some.inj (hrun.symm.trans hfirst))
    obtain rfl := runs_of_done hnext hsecond
    obtain ⟨rfl, -⟩ := Prod.mk.inj (Option.some.inj hsecond)
    exact hdone hnext
  · have hlength := congrArg List.length heq
    simp at hlength

/-! ## The loop is a run -/

theorem wire_eq_ok_iff {current amount used : ℕ} : wire current amount limits = .ok used ↔
    current + amount < 2 ^ 64 ∧ current + amount ≤ limits.wireBytes ∧ used = current + amount := by
  unfold wire
  split
  · simp
    omega
  split
  · simp
    omega
  · simp [eq_comm]
    omega

theorem afterData_sub {left amount : ℕ} (h : amount < left) :
    afterData (left - amount) = .data (left - amount) (Nat.sub_ne_zero_of_lt h) :=
  dif_neg _

/-- Data is read at once or byte by byte. -/
theorem runs_data (self : Framer) (left : ℕ) (left_ne : left ≠ 0) (hne : bytes ≠ [])
    (hle : bytes.length ≤ left) {used : ℕ} (hwire : wire self.wireBytes bytes.length limits = .ok used) :
    Runs limits (self.inPhase (.data left left_ne)) bytes
      ({ self with wireBytes := used }.inPhase (afterData (left - bytes.length))) bytes := by
  induction bytes generalizing self left with
  | nil => exact absurd rfl hne
  | cons byte bytes ih =>
    obtain ⟨hlt, hlimit, rfl⟩ := wire_eq_ok_iff.mp hwire
    rw [List.length_cons] at hlt hlimit hle
    have hone : wire self.wireBytes 1 limits = .ok (self.wireBytes + 1) :=
      wire_eq_ok_iff.mpr ⟨by omega, by omega, rfl⟩
    have hstep : step limits (self.inPhase (.data left left_ne)) byte =
        some ({ self with wireBytes := self.wireBytes + 1 }.inPhase (afterData (left - 1)),
          [byte]) := by
      simp [step, inPhase, hone]
    cases bytes with
    | nil => exact runs_cons hstep rfl
    | cons other bytes =>
      rw [List.length_cons] at hlt hlimit hle
      rw [afterData_sub (by omega)] at hstep
      have hmore : wire (self.wireBytes + 1) (other :: bytes).length limits =
          .ok (self.wireBytes + (byte :: other :: bytes).length) :=
        wire_eq_ok_iff.mpr ⟨by simp; omega, by simp; omega, by simp; omega⟩
      have hrest := ih { self with wireBytes := self.wireBytes + 1 } (left - 1) (by omega)
        (by simp) (by simp; omega) hmore
      have hruns := runs_cons hstep hrest
      simp only [List.length_cons, List.singleton_append] at hruns ⊢
      have hleft : left - 1 - (bytes.length + 1) = left - (bytes.length + 1 + 1) := by omega
      rw [hleft] at hruns
      exact hruns

/-- Data that makes the framing too long is refused. -/
theorem refuses_data (self : Framer) (left : ℕ) (left_ne : left ≠ 0)
    (hle : bytes.length ≤ left) {error : Error}
    (hwire : wire self.wireBytes bytes.length limits = .error error) (hne : bytes ≠ []) :
    Refuses limits (self.inPhase (.data left left_ne)) bytes := by
  induction bytes generalizing self left error with
  | nil => exact absurd rfl hne
  | cons byte bytes ih =>
    rw [List.length_cons] at hle
    cases hone : wire self.wireBytes 1 limits with
    | error error =>
      exact refuses_cons (inPhase_not_done _ _) (by simp [step, inPhase, hone])
    | ok used =>
      obtain ⟨hlt, hlimit, rfl⟩ := wire_eq_ok_iff.mp hone
      have hstep : step limits (self.inPhase (.data left left_ne)) byte =
          some ({ self with wireBytes := self.wireBytes + 1 }.inPhase (afterData (left - 1)),
            [byte]) := by
        simp [step, inPhase, hone]
      -- One byte is not too long, so there are more.
      cases bytes with
      | nil => simp [hone] at hwire
      | cons other bytes =>
        rw [List.length_cons] at hle
        rw [afterData_sub (by omega)] at hstep
        have hrest : ∃ error, wire (self.wireBytes + 1) (other :: bytes).length limits =
            .error error := by
          cases hmore : wire (self.wireBytes + 1) (other :: bytes).length limits with
          | error error => exact ⟨error, rfl⟩
          | ok used =>
            obtain ⟨hlt, hlimit, -⟩ := wire_eq_ok_iff.mp hmore
            have hall : wire self.wireBytes (byte :: other :: bytes).length limits =
                .ok (self.wireBytes + (byte :: other :: bytes).length) :=
              wire_eq_ok_iff.mpr ⟨by simp at hlt ⊢; omega, by simp at hlimit ⊢; omega, rfl⟩
            rw [hall] at hwire
            cases hwire
        obtain ⟨error, hrest⟩ := hrest
        have hrefuses := ih { self with wireBytes := self.wireBytes + 1 } (left - 1) (by omega)
          (by simp; omega) hrest (by simp)
        exact Refuses.append (runs_cons hstep (runs_nil _)) hrefuses

/-- A mode that returns at data has passed none of it on. -/
def Silent {O : Type} (mode : Mode O) (body : Bytes) : Prop :=
  (∀ consumed bytes boundary, mode.data consumed bytes boundary ≠ none) → body = []

/-- What the loop returns when it has read up to a position, with the data that it has read. -/
inductive Returns {O : Type} (mode : Mode O) (cap : ℕ) (input : Bytes) :
    Framer → Bytes → ℕ → O → Prop
  | pending {next : Framer} {body : Bytes} {pos : ℕ} : ¬ next.IsDone → Silent mode body →
      pos = input.length ∨ cap = 0 → Returns mode cap input next body pos (mode.pending pos)
  | data {next : Framer} {before bytes : Bytes} {pos : ℕ} {boundary : Boundary} {output : O} :
      ¬ next.IsDone → Silent mode before → bytes ≠ [] → mode.data pos bytes boundary = some output →
      Returns mode cap input next (before ++ bytes) pos output
  | trailer {next : Framer} {body : Bytes} {pos : ℕ} : ¬ next.IsDone → Silent mode body →
      pos = input.length → Returns mode cap input next body pos (mode.trailer pos)
  | complete {next : Framer} {body bytes : Bytes} {pos : ℕ} : next.IsDone → Silent mode body →
      Returns mode cap input next body pos (mode.complete pos bytes)

/-- What the loop does from a position: it runs over a part of what is left of the input, or what is
left is refused. -/
def Follows {O : Type} (limits : Limit) (mode : Mode O) (cap : ℕ) (input : Bytes)
    (start : Framer) (pos : ℕ) : Except Error (Framer × O) → Prop
  | .ok (next, output) => ∃ read rest body, input.drop pos = read ++ rest ∧
      Runs limits start read next body ∧
      Returns mode cap input next body (pos + read.length) output
  | .error _ => Refuses limits start (input.drop pos)

section Loop

variable {O : Type} {mode : Mode O} {cap : ℕ} {input : Bytes} {pos : ℕ}

theorem Returns.prepend {output : O} (h : Returns mode cap input next body pos output)
    (hbefore : Silent mode before) : Returns mode cap input next (before ++ body) pos output := by
  have happend : ∀ {body}, Silent mode body → Silent mode (before ++ body) := by
    intro body hbody hmode
    rw [hbefore hmode, hbody hmode, List.append_nil]
  cases h with
  | pending hdone hbody hpos => exact .pending hdone (happend hbody) hpos
  | @data _ first bytes _ boundary hdone hfirst hne hdata =>
    rw [← List.append_assoc]
    exact .data hdone (happend hfirst) hne hdata
  | trailer hdone hbody hpos => exact .trailer hdone (happend hbody) hpos
  | complete hdone hbody => exact .complete hdone (happend hbody)

theorem Follows.prepend {result : Except Error (Framer × O)} {read rest : Bytes}
    (hinput : input.drop pos = read ++ rest) (hrun : Runs limits start read mid before)
    (hbefore : Silent mode before)
    (h : Follows limits mode cap input mid (pos + read.length) result) :
    Follows limits mode cap input start pos result := by
  have hdrop : input.drop (pos + read.length) = rest := by
    rw [← List.drop_drop, hinput, List.drop_left]
  cases result with
  | error error =>
    have hrefuses : Refuses limits mid rest := hdrop ▸ h
    show Refuses limits start (input.drop pos)
    rw [hinput]
    exact hrefuses.append hrun
  | ok result =>
    obtain ⟨more, left, body, hmore, hnext, hreturns⟩ := h
    rw [hdrop] at hmore
    subst hmore
    refine ⟨read ++ more, left, before ++ body, by simp [hinput], runs_append hrun hnext, ?_⟩
    rw [List.length_append, ← Nat.add_assoc]
    exact hreturns.prepend hbefore

theorem silent_nil : Silent mode [] :=
  fun _ => rfl

theorem bind_eq_error_iff {ε : Type} {α β : Type} {x : Except ε α} {f : α → Except ε β} {e : ε} :
    (x >>= f) = .error e ↔ x = .error e ∨ ∃ a, x = .ok a ∧ f a = .error e := by
  cases x with
  | error error => simp [bind, Except.bind]
  | ok value => simp [bind, Except.bind]

theorem ok_bind {ε : Type} {α β : Type} (a : α) (f : α → Except ε β) :
    (Except.ok a >>= f) = f a := rfl

theorem error_bind {ε : Type} {α β : Type} (error : ε) (f : α → Except ε β) :
    ((.error error : Except ε α) >>= f) = .error error := rfl

theorem step_size {size next : Size} {progress : Size.Progress} {used : ℕ}
    (hwire : wire self.wireBytes 1 limits = .ok used)
    (hscan : size.scan byte self.wireBytes limits.lineBytes = .ok (next, progress)) :
    step limits (self.inPhase (.size size)) byte =
      some ({ self with wireBytes := used }.inPhase
        (if progress = Size.Progress.complete then .sizeLf next else .size next), []) := by
  simp [step, inPhase, hwire, hscan]

theorem step_sizeLf {size next : Size} {used total : ℕ} {active : Active}
    (hwire : wire self.wireBytes 1 limits = .ok used)
    (hfinish : size.finish byte self.wireBytes limits.lineBytes = .ok next)
    (hcheck : checkSize self.bodyBytes next.value limits = .ok (total, active)) :
    step limits (self.inPhase (.sizeLf size)) byte =
      some ({ self with wireBytes := used, bodyBytes := total }.inPhase active, []) := by
  simp [step, inPhase, hwire, hfinish, hcheck]

theorem step_dataCr {used : ℕ} (h : exact self.wireBytes byte 0x0d .dataCr limits = .ok used) :
    step limits (self.inPhase .dataCr) byte =
      some ({ self with wireBytes := used }.inPhase .dataLf, []) := by
  obtain ⟨used, hwire, h⟩ := Except.bind_eq_ok_iff.mp h
  split_ifs at h with hbyte
  cases h
  simp [step, inPhase, hwire, hbyte]

theorem step_dataLf {used : ℕ} (h : exact self.wireBytes byte 0x0a .dataLf limits = .ok used) :
    step limits (self.inPhase .dataLf) byte =
      some ({ self with wireBytes := used }.inPhase (.size .new), []) := by
  obtain ⟨used, hwire, h⟩ := Except.bind_eq_ok_iff.mp h
  split_ifs at h with hbyte
  cases h
  simp [step, inPhase, hwire, hbyte]

theorem step_of_wire_error {active : Active} {error : Error}
    (hwire : wire self.wireBytes 1 limits = .error error) :
    step limits (self.inPhase active) byte = none := by
  simp [step, inPhase, hwire]

theorem step_of_exact_error {error : Error} :
    (exact self.wireBytes byte 0x0d .dataCr limits = .error error →
      step limits (self.inPhase .dataCr) byte = none) ∧
    (exact self.wireBytes byte 0x0a .dataLf limits = .error error →
      step limits (self.inPhase .dataLf) byte = none) := by
  constructor
  all_goals
    intro h
    rcases bind_eq_error_iff.mp h with hwire | ⟨used, hwire, h⟩
    · exact step_of_wire_error hwire
    · split_ifs at h with hbyte
      simp [step, inPhase, hwire, hbyte]

theorem step_trailer {state : Trailer} {used : ℕ} {result : ℕ ⊕ Trailer}
    (hwire : wire self.wireBytes 1 limits = .ok used)
    (hscan : state.scan byte self.wireBytes limits = .ok result) :
    step limits (self.inPhase (.trailer state)) byte =
      some ({ self with
        wireBytes := used
        phase := result.elim .done fun next => .active (.trailer next) }, []) := by
  cases result <;> simp [step, inPhase, hwire, hscan]

theorem scanTrailer_error (self : Framer) {state : Trailer} {consumed : ℕ} {error : Error}
    (h : scanTrailer limits state self.wireBytes consumed bytes = .error error) :
    Refuses limits (self.inPhase (.trailer state)) bytes := by
  induction bytes generalizing self state consumed with
  | nil => cases h
  | cons byte bytes ih =>
    unfold scanTrailer at h
    rcases bind_eq_error_iff.mp h with hwire | ⟨used, hwire, h⟩
    · exact refuses_cons (inPhase_not_done _ _) (by simp [step, inPhase, hwire])
    rcases bind_eq_error_iff.mp h with hscan | ⟨result, hscan, h⟩
    · exact refuses_cons (inPhase_not_done _ _) (by simp [step, inPhase, hwire, hscan])
    cases result with
    | inl trailers => cases h
    | inr next =>
      have hrest := ih { self with wireBytes := used } h
      exact Refuses.append (runs_cons (step_trailer hwire hscan) (runs_nil _)) hrest

theorem scanTrailer_more (self : Framer) {state next : Trailer} {consumed read wireBytes : ℕ}
    (h : scanTrailer limits state self.wireBytes consumed bytes =
      .ok (.more next wireBytes read)) :
    read = consumed + bytes.length ∧ Runs limits (self.inPhase (.trailer state)) bytes
      ({ self with wireBytes }.inPhase (.trailer next)) [] := by
  induction bytes generalizing self state consumed with
  | nil =>
    obtain ⟨rfl, rfl, rfl⟩ := Progress.more.inj (Except.ok.inj h)
    exact ⟨rfl, rfl⟩
  | cons byte bytes ih =>
    unfold scanTrailer at h
    obtain ⟨used, hwire, h⟩ := Except.bind_eq_ok_iff.mp h
    obtain ⟨result, hscan, h⟩ := Except.bind_eq_ok_iff.mp h
    cases result with
    | inl trailers => cases h
    | inr middle =>
      obtain ⟨rfl, hrest⟩ := ih { self with wireBytes := used } h
      refine ⟨by rw [List.length_cons]; omega, ?_⟩
      exact runs_cons (step_trailer hwire hscan) hrest

theorem scanTrailer_complete (self : Framer) {state : Trailer} {consumed read wireBytes trailers : ℕ}
    (h : scanTrailer limits state self.wireBytes consumed bytes =
      .ok (.complete wireBytes read trailers)) :
    ∃ first rest, bytes = first ++ rest ∧ read = consumed + first.length ∧
      Runs limits (self.inPhase (.trailer state)) first
        { self with wireBytes, phase := .done trailers } [] := by
  induction bytes generalizing self state consumed with
  | nil => cases h
  | cons byte bytes ih =>
    unfold scanTrailer at h
    obtain ⟨used, hwire, h⟩ := Except.bind_eq_ok_iff.mp h
    obtain ⟨result, hscan, h⟩ := Except.bind_eq_ok_iff.mp h
    cases result with
    | inl length =>
      obtain ⟨rfl, rfl, rfl⟩ := Progress.complete.inj (Except.ok.inj h)
      exact ⟨[byte], bytes, rfl, rfl, runs_cons (step_trailer hwire hscan) rfl⟩
    | inr middle =>
      obtain ⟨first, rest, rfl, rfl, hrest⟩ := ih { self with wireBytes := used } h
      refine ⟨byte :: first, rest, rfl, by rw [List.length_cons]; omega, ?_⟩
      exact runs_cons (step_trailer hwire hscan) hrest

theorem follows_cons {result : Except Error (Framer × O)} {rest : Bytes}
    (hinput : input.drop pos = byte :: rest) (hstep : step limits start byte = some (mid, []))
    (h : Follows limits mode cap input mid (pos + 1) result) :
    Follows limits mode cap input start pos result := by
  have hrun : Runs limits start [byte] mid [] := runs_cons hstep (runs_nil mid)
  exact h.prepend hinput hrun silent_nil

theorem follows_error {error : Error} {rest : Bytes} (hinput : input.drop pos = byte :: rest)
    (hdone : ¬ start.IsDone) (hstep : step limits start byte = none) :
    Follows limits mode cap input start pos (.error error) := by
  show Refuses limits start (input.drop pos)
  rw [hinput]
  exact refuses_cons hdone hstep

theorem follows_pending (hdone : ¬ start.IsDone) (hpos : input.drop pos = [] ∨ cap = 0)
    (hle : pos ≤ input.length) :
    Follows limits mode cap input start pos (.ok (start, mode.pending pos)) := by
  refine ⟨[], input.drop pos, [], rfl, runs_nil start, .pending hdone silent_nil ?_⟩
  refine hpos.imp_left fun hnil => ?_
  have hlength := congrArg List.length hnil
  simp at hlength ⊢
  omega

/-- Whatever the mode, the loop is a run of single bytes. -/
theorem drive_follows (self : Framer) (active : Active) (hpos : pos ≤ input.length) :
    Follows limits mode cap input (self.inPhase active) pos
      (drive mode limits cap input self active pos) := by
  induction hleft : input.length - pos using Nat.strong_induction_on generalizing self active pos with
  | h left ih =>
  subst hleft
  have hactive := inPhase_not_done self active
  unfold drive
  split
  · next hdrop => exact follows_pending hactive (.inl hdrop) hpos
  next byte rest hdrop =>
  have hlength : pos + 1 ≤ input.length := by
    have hlength := congrArg List.length hdrop
    simp at hlength
    omega
  have hless : input.length - (pos + 1) < input.length - pos := by omega
  -- What the loop does behind one byte.
  have hnext : ∀ (self : Framer) (active : Active), Follows limits mode cap input
      (self.inPhase active) (pos + 1) (drive mode limits cap input self active (pos + 1)) :=
    fun self active => ih _ hless self active hlength rfl
  cases active with
  | size size =>
    simp only
    cases hwire : wire self.wireBytes 1 limits with
    | error error => exact follows_error hdrop hactive (step_of_wire_error hwire)
    | ok used =>
      cases hscan : size.scan byte self.wireBytes limits.lineBytes with
      | error error => exact follows_error hdrop hactive (by simp [step, inPhase, hwire, hscan])
      | ok result => exact follows_cons hdrop (step_size hwire hscan) (hnext _ _)
  | sizeLf size =>
    simp only
    cases hwire : wire self.wireBytes 1 limits with
    | error error => exact follows_error hdrop hactive (step_of_wire_error hwire)
    | ok used =>
      cases hfinish : size.finish byte self.wireBytes limits.lineBytes with
      | error error =>
        exact follows_error hdrop hactive (by simp [step, inPhase, hwire, hfinish])
      | ok size =>
        simp only [ok_bind]
        cases hcheck : checkSize self.bodyBytes size.value limits with
        | error error =>
          exact follows_error hdrop hactive (by simp [step, inPhase, hwire, hfinish, hcheck])
        | ok result => exact follows_cons hdrop (step_sizeLf hwire hfinish hcheck) (hnext _ _)
  | data left left_ne =>
    simp only
    split
    · next hamount =>
      refine follows_pending hactive ?_ hpos
      have hlength : (input.drop pos).length ≠ 0 := by rw [hdrop]; simp
      omega
    · next hamount =>
      -- The data that is read at once.
      have htake : ((input.drop pos).take (min (min left (input.drop pos).length) cap)).length =
          min (min left (input.drop pos).length) cap := by
        rw [List.length_take]
        omega
      generalize hread : min (min left (input.drop pos).length) cap = amount at *
      have hne : (input.drop pos).take amount ≠ [] := by
        intro hnil
        rw [hnil] at htake
        exact hamount htake.symm
      have hsplit : input.drop pos =
          (input.drop pos).take amount ++ (input.drop pos).drop amount :=
        (List.take_append_drop ..).symm
      cases hwire : wire self.wireBytes amount limits with
      | error error =>
        have hrefuses := refuses_data self left left_ne (by rw [htake]; omega)
          (by rw [htake]; exact hwire) hne
        show Refuses limits _ (input.drop pos)
        rw [hsplit]
        exact hrefuses.extend _
      | ok used =>
        have hrun := runs_data self left left_ne hne (by rw [htake]; omega)
          (by rw [htake]; exact hwire)
        rw [htake] at hrun
        simp only [ok_bind]
        split
        · next output hdata =>
          refine ⟨_, _, _, hsplit, hrun, ?_⟩
          rw [htake, ← List.nil_append ((input.drop pos).take amount)]
          exact .data (inPhase_not_done { self with wireBytes := used } (afterData (left - amount)))
            silent_nil hne hdata
        · next hdata =>
          have hsilent : Silent mode ((input.drop pos).take amount) :=
            fun hmode => absurd hdata (hmode _ _ _)
          refine Follows.prepend hsplit hrun hsilent ?_
          rw [htake]
          have hremaining : (input.drop pos).length = input.length - pos := List.length_drop
          exact ih _ (by omega) _ _ (by omega) rfl
  | dataCr =>
    simp only
    cases hexact : exact self.wireBytes byte 0x0d .dataCr limits with
    | error error => exact follows_error hdrop hactive (step_of_exact_error.1 hexact)
    | ok used => exact follows_cons hdrop (step_dataCr hexact) (hnext _ _)
  | dataLf =>
    simp only
    cases hexact : exact self.wireBytes byte 0x0a .dataLf limits with
    | error error => exact follows_error hdrop hactive (step_of_exact_error.2 hexact)
    | ok used => exact follows_cons hdrop (step_dataLf hexact) (hnext _ _)
  | trailer state =>
    simp only
    cases hscan : scanTrailer limits state self.wireBytes 0 (input.drop pos) with
    | error error => exact scanTrailer_error self hscan
    | ok progress =>
      cases progress with
      | more next wireBytes consumed =>
        obtain ⟨rfl, hrun⟩ := scanTrailer_more self hscan
        rw [Nat.zero_add]
        simp only [ok_bind]
        refine ⟨input.drop pos, [], [], by simp, hrun, ?_⟩
        have hne : (input.drop pos).length ≠ 0 := by rw [hdrop]; simp
        rw [if_neg hne]
        exact .trailer (inPhase_not_done { self with wireBytes } (.trailer next)) silent_nil
          (by simp; omega)
      | complete wireBytes consumed trailers =>
        obtain ⟨first, rest, hsplit, rfl, hrun⟩ := scanTrailer_complete self hscan
        rw [Nat.zero_add]
        exact ⟨first, rest, [], hsplit, hrun, .complete ⟨trailers, rfl⟩ silent_nil⟩

end Loop

end Framer

end Sark.Http.Chunk
