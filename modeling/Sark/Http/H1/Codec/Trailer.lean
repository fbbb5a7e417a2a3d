import Sark.Http.H1.Chunk.Ban
import Sark.Http.H1.Chunk.Body

/-!
# Trailer sections in several buffers

Who owns the bytes of a trailer section (`http/src/h1/codec/decode/chunks.rs` and `trailer.rs`). The
decoder of a chunked body does not keep the section that it has only read a part of. The part goes
into a buffer of its own together with the state of the scanner, and every later input is scanned
once, behind it. The input that ends the section stays where it is, so that the field lines are in
two places, and so may be the empty line that ends them.

* `Plan.fields_eq`: the two parts of the field lines.
* `Session.run_kept`: what is kept over any run.
* `Session.ownership`: the field lines are those of a section that arrives at once, however it is
  cut.
-/

namespace Sark.Http.Codec

open Chunk (Limit Framer Fragment Boundary)

/-! ## The scanner of a section -/

/-- `chunk::trailer::Cursor`. -/
structure Cursor where
  state : Chunk.Trailer
  wire : ℕ
  deriving DecidableEq, Repr

/-- `chunk::trailer::Trailer`. -/
structure Parser where
  cursor : Cursor
  limits : Limit
  deriving DecidableEq, Repr

/-- `chunk::trailer::Progress`. -/
inductive Progress
  | more (next : Cursor) (consumed : Option ℕ)
  | complete (wire consumed trailers : ℕ)
  deriving DecidableEq, Repr

/-- What was scanned, and the bytes of the input that it was. -/
def Progress.of (input : Bytes) : Chunk.Progress → Progress × Bytes
  | .more next wire consumed =>
    (.more ⟨next, wire⟩ (if consumed = 0 then none else some consumed), input)
  | .complete wire consumed trailers => (.complete wire consumed trailers, input.take consumed)

/-- `chunk::trailer::Trailer::scan`. -/
def Parser.scan (self : Parser) (input : Bytes) : Except Chunk.Error (Progress × Bytes) :=
  (Framer.scanTrailer self.limits self.cursor.state self.cursor.wire 0 input).map
    (Progress.of input)

/-- `chunk::trailer::Partial`. -/
structure Partial where
  bytes : Bytes
  consumed : ℕ
  next : Parser
  deriving DecidableEq, Repr

/-! ## The decoder of a body -/

/-- `chunks::Event`. -/
inductive Event
  | needMore (consumed : Option ℕ)
  | chunk (consumed : ℕ) (bytes : Bytes) (boundary : Boundary)
  | done (consumed : ℕ) (fields : Bytes)
  deriving DecidableEq, Repr

/-- `chunks::Decoder`. -/
structure Decoder where
  framer : Framer
  limits : Limit
  deriving DecidableEq, Repr

/-- `chunks::Prepared`. -/
inductive Prepared
  | event (next : Decoder) (answer : Event)
  | trailer (admitted : Partial)
  deriving DecidableEq, Repr

/-- `Decoded::fragment`. -/
def Prepared.fragment : Prepared → Fragment
  | .event _ (.needMore consumed) => .more (consumed.getD 0)
  | .event _ (.chunk consumed bytes boundary) => .data consumed bytes boundary
  | .event _ (.done consumed fields) => .complete consumed fields
  | .trailer admitted => .trailer admitted.consumed

/-- `chunks::Decoder::decode_max`, from where the loop of the framer has come to a section. -/
def Decoder.trailerAt (self : Decoder) (framer : Framer) (state : Chunk.Trailer) (input : Bytes)
    (pos : ℕ) : Except Chunk.Error Prepared := do
  let scanned ← Parser.scan ⟨⟨state, framer.wireBytes⟩, self.limits⟩ (input.drop pos)
  match scanned.1 with
  | .more next (some consumed) =>
    .ok (.trailer ⟨scanned.2, pos + consumed, ⟨next, self.limits⟩⟩)
  | .more next none =>
    let framer := { framer with wireBytes := next.wire, phase := .active (.trailer next.state) }
    .ok (.event { self with framer } (.needMore (if pos = 0 then none else some pos)))
  | .complete wire consumed trailers =>
    let framer := { framer with wireBytes := wire, phase := .done trailers }
    .ok (.event { self with framer }
      (.done (pos + consumed) (scanned.2.take (scanned.2.length - 2))))

/-! ## The owner of a part -/

/-- An owned buffer: its bytes, and how many it has room for. -/
structure Owned where
  bytes : Bytes
  capacity : ℕ
  deriving DecidableEq, Repr

/-- `Owned::try_extend`. -/
def Owned.tryExtend (self : Owned) (bytes : Bytes) : Option Owned :=
  if self.bytes.length + bytes.length ≤ self.capacity then
    some { self with bytes := self.bytes ++ bytes }
  else none

/-- `trailer::StoreError`. -/
inductive StoreError
  | occupied (len : ℕ)
  | capacity
  deriving DecidableEq, Repr

/-- `StoreError::copy`. -/
def StoreError.copy (target : Owned) (bytes : Bytes) : Except StoreError Owned :=
  if target.bytes.length ≠ 0 then .error (.occupied target.bytes.length)
  else
    match target.tryExtend bytes with
    | some owned => .ok owned
    | none => .error .capacity

/-- `trailer::Pending`. -/
structure Pending where
  bytes : Bytes
  consumed : ℕ
  parser : Parser
  deriving DecidableEq, Repr

/-- `Pending::new`. -/
def Pending.new (admitted : Partial) : Pending :=
  ⟨admitted.bytes, admitted.consumed, admitted.next⟩

/-- `trailer::State`. -/
structure State where
  source : Owned
  parser : Parser
  deriving DecidableEq, Repr

/-- `Pending::try_store`. -/
def Pending.tryStore (self : Pending) (target : Owned) : Except StoreError State :=
  (StoreError.copy target self.bytes).map fun source => ⟨source, self.parser⟩

/-- `trailer::Next`. -/
inductive Next (T : Type)
  | more (cursor : Cursor) (consumed : Option T)
  | complete (consumed : T)
  deriving DecidableEq, Repr

/-- `trailer::More`. -/
structure More (T : Type) where
  cursor : Cursor
  consumed : Option T
  deriving DecidableEq, Repr

/-- `trailer::Ready`. -/
structure Ready (T : Type) where
  consumed : T
  deriving DecidableEq, Repr

/-- `trailer::Plan`. -/
structure Plan (P : Type) where
  state : State
  bytes : Bytes
  next : P
  deriving DecidableEq, Repr

/-- `trailer::Complete`. -/
structure Complete where
  source : Owned
  deriving DecidableEq, Repr

/-- `State::prepare`. -/
def State.prepare (self : State) (input : Bytes) : Except Chunk.Error (Plan (Next ℕ)) :=
  (self.parser.scan input).map fun scanned =>
    { state := self
      bytes := scanned.2
      next :=
        match scanned.1 with
        | .more next consumed => .more next consumed
        | .complete _ consumed _ => .complete consumed }

namespace Plan

variable {P T E V : Type}

/-- `Plan::cancel`. -/
def cancel (self : Plan P) : State :=
  self.state

/-- `Plan::try_map`. A refusal gives the state back. -/
def tryMap (self : Plan (Next ℕ)) (bind : ℕ → Except E T) : Except (State × E) (Plan (Next T)) :=
  match self.next with
  | .more cursor none => .ok { self with next := .more cursor none }
  | .more cursor (some consumed) =>
    match bind consumed with
    | .ok consumed => .ok { self with next := .more cursor (some consumed) }
    | .error error => .error (self.state, error)
  | .complete consumed =>
    match bind consumed with
    | .ok consumed => .ok { self with next := .complete consumed }
    | .error error => .error (self.state, error)

/-- `Plan::split`. -/
def split (self : Plan (Next T)) : Plan (Ready T) ⊕ Plan (More T) :=
  match self.next with
  | .complete consumed => .inl { self with next := ⟨consumed⟩ }
  | .more cursor consumed => .inr { self with next := ⟨cursor, consumed⟩ }

/-- `Plan::try_grow`: the bytes that were kept go into a larger buffer. -/
def tryGrow (self : Plan P) (target : Owned) : Except StoreError (Plan P) :=
  (StoreError.copy target self.state.source.bytes).map fun source =>
    { self with state := { self.state with source } }

/-- `Plan::try_append` of a part of a section, and what of the input it consumes. -/
def tryAppend (self : Plan (More T)) : Option (Plan (More T) × Option T) :=
  (self.state.source.tryExtend self.bytes).map fun source =>
    ({ state := ⟨source, { self.state.parser with cursor := self.next.cursor }⟩
       bytes := []
       next := { self.next with consumed := none } }, self.next.consumed)

/-- `Plan::fields`: the field lines in either place, or `none` where less than nothing or more than
there is would be left of one. -/
def fields (self : Plan (Ready T)) : Option (Bytes × Bytes) :=
  let lead := self.state.source.bytes
  let left := 2 - self.bytes.length
  let right := self.bytes.length - 2
  if lead.length < left then none
  else some (lead.take (lead.length - left), self.bytes.take right)

/-- `trailer::AppendError`. -/
inductive AppendError (E : Type)
  | capacity
  | ready (error : E)
  deriving DecidableEq, Repr

/-- `Plan::try_append` of the end of a section, behind what its caller has to do. The last two bytes
are cut off, if there are as many. -/
def publish (self : Plan (Ready T)) (ready : Except E V) :
    Except (Plan (Ready T) × AppendError E) (Option Complete × T × V) :=
  match self.state.source.tryExtend self.bytes with
  | none => .error (self, .capacity)
  | some source =>
    match ready with
    | .error error => .error (self, .ready error)
    | .ok value =>
      let cut :=
        if source.bytes.length < 2 then none
        else some ⟨{ source with bytes := source.bytes.take (source.bytes.length - 2) }⟩
      .ok (cut, self.next.consumed, value)

end Plan

/-! ## Owners over a run -/

/-- Who holds the bytes of a section. -/
inductive Holder (T : Type)
  | state (state : State)
  | more (plan : Plan (More T))
  | ready (plan : Plan (Ready T))
  | complete (done : Complete)

/-- What a caller may do: prepare an input, with the proof of what it consumes or a refusal, grow
the buffer, append, publish behind its own work, and cancel. -/
inductive Act (T : Type)
  | prepare (input : Bytes) (bind : ℕ → Except Unit T)
  | grow (target : Owned)
  | append
  | publish (ready : Except Unit Unit)
  | cancel

/-- A caller, with the bytes that it was told to be consumed. -/
structure Session (T : Type) where
  holder : Holder T
  taken : Bytes

namespace Session

variable {T : Type}

/-- Behind a plan that was prepared. -/
def behind (self : Session T) (state : State) (bind : ℕ → Except Unit T)
    (plan : Plan (Next ℕ)) : Session T :=
  match plan.tryMap bind with
  | .error _ => { self with holder := .state state }
  | .ok plan =>
    match plan.split with
    | .inl ready => { self with holder := .ready ready }
    | .inr more => { self with holder := .more more }

/-- One thing that a caller does. -/
def act (self : Session T) : Act T → Session T
  | .prepare input bind =>
    match self.holder with
    | .state state =>
      match state.prepare input with
      | .error _ => self
      | .ok plan => self.behind state bind plan
    | _ => self
  | .grow target =>
    match self.holder with
    | .more plan =>
      match plan.tryGrow target with
      | .error _ => self
      | .ok plan => { self with holder := .more plan }
    | .ready plan =>
      match plan.tryGrow target with
      | .error _ => self
      | .ok plan => { self with holder := .ready plan }
    | _ => self
  | .append =>
    match self.holder with
    | .more plan =>
      match plan.tryAppend with
      | none => self
      | some (next, _) => ⟨.more next, self.taken ++ plan.bytes⟩
    | _ => self
  | .publish ready =>
    match self.holder with
    | .ready plan =>
      match plan.publish ready with
      | .error (plan, _) => { self with holder := .ready plan }
      | .ok (some done, _, _) => ⟨.complete done, self.taken ++ plan.bytes⟩
      | .ok (none, _, _) => self
    | _ => self
  | .cancel =>
    match self.holder with
    | .more plan => { self with holder := .state plan.cancel }
    | .ready plan => { self with holder := .state plan.cancel }
    | _ => self

/-- A run of a caller. -/
def run (self : Session T) (acts : List (Act T)) : Session T :=
  acts.foldl act self

end Session

/-! ## Scans -/

section Scans

open Chunk.Framer (scanTrailer resume scanTrailer_append)

variable {limits : Limit} {state : Chunk.Trailer} {current consumed wire read trailers : ℕ}
  {bytes more : Bytes}

theorem resume_more (next : Chunk.Trailer) :
    resume limits more (.more next wire consumed) = scanTrailer limits next wire consumed more :=
  rfl

theorem scanTrailer_end
    (h : scanTrailer limits state current consumed bytes = .ok (.complete wire read trailers)) :
    ∃ first rest, bytes = first ++ rest ∧ first ≠ [] ∧ read = consumed + first.length ∧
      ∀ more, scanTrailer limits state current consumed (first ++ more) =
        .ok (.complete wire read trailers) := by
  induction bytes generalizing state current consumed with
  | nil => exact absurd h (by simp [scanTrailer])
  | cons byte bytes ih =>
    rw [scanTrailer] at h
    obtain ⟨used, hwire, h⟩ := Except.bind_eq_ok_iff.mp h
    obtain ⟨progress, hscan, h⟩ := Except.bind_eq_ok_iff.mp h
    cases progress with
    | inl ended =>
      obtain ⟨rfl, rfl, rfl⟩ := Chunk.Progress.complete.inj (Except.ok.inj h)
      refine ⟨[byte], bytes, rfl, List.cons_ne_nil _ _, rfl, fun more => ?_⟩
      rw [List.singleton_append, scanTrailer, hwire, Framer.ok_bind, hscan]
      rfl
    | inr next =>
      obtain ⟨first, rest, rfl, -, rfl, hmore⟩ := ih h
      refine ⟨byte :: first, rest, rfl, List.cons_ne_nil _ _, ?_, fun more => ?_⟩
      · rw [List.length_cons]
        omega
      · rw [List.cons_append, scanTrailer, hwire, Framer.ok_bind, hscan]
        exact hmore more

theorem exists_fields (h : scanTrailer limits .new current 0 bytes =
    .ok (.complete wire bytes.length trailers)) : ∃ fields, bytes = fields ++ [0x0d, 0x0a] := by
  obtain ⟨first, rest, hbytes, hlength, hruns⟩ :=
    Framer.scanTrailer_complete ⟨.done 0, current, 0⟩ h
  have hrest : rest = [] := by
    have hsum := congrArg List.length hbytes
    rw [List.length_append] at hsum
    exact List.length_eq_zero_iff.mp (by omega)
  rw [hrest, List.append_nil] at hbytes
  subst hbytes
  obtain ⟨-, ⟨length, hall⟩, -⟩ := Framer.section_of_runs hruns ⟨trailers, rfl⟩
  obtain ⟨⟨lines, count, hlines, -⟩, -⟩ := Chunk.Trailer.scanAll_iff.mp hall
  exact ⟨lines, hlines⟩

theorem take_fields {fields : Bytes} (h : bytes = fields ++ [0x0d, 0x0a]) :
    bytes.take (bytes.length - 2) = fields := by
  rw [h, List.length_append]
  exact List.take_left

theorem scanTrailer_read (next : Chunk.Trailer)
    (h : scanTrailer limits state current consumed bytes = .ok (.more next wire read)) :
    read = consumed + bytes.length :=
  (Framer.scanTrailer_more ⟨.done 0, current, 0⟩ h).1

/-- A scan behind some bytes that were counted before. -/
def shift (offset : ℕ) : Chunk.Progress → Chunk.Progress
  | .more next wire consumed => .more next wire (consumed + offset)
  | .complete wire consumed trailers => .complete wire (consumed + offset) trailers

theorem scanTrailer_shift (offset : ℕ) :
    scanTrailer limits state current (consumed + offset) bytes =
      (scanTrailer limits state current consumed bytes).map (shift offset) := by
  induction bytes generalizing state current consumed with
  | nil => rfl
  | cons byte bytes ih =>
    rw [scanTrailer, scanTrailer]
    cases Framer.wire current 1 limits with
    | error error => rfl
    | ok used =>
      rw [Framer.ok_bind, Framer.ok_bind]
      cases state.scan byte current limits with
      | error error => rfl
      | ok progress =>
        rw [Framer.ok_bind, Framer.ok_bind]
        cases progress with
        | inl ended =>
          exact congrArg (fun count => Except.ok (Chunk.Progress.complete used count ended))
            (Nat.add_right_comm consumed offset 1)
        | inr next =>
          dsimp only
          rw [Nat.add_right_comm consumed offset 1]
          exact ih

theorem scanTrailer_resumed {next : Chunk.Trailer}
    (h : scanTrailer limits state current 0 bytes = .ok (.more next wire read)) :
    scanTrailer limits state current 0 (bytes ++ more) =
      (scanTrailer limits next wire 0 more).map (shift bytes.length) := by
  have hread := scanTrailer_read next h
  rw [scanTrailer_append, h, ← scanTrailer_shift, ← hread]
  rfl

theorem exists_more {last : Bytes} (hlast : last ≠ [])
    (h : scanTrailer limits state current 0 (bytes ++ last) =
      .ok (.complete wire (bytes ++ last).length trailers)) :
    ∃ next used, scanTrailer limits state current 0 bytes = .ok (.more next used bytes.length) ∧
      scanTrailer limits next used 0 last = .ok (.complete wire last.length trailers) := by
  rw [scanTrailer_append] at h
  obtain ⟨progress, hprogress, hrest⟩ := Except.bind_eq_ok_iff.mp h
  cases progress with
  | more next used read' =>
    obtain rfl : read' = 0 + bytes.length := scanTrailer_read next hprogress
    refine ⟨next, used, by simpa using hprogress, ?_⟩
    rw [resume_more, scanTrailer_shift, Except.map_eq_ok_iff] at hrest
    obtain ⟨progress, hprogress', hshift⟩ := hrest
    rw [hprogress']
    cases progress with
    | more => exact absurd hshift (by simp [shift])
    | complete wire' read'' trailers' =>
      simp only [shift, Chunk.Progress.complete.injEq, List.length_append] at hshift
      obtain ⟨rfl, hlength, rfl⟩ := hshift
      obtain rfl : read'' = last.length := by omega
      rfl
  | complete used read' trailers' =>
    -- it would have ended before the last bytes
    obtain ⟨first, rest, hbytes, -, rfl, -⟩ := scanTrailer_end hprogress
    have hlength := (Chunk.Progress.complete.inj (Except.ok.inj hrest)).2.1
    have hpos := List.length_pos_iff.mpr hlast
    have hsum := congrArg List.length hbytes
    rw [List.length_append] at hsum hlength
    omega

end Scans

/-! ## Sections at once -/

section Whole

open Chunk.Framer (scanTrailer drive)

variable {limits : Limit} {decoder : Decoder} {framer : Framer} {state : Chunk.Trailer}
  {input lead text : Bytes} {pos wire trailers : ℕ}

theorem trailerAt_complete
    (h : scanTrailer decoder.limits state framer.wireBytes 0 text =
      .ok (.complete wire text.length trailers)) (rest : Bytes) :
    ∃ next, decoder.trailerAt framer state (lead ++ (text ++ rest)) lead.length =
      .ok (.event next (.done (lead.length + text.length) (text.take (text.length - 2)))) := by
  obtain ⟨first, behind, hfirst, -, hlength, hmore⟩ := scanTrailer_end h
  have hbehind : behind = [] := by
    have hsum := congrArg List.length hfirst
    rw [List.length_append] at hsum
    exact List.length_eq_zero_iff.mp (by omega)
  rw [hbehind, List.append_nil] at hfirst
  subst hfirst
  refine ⟨{ decoder with framer := { framer with wireBytes := wire, phase := .done trailers } }, ?_⟩
  rw [Decoder.trailerAt, Parser.scan, List.drop_left, hmore rest]
  simp only [Except.map, Framer.ok_bind, Progress.of, List.take_left]

theorem trailerAt_more {next : Chunk.Trailer} (hne : text ≠ [])
    (h : scanTrailer decoder.limits state framer.wireBytes 0 text =
      .ok (.more next wire text.length)) :
    decoder.trailerAt framer state (lead ++ text) lead.length =
      .ok (.trailer ⟨text, lead.length + text.length, ⟨⟨next, wire⟩, decoder.limits⟩⟩) := by
  have hlength : text.length ≠ 0 := by
    rw [Ne, List.length_eq_zero_iff]
    exact hne
  rw [Decoder.trailerAt, Parser.scan, List.drop_left, h]
  simp only [Except.map, Framer.ok_bind, Progress.of, if_neg hlength]

theorem trailerAt_admitted {admitted : Partial}
    (h : decoder.trailerAt framer state (lead ++ text) lead.length = .ok (.trailer admitted)) :
    admitted.bytes = text ∧ admitted.next.limits = decoder.limits ∧ text ≠ [] ∧
      scanTrailer decoder.limits state framer.wireBytes 0 text =
        .ok (.more admitted.next.cursor.state admitted.next.cursor.wire text.length) := by
  rw [Decoder.trailerAt, Parser.scan, List.drop_left] at h
  cases hscan : scanTrailer decoder.limits state framer.wireBytes 0 text with
  | error error =>
    rw [hscan] at h
    exact absurd h (by simp [Except.map, Framer.error_bind])
  | ok progress =>
    rw [hscan] at h
    cases progress with
    | more next wire consumed =>
      obtain rfl : consumed = 0 + text.length := scanTrailer_read next hscan
      by_cases hzero : 0 + text.length = 0
      · simp [Except.map, Framer.ok_bind, Progress.of, hzero] at h
      · simp only [Except.map, Framer.ok_bind, Progress.of, if_neg hzero, Except.ok.injEq,
          Prepared.trailer.injEq] at h
        subst h
        refine ⟨rfl, rfl, ?_, by rw [Nat.zero_add]⟩
        rintro rfl
        exact hzero rfl
    | complete wire consumed trailers =>
      simp [Except.map, Framer.ok_bind, Progress.of] at h

end Whole

/-! ## What is kept -/

section Kept

open Chunk.Framer (scanTrailer)

variable {T : Type} {limits : Limit} {current : ℕ} {taken : Bytes}

/-- A state holds what was taken, and its scanner has read that. -/
structure State.Kept (limits : Limit) (current : ℕ) (taken : Bytes) (state : State) : Prop where
  bytes_eq : state.source.bytes = taken
  limits_eq : state.parser.limits = limits
  read : scanTrailer limits .new current 0 taken =
    .ok (.more state.parser.cursor.state state.parser.cursor.wire taken.length)

/-- A plan that goes on. -/
structure More.Kept (limits : Limit) (current : ℕ) (taken : Bytes) (plan : Plan (More T)) :
    Prop where
  state : plan.state.Kept limits current taken
  read : scanTrailer limits plan.state.parser.cursor.state plan.state.parser.cursor.wire 0
    plan.bytes = .ok (.more plan.next.cursor.state plan.next.cursor.wire plan.bytes.length)

/-- A plan that ends the section. -/
structure Ready.Kept (limits : Limit) (current : ℕ) (taken : Bytes) (plan : Plan (Ready T)) :
    Prop where
  state : plan.state.Kept limits current taken
  read : ∃ wire trailers, scanTrailer limits plan.state.parser.cursor.state
    plan.state.parser.cursor.wire 0 plan.bytes = .ok (.complete wire plan.bytes.length trailers)

/-- A section that is complete, from where the framer has come to it. -/
def IsSection (limits : Limit) (current : ℕ) (text : Bytes) : Prop :=
  ∃ wire trailers,
    scanTrailer limits .new current 0 text = .ok (.complete wire text.length trailers)

/-- What is held. -/
def Holder.Kept (limits : Limit) (current : ℕ) (taken : Bytes) : Holder T → Prop
  | .state held => held.Kept limits current taken
  | .more plan => More.Kept limits current taken plan
  | .ready plan => Ready.Kept limits current taken plan
  | .complete done => IsSection limits current taken ∧
      done.source.bytes = taken.take (taken.length - 2)

theorem Ready.Kept.isSection {plan : Plan (Ready T)} (h : Ready.Kept limits current taken plan) :
    IsSection limits current (taken ++ plan.bytes) := by
  obtain ⟨wire, trailers, hread⟩ := h.read
  refine ⟨wire, trailers, ?_⟩
  rw [scanTrailer_resumed h.state.read, hread, List.length_append, Nat.add_comm taken.length]
  rfl

theorem IsSection.exists_fields {text : Bytes} (h : IsSection limits current text) :
    ∃ fields, text = fields ++ [0x0d, 0x0a] := by
  obtain ⟨wire, trailers, h⟩ := h
  exact Codec.exists_fields h

/-- The field lines are what is in front of the empty line, in whichever place this begins. -/
theorem Plan.fields_eq {plan : Plan (Ready T)} (h : Ready.Kept limits current taken plan) :
    ∃ left right, plan.fields = some (left, right) ∧
      taken ++ plan.bytes = left ++ right ++ [0x0d, 0x0a] := by
  obtain ⟨text, htext⟩ := h.isSection.exists_fields
  have hbytes := h.state.bytes_eq
  have hlength := congrArg List.length htext
  have htake := take_fields htext
  simp only [List.length_append, List.length_cons, List.length_nil] at hlength
  have hroom : ¬taken.length < 2 - plan.bytes.length := by omega
  refine ⟨taken.take (taken.length - (2 - plan.bytes.length)),
    plan.bytes.take (plan.bytes.length - 2), ?_, ?_⟩
  · simp only [fields, hbytes]
    rw [if_neg hroom]
  · -- both places are cut at the same place of the section
    rw [htext, ← htake, List.take_append, List.length_append]
    congr 2
    · rcases Nat.lt_or_ge plan.bytes.length 2 with hshort | hlong
      · congr 1
        omega
      · rw [List.take_of_length_le (by omega), List.take_of_length_le (by omega)]
    · congr 1
      omega

theorem StoreError.copy_bytes {target owned : Owned} {bytes : Bytes}
    (h : StoreError.copy target bytes = .ok owned) : owned.bytes = bytes := by
  rw [copy, Owned.tryExtend] at h
  split at h
  next => exact absurd h (by simp)
  next hempty =>
    rw [not_not, List.length_eq_zero_iff] at hempty
    split at h
    next owned' hextend =>
      split_ifs at hextend
      obtain rfl := Option.some.inj hextend
      obtain rfl := Except.ok.inj h
      rw [hempty, List.nil_append]
    next => exact absurd h (by simp)

/-- What is prepared: all of an input that the section goes on behind, or its part up to the end. -/
theorem State.prepare_ok {state : State} {input : Bytes} {plan : Plan (Next ℕ)}
    (hkept : state.Kept limits current taken) (h : state.prepare input = .ok plan) :
    plan.state = state ∧
      ((∃ cursor consumed, plan.next = .more cursor consumed ∧ plan.bytes = input ∧
        scanTrailer limits state.parser.cursor.state state.parser.cursor.wire 0 plan.bytes =
          .ok (.more cursor.state cursor.wire plan.bytes.length)) ∨
      ∃ consumed wire trailers, plan.next = .complete consumed ∧ plan.bytes <+: input ∧
        scanTrailer limits state.parser.cursor.state state.parser.cursor.wire 0 plan.bytes =
          .ok (.complete wire plan.bytes.length trailers)) := by
  rw [prepare, Parser.scan, hkept.limits_eq] at h
  cases hscan : scanTrailer limits state.parser.cursor.state state.parser.cursor.wire 0 input with
  | error error =>
    rw [hscan] at h
    exact absurd h (by simp [Except.map])
  | ok progress =>
    rw [hscan] at h
    obtain rfl := Except.ok.inj h
    cases progress with
    | more next wire consumed =>
      obtain rfl : consumed = 0 + input.length := scanTrailer_read next hscan
      refine ⟨rfl, .inl ⟨⟨next, wire⟩, _, rfl, rfl, ?_⟩⟩
      rw [Nat.zero_add] at hscan
      exact hscan
    | complete wire consumed trailers =>
      obtain ⟨first, rest, rfl, -, rfl, hmore⟩ := scanTrailer_end hscan
      have hbytes : (first ++ rest).take (0 + first.length) = first := by
        rw [Nat.zero_add, List.take_left]
      refine ⟨rfl, .inr ⟨_, wire, trailers, rfl, List.take_prefix _ _, ?_⟩⟩
      simp only [Progress.of, hbytes]
      have hfirst := hmore []
      rwa [List.append_nil, Nat.zero_add] at hfirst

theorem State.Kept.grow {state : State} {source : Owned} (h : state.Kept limits current taken)
    (hsource : source.bytes = state.source.bytes) :
    State.Kept limits current taken { state with source } :=
  ⟨hsource.trans h.bytes_eq, h.limits_eq, h.read⟩

theorem Session.behind_kept {session : Session T} {state : State} {bind : ℕ → Except Unit T}
    {input : Bytes} {plan : Plan (Next ℕ)} (hkept : state.Kept limits current session.taken)
    (h : state.prepare input = .ok plan) :
    (session.behind state bind plan).holder.Kept limits current
      (session.behind state bind plan).taken := by
  obtain ⟨rfl, hplan⟩ := State.prepare_ok hkept h
  rw [behind]
  rcases hplan with
    ⟨cursor, consumed, hnext, -, hread⟩ | ⟨consumed, wire, trailers, hnext, -, hread⟩
  · cases consumed with
    | none =>
      simp only [Plan.tryMap, hnext, Plan.split]
      exact ⟨hkept, hread⟩
    | some consumed =>
      simp only [Plan.tryMap, hnext]
      cases bind consumed with
      | error error => exact hkept
      | ok value => exact ⟨hkept, hread⟩
  · simp only [Plan.tryMap, hnext]
    cases bind consumed with
    | error error => exact hkept
    | ok value => exact ⟨hkept, wire, trailers, hread⟩

theorem Owned.bytes_of_tryExtend {owned extended : Owned} {bytes : Bytes}
    (h : owned.tryExtend bytes = some extended) : extended.bytes = owned.bytes ++ bytes := by
  rw [tryExtend] at h
  split_ifs at h
  obtain rfl := Option.some.inj h
  rfl

theorem More.Kept.append {plan next : Plan (More T)} {consumed : Option T}
    (h : More.Kept limits current taken plan) (happend : plan.tryAppend = some (next, consumed)) :
    More.Kept limits current (taken ++ plan.bytes) next := by
  obtain ⟨source, hsource, hnext⟩ := Option.map_eq_some_iff.mp happend
  obtain ⟨rfl, -⟩ := Prod.mk.inj hnext
  refine ⟨⟨?_, h.state.limits_eq, ?_⟩, rfl⟩
  · rw [Owned.bytes_of_tryExtend hsource, h.state.bytes_eq]
  · rw [scanTrailer_resumed h.state.read, h.read, List.length_append, Nat.add_comm taken.length]
    rfl

theorem Plan.publish_error {E V : Type} {plan plan' : Plan (Ready T)} {ready : Except E V}
    {error : Plan.AppendError E} (h : plan.publish ready = .error (plan', error)) :
    plan = plan' := by
  rw [publish] at h
  split at h
  next => exact (Prod.mk.inj (Except.error.inj h)).1
  next =>
    split at h
    next => exact (Prod.mk.inj (Except.error.inj h)).1
    next => exact absurd h (by simp)

theorem Plan.publish_ok {E V : Type} {plan : Plan (Ready T)} {ready : Except E V}
    {done : Complete} {consumed : T} {value : V}
    (h : plan.publish ready = .ok (some done, consumed, value))
    (hbytes : plan.state.source.bytes = taken) :
    done.source.bytes = (taken ++ plan.bytes).take ((taken ++ plan.bytes).length - 2) := by
  rw [publish] at h
  split at h
  next => exact absurd h (by simp)
  next source hsource =>
    split at h
    next => exact absurd h (by simp)
    next =>
      have hdone := (Prod.mk.inj (Except.ok.inj h)).1
      have hextended := Owned.bytes_of_tryExtend hsource
      rw [hbytes] at hextended
      split_ifs at hdone
      obtain rfl := Option.some.inj hdone
      rw [← hextended]

/-- What is kept by whatever a caller does. -/
theorem Session.act_kept (session : Session T)
    (h : session.holder.Kept limits current session.taken) (act : Act T) :
    (session.act act).holder.Kept limits current (session.act act).taken := by
  obtain ⟨holder, taken⟩ := session
  cases act with
  | prepare input bind =>
    cases holder with
    | state state =>
      rw [Session.act]
      dsimp only
      split
      next => exact h
      next plan hplan => exact behind_kept h hplan
    | more plan => exact h
    | ready plan => exact h
    | complete done => exact h
  | grow target =>
    cases holder with
    | state state => exact h
    | complete done => exact h
    | more plan =>
      rw [Session.act]
      dsimp only
      split
      next => exact h
      next grown hgrown =>
        obtain ⟨source, hsource, rfl⟩ := Except.map_eq_ok_iff.mp hgrown
        exact ⟨h.state.grow (StoreError.copy_bytes hsource), h.read⟩
    | ready plan =>
      rw [Session.act]
      dsimp only
      split
      next => exact h
      next grown hgrown =>
        obtain ⟨source, hsource, rfl⟩ := Except.map_eq_ok_iff.mp hgrown
        exact ⟨h.state.grow (StoreError.copy_bytes hsource), h.read⟩
  | append =>
    cases holder with
    | state state => exact h
    | complete done => exact h
    | ready plan => exact h
    | more plan =>
      rw [Session.act]
      dsimp only
      split
      next => exact h
      next next consumed happend => exact More.Kept.append h happend
  | publish ready =>
    cases holder with
    | state state => exact h
    | more plan => exact h
    | complete done => exact h
    | ready plan =>
      rw [Session.act]
      dsimp only
      split
      next plan' error hpublish => exact Plan.publish_error hpublish ▸ h
      next done consumed value hpublish =>
        exact ⟨h.isSection, Plan.publish_ok hpublish h.state.bytes_eq⟩
      next => exact h
  | cancel =>
    cases holder with
    | state state => exact h
    | complete done => exact h
    | more plan => exact h.state
    | ready plan => exact h.state

/-- What is kept over a run. -/
theorem Session.run_kept (session : Session T)
    (h : session.holder.Kept limits current session.taken) (acts : List (Act T)) :
    (session.run acts).holder.Kept limits current (session.run acts).taken := by
  induction acts generalizing session with
  | nil => exact h
  | cons act acts ih => exact ih _ (act_kept session h act)

end Kept

/-! ## Ownership of a section that is split -/

section Ownership

open Chunk.Framer (scanTrailer)

variable {T : Type} {limits : Limit} {current : ℕ} {decoder : Decoder} {framer : Framer}
  {lead taken : Bytes}

/-- How a caller keeps one part of a section: it is bound, put behind the others in a larger buffer
and the plan given up for its state. -/
def Act.keep (token : T) (room : ℕ) (part : Bytes) : List (Act T) :=
  [.prepare part fun _ => .ok token, .grow ⟨[], room⟩, .append, .cancel]

/-- How a caller comes to the end of a section that is in several parts. -/
def Act.gather (token : T) (room : ℕ) (parts : List Bytes) (last : Bytes) : List (Act T) :=
  parts.flatMap (keep token room) ++ [.prepare last fun _ => .ok token]

theorem Session.run_append (session : Session T) (acts more : List (Act T)) :
    session.run (acts ++ more) = (session.run acts).run more :=
  List.foldl_append

theorem IsSection.fragment {text fields : Bytes}
    (h : IsSection decoder.limits framer.wireBytes text) (hfields : text = fields ++ [0x0d, 0x0a])
    (rest : Bytes) :
    (decoder.trailerAt framer .new (lead ++ (text ++ rest)) lead.length).map Prepared.fragment =
      .ok (.complete (lead.length + text.length) fields) := by
  obtain ⟨wire, trailers, h⟩ := h
  obtain ⟨next, hnext⟩ : ∃ next,
      decoder.trailerAt framer .new (lead ++ (text ++ rest)) lead.length =
      .ok (.event next (.done (lead.length + text.length) (text.take (text.length - 2)))) :=
    trailerAt_complete h rest
  rw [hnext, take_fields hfields]
  rfl

theorem State.kept_of_tryStore {first : Bytes} {admitted : Partial} {target : Owned} {state : State}
    (hpart : decoder.trailerAt framer .new (lead ++ first) lead.length = .ok (.trailer admitted))
    (hstore : (Pending.new admitted).tryStore target = .ok state) :
    state.Kept decoder.limits framer.wireBytes first := by
  obtain ⟨hbytes, hlimits, -, hread⟩ := trailerAt_admitted hpart
  obtain ⟨source, hsource, rfl⟩ := Except.map_eq_ok_iff.mp hstore
  exact ⟨(StoreError.copy_bytes hsource).trans hbytes, hlimits, hread⟩

theorem trailerAt_error_iff {text : Bytes} {error : Chunk.Error} :
    decoder.trailerAt framer .new (lead ++ text) lead.length = .error error ↔
      scanTrailer decoder.limits .new framer.wireBytes 0 text = .error error := by
  rw [Decoder.trailerAt, Parser.scan, List.drop_left]
  cases scanTrailer decoder.limits .new framer.wireBytes 0 text with
  | error cause => simp [Except.map, Framer.error_bind]
  | ok progress =>
    simp only [Except.map, Framer.ok_bind, reduceCtorEq, iff_false]
    cases progress with
    | more next wire consumed =>
      by_cases hzero : consumed = 0
      · simp [Progress.of, hzero]
      · simp [Progress.of, hzero]
    | complete wire consumed trailers => simp [Progress.of]

theorem State.prepare_error_iff {state : State}
    (hkept : state.Kept limits current taken) (input : Bytes) (error : Chunk.Error) :
    state.prepare input = .error error ↔
      scanTrailer limits .new current 0 (taken ++ input) = .error error := by
  rw [scanTrailer_resumed hkept.read, prepare, Parser.scan, hkept.limits_eq]
  cases scanTrailer limits state.parser.cursor.state state.parser.cursor.wire 0 input with
  | error cause => simp [Except.map]
  | ok progress => simp [Except.map]

theorem Session.act_prepare_more {state : State} {part : Bytes} {next : Chunk.Trailer} {used : ℕ}
    (token : T) (hkept : state.Kept limits current taken)
    (hread : scanTrailer limits .new current 0 (taken ++ part) =
      .ok (.more next used (taken ++ part).length)) :
    ∃ plan : Plan (More T), (⟨.state state, taken⟩ : Session T).act
        (.prepare part fun _ => .ok token) = ⟨.more plan, taken⟩ ∧
      plan.state = state ∧ plan.bytes = part := by
  rw [scanTrailer_resumed hkept.read] at hread
  obtain ⟨progress, hscan, hshift⟩ := Except.map_eq_ok_iff.mp hread
  cases progress with
  | complete => exact absurd hshift (by simp [shift])
  | more next' used' consumed =>
    simp only [act, State.prepare, Parser.scan, hkept.limits_eq, hscan, Except.map, Progress.of,
      behind, Plan.tryMap]
    by_cases hzero : consumed = 0
    · simp only [if_pos hzero, Plan.split]
      exact ⟨_, rfl, rfl, rfl⟩
    · simp only [if_neg hzero, Plan.split]
      exact ⟨_, rfl, rfl, rfl⟩

theorem StoreError.copy_empty {bytes : Bytes} {room : ℕ} (hroom : bytes.length ≤ room) :
    StoreError.copy ⟨[], room⟩ bytes = .ok ⟨bytes, room⟩ := by
  have hfits : ([] : Bytes).length + bytes.length ≤ room := by simpa using hroom
  have hempty : ¬([] : Bytes).length ≠ 0 := by simp
  simp only [copy, if_neg hempty, Owned.tryExtend, if_pos hfits, List.nil_append]

/-- One part is kept, if the section goes on behind it and there is room for it. -/
theorem Session.run_keep {state : State} {part : Bytes} {next : Chunk.Trailer} {used : ℕ}
    (token : T) {room : ℕ} (hkept : state.Kept limits current taken)
    (hread : scanTrailer limits .new current 0 (taken ++ part) =
      .ok (.more next used (taken ++ part).length))
    (hroom : (taken ++ part).length ≤ room) :
    ∃ state', (⟨.state state, taken⟩ : Session T).run (Act.keep token room part) =
      ⟨.state state', taken ++ part⟩ := by
  obtain ⟨plan, hplan, rfl, rfl⟩ := act_prepare_more token hkept hread
  have hgrow : StoreError.copy ⟨[], room⟩ plan.state.source.bytes = .ok ⟨taken, room⟩ := by
    rw [hkept.bytes_eq]
    rw [List.length_append] at hroom
    exact StoreError.copy_empty (by omega)
  have happend : Owned.tryExtend ⟨taken, room⟩ plan.bytes = some ⟨taken ++ plan.bytes, room⟩ := by
    rw [List.length_append] at hroom
    exact if_pos hroom
  rw [Act.keep, run, List.foldl_cons, hplan]
  simp only [List.foldl_cons, List.foldl_nil, act, Plan.tryGrow, hgrow, Except.map, Plan.tryAppend,
    happend, Option.map_some, Plan.cancel]
  exact ⟨_, rfl⟩

theorem Session.run_parts {state : State} {parts : List Bytes} {last : Bytes} (token : T) {room : ℕ}
    (hkept : state.Kept limits current taken) (hlast : last ≠ [])
    (hsection : IsSection limits current (taken ++ (parts.flatten ++ last)))
    (hroom : (taken ++ parts.flatten).length ≤ room) :
    ∃ state', (⟨.state state, taken⟩ : Session T).run (parts.flatMap (Act.keep token room)) =
      ⟨.state state', taken ++ parts.flatten⟩ := by
  induction parts generalizing state taken with
  | nil => exact ⟨state, by rw [List.flatten_nil, List.append_nil]; rfl⟩
  | cons part parts ih =>
    rw [List.flatten_cons, List.append_assoc, ← List.append_assoc] at hsection
    rw [List.flatten_cons, ← List.append_assoc] at hroom
    obtain ⟨wire, trailers, hscan⟩ := id hsection
    obtain ⟨next, used, hread, -⟩ :=
      exists_more (fun h => hlast (List.append_eq_nil_iff.mp h).2) hscan
    have hpart : (taken ++ part).length ≤ room := by
      rw [List.length_append] at hroom
      omega
    obtain ⟨held, hheld⟩ := run_keep token hkept hread hpart
    have hrun := run_kept ⟨.state state, taken⟩ hkept (Act.keep token room part)
    rw [hheld] at hrun
    obtain ⟨state', hstate⟩ := ih hrun hsection hroom
    rw [List.flatMap_cons, run_append, hheld, hstate, List.flatten_cons, List.append_assoc]
    exact ⟨state', rfl⟩

theorem Session.act_prepare_last {state : State} {last : Bytes} (token : T)
    (hkept : state.Kept limits current taken)
    (hsection : IsSection limits current (taken ++ last)) (rest : Bytes) :
    ∃ plan : Plan (Ready T), (⟨.state state, taken⟩ : Session T).act
        (.prepare (last ++ rest) fun _ => .ok token) = ⟨.ready plan, taken⟩ ∧
      plan.state = state ∧ plan.bytes = last := by
  obtain ⟨wire, trailers, hscan⟩ := hsection
  rw [scanTrailer_resumed hkept.read] at hscan
  obtain ⟨progress, hread, hshift⟩ := Except.map_eq_ok_iff.mp hscan
  cases progress with
  | more => exact absurd hshift (by simp [shift])
  | complete wire' consumed trailers' =>
    have hconsumed := (Chunk.Progress.complete.inj hshift).2.1
    rw [List.length_append, Nat.add_comm consumed, Nat.add_left_cancel_iff] at hconsumed
    subst hconsumed
    obtain ⟨first, behind', hfirst, -, hlength, hmore⟩ := scanTrailer_end hread
    have hnil : behind' = [] := by
      have hsum := congrArg List.length hfirst
      rw [List.length_append] at hsum
      exact List.length_eq_zero_iff.mp (by omega)
    rw [hnil, List.append_nil] at hfirst
    subst hfirst
    simp only [act, State.prepare, Parser.scan, hkept.limits_eq, hmore rest, Except.map,
      Progress.of, behind, Plan.tryMap, Plan.split]
    exact ⟨_, rfl, rfl, List.take_left⟩

/-- An answer for a section that is there at once. -/
theorem isSection_of_fragment {text fields rest : Bytes}
    (h : (decoder.trailerAt framer .new (lead ++ (text ++ rest)) lead.length).map
      Prepared.fragment = .ok (.complete (lead.length + text.length) fields)) :
    IsSection decoder.limits framer.wireBytes text ∧ text = fields ++ [0x0d, 0x0a] := by
  obtain ⟨prepared, hprepared, hfragment⟩ := Except.map_eq_ok_iff.mp h
  rw [Decoder.trailerAt, Parser.scan, List.drop_left] at hprepared
  cases hscan : scanTrailer decoder.limits .new framer.wireBytes 0 (text ++ rest) with
  | error error =>
    rw [hscan] at hprepared
    exact absurd hprepared (by simp [Except.map, Framer.error_bind])
  | ok progress =>
    rw [hscan] at hprepared
    cases progress with
    | more next wire consumed =>
      by_cases hzero : consumed = 0
      · simp only [Except.map, Framer.ok_bind, Progress.of, if_pos hzero, Except.ok.injEq]
          at hprepared
        subst hprepared
        exact absurd hfragment (by simp [Prepared.fragment])
      · simp only [Except.map, Framer.ok_bind, Progress.of, if_neg hzero, Except.ok.injEq]
          at hprepared
        subst hprepared
        exact absurd hfragment (by simp [Prepared.fragment])
    | complete wire consumed trailers =>
      simp only [Except.map, Framer.ok_bind, Progress.of, Except.ok.injEq] at hprepared
      subst hprepared
      simp only [Prepared.fragment, Fragment.complete.injEq, Nat.add_left_cancel_iff] at hfragment
      obtain ⟨rfl, hfields⟩ := hfragment
      rw [List.take_left] at hfields
      obtain ⟨first, behind, hfirst, -, hlength, hmore⟩ := scanTrailer_end hscan
      rw [Nat.zero_add] at hlength
      obtain ⟨rfl, -⟩ := List.append_inj hfirst hlength
      have hwhole := hmore []
      rw [List.append_nil] at hwhole
      obtain ⟨lines, hlines⟩ := Codec.exists_fields hwhole
      exact ⟨⟨wire, trailers, hwhole⟩, by rwa [← hfields, take_fields hlines]⟩

/-- A section that is split is read as if it were there at once. The decoder hands the first part
over. Whatever a caller then does, what it prepares is refused where the section at once would be.
Once the section has ended, the field lines in their two places, or in one when it is published, are
those of the section at once, and nothing is taken off a place that does not have it. A caller that
keeps every part comes to that end, wherever the section is cut. -/
theorem Session.ownership (decoder : Decoder) (framer : Framer) (lead : Bytes) (token : T) :
    (∀ (first : Bytes) (admitted : Partial) (target : Owned) (state : State) (acts : List (Act T)),
      decoder.trailerAt framer .new (lead ++ first) lead.length = .ok (.trailer admitted) →
      (Pending.new admitted).tryStore target = .ok state →
      (∀ held taken input error, (⟨.state state, first⟩ : Session T).run acts =
          ⟨.state held, taken⟩ →
        (held.prepare input = .error error ↔
          decoder.trailerAt framer .new (lead ++ (taken ++ input)) lead.length = .error error)) ∧
      (∀ plan taken, (⟨.state state, first⟩ : Session T).run acts = ⟨.ready plan, taken⟩ →
        ∃ left right, plan.fields = some (left, right) ∧
          taken ++ plan.bytes = left ++ right ++ [0x0d, 0x0a] ∧ ∀ rest,
          (decoder.trailerAt framer .new (lead ++ (taken ++ plan.bytes ++ rest)) lead.length).map
              Prepared.fragment =
            .ok (.complete (lead.length + (taken ++ plan.bytes).length) (left ++ right))) ∧
      ∀ done taken, (⟨.state state, first⟩ : Session T).run acts = ⟨.complete done, taken⟩ →
        taken = done.source.bytes ++ [0x0d, 0x0a] ∧ ∀ rest,
          (decoder.trailerAt framer .new (lead ++ (taken ++ rest)) lead.length).map
              Prepared.fragment =
            .ok (.complete (lead.length + taken.length) done.source.bytes)) ∧
    ∀ (text fields rest first last : Bytes) (parts : List Bytes),
      (decoder.trailerAt framer .new (lead ++ (text ++ rest)) lead.length).map Prepared.fragment =
        .ok (.complete (lead.length + text.length) fields) →
      text = first ++ (parts.flatten ++ last) → first ≠ [] → last ≠ [] →
      ∃ admitted,
        decoder.trailerAt framer .new (lead ++ first) lead.length = .ok (.trailer admitted) ∧
        ∀ target : Owned, target.bytes = [] → first.length ≤ target.capacity →
          ∃ state plan left right, (Pending.new admitted).tryStore target = .ok state ∧
            (⟨.state state, first⟩ : Session T).run
                (Act.gather token text.length parts (last ++ rest)) =
              ⟨.ready plan, first ++ parts.flatten⟩ ∧
            plan.bytes = last ∧ plan.fields = some (left, right) ∧ left ++ right = fields := by
  refine ⟨fun first admitted target state acts hpart hstore => ?_,
    fun text fields rest first last parts hwhole hsplit hfirst hlast => ?_⟩
  · have hkept := run_kept ⟨.state state, first⟩ (State.kept_of_tryStore hpart hstore) acts
    refine ⟨fun held taken input error hrun => ?_, fun plan taken hrun => ?_,
      fun done taken hrun => ?_⟩
    · rw [hrun] at hkept
      rw [State.prepare_error_iff hkept, trailerAt_error_iff]
    · rw [hrun] at hkept
      obtain ⟨left, right, hfields, hsection⟩ := Plan.fields_eq hkept
      exact ⟨left, right, hfields, hsection, hkept.isSection.fragment hsection⟩
    · rw [hrun] at hkept
      obtain ⟨hsection, hdone⟩ := hkept
      obtain ⟨fields, hfields⟩ := hsection.exists_fields
      rw [take_fields hfields] at hdone
      rw [← hdone] at hfields
      exact ⟨hfields, hsection.fragment hfields⟩
  · subst hsplit
    obtain ⟨hsection, hfields⟩ := isSection_of_fragment hwhole
    obtain ⟨wire, trailers, hscan⟩ := id hsection
    have hbehind : parts.flatten ++ last ≠ [] := fun h => hlast (List.append_eq_nil_iff.mp h).2
    obtain ⟨next, used, hread, -⟩ := exists_more hbehind hscan
    refine ⟨_, trailerAt_more hfirst hread, fun target hempty hroom => ?_⟩
    have hextend : target.bytes.length + first.length ≤ target.capacity := by
      rw [hempty, List.length_nil]
      omega
    have hnone : ¬target.bytes.length ≠ 0 := by simp [hempty]
    have hstore : (Pending.new ⟨first, lead.length + first.length,
        ⟨⟨next, used⟩, decoder.limits⟩⟩).tryStore target =
        .ok ⟨{ target with bytes := target.bytes ++ first }, ⟨⟨next, used⟩, decoder.limits⟩⟩ := by
      have hcopied : target.tryExtend first =
          some { target with bytes := target.bytes ++ first } := if_pos hextend
      simp only [Pending.tryStore, Pending.new, StoreError.copy, if_neg hnone, hcopied, Except.map]
    have hkept := State.kept_of_tryStore (trailerAt_more hfirst hread) hstore
    have hparts : (first ++ parts.flatten).length ≤ (first ++ (parts.flatten ++ last)).length := by
      simp only [List.length_append]
      omega
    obtain ⟨held, hheld⟩ := run_parts token hkept hlast hsection hparts
    have hrun := run_kept ⟨.state _, first⟩ hkept
      (parts.flatMap (Act.keep token (first ++ (parts.flatten ++ last)).length))
    rw [hheld] at hrun
    rw [← List.append_assoc] at hsection
    obtain ⟨plan, hplan, hstate, hbytes⟩ := act_prepare_last token hrun hsection rest
    have hready := act_kept ⟨.state held, first ++ parts.flatten⟩ hrun
      (.prepare (last ++ rest) fun _ => .ok token)
    rw [hplan] at hready
    obtain ⟨left, right, hcut, hends⟩ := Plan.fields_eq hready
    refine ⟨_, plan, left, right, hstore, ?_, hbytes, hcut, ?_⟩
    · rw [Act.gather, run_append, hheld]
      exact hplan
    · rw [hbytes, List.append_assoc, hfields] at hends
      exact (List.append_cancel_right hends).symm

/-- The empty line is cut between its two bytes, behind a field line that is cut before. -/
theorem Session.ownership_straddle :
    ∃ admitted, Decoder.trailerAt ⟨.new, ⟨64, 64, 64, 64, 4⟩⟩ .new .new ([0x61, 0x3a] : Bytes) 0 =
        .ok (.trailer admitted) ∧
      ∃ state plan left right, (Pending.new admitted).tryStore ⟨[], 2⟩ = .ok state ∧
        (⟨.state state, [0x61, 0x3a]⟩ : Session Unit).run
            (Act.gather () 7 [[0x62, 0x0d], [0x0a, 0x0d]] [0x0a]) =
          ⟨.ready plan, [0x61, 0x3a, 0x62, 0x0d, 0x0a, 0x0d]⟩ ∧
        plan.fields = some (left, right) ∧ left ++ right = [0x61, 0x3a, 0x62, 0x0d, 0x0a] := by
  obtain ⟨admitted, hpart, hrun⟩ := (Session.ownership ⟨.new, ⟨64, 64, 64, 64, 4⟩⟩ .new [] ()).2
    [0x61, 0x3a, 0x62, 0x0d, 0x0a, 0x0d, 0x0a] [0x61, 0x3a, 0x62, 0x0d, 0x0a] [] [0x61, 0x3a]
    [0x0a] [[0x62, 0x0d], [0x0a, 0x0d]] (by decide +kernel) rfl (by decide) (by decide)
  obtain ⟨state, plan, left, right, hstore, hready, -, hcut⟩ := hrun ⟨[], 2⟩ rfl (by decide)
  exact ⟨admitted, hpart, state, plan, left, right, hstore, hready, hcut⟩

end Ownership

end Sark.Http.Codec
