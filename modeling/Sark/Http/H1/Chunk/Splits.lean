import Sark.Http.H1.Chunk.Body

/-!
# Chunked bodies in pieces

A caller hands a decoder its input as it arrives, a piece at a time, and caps the data that a call
returns. `Session` is such a caller. `Framer.scan` reads a whole input in one call.

* `Session.agrees`: however the input is split, the calls end like the scan.
* `Framer.scan_complete_iff`: a scan completes on the chunked bodies of the grammar.
-/

namespace Sark.Http.Chunk

/-- A call of a decoder: how much of the input has arrived, and the cap on the data. -/
structure Call where
  available : ℕ
  cap : ℕ
  deriving DecidableEq, Repr

/-- What the calls of a decoder have come to. -/
inductive Verdict
  | pending
  | complete
  | rejected
  deriving DecidableEq, Repr

/-- A caller of a decoder, and what it was given so far. -/
structure Session where
  framer : Framer
  consumed : ℕ
  body : Bytes
  verdict : Verdict
  deriving DecidableEq, Repr

namespace Session

/-- A caller before its first call. -/
def new : Session :=
  ⟨.new, 0, [], .pending⟩

/-- A call on the bytes that have arrived and are not read yet. There is none behind the end of the
framing or an error. -/
def call (limits : Limit) (bytes : Bytes) (session : Session) (call : Call) : Session :=
  match session.verdict with
  | .pending =>
    match session.framer.decode ((bytes.take call.available).drop session.consumed) limits
        call.cap with
    | .error _ => { session with verdict := .rejected }
    | .ok (framer, .more consumed) =>
      { session with framer, consumed := session.consumed + consumed }
    | .ok (framer, .data consumed data _) =>
      { session with
        framer, consumed := session.consumed + consumed, body := session.body ++ data }
    | .ok (framer, .trailer consumed) =>
      { session with framer, consumed := session.consumed + consumed }
    | .ok (framer, .complete consumed _) =>
      { session with framer, consumed := session.consumed + consumed, verdict := .complete }
  | _ => session

/-- Some calls in turn. -/
def calls (limits : Limit) (bytes : Bytes) (session : Session) (calls : List Call) : Session :=
  calls.foldl (call limits bytes) session

/-- There is nothing left to do for the bytes. -/
def IsSettled (bytes : Bytes) (session : Session) : Prop :=
  session.verdict ≠ .pending ∨ session.consumed = bytes.length

end Session

/-- The calls for an input in segments, each with the caps of its calls: one for every byte of the
segment. -/
def partition (start : ℕ) : List (Bytes × (ℕ → ℕ)) → List Call
  | [] => []
  | (segment, cap) :: rest =>
    (List.range segment.length).map (fun index => ⟨start + segment.length, cap index⟩) ++
      partition (start + segment.length) rest

namespace Framer

variable {limits : Limit} {self start next other : Framer} {bytes body body' read : Bytes}

theorem runs_unique {first second : ℕ}
    (hfirst : Runs limits start (bytes.take first) next body) (hdone : next.IsDone)
    (hsecond : Runs limits start (bytes.take second) other body')
    (hle : first ≤ second) (hlength : second ≤ bytes.length) :
    first = second ∧ next = other ∧ body = body' := by
  have hsplit : bytes.take second = bytes.take first ++ (bytes.take second).drop first := by
    conv_lhs => rw [← List.take_append_drop first (bytes.take second), List.take_take,
      min_eq_left hle]
  have hsecond' := hsecond
  rw [hsplit, runs_append_iff] at hsecond'
  obtain ⟨mid, before, after, hmid, hafter, -⟩ := hsecond'
  obtain ⟨rfl, rfl⟩ := Prod.mk.inj (Option.some.inj (hfirst.symm.trans hmid))
  -- There is nothing behind the end of the framing.
  have hnil := congrArg List.length (runs_of_done hdone hafter)
  rw [List.length_drop, List.length_take, List.length_nil] at hnil
  obtain rfl : first = second := by omega
  obtain ⟨rfl, rfl⟩ := Prod.mk.inj (Option.some.inj (hfirst.symm.trans hsecond))
  exact ⟨rfl, rfl, rfl⟩

theorem runs_take (hread : bytes = read ++ body') (h : Runs limits start read next body) :
    Runs limits start (bytes.take read.length) next body := by
  rw [hread, List.take_left]
  exact h

/-- What a scan from the beginning is, from what it returns. -/
theorem scan_spec (limits : Limit) (bytes : Bytes) :
    match new.scan bytes limits with
    | .error _ => Refuses limits new bytes
    | .ok (next, run) => ∃ body, Runs limits new (bytes.take run.scanned) next body ∧
        run.scanned ≤ bytes.length ∧
        (next.IsDone ∧ run.isComplete = true ∨
          ¬ next.IsDone ∧ run.isComplete = false ∧ run.scanned = bytes.length) := by
  have hfollows : Follows limits whole (2 ^ 64 - 1) bytes (new.inPhase (.size .new)) 0
      (drive whole limits (2 ^ 64 - 1) bytes new (.size .new) 0) :=
    drive_follows new (.size .new) (Nat.zero_le _)
  have hscan : new.scan bytes limits =
      drive whole limits (2 ^ 64 - 1) bytes new (.size .new) 0 := rfl
  rw [hscan]
  cases hdrive : drive whole limits (2 ^ 64 - 1) bytes new (.size .new) 0 with
  | error error =>
    rw [hdrive] at hfollows
    exact hfollows
  | ok result =>
    obtain ⟨next, run⟩ := result
    rw [hdrive] at hfollows
    obtain ⟨read, rest, body, hbytes, hrun, hreturns⟩ := hfollows
    rw [List.drop_zero] at hbytes
    rw [Nat.zero_add] at hreturns
    have hle : read.length ≤ bytes.length := by
      rw [hbytes, List.length_append]
      omega
    cases hreturns with
    | pending hdone hbody hpos =>
      have hall : read.length = bytes.length := by
        rcases hpos with hall | hcap
        · exact hall
        · cases hcap
      exact ⟨body, runs_take hbytes hrun, hle, .inr ⟨hdone, rfl, hall⟩⟩
    | data hdone hbody hne hdata => cases hdata
    | trailer hdone hbody hpos =>
      exact ⟨body, runs_take hbytes hrun, hle, .inr ⟨hdone, rfl, hpos⟩⟩
    | complete hdone hbody => exact ⟨body, runs_take hbytes hrun, hle, .inl ⟨hdone, rfl⟩⟩

theorem scan_of_refuses (h : Refuses limits new bytes) :
    ∃ error, new.scan bytes limits = .error error := by
  have hspec := scan_spec limits bytes
  cases hscan : new.scan bytes limits with
  | error error => exact ⟨error, rfl⟩
  | ok result =>
    rw [hscan] at hspec
    obtain ⟨body, hrun, hle, hend⟩ := hspec
    obtain ⟨hdone, hne⟩ := h.of_runs (List.take_prefix _ _) hrun
    rcases hend with ⟨hdone', -⟩ | ⟨-, -, hall⟩
    · exact absurd hdone' hdone
    · rw [hall, List.take_length] at hne
      exact absurd rfl hne

theorem scan_of_done {count : ℕ} (hrun : Runs limits new (bytes.take count) next body)
    (hdone : next.IsDone) (hcount : count ≤ bytes.length) :
    new.scan bytes limits = .ok (next, ⟨count, true⟩) := by
  have hspec := scan_spec limits bytes
  cases hscan : new.scan bytes limits with
  | error error =>
    rw [hscan] at hspec
    exact absurd hdone (Refuses.of_runs hspec (List.take_prefix _ _) hrun).1
  | ok result =>
    obtain ⟨other, scanned, isComplete⟩ := result
    rw [hscan] at hspec
    obtain ⟨body', hrun', hle, hend⟩ := hspec
    simp only at hrun' hle hend
    rcases hend with ⟨hdone', rfl⟩ | ⟨hdone', -, rfl⟩
    · rcases Nat.le_total count scanned with hless | hless
      · obtain ⟨rfl, rfl, -⟩ := runs_unique hrun hdone hrun' hless hle
        rfl
      · obtain ⟨rfl, rfl, -⟩ := runs_unique hrun' hdone' hrun hless hcount
        rfl
    · obtain ⟨-, rfl, -⟩ := runs_unique hrun hdone hrun' hcount le_rfl
      exact absurd hdone hdone'

theorem scan_of_all (hrun : Runs limits new bytes next body) (hdone : ¬ next.IsDone) :
    new.scan bytes limits = .ok (next, ⟨bytes.length, false⟩) := by
  have hspec := scan_spec limits bytes
  cases hscan : new.scan bytes limits with
  | error error =>
    rw [hscan] at hspec
    exact absurd rfl (Refuses.of_runs hspec (List.prefix_refl _) hrun).2
  | ok result =>
    obtain ⟨other, scanned, isComplete⟩ := result
    rw [hscan] at hspec
    obtain ⟨body', hrun', hle, hend⟩ := hspec
    simp only at hrun' hle hend
    have hall : Runs limits new (bytes.take bytes.length) next body := by
      rwa [List.take_length]
    rcases hend with ⟨hdone', rfl⟩ | ⟨hdone', rfl, rfl⟩
    · obtain ⟨-, rfl, -⟩ := runs_unique hrun' hdone' hall hle le_rfl
      exact absurd hdone' hdone
    · obtain ⟨rfl, -⟩ := Prod.mk.inj (Option.some.inj (hrun'.symm.trans hall))
      rfl

/-- A scan completes on the strings of the grammar that the limits have room for. -/
theorem scan_complete_iff {count : ℕ} :
    (∃ next, new.scan bytes limits = .ok (next, ⟨count, true⟩)) ↔
      count ≤ bytes.length ∧ ∃ body, Chunked limits (bytes.take count) body ∧
        HasRoom limits new (bytes.take count) body := by
  constructor
  · rintro ⟨next, hscan⟩
    have hspec := scan_spec limits bytes
    rw [hscan] at hspec
    obtain ⟨body, hrun, hle, hend⟩ := hspec
    rcases hend with ⟨hdone, -⟩ | ⟨-, hcomplete, -⟩
    · exact ⟨hle, body, (completes_iff 0 0).mp ⟨next, hrun, hdone⟩⟩
    · cases hcomplete
  · rintro ⟨hle, body, hchunked⟩
    obtain ⟨next, hrun, hdone⟩ := (completes_iff 0 0).mpr hchunked
    exact ⟨next, scan_of_done hrun hdone hle⟩

end Framer

namespace Session

open Framer

variable {limits : Limit} {bytes : Bytes} {session : Session}

/-- What the calls have come to is what single bytes come to. -/
structure Tracks (limits : Limit) (bytes : Bytes) (state : Session) : Prop where
  consumed_le : state.consumed ≤ bytes.length
  run : Runs limits .new (bytes.take state.consumed) state.framer state.body
  done_iff : state.framer.IsDone ↔ state.verdict = .complete
  refuses : state.verdict = .rejected → Refuses limits state.framer (bytes.drop state.consumed)

theorem tracks_new (limits : Limit) (bytes : Bytes) : new.Tracks limits bytes := by
  refine ⟨Nat.zero_le _, runs_nil _, ⟨?_, ?_⟩, ?_⟩
  · intro hdone
    exact absurd hdone (inPhase_not_done .new (.size .new))
  · intro hverdict
    cases hverdict
  · intro hverdict
    cases hverdict

theorem unread_prefix (bytes : Bytes) (available consumed : ℕ) :
    (bytes.take available).drop consumed <+: bytes.drop consumed :=
  (List.take_prefix available bytes).drop consumed

theorem silent_fragments {body : Bytes} (h : Silent fragments body) : body = [] :=
  h fun consumed bytes boundary hnone => by cases hnone

/-- A call of a pending caller: single bytes up to a part of what is unread. Unless nothing more has
arrived, or the cap holds back the data, it reads at least one byte. -/
theorem Tracks.call (h : session.Tracks limits bytes) (next : Call) :
    (session.call limits bytes next).Tracks limits bytes ∧
      session.consumed ≤ (session.call limits bytes next).consumed ∧
      (0 < next.cap → session.consumed < min next.available bytes.length →
        session.verdict = .pending →
        (session.call limits bytes next).verdict ≠ .pending ∨
          session.consumed < (session.call limits bytes next).consumed) := by
  obtain ⟨framer, consumed, body, verdict⟩ := session
  obtain ⟨hconsumed, hrun, hdone, hrefuses⟩ := h
  simp only at hconsumed hrun hdone hrefuses
  cases verdict with
  | complete => exact ⟨⟨hconsumed, hrun, hdone, hrefuses⟩, le_rfl, fun _ _ => nofun⟩
  | rejected => exact ⟨⟨hconsumed, hrun, hdone, hrefuses⟩, le_rfl, fun _ _ => nofun⟩
  | pending =>
    have hnot : ¬ framer.IsDone := fun hd => by cases hdone.mp hd
    obtain ⟨phase, wireBytes, bodyBytes⟩ := framer
    cases phase with
    | done trailers => exact absurd ⟨trailers, rfl⟩ hnot
    | active active =>
    generalize hinput : (bytes.take next.available).drop consumed = input
    obtain ⟨behind, hbehind⟩ : input <+: bytes.drop consumed := hinput ▸ unread_prefix ..
    have hlength : input.length = min next.available bytes.length - consumed := by
      rw [← hinput, List.length_drop, List.length_take]
    have hfollows : Follows limits fragments next.cap input
        ((⟨.active active, wireBytes, bodyBytes⟩ : Framer).inPhase active) 0
        (drive fragments limits next.cap input ⟨.active active, wireBytes, bodyBytes⟩ active 0) :=
      drive_follows ⟨.active active, wireBytes, bodyBytes⟩ active (Nat.zero_le _)
    have hdecode : (⟨.active active, wireBytes, bodyBytes⟩ : Framer).decode input limits next.cap =
        drive fragments limits next.cap input ⟨.active active, wireBytes, bodyBytes⟩ active 0 := rfl
    simp only [Session.call, hinput, hdecode]
    cases hdrive : drive fragments limits next.cap input ⟨.active active, wireBytes, bodyBytes⟩
      active 0 with
    | error error =>
      rw [hdrive] at hfollows
      have hinput' : Refuses limits ⟨.active active, wireBytes, bodyBytes⟩ input := hfollows
      refine ⟨⟨hconsumed, hrun, iff_of_false hnot nofun, fun _ => ?_⟩, le_rfl,
        fun _ _ _ => .inl nofun⟩
      rw [← hbehind]
      exact hinput'.extend behind
    | ok result =>
      obtain ⟨last, fragment⟩ := result
      rw [hdrive] at hfollows
      obtain ⟨read, rest, more, hread, hmore, hreturns⟩ := hfollows
      rw [List.drop_zero] at hread
      rw [Nat.zero_add] at hreturns
      have hbytes : bytes.drop consumed = read ++ (rest ++ behind) := by
        rw [← hbehind, hread, List.append_assoc]
      have hend : consumed + read.length ≤ bytes.length := by
        have hsum := congrArg List.length hbytes
        rw [List.length_drop, List.length_append] at hsum
        omega
      have hall : Runs limits .new (bytes.take (consumed + read.length)) last (body ++ more) := by
        rw [List.take_add, hbytes, List.take_left]
        exact runs_append hrun hmore
      have hall' : more = [] →
          Runs limits .new (bytes.take (consumed + read.length)) last body := by
        rintro rfl
        rwa [List.append_nil] at hall
      have hreads : consumed < min next.available bytes.length → rest = [] →
          consumed < consumed + read.length := by
        rintro hless rfl
        rw [hread, List.append_nil] at hlength
        omega
      cases hreturns with
      | pending hlast hbody hpos =>
        refine ⟨⟨hend, hall' (silent_fragments hbody), iff_of_false hlast nofun, nofun⟩,
          Nat.le_add_right _ _, fun hcap hless _ => .inr (hreads hless ?_)⟩
        rcases hpos with hpos | hpos
        · rw [hread, List.length_append] at hpos
          exact List.length_eq_zero_iff.mp (by omega)
        · omega
      | @data _ first data _ boundary hlast hbody hne hdata =>
        obtain rfl := silent_fragments hbody
        obtain rfl := Option.some.inj hdata
        refine ⟨⟨hend, hall, iff_of_false hlast nofun, nofun⟩, Nat.le_add_right _ _,
          fun hcap hless _ => .inr ?_⟩
        -- There is no data without a byte.
        have hpos : read ≠ [] := by
          rintro rfl
          obtain ⟨-, hnil⟩ := Prod.mk.inj (Option.some.inj hmore)
          exact hne hnil.symm
        have := List.length_pos_iff.mpr hpos
        simp only
        omega
      | trailer hlast hbody hpos =>
        refine ⟨⟨hend, hall' (silent_fragments hbody), iff_of_false hlast nofun, nofun⟩,
          Nat.le_add_right _ _, fun hcap hless _ => .inr (hreads hless ?_)⟩
        rw [hread, List.length_append] at hpos
        exact List.length_eq_zero_iff.mp (by omega)
      | complete hlast hbody =>
        exact ⟨⟨hend, hall' (silent_fragments hbody), iff_of_true hlast rfl, nofun⟩,
          Nat.le_add_right _ _, fun _ _ _ => .inl nofun⟩

theorem Tracks.calls (h : session.Tracks limits bytes) (more : List Call) :
    (session.calls limits bytes more).Tracks limits bytes := by
  induction more generalizing session with
  | nil => exact h
  | cons next more ih => exact ih (h.call next).1

/-! ## Inputs in segments -/

theorem call_of_ne (next : Call) (h : session.verdict ≠ .pending) :
    session.call limits bytes next = session := by
  unfold call
  split
  · next hpending => exact absurd hpending h
  · rfl

/-- There is nothing left to do for the first bytes. -/
def ReadsTo (count : ℕ) (session : Session) : Prop :=
  session.verdict ≠ .pending ∨ count ≤ session.consumed

theorem Tracks.readsTo_segment {start length : ℕ} (h : session.Tracks limits bytes)
    (hstart : session.ReadsTo start) (hlength : start + length ≤ bytes.length) {cap : ℕ → ℕ}
    (hcap : ∀ index, 0 < cap index) (count : ℕ) (hcount : count ≤ length) :
    (session.calls limits bytes
      ((List.range count).map fun index => ⟨start + length, cap index⟩)).ReadsTo
        (start + count) := by
  induction count with
  | zero => simpa [Session.calls] using hstart
  | succ count ih =>
    have hprevious := ih (by omega)
    have htracks := h.calls ((List.range count).map fun index => ⟨start + length, cap index⟩)
    rw [List.range_succ, List.map_append, Session.calls, List.foldl_append]
    simp only [List.map_cons, List.map_nil, List.foldl_cons, List.foldl_nil]
    rw [← Session.calls]
    generalize session.calls limits bytes
      ((List.range count).map fun index => ⟨start + length, cap index⟩) = middle at *
    obtain ⟨-, hle, hreads⟩ := htracks.call ⟨start + length, cap count⟩
    by_cases hpending : middle.verdict = .pending
    · have hread : start + count ≤ middle.consumed :=
        hprevious.resolve_left fun hne => hne hpending
      by_cases hmore : middle.consumed < start + length
      · have hless : middle.consumed < min (start + length) bytes.length := by omega
        exact (hreads (hcap count) hless hpending).imp_right fun hnext => by omega
      · exact .inr (by omega)
    · rw [call_of_ne _ hpending]
      exact .inl hpending

theorem Tracks.readsTo_partition {start : ℕ} {parts : List (Bytes × (ℕ → ℕ))}
    (h : session.Tracks limits bytes) (hstart : session.ReadsTo start)
    (hlength : start + (parts.map Prod.fst).flatten.length = bytes.length)
    (hcap : ∀ part ∈ parts, ∀ index, 0 < part.2 index) :
    (session.calls limits bytes (partition start parts)).ReadsTo bytes.length := by
  induction parts generalizing session start with
  | nil =>
    rw [List.map_nil, List.flatten_nil, List.length_nil, Nat.add_zero] at hlength
    rwa [hlength] at hstart
  | cons part parts ih =>
    obtain ⟨segment, cap⟩ := part
    simp only [List.map_cons, List.flatten_cons, List.length_append] at hlength
    rw [partition, Session.calls, List.foldl_append, ← Session.calls, ← Session.calls]
    have hfirst : ∀ index, 0 < cap index := hcap (segment, cap) List.mem_cons_self
    have hrest : ∀ part ∈ parts, ∀ index, 0 < part.2 index :=
      fun part hpart => hcap part (List.mem_cons_of_mem _ hpart)
    have hsegment := h.readsTo_segment hstart (by omega) hfirst segment.length le_rfl
    exact ih (h.calls _) hsegment (by omega) hrest

/-! ## The guarantees -/

/-- However an input is split into segments, and whatever the caps on the data: once the calls are
settled they have come to what one scan of the input comes to, and what they have read decides what
they have passed on. The calls for a partition are settled in the end. A scan completes on the
chunked bodies of the grammar that the limits have room for; the body is the data of the chunks, and
the counter of the framer is the sum of their sizes, of which some data may be left to read. -/
theorem splits_agree (limits : Limit) (bytes : Bytes) (given : List Call) :
    let last := new.calls limits bytes given
    (last.verdict = .rejected → ∃ error, Framer.new.scan bytes limits = .error error) ∧
      (last.verdict = .complete →
        Framer.new.scan bytes limits = .ok (last.framer, ⟨last.consumed, true⟩) ∧
          Chunked limits (bytes.take last.consumed) last.body) ∧
      (last.verdict = .pending → last.consumed = bytes.length →
        Framer.new.scan bytes limits = .ok (last.framer, ⟨bytes.length, false⟩)) ∧
      (∀ other, (new.calls limits bytes other).consumed = last.consumed →
        (new.calls limits bytes other).framer = last.framer ∧
          (new.calls limits bytes other).body = last.body) ∧
      (∀ parts : List (Bytes × (ℕ → ℕ)), (parts.map Prod.fst).flatten = bytes →
        (∀ part ∈ parts, ∀ index, 0 < part.2 index) →
        (new.calls limits bytes (partition 0 parts)).IsSettled bytes) ∧
      (∀ count, (∃ next, Framer.new.scan bytes limits = .ok (next, ⟨count, true⟩)) ↔
        count ≤ bytes.length ∧ ∃ body, Chunked limits (bytes.take count) body ∧
          Framer.new.HasRoom limits (bytes.take count) body) ∧
      last.framer.bodyBytes = last.body.length + last.framer.left := by
  intro last
  have htracks : last.Tracks limits bytes := (tracks_new limits bytes).calls given
  have hcounts := counts_new.run htracks.run
  refine ⟨fun hverdict => ?_, fun hverdict => ?_, fun hverdict hconsumed => ?_,
    fun other hconsumed => ?_, fun parts hparts hcap => ?_, fun count => scan_complete_iff, ?_⟩
  · have hrefuses := Refuses.append htracks.run (htracks.refuses hverdict)
    rw [List.take_append_drop] at hrefuses
    exact scan_of_refuses hrefuses
  · have hdone := htracks.done_iff.mpr hverdict
    exact ⟨scan_of_done htracks.run hdone htracks.consumed_le,
      ((completes_iff 0 0).mp ⟨_, htracks.run, hdone⟩).1⟩
  · have hrun := htracks.run
    rw [hconsumed, List.take_length] at hrun
    refine scan_of_all hrun fun hdone => ?_
    rw [htracks.done_iff.mp hdone] at hverdict
    cases hverdict
  · have hother := ((tracks_new limits bytes).calls other).run
    rw [hconsumed] at hother
    exact Prod.mk.inj (Option.some.inj (hother.symm.trans htracks.run))
  · have hlength : 0 + (parts.map Prod.fst).flatten.length = bytes.length := by
      rw [hparts, Nat.zero_add]
    have hreads := (tracks_new limits bytes).readsTo_partition (.inr (Nat.zero_le _)) hlength hcap
    have hle := ((tracks_new limits bytes).calls (partition 0 parts)).consumed_le
    exact hreads.imp_right fun hread => le_antisymm hle hread
  · have hbody := hcounts.body
    rwa [Nat.zero_add] at hbody

/-- A trailer section whose only field is `host`, within the limits, is refused. -/
theorem forbidden_field_refused :
    SizeLine [0x30] 0 ∧ FitsLine ⟨64, 64, 64, 64, 4⟩ [0x30] ∧ Value.Token [0x68, 0x6f, 0x73, 0x74] ∧
      ∃ error, Framer.new.scan
        -- b"0\r\nhost:\r\n\r\n"
        [0x30, 0x0d, 0x0a, 0x68, 0x6f, 0x73, 0x74, 0x3a, 0x0d, 0x0a, 0x0d, 0x0a]
        ⟨64, 64, 64, 64, 4⟩ = .error error := by
  have hdigits : ∀ byte ∈ ([0x30] : Bytes), (hex byte).isSome = true := by
    rw [List.forall_mem_singleton]
    rfl
  have hname : ∀ byte ∈ ([0x68, 0x6f, 0x73, 0x74] : Bytes), isNameByte byte = true :=
    List.all_eq_true.mp rfl
  refine ⟨⟨[0x30], [], rfl, nofun, hdigits, rfl, by decide, .nil⟩, ⟨by simp, by simp⟩,
    ⟨nofun, hname⟩, scan_of_refuses ?_⟩
  refine ⟨[0x30, 0x0d, 0x0a, 0x68, 0x6f, 0x73, 0x74], 0x3a, [0x0d, 0x0a, 0x0d, 0x0a],
    ⟨.active (.trailer ⟨4, 0, 4, [.host], .name⟩), 7, 0⟩, [], rfl, by decide +kernel, nofun,
    by decide +kernel⟩

end Session

end Sark.Http.Chunk
