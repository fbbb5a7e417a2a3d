import Sark.Http.Record
import Sark.Http.Uri.Path

/-!
# Scans of targets

A path with its query is scanned as one slice, as a span of two segments, or as a prefix that may
still grow (`http/src/uri/path.rs`). The grammar decides all three of them.

* `Scanner.run_slice`, `Scanner.span_eq`: the scanner over a slice and the one over a span.
* `Scan.walk_incomplete_iff`: the prefixes that can be continued.
* `Scan.grammar`: what is accepted by each scan, and when a prefix is to be waited for.
-/

namespace Sark.Uri

open Http.Record (Span)

/-! ## Sources -/

/-- What the scanner is given: the bytes of a source, and where the next one is that is not
plain. -/
structure Scanner where
  length : ℕ
  get : ℕ → Option UInt8
  next : ℕ → Context → Option ℕ
  lt_of_get {place : ℕ} {byte : UInt8} : get place = some byte → place < length
  le_of_next {start place : ℕ} {context : Context} : next start context = some place → start ≤ place

namespace Scanner

/-- A slice, with the lanes that `Scan::locate` looks through. -/
def slice (bytes : Bytes) : Scanner where
  length := bytes.length
  get place := bytes[place]?
  next := Scan.next bytes
  lt_of_get h := (List.getElem?_eq_some_iff.mp h).1
  le_of_next h := Scan.le_of_next h

/-- The search in the tail of a span, where `locate` answers `Progress::Tail` at once. -/
def spanNext (value : Span) (start : ℕ) (context : Context) : Option ℕ :=
  (value.slice start value.length).bind fun tail =>
    (tail.bytes.findIdx? fun byte => !Scan.isPath context byte).map (start + ·)

theorem spanNext_eq (value : Span) : spanNext value = Scan.next value.bytes := by
  funext start context
  have hslice := value.slice_bytes start value.length
  rw [Scan.next_eq, spanNext]
  rw [Span.range, Span.length_bytes] at hslice
  by_cases hstart : start ≤ value.length
  · rw [if_pos ⟨hstart, le_rfl⟩, List.take_of_length_le (by simp), Option.map_eq_some_iff] at hslice
    obtain ⟨tail, htail, hbytes⟩ := hslice
    rw [htail, Option.bind_some, hbytes]
  · rw [if_neg (fun h => hstart h.1), Option.map_eq_none_iff] at hslice
    rw [hslice, List.drop_eq_nil_of_le (by rw [Span.length_bytes]; omega)]
    rfl

/-- A span of two segments. -/
def span (value : Span) : Scanner where
  length := value.length
  get := value.get
  next := spanNext value
  lt_of_get h := by
    rw [value.get_eq] at h
    exact (List.getElem?_eq_some_iff.mp h).1.trans_eq value.length_bytes
  le_of_next h := Scan.le_of_next (spanNext_eq value ▸ h)

theorem span_eq (value : Span) : span value = slice value.bytes := by
  have hget : value.get = fun place => value.bytes[place]? := funext value.get_eq
  simp only [span, slice, Span.length_bytes, hget, spanNext_eq]

variable (self : Scanner)

/-- `path::escape`. -/
def escape (place : ℕ) : Except PathError ℕ :=
  let first := self.get (place + 1)
  let second := self.get (place + 2)
  if first.any isHexDigit && second.any isHexDigit then .ok (place + 3)
  else .error (.escape place first second)

theorem escape_eq_ok {place after : ℕ} (h : self.escape place = .ok after) : after = place + 3 := by
  rw [escape] at h
  split at h
  · exact (Except.ok.inj h).symm
  · exact absurd h (by simp)

/-- `path::run`, with the constant `PREFIX` as `front`. -/
def run (front : Bool) (state : Cursor) : Except PathError Stage :=
  match hnext : self.next state.place state.query.context with
  | none => .ok (.exhausted state)
  | some place =>
    match hbyte : self.get place with
    | none => .ok (.exhausted state)
    | some byte =>
      if byte = 0x20 ∧ front = true then .ok (.found ⟨place, state.query⟩)
      else if byte = 0x3f ∧ state.query.context = .path then
        run front ⟨place + 1, .query place⟩
      else if byte = 0x25 then
        match hescape : self.escape place with
        | .ok after => run front ⟨after, state.query⟩
        | .error (.escape broken first second) =>
          if front && second.isNone && first.all isHexDigit then .ok (.exhausted state)
          else .error (.escape broken first second)
        | .error error => .error error
      else .error (.byte place byte)
termination_by self.length - state.place
decreasing_by
  all_goals
    have hle := self.le_of_next hnext
    have hlt := self.lt_of_get hbyte
    try obtain rfl := self.escape_eq_ok hescape
    omega

/-- Over a slice, the scanner is the one of `Scan`. -/
theorem run_slice (front : Bool) (bytes : Bytes) (state : Cursor) :
    (slice bytes).run front state = Scan.run front bytes state := by
  induction hsize : bytes.length - state.place using Nat.strong_induction_on generalizing state with
  | _ size ih =>
    subst hsize
    rw [run.eq_def, Scan.run.eq_def]
    -- both sides look at the same place, and find the same there
    split
    next hnext =>
      symm
      split
      next => rfl
      next hnext' => exact absurd (hnext.symm.trans hnext') (by simp)
    next place hnext =>
      symm
      split
      next hnext' => exact absurd (hnext'.symm.trans hnext) (by simp)
      next place' hnext' =>
        obtain rfl : place' = place := Option.some.inj (hnext'.symm.trans hnext)
        have hle := Scan.le_of_next hnext'
        split
        next hbyte =>
          symm
          split
          next => rfl
          next hbyte' => exact absurd (hbyte.symm.trans hbyte') (by simp)
        next byte hbyte =>
          have hlt := (List.getElem?_eq_some_iff.mp hbyte).1
          symm
          split
          next hbyte' => exact absurd (hbyte'.symm.trans hbyte) (by simp)
          next byte' hbyte' =>
            obtain rfl : byte' = byte := Option.some.inj (hbyte'.symm.trans hbyte)
            refine if_congr Iff.rfl rfl (if_congr Iff.rfl ?_ (if_congr Iff.rfl ?_ rfl))
            · exact ih _ (by dsimp only; omega) _ rfl
            · split
              next after hescape =>
                obtain rfl := (slice bytes).escape_eq_ok hescape
                symm
                split
                next after' hescape' =>
                  obtain rfl := Except.ok.inj (hescape'.symm.trans hescape)
                  exact (ih _ (by dsimp only; omega) _ rfl).symm
                next hescape' => exact absurd (hescape'.symm.trans hescape) (by simp)
                next hescape' => exact absurd (hescape'.symm.trans hescape) (by simp)
              next broken first second hescape =>
                symm
                split
                next hescape' => exact absurd (hescape'.symm.trans hescape) (by simp)
                next hescape' =>
                  have hsame := hescape'.symm.trans hescape
                  simp only [Except.error.injEq, PathError.escape.injEq] at hsame
                  obtain ⟨rfl, rfl, rfl⟩ := hsame
                  rfl
                next hother hescape' =>
                  exact (hother _ _ _ (Except.error.inj (hescape'.symm.trans hescape))).elim
              next error hother hescape =>
                symm
                split
                next hescape' => exact absurd (hescape'.symm.trans hescape) (by simp)
                next hescape' =>
                  exact (hother _ _ _ (Except.error.inj (hescape.symm.trans hescape'))).elim
                next hescape' => exact congrArg _ (Except.error.inj (hescape'.symm.trans hescape))

end Scanner

/-- `path::complete_span`. -/
def completeSpan (value : Span) : Except PathError Plan :=
  if value.second = [] then Scan.complete value.first
  else if value.first = [] then Scan.complete value.second
  else
    match (Scanner.span value).run false ⟨0, .path⟩ with
    | .ok (.found plan) => .ok plan
    | .ok (.exhausted cursor) => .ok ⟨value.length, cursor.query⟩
    | .error error => .error error

theorem completeSpan_eq (value : Span) : completeSpan value = Scan.complete value.bytes := by
  rw [completeSpan]
  split
  next hsecond => rw [Span.bytes, hsecond, List.append_nil]
  next =>
    split
    next hfirst => rw [Span.bytes, hfirst, List.nil_append]
    next =>
      rw [Scanner.span_eq, Scanner.run_slice, ← value.length_bytes]
      rfl

/-! ## Plain bytes -/

/-- What a path is written with beside its escapes: `pchar` or a slash. -/
def isSegmentByte (byte : UInt8) : Bool :=
  isAlphabetic byte || (0x30 ≤ byte && byte ≤ 0x39) || byte ∈ ([0x2d, 0x2e, 0x5f, 0x7e, 0x21, 0x24,
    0x26, 0x27, 0x28, 0x29, 0x2a, 0x2b, 0x2c, 0x3b, 0x3d, 0x3a, 0x40, 0x2f] : Bytes)

/-- The range test covers the class, and behind the question mark there may be others. -/
theorem isPath_iff (context : Context) (byte : UInt8) : Scan.isPath context byte = true ↔
    isSegmentByte byte = true ∨ context = .query ∧ byte = 0x3f := by
  have hall : ∀ n < 256, (Scan.isPath .path (UInt8.ofNat n) = true ↔
      isSegmentByte (UInt8.ofNat n) = true) ∧ (Scan.isPath .query (UInt8.ofNat n) = true ↔
        isSegmentByte (UInt8.ofNat n) = true ∨ UInt8.ofNat n = 0x3f) := by
    decide +kernel
  obtain ⟨hpath, hquery⟩ := hall byte.toNat byte.toNat_lt
  rw [UInt8.ofNat_toNat] at hpath hquery
  cases context with
  | path => simpa using hpath
  | query => simpa using hquery

/-! ## Prefixes -/

namespace Scan

section Prefixes

variable {place : ℕ} {query : At} {text : Bytes}

theorem space_mem {stop : ℕ} {query' : At}
    (h : walk true place query text = .ok (some stop, query')) : 0x20 ∈ text := by
  induction hsize : text.length using Nat.strong_induction_on generalizing place query text with
  | _ size ih =>
    subst hsize
    rcases text with _ | ⟨byte, rest⟩
    · exact absurd h (by simp [walk])
    · cases hplain : isPath query.context byte with
      | true =>
        rw [walk_plain hplain] at h
        exact List.mem_cons_of_mem _ (ih _ (by simp) h rfl)
      | false =>
        rw [walk_special hplain] at h
        split at h
        next hspace => exact hspace.1 ▸ List.mem_cons_self
        next =>
          split at h
          next => exact List.mem_cons_of_mem _ (ih _ (by simp) h rfl)
          next =>
            split at h
            next =>
              split at h
              next =>
                refine List.mem_cons_of_mem _ (List.mem_of_mem_drop (ih _ ?_ h rfl))
                rw [List.length_cons, List.length_drop]
                omega
              next =>
                split at h
                next => exact absurd (Except.ok.inj h) (by simp)
                next => exact absurd h (by simp)
            next => exact absurd h (by simp)

/-- A prefix is to be waited for if it can be continued to a text that is accepted. -/
theorem walk_incomplete_iff : (∃ query', walk true place query text = .ok (none, query')) ↔
    ∃ more result, walk false place query (text ++ more) = .ok result := by
  induction hsize : text.length using Nat.strong_induction_on generalizing place query text with
  | _ size ih =>
    subst hsize
    rcases text with _ | ⟨byte, rest⟩
    · exact iff_of_true ⟨query, rfl⟩ ⟨[], (none, query), rfl⟩
    · cases hplain : isPath query.context byte with
      | true =>
        simp only [List.cons_append, walk_plain hplain]
        exact ih _ (by simp) rfl
      | false =>
        simp only [List.cons_append, walk_special hplain, and_true, Bool.false_eq_true, and_false,
          if_false]
        by_cases hspace : byte = 0x20
        · subst hspace
          simp
        rw [if_neg hspace]
        by_cases hmark : byte = 0x3f ∧ query.context = .path
        · simp only [if_pos hmark]
          exact ih _ (by simp) rfl
        simp only [if_neg hmark]
        by_cases hpercent : byte = 0x25
        · simp only [if_pos hpercent]
          -- an escape may have been cut in front of either digit
          rcases rest with _ | ⟨first, _ | ⟨second, rest⟩⟩
          · refine iff_of_true ⟨query, by simp⟩ ⟨[0x30, 0x30], (none, query), ?_⟩
            have hdigit : isHexDigit 0x30 = true := by decide
            simp [hdigit, walk]
          · cases hfirst : isHexDigit first with
            | true =>
              refine iff_of_true ⟨query, by simp [hfirst]⟩ ⟨[0x30], (none, query), ?_⟩
              have hdigit : isHexDigit 0x30 = true := by decide
              simp [hfirst, hdigit, walk]
            | false => simp [hfirst]
          · by_cases hdigits : isHexDigit first = true ∧ isHexDigit second = true
            · have hrest := @ih rest.length (by simp; omega) (place + 3) query rest rfl
              simpa [hdigits] using hrest
            · simp [hdigits]
        · simp [hpercent]

end Prefixes

/-! ## Scans -/

theorem prefixPlan_eq (text : Bytes) : (∀ plan, prefixPlan text = .complete plan ↔
    walk true 0 .path text = .ok (some plan.stop, plan.query)) ∧
      (prefixPlan text = .incomplete ↔ ∃ query, walk true 0 .path text = .ok (none, query)) := by
  have hrun := run_eq true text ⟨0, .path⟩
  rw [List.drop_zero] at hrun
  dsimp only at hrun
  rw [← hrun, prefixPlan]
  cases run true text ⟨0, .path⟩ with
  | error error => simp [Except.map]
  | ok stage =>
    cases stage with
    | found plan =>
      obtain ⟨stop, query⟩ := plan
      refine ⟨fun plan => ?_, by simp [Except.map, Stage.summary]⟩
      obtain ⟨stop', query'⟩ := plan
      simp [Except.map, Stage.summary]
    | exhausted cursor => simp [Except.map, Stage.summary]

theorem exists_pathQuery_iff {text : Bytes} : (∃ plan, PathQuery text plan) ↔
    ∃ result, walk false 0 .path text = .ok result := by
  simp only [← complete_iff, complete_iff_walk]
  constructor
  · rintro ⟨plan, -, hwalk⟩
    exact ⟨_, hwalk⟩
  · rintro ⟨⟨stop, query⟩, hwalk⟩
    obtain rfl : stop = none := walk_eq_none hwalk
    exact ⟨⟨text.length, query⟩, rfl, hwalk⟩

theorem prefixPlan_complete_iff {text : Bytes} {plan : Plan} : prefixPlan text = .complete plan ↔
    ∃ target rest, text = target ++ 0x20 :: rest ∧ PathQuery target plan := by
  constructor
  · intro h
    have hmem := space_mem (((prefixPlan_eq text).1 plan).mp h)
    obtain ⟨target, rest, rfl, htarget⟩ := List.eq_append_cons_of_mem hmem
    exact ⟨target, rest, rfl, complete_iff.mp ((prefixPlan_iff htarget).mp h)⟩
  · rintro ⟨target, rest, rfl, h⟩
    have htarget : 0x20 ∉ target := h.notMem (by decide) (by decide) (by decide)
    exact (prefixPlan_iff htarget).mpr (complete_iff.mpr h)

/-- The scans of a target. Plain bytes are the ones of `pchar` and the slash. A text is accepted as
a whole exactly if it is a path with a query or without one, and as a prefix exactly if such a text
is in front of a space. A prefix is waited for exactly if it can be continued to such a text. The
lanes find what the bytes one by one do, and the segments of a span make no difference. -/
theorem grammar :
    (∀ context byte, isPath context byte = true ↔
      isSegmentByte byte = true ∨ context = .query ∧ byte = 0x3f) ∧
    (∀ text plan, complete text = .ok plan ↔ PathQuery text plan) ∧
    (∀ text plan, prefixPlan text = .complete plan ↔
      ∃ target rest, text = target ++ 0x20 :: rest ∧ PathQuery target plan) ∧
    (∀ text, prefixPlan text = .incomplete ↔ ∃ more plan, PathQuery (text ++ more) plan) ∧
    (∀ front text, (run front text ⟨0, .path⟩).map Stage.summary = walk front 0 .path text) ∧
    ∀ value, completeSpan value = complete value.bytes := by
  refine ⟨isPath_iff, fun text plan => complete_iff, fun text plan => prefixPlan_complete_iff,
    fun text => ?_, fun front text => ?_, completeSpan_eq⟩
  · rw [(prefixPlan_eq text).2, walk_incomplete_iff]
    exact exists_congr fun more => exists_pathQuery_iff.symm
  · have hrun := run_eq front text ⟨0, .path⟩
    rwa [List.drop_zero] at hrun

end Scan

end Sark.Uri
