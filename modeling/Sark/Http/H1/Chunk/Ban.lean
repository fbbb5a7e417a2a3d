import Sark.Http.H1.Chunk.Framer

/-!
# Fields that a trailer section may not have

Whether a line of a trailer section is refused for its name (`http/src/h1/chunk/scan/state.rs`,
`http/src/h1/chunk/ban.rs`). The names that the bytes read so far may still become are carried from
one input to the next, as all of the scanner is, so that it makes no difference how the section is
cut.

* `Framer.scanTrailer_append`: the scanner over two parts.
* `Framer.line_outcome`: what a line comes to.
* `Framer.trailer_line`: the lines that are refused for their names, and those that are accepted.
-/

namespace Sark.Http.Chunk

/-- A limit or a counter was exceeded. -/
def Error.IsLimit : Error → Prop
  | .limit _ _ _ => True
  | .overflow _ _ _ => True
  | _ => False

namespace BannedField

theorem get_eq_some {name : Bytes} {field : BannedField}
    (h : get (all.filter fun field => field.spells name) name.length = some field) :
    eqIgnoreAsciiCase field.name name = true := by
  unfold get at h
  split at h
  next only hset =>
    split at h
    next hlength =>
      obtain rfl := Option.some.inj h
      have hmem : only ∈ all.filter fun field => field.spells name := by
        rw [hset]
        exact List.mem_cons_self
      have hspells := (List.mem_filter.mp hmem).2
      rw [spells, Bool.and_eq_true, ← hlength, List.take_length] at hspells
      exact hspells.2
    next => exact absurd h (by simp)
  next => exact absurd h (by simp)

end BannedField

namespace Trailer

/-- A state of a section that is read byte by byte. -/
inductive Reached (limits : Limit) : Trailer → Prop
  | new : Reached limits new
  | scan {self next : Trailer} {byte : UInt8} {offset : ℕ} (h : Reached limits self)
      (hscan : self.scan byte offset limits = .ok (.inr next)) : Reached limits next

/-- The part of `State::scan` behind the admission of a byte. -/
def turn (self : Trailer) (byte : UInt8) (offset : ℕ) (limits : Limit) :
    Except Error (ℕ ⊕ Trailer) :=
  let next := { self with bytes := self.bytes + 1 }
  match self.stage with
  | .lineStart => (next.start byte offset).map .inr
  | .name => (next.name byte offset).map .inr
  | .value => (next.value byte offset).map .inr
  | .lineLf => (next.lineLf byte offset limits).map .inr
  | .finalLf =>
    if byte ≠ 0x0a then .error (.unexpected offset .trailerEnd byte)
    else .ok (.inl (self.bytes + 1))

section Steps

variable {limits : Limit} {self next : Trailer} {byte : UInt8} {offset : ℕ}

theorem scan_eq (hcount : self.bytes + 1 < 2 ^ 32) (hlimit : self.bytes + 1 ≤ limits.trailerBytes) :
    self.scan byte offset limits = self.turn byte offset limits := by
  rw [scan, if_neg (not_le.mpr hcount), if_neg (not_lt.mpr hlimit)]
  rfl

theorem scan_eq_error (h : ¬(self.bytes + 1 < 2 ^ 32 ∧ self.bytes + 1 ≤ limits.trailerBytes)) :
    ∃ error, error.IsLimit ∧ self.scan byte offset limits = .error error := by
  rw [scan]
  split
  next => exact ⟨.overflow .trailer self.bytes 1, True.intro, rfl⟩
  next hcount =>
    rw [if_pos (by omega)]
    exact ⟨.limit .trailer (self.bytes + 1) limits.trailerBytes, True.intro, rfl⟩

theorem turn_cr (hstage : self.stage = .value) : self.turn 0x0d offset limits =
    .ok (.inr { self with bytes := self.bytes + 1, stage := .lineLf }) := by
  rw [turn, hstage]
  rfl

/-- Fields are counted among the bytes. -/
theorem Reached.fields_le (h : Reached limits self) : self.fields ≤ self.bytes := by
  induction h with
  | new => exact le_rfl
  | scan h hscan ih =>
    rename_i self next byte offset
    by_cases hadmitted : self.bytes + 1 < 2 ^ 32 ∧ self.bytes + 1 ≤ limits.trailerBytes
    · rw [scan_eq hadmitted.1 hadmitted.2, turn] at hscan
      split at hscan
      next =>
        obtain ⟨after, hafter, hnext⟩ := Except.map_eq_ok_iff.mp hscan
        obtain rfl := Sum.inr.inj hnext
        rw [start] at hafter
        split_ifs at hafter <;> obtain rfl := Except.ok.inj hafter <;> exact ih.trans (by simp)
      next =>
        obtain ⟨after, hafter, hnext⟩ := Except.map_eq_ok_iff.mp hscan
        obtain rfl := Sum.inr.inj hnext
        rw [name] at hafter
        split at hafter
        next =>
          split at hafter
          next => exact absurd hafter (by simp)
          next => obtain rfl := Except.ok.inj hafter; exact ih.trans (by simp)
        next =>
          split_ifs at hafter
          obtain rfl := Except.ok.inj hafter
          exact ih.trans (by simp)
      next =>
        obtain ⟨after, hafter, hnext⟩ := Except.map_eq_ok_iff.mp hscan
        obtain rfl := Sum.inr.inj hnext
        rw [value] at hafter
        split_ifs at hafter <;> obtain rfl := Except.ok.inj hafter <;> exact ih.trans (by simp)
      next =>
        obtain ⟨after, hafter, hnext⟩ := Except.map_eq_ok_iff.mp hscan
        obtain rfl := Sum.inr.inj hnext
        rw [lineLf] at hafter
        dsimp only at hafter
        split_ifs at hafter
        obtain rfl := Except.ok.inj hafter
        exact (Nat.mod_le _ _).trans (Nat.succ_le_succ ih)
      next => split_ifs at hscan; exact absurd (Except.ok.inj hscan) (by simp)
    · obtain ⟨error, -, herror⟩ := @scan_eq_error limits self byte offset hadmitted
      rw [herror] at hscan
      exact absurd hscan (by simp)

end Steps

end Trailer

namespace Framer

variable {limits : Limit} {state next : Trailer} {current consumed : ℕ} {byte : UInt8}
  {bytes more : Bytes}

/-! ## Parts of a section -/

/-- The scanner behind what it has come to. -/
def resume (limits : Limit) (more : Bytes) : Progress → Except Error Progress
  | .more next wire consumed => scanTrailer limits next wire consumed more
  | .complete wire consumed trailers => .ok (.complete wire consumed trailers)

theorem scanTrailer_append : scanTrailer limits state current consumed (bytes ++ more) =
    scanTrailer limits state current consumed bytes >>= resume limits more := by
  induction bytes generalizing state current consumed with
  | nil => rfl
  | cons byte bytes ih =>
    rw [List.cons_append, scanTrailer, scanTrailer]
    cases wire current 1 limits with
    | error error => rfl
    | ok used =>
      rw [ok_bind, ok_bind]
      cases state.scan byte current limits with
      | error error => rfl
      | ok progress =>
        rw [ok_bind, ok_bind]
        cases progress with
        | inl trailers => rfl
        | inr next => exact ih

/-! ## Single bytes -/

/-- There is room for some bytes. -/
def Fits (limits : Limit) (state : Trailer) (current amount : ℕ) : Prop :=
  (state.bytes + amount < 2 ^ 32 ∧ state.bytes + amount ≤ limits.trailerBytes) ∧
    current + amount < 2 ^ 64 ∧ current + amount ≤ limits.wireBytes

theorem scanTrailer_fits (h : Fits limits state current 1) :
    scanTrailer limits state current consumed (byte :: more) =
      state.turn byte current limits >>= fun progress => progress.elim
        (fun trailers => .ok (.complete (current + 1) (consumed + 1) trailers))
        fun next => scanTrailer limits next (current + 1) (consumed + 1) more := by
  obtain ⟨⟨hcount, hlimit⟩, hwire⟩ := h
  rw [scanTrailer, wire_eq_ok_iff.mpr ⟨hwire.1, hwire.2, rfl⟩, ok_bind,
    Trailer.scan_eq hcount hlimit]
  cases state.turn byte current limits with
  | error error => rfl
  | ok progress => cases progress <;> rfl

theorem scanTrailer_full (h : ¬Fits limits state current 1) : ∃ error, error.IsLimit ∧
    scanTrailer limits state current consumed (byte :: more) = .error error := by
  rw [scanTrailer]
  cases hwire : wire current 1 limits with
  | error error =>
    refine ⟨error, ?_, rfl⟩
    rw [wire] at hwire
    split_ifs at hwire
    · obtain rfl := Except.error.inj hwire
      exact True.intro
    · obtain rfl := Except.error.inj hwire
      exact True.intro
  | ok used =>
    obtain ⟨hlt, hle, -⟩ := wire_eq_ok_iff.mp hwire
    have hcount : ¬(state.bytes + 1 < 2 ^ 32 ∧ state.bytes + 1 ≤ limits.trailerBytes) :=
      fun hcount => h ⟨hcount, hlt, hle⟩
    obtain ⟨error, hlimit, hscan⟩ := Trailer.scan_eq_error hcount
    rw [ok_bind, hscan]
    exact ⟨error, hlimit, rfl⟩

theorem Fits.mono {amount less : ℕ} (h : Fits limits state current amount) (hle : less ≤ amount) :
    Fits limits state current less := by
  obtain ⟨⟨hcount, hlimit⟩, hlt, hwire⟩ := h
  exact ⟨⟨by omega, by omega⟩, by omega, by omega⟩

theorem fits_add {amount read : ℕ} (hbytes : next.bytes = state.bytes + read) :
    Fits limits next (current + read) amount ↔ Fits limits state current (read + amount) := by
  simp only [Fits, hbytes, Nat.add_assoc]

/-- Bytes that are read one after the other: the invariant is kept until there is no more room. -/
theorem run_or_limit {P : Bytes → Trailer → Prop} {ok : UInt8 → Prop}
    (hstep : ∀ read state byte current, P read state → ok byte → state.bytes + 1 < 2 ^ 32 →
      ∃ next, state.turn byte current limits = .ok (.inr next) ∧
        next.bytes = state.bytes + 1 ∧ P (read ++ [byte]) next)
    (hbytes : ∀ byte ∈ bytes, ok byte) {read : Bytes} (hstate : P read state) :
    (∃ error, error.IsLimit ∧ ¬Fits limits state current bytes.length ∧
      scanTrailer limits state current consumed (bytes ++ more) = .error error) ∨
    ∃ next, P (read ++ bytes) next ∧ next.bytes = state.bytes + bytes.length ∧
      scanTrailer limits state current consumed (bytes ++ more) =
        scanTrailer limits next (current + bytes.length) (consumed + bytes.length) more := by
  induction bytes generalizing state current consumed read with
  | nil => exact .inr ⟨state, by rwa [List.append_nil], rfl, rfl⟩
  | cons byte bytes ih =>
    obtain ⟨hbyte, hrest⟩ := List.forall_mem_cons.mp hbytes
    by_cases hfits : Fits limits state current 1
    · obtain ⟨next, hturn, hcount, hnext⟩ := hstep read state byte current hstate hbyte hfits.1.1
      have hone : scanTrailer limits state current consumed (byte :: bytes ++ more) =
          scanTrailer limits next (current + 1) (consumed + 1) (bytes ++ more) := by
        rw [List.cons_append, scanTrailer_fits hfits, hturn]
        rfl
      have hlength : (byte :: bytes).length = 1 + bytes.length := Nat.add_comm _ _
      rw [hone, hlength]
      rcases @ih next (current + 1) (consumed + 1) hrest _ hnext with
        ⟨error, hlimit, hfull, herror⟩ | ⟨last, hlast, hcount', hrun⟩
      · refine .inl ⟨error, hlimit, ?_, herror⟩
        rwa [fits_add hcount] at hfull
      · rw [List.append_assoc] at hlast
        refine .inr ⟨last, hlast, by omega, ?_⟩
        rw [hrun, Nat.add_assoc, Nat.add_assoc]
    · obtain ⟨error, hlimit, herror⟩ := scanTrailer_full hfits
      refine .inl ⟨error, hlimit, fun h => hfits (h.mono ?_), herror⟩
      rw [List.length_cons]
      omega

/-! ## Lines -/

/-- A line with a name that a section may not have. -/
def Forbids (line : Bytes) : Prop :=
  ∃ name value, ∃ field : BannedField, line = name ++ 0x3a :: value ∧ Value.Token name ∧
    eqIgnoreAsciiCase field.name name = true

theorem token_split {name value : Bytes} (h : Value.Token name) :
    (name ++ 0x3a :: value).takeWhile isNameByte = name ∧
      (name ++ 0x3a :: value).dropWhile isNameByte = 0x3a :: value := by
  have hcolon : isNameByte 0x3a = false := by decide
  rw [List.takeWhile_append_of_pos h.2, List.dropWhile_append_of_pos h.2,
    List.takeWhile_cons_of_neg (by simp [hcolon]), List.dropWhile_cons_of_neg (by simp [hcolon]),
    List.append_nil]
  exact ⟨rfl, rfl⟩

section Lines

variable {line name behind value : Bytes}

theorem token_of_takeWhile (hname : line.takeWhile isNameByte = name) (hne : name ≠ []) :
    Value.Token name :=
  ⟨hne, fun byte hmem => List.mem_takeWhile_imp (hname ▸ hmem)⟩

theorem fieldLine_iff (hname : line.takeWhile isNameByte = name)
    (hbehind : line.dropWhile isNameByte = behind) : FieldLine line ↔
      name ≠ [] ∧ ∃ value, behind = 0x3a :: value ∧
        (∀ field : BannedField, eqIgnoreAsciiCase field.name name = false) ∧
          ∀ byte ∈ value, isText byte = true := by
  constructor
  · rintro ⟨htoken, hfree, htext⟩
    obtain ⟨htake, hdrop⟩ := token_split htoken
    obtain rfl := htake.symm.trans hname
    exact ⟨htoken.1, _, hbehind.symm.trans hdrop, hfree, htext⟩
  · rintro ⟨hne, value, rfl, hfree, htext⟩
    rw [← @List.takeWhile_append_dropWhile _ isNameByte line, hname, hbehind]
    exact .mk (token_of_takeWhile hname hne) hfree htext

theorem forbids_iff (hname : line.takeWhile isNameByte = name)
    (hbehind : line.dropWhile isNameByte = behind) : Forbids line ↔
      name ≠ [] ∧ ∃ value, behind = 0x3a :: value ∧
        ∃ field : BannedField, eqIgnoreAsciiCase field.name name = true := by
  constructor
  · rintro ⟨other, value, field, rfl, htoken, hfield⟩
    obtain ⟨htake, hdrop⟩ := @token_split other value htoken
    obtain rfl := htake.symm.trans hname
    exact ⟨htoken.1, value, hbehind.symm.trans hdrop, field, hfield⟩
  · rintro ⟨hne, value, rfl, field, hfield⟩
    refine ⟨name, value, field, ?_, token_of_takeWhile hname hne, hfield⟩
    rw [← hname, ← hbehind, List.takeWhile_append_dropWhile]

theorem Forbids.not_fieldLine (h : Forbids line) : ¬FieldLine line := by
  obtain ⟨-, value, hbehind, field, hfield⟩ := (forbids_iff rfl rfl).mp h
  rw [fieldLine_iff rfl hbehind]
  rintro ⟨-, other, -, hfree, -⟩
  rw [hfree field] at hfield
  exact Bool.noConfusion hfield

/-- There is room for a line with its CRLF, and for one more field. -/
def HasRoomFor (limits : Limit) (state : Trailer) (current : ℕ) (line : Bytes) : Prop :=
  Fits limits state current (line.length + 2) ∧ state.fields + 1 ≤ limits.trailerFields

/-- What the scanner may come to on a line with its CRLF. -/
inductive LineOutcome (limits : Limit) (state : Trailer) (current : ℕ) (line : Bytes) :
    Except Error Progress → Prop
  | exhausted {error : Error} (h : error.IsLimit) (hroom : ¬HasRoomFor limits state current line) :
      LineOutcome limits state current line (.error error)
  | forbidden {offset : ℕ} {field : BannedField} (h : Forbids line) :
      LineOutcome limits state current line (.error (.forbidden offset field))
  | refused {offset : ℕ} {place : Place} {actual : UInt8} (hfree : ¬Forbids line)
      (hline : ¬FieldLine line) :
      LineOutcome limits state current line (.error (.unexpected offset place actual))
  | ended {wire consumed trailers : ℕ} (h : line = []) :
      LineOutcome limits state current line (.ok (.complete wire consumed trailers))
  | accepted {next : Trailer} {consumed : ℕ} (hfree : ¬Forbids line) (h : FieldLine line)
      (hstage : next.stage = .lineStart) (hfields : next.fields = state.fields + 1) :
      LineOutcome limits state current line
        (.ok (.more next (current + line.length + 2) consumed))

theorem LineOutcome.reads {read : ℕ} (hcount : next.bytes = state.bytes + read)
    (hread : read + 1 ≤ line.length + 2)
    (h : next.bytes + 1 < 2 ^ 32 → LineOutcome limits state current line
      (next.turn byte (current + read) limits >>= fun progress => progress.elim
        (fun trailers => .ok (.complete (current + (read + 1)) (consumed + 1) trailers))
        fun next => scanTrailer limits next (current + (read + 1)) (consumed + 1) more)) :
    LineOutcome limits state current line
      (scanTrailer limits next (current + read) consumed (byte :: more)) := by
  by_cases hfits : Fits limits next (current + read) 1
  · rw [scanTrailer_fits hfits]
    exact h hfits.1.1
  · obtain ⟨error, hlimit, herror⟩ := @scanTrailer_full limits next _ consumed byte more hfits
    rw [herror]
    rw [fits_add hcount] at hfits
    exact .exhausted hlimit fun hroom => hfits (hroom.1.mono hread)

theorem LineOutcome.lineFeed {read : ℕ} (hcount : next.bytes = state.bytes + read)
    (hread : read + 1 = line.length + 2) (hstage : next.stage = .lineLf)
    (hfields : next.fields = state.fields) (hle : state.fields ≤ state.bytes)
    (hfree : ¬Forbids line) (hline : FieldLine line) :
    LineOutcome limits state current line
      (scanTrailer limits next (current + read) consumed [0x0a]) := by
  refine LineOutcome.reads hcount hread.le fun hroom => ?_
  have hmod : (next.fields + 1) % 2 ^ 32 = state.fields + 1 := by
    rw [hfields, Nat.mod_eq_of_lt (by omega)]
  rw [Trailer.turn, hstage]
  simp only [Trailer.lineLf, ne_eq, not_true_eq_false, if_false, hmod]
  split
  next hfull =>
    have hlimit : (Error.limit .fields (state.fields + 1) limits.trailerFields).IsLimit :=
      True.intro
    exact .exhausted hlimit fun hroom => not_le.mpr hfull hroom.2
  next =>
    have hwire : current + (read + 1) = current + line.length + 2 := by omega
    rw [hwire]
    exact .accepted hfree hline rfl rfl

/-- What is behind the colon of a line. -/
theorem LineOutcome.valueText {read : ℕ} (hcount : next.bytes = state.bytes + read)
    (hread : read + value.length = line.length) (hstage : next.stage = .value)
    (hfields : next.fields = state.fields) (hle : state.fields ≤ state.bytes)
    (hfree : ¬Forbids line) (hline : FieldLine line ↔ ∀ byte ∈ value, isText byte = true)
    (hlf : 0x0a ∉ value) :
    LineOutcome limits state current line
      (scanTrailer limits next (current + read) consumed (value ++ [0x0d, 0x0a])) := by
  have hsplit := @List.takeWhile_append_dropWhile _ isText value
  have htext : ∀ byte ∈ value.takeWhile isText, isText byte = true :=
    fun byte hmem => List.mem_takeWhile_imp hmem
  have hhead := List.head?_dropWhile_not isText value
  generalize value.takeWhile isText = text at hsplit htext
  generalize value.dropWhile isText = behind at hsplit hhead
  subst hsplit
  rw [List.length_append] at hread
  rw [List.append_assoc]
  have hkeep : ∀ (_ : Bytes) (other : Trailer) (byte : UInt8) (current : ℕ),
      other.stage = .value ∧ other.fields = state.fields → isText byte = true →
        other.bytes + 1 < 2 ^ 32 → ∃ after, other.turn byte current limits = .ok (.inr after) ∧
          after.bytes = other.bytes + 1 ∧ after.stage = .value ∧ after.fields = state.fields := by
    rintro - other byte current ⟨hother, hotherFields⟩ hbyte -
    have hcr : byte ≠ 0x0d := by
      rintro rfl
      exact absurd hbyte (by decide)
    refine ⟨{ other with bytes := other.bytes + 1 }, ?_, rfl, hother, hotherFields⟩
    rw [Trailer.turn, hother]
    simp only [Trailer.value, if_neg hcr, hbyte, if_true]
    rfl
  -- the text is read as long as there is room
  rcases @run_or_limit limits next (current + read) consumed text (behind ++ [0x0d, 0x0a])
      (fun _ other => other.stage = .value ∧ other.fields = state.fields)
      (fun byte => isText byte = true) hkeep htext [] ⟨hstage, hfields⟩ with
    ⟨error, hlimit, hfull, herror⟩ | ⟨last, ⟨hlast, hlastFields⟩, hlastCount, hrun⟩
  · rw [herror]
    rw [fits_add hcount] at hfull
    exact .exhausted hlimit fun hroom => hfull (hroom.1.mono (by omega))
  · rw [hrun, Nat.add_assoc]
    have hcount' : last.bytes = state.bytes + (read + text.length) := by omega
    rcases behind with _ | ⟨byte, behind⟩
    · -- the line ends here
      have hline' : FieldLine line := hline.mpr (by rwa [List.append_nil])
      rw [List.length_nil] at hread
      refine LineOutcome.reads hcount' (by omega) fun hroom => ?_
      rw [Trailer.turn_cr hlast]
      exact LineOutcome.lineFeed (congrArg (· + 1) hcount') (by omega) rfl hlastFields hle hfree
        hline'
    · have hbyte : isText byte = false := by simpa using hhead
      have hline' : ¬FieldLine line := by
        rw [hline]
        intro hall
        rw [hall byte (by simp)] at hbyte
        exact Bool.noConfusion hbyte
      rw [List.length_cons] at hread
      refine LineOutcome.reads hcount' (by omega) fun hroom => ?_
      by_cases hcr : byte = 0x0d
      · -- no line feed is behind it
        subst hcr
        have hmore : ∃ other rest, behind ++ [0x0d, 0x0a] = other :: rest ∧ other ≠ 0x0a := by
          rcases behind with _ | ⟨other, behind⟩
          · exact ⟨0x0d, [0x0a], rfl, by decide⟩
          · refine ⟨other, behind ++ [0x0d, 0x0a], rfl, ?_⟩
            rintro rfl
            exact hlf (by simp)
        obtain ⟨other, rest, hmore, hother⟩ := hmore
        rw [Trailer.turn_cr hlast]
        change LineOutcome limits state current line (scanTrailer limits
          { last with bytes := last.bytes + 1, stage := .lineLf } _ _ (behind ++ [0x0d, 0x0a]))
        rw [hmore]
        refine LineOutcome.reads (congrArg (· + 1) hcount') (by omega) fun hroom => ?_
        simp only [Trailer.turn, Trailer.lineLf, if_pos hother]
        exact .refused hfree hline'
      · simp only [Trailer.turn, hlast, Trailer.value, if_neg hcr, hbyte, Bool.false_eq_true,
          if_false]
        exact .refused hfree hline'

/-- What is behind the name of a line. -/
theorem LineOutcome.behindName {read : ℕ} (hcount : next.bytes = state.bytes + read)
    (hread : read + behind.length = line.length) (hstage : next.stage = .name)
    (hnamed : next.Named name) (hfields : next.fields = state.fields)
    (hle : state.fields ≤ state.bytes) (hname : line.takeWhile isNameByte = name)
    (hbehind : line.dropWhile isNameByte = behind) (hlf : 0x0a ∉ line) :
    LineOutcome limits state current line
      (scanTrailer limits next (current + read) consumed (behind ++ [0x0d, 0x0a])) := by
  have hforbids := forbids_iff hname hbehind
  have hfieldLine := fieldLine_iff hname hbehind
  have hhead := List.head?_dropWhile_not isNameByte line
  rw [hbehind] at hhead
  rcases behind with _ | ⟨byte, value⟩
  · -- there is no colon
    rw [List.length_nil] at hread
    refine LineOutcome.reads hcount (by omega) fun hroom => ?_
    have hcr : isNameByte 0x0d = false := by decide
    simp only [Trailer.turn, hstage, Trailer.name, hcr]
    exact .refused (by rw [hforbids]; simp) (by rw [hfieldLine]; simp)
  have hbyte : isNameByte byte = false := by simpa using hhead
  rw [List.length_cons] at hread
  refine LineOutcome.reads hcount (by omega) fun hroom => ?_
  by_cases hcolon : byte = 0x3a
  · subst hcolon
    cases hget : BannedField.get next.candidates next.nameLen with
    | some field =>
      simp only [Trailer.turn, hstage, Trailer.name, if_pos, hget]
      refine .forbidden (hforbids.mpr ⟨hnamed.token.1, value, rfl, field, ?_⟩)
      rw [hnamed.candidates, hnamed.nameLen] at hget
      exact BannedField.get_eq_some hget
    | none =>
      have hfree := hnamed.get_iff.mp hget
      have hturn : next.turn 0x3a (current + read) limits =
          .ok (.inr { next with bytes := next.bytes + 1, stage := .value }) := by
        simp only [Trailer.turn, hstage, Trailer.name, if_pos, hget]
        rfl
      rw [hturn]
      refine LineOutcome.valueText (congrArg (· + 1) hcount) (by omega) rfl hfields hle ?_ ?_ ?_
      · rw [hforbids]
        rintro ⟨-, other, -, field, hfield⟩
        rw [hfree field] at hfield
        exact Bool.noConfusion hfield
      · rw [hfieldLine]
        constructor
        · rintro ⟨-, other, hother, -, htext⟩
          obtain ⟨-, rfl⟩ := List.cons.inj hother
          exact htext
        · exact fun htext => ⟨hnamed.token.1, value, rfl, hfree, htext⟩
      · intro hmem
        refine hlf ?_
        rw [← @List.takeWhile_append_dropWhile _ isNameByte line, hbehind]
        exact List.mem_append_right _ (List.mem_cons_of_mem _ hmem)
  · simp only [Trailer.turn, hstage, Trailer.name, if_neg hcolon, hbyte]
    refine .refused ?_ ?_
    · rw [hforbids]
      rintro ⟨-, other, hother, -⟩
      exact hcolon (List.cons.inj hother).1
    · rw [hfieldLine]
      rintro ⟨-, other, hother, -⟩
      exact hcolon (List.cons.inj hother).1

theorem keeps_name {fields : ℕ} (read : Bytes) (other : Trailer) (byte : UInt8) (current : ℕ)
    (h : other.stage = .name ∧ other.Named read ∧ other.fields = fields)
    (hbyte : isNameByte byte = true) (hroom : other.bytes + 1 < 2 ^ 32) :
    ∃ after, other.turn byte current limits = .ok (.inr after) ∧ after.bytes = other.bytes + 1 ∧
      after.stage = .name ∧ after.Named (read ++ [byte]) ∧ after.fields = fields := by
  obtain ⟨hstage, hnamed, hfields⟩ := h
  have hcolon : byte ≠ 0x3a := by
    rintro rfl
    exact absurd hbyte (by decide)
  refine ⟨{ other with
    bytes := other.bytes + 1, nameLen := (other.nameLen + 1) % 2 ^ 32
    candidates := Trailer.matching other.candidates other.nameLen byte }, ?_, rfl, hstage,
    hnamed.extend hbyte hroom rfl, hfields⟩
  simp only [Trailer.turn, hstage, Trailer.name, if_neg hcolon, hbyte, if_true]
  rfl

/-- What the scanner comes to on a line with its CRLF. -/
theorem line_outcome (hstage : state.stage = .lineStart) (hle : state.fields ≤ state.bytes)
    (hlf : 0x0a ∉ line) : LineOutcome limits state current line
      (scanTrailer limits state current consumed (line ++ [0x0d, 0x0a])) := by
  have hempty : line.takeWhile isNameByte = [] → ¬Forbids line ∧ ¬FieldLine line := by
    intro hname
    rw [forbids_iff hname rfl, fieldLine_iff hname rfl]
    exact ⟨fun h => h.1 rfl, fun h => h.1 rfl⟩
  rcases line with _ | ⟨first, rest⟩
  · -- the empty line ends the section
    refine @LineOutcome.reads limits state state current consumed 0x0d [0x0a] [] 0 rfl (by simp)
      fun hroom => ?_
    have hturn : state.turn 0x0d (current + 0) limits =
        .ok (.inr { state with bytes := state.bytes + 1, stage := .finalLf }) := by
      rw [Trailer.turn, hstage]
      rfl
    rw [hturn]
    exact LineOutcome.reads rfl (by simp) fun hroom => .ended rfl
  refine @LineOutcome.reads limits state state current consumed first (rest ++ [0x0d, 0x0a])
    (first :: rest) 0 rfl (by simp) fun hroom => ?_
  by_cases hcr : first = 0x0d
  · subst hcr
    obtain ⟨hfree, hline⟩ := hempty (by
      rw [List.takeWhile_cons_of_neg (by decide)])
    have hturn : state.turn 0x0d (current + 0) limits =
        .ok (.inr { state with bytes := state.bytes + 1, stage := .finalLf }) := by
      rw [Trailer.turn, hstage]
      rfl
    have hmore : ∃ other more, rest ++ [0x0d, 0x0a] = other :: more ∧ other ≠ 0x0a := by
      rcases rest with _ | ⟨other, rest⟩
      · exact ⟨0x0d, [0x0a], rfl, by decide⟩
      · refine ⟨other, rest ++ [0x0d, 0x0a], rfl, ?_⟩
        rintro rfl
        exact hlf (by simp)
    obtain ⟨other, more, hmore, hother⟩ := hmore
    rw [hturn]
    change LineOutcome limits state current (0x0d :: rest) (scanTrailer limits
      { state with bytes := state.bytes + 1, stage := .finalLf } _ _ (rest ++ [0x0d, 0x0a]))
    rw [hmore]
    refine LineOutcome.reads rfl (by simp) fun hroom => ?_
    simp only [Trailer.turn, if_pos hother]
    exact .refused hfree hline
  by_cases hfirst : isNameByte first = true
  · have hturn : state.turn first (current + 0) limits = .ok (.inr { state with
        bytes := state.bytes + 1, nameLen := 1
        candidates := Trailer.matching BannedField.all 0 first, stage := .name }) := by
      simp only [Trailer.turn, hstage, Trailer.start, if_neg hcr, hfirst, if_true]
      rfl
    have hnamed : ({ state with
        bytes := state.bytes + 1, nameLen := 1
        candidates := Trailer.matching BannedField.all 0 first, stage := .name } : Trailer).Named
          [first] := Trailer.named_first hfirst rfl rfl (Nat.le_add_left _ _)
    have hmore : ∀ byte ∈ rest.takeWhile isNameByte, isNameByte byte = true :=
      fun byte hmem => List.mem_takeWhile_imp hmem
    have hname : (first :: rest).takeWhile isNameByte = [first] ++ rest.takeWhile isNameByte :=
      List.takeWhile_cons_of_pos hfirst
    have hbehind : (first :: rest).dropWhile isNameByte = rest.dropWhile isNameByte :=
      List.dropWhile_cons_of_pos hfirst
    have hlength : (rest.takeWhile isNameByte).length + (rest.dropWhile isNameByte).length =
        rest.length := by
      rw [← List.length_append, List.takeWhile_append_dropWhile]
    rw [hturn]
    change LineOutcome limits state current (first :: rest) (scanTrailer limits _ (current + 1)
      (consumed + 1) (rest ++ [0x0d, 0x0a]))
    conv in rest ++ [0x0d, 0x0a] =>
      rw [← @List.takeWhile_append_dropWhile _ isNameByte rest, List.append_assoc]
    -- the name is read as long as there is room
    rcases @run_or_limit limits _ (current + 1) (consumed + 1) (rest.takeWhile isNameByte)
        (rest.dropWhile isNameByte ++ [0x0d, 0x0a])
        (fun read other => other.stage = .name ∧ other.Named read ∧ other.fields = state.fields)
        (fun byte => isNameByte byte = true) keeps_name hmore [first] ⟨rfl, hnamed, rfl⟩ with
      ⟨error, hlimit, hfull, herror⟩ | ⟨last, ⟨hlast, hlastNamed, hlastFields⟩, hlastCount, hrun⟩
    · rw [herror]
      rw [fits_add rfl] at hfull
      refine .exhausted hlimit fun hroom => hfull (hroom.1.mono ?_)
      rw [List.length_cons]
      omega
    · rw [hrun, Nat.add_assoc]
      refine LineOutcome.behindName ?_ ?_ hlast hlastNamed hlastFields hle hname hbehind hlf
      · simp only at hlastCount
        omega
      · rw [List.length_cons]
        omega
  · obtain ⟨hfree, hline⟩ := hempty (List.takeWhile_cons_of_neg hfirst)
    simp only [Trailer.turn, hstage, Trailer.start, if_neg hcr, if_neg hfirst]
    exact .refused hfree hline

end Lines

/-! ## Sections in parts -/

/-- Scans of a section as its parts arrive. -/
def scanParts (limits : Limit) (self : Framer) : List Bytes → Except Error Framer
  | [] => .ok self
  | part :: parts => do
    let scanned ← self.scan part limits
    scanParts limits scanned.1 parts

/-- The framer behind what the scanner of the section has come to. -/
def behind (self : Framer) : Progress → Framer
  | .more next wire _ => { self with wireBytes := wire, phase := .active (.trailer next) }
  | .complete wire _ trailers => { self with wireBytes := wire, phase := .done trailers }

section Parts

variable {self : Framer} {parts : List Bytes}

theorem scan_trailer (hphase : self.phase = .active (.trailer state)) (part : Bytes) :
    (self.scan part limits).map Prod.fst =
      (scanTrailer limits state self.wireBytes 0 part).map self.behind := by
  obtain ⟨phase, wireBytes, bodyBytes⟩ := self
  obtain rfl : phase = .active (.trailer state) := hphase
  rcases part with _ | ⟨byte, part⟩
  · rw [scan, prepare]
    dsimp only
    rw [drive]
    rfl
  · rw [scan, prepare]
    dsimp only
    rw [drive]
    simp only [List.drop_zero]
    cases scanTrailer limits state wireBytes 0 (byte :: part) with
    | error error => rfl
    | ok progress => cases progress <;> rfl

theorem scanParts_done {trailers : ℕ} (hphase : self.phase = .done trailers) :
    scanParts limits self parts = .ok self := by
  induction parts with
  | nil => rfl
  | cons part parts ih =>
    rw [scanParts, scan, prepare, hphase]
    exact ih

theorem scanTrailer_consumed (consumed' : ℕ) :
    (scanTrailer limits state current consumed bytes).map self.behind =
      (scanTrailer limits state current consumed' bytes).map self.behind := by
  induction bytes generalizing state current consumed consumed' with
  | nil => rfl
  | cons byte bytes ih =>
    rw [scanTrailer, scanTrailer]
    cases wire current 1 limits with
    | error error => rfl
    | ok used =>
      rw [ok_bind, ok_bind]
      cases state.scan byte current limits with
      | error error => rfl
      | ok progress =>
        rw [ok_bind, ok_bind]
        cases progress with
        | inl trailers => rfl
        | inr next => exact ih _

theorem scanParts_eq (hphase : self.phase = .active (.trailer state)) :
    scanParts limits self parts =
      (scanTrailer limits state self.wireBytes 0 parts.flatten).map self.behind := by
  induction parts generalizing self state with
  | nil =>
    obtain ⟨phase, wireBytes, bodyBytes⟩ := self
    obtain rfl : phase = .active (.trailer state) := hphase
    rfl
  | cons part parts ih =>
    have hscan := @scan_trailer limits state self hphase part
    rw [scanParts, List.flatten_cons, scanTrailer_append]
    cases hfirst : scanTrailer limits state self.wireBytes 0 part with
    | error error =>
      rw [hfirst] at hscan
      cases hresult : self.scan part limits with
      | error other =>
        rw [hresult] at hscan
        obtain rfl : other = error := Except.error.inj hscan
        rfl
      | ok result =>
        rw [hresult] at hscan
        exact absurd hscan (by simp [Except.map])
    | ok progress =>
      rw [hfirst] at hscan
      obtain ⟨result, hresult, hnext⟩ := Except.map_eq_ok_iff.mp hscan
      rw [hresult, ok_bind, ok_bind, hnext]
      cases progress with
      | more next wire consumed =>
        rw [ih rfl]
        exact scanTrailer_consumed consumed
      | complete wire consumed trailers => exact scanParts_done rfl

end Parts

/-- A trailer section is scanned in whatever parts it arrives. A line of it is refused for its name
exactly if this is the name of a banned field up to the case of letters, and it is accepted exactly
if it is a field line with another name. Only the limits may come first, and they do not where there
is room for the line. -/
theorem trailer_line (limits : Limit) :
    (∀ (self : Framer) state parts parts', self.phase = .active (.trailer state) →
      parts.flatten = parts'.flatten →
        scanParts limits self parts = scanParts limits self parts') ∧
    ∀ (self : Framer) state line parts, self.phase = .active (.trailer state) →
      Trailer.Reached limits state → state.stage = .lineStart → 0x0a ∉ line →
      parts.flatten = line ++ [0x0d, 0x0a] →
        (∃ error, error.IsLimit ∧ ¬HasRoomFor limits state self.wireBytes line ∧
          scanParts limits self parts = .error error) ∨
        ((∃ offset field, scanParts limits self parts = .error (.forbidden offset field)) ↔
          Forbids line) ∧
        ((∃ next, scanParts limits self parts =
            .ok { self with
              wireBytes := self.wireBytes + line.length + 2, phase := .active (.trailer next) } ∧
            next.stage = .lineStart ∧ next.fields = state.fields + 1) ↔ FieldLine line) := by
  constructor
  · intro self state parts parts' hphase hparts
    rw [scanParts_eq hphase, scanParts_eq hphase, hparts]
  · intro self state line parts hphase hreached hstage hlf hparts
    have houtcome := @line_outcome limits state self.wireBytes 0 line hstage hreached.fields_le hlf
    rw [scanParts_eq hphase, hparts]
    generalize scanTrailer limits state self.wireBytes 0 (line ++ [0x0d, 0x0a]) = result at houtcome
    cases houtcome with
    | exhausted hlimit hroom => exact .inl ⟨_, hlimit, hroom, rfl⟩
    | forbidden h =>
      refine .inr ⟨iff_of_true ⟨_, _, rfl⟩ h, iff_of_false ?_ h.not_fieldLine⟩
      rintro ⟨next, hnext, -⟩
      exact absurd hnext (by simp [Except.map])
    | refused hfree hline =>
      refine .inr ⟨iff_of_false ?_ hfree, iff_of_false ?_ hline⟩
      · rintro ⟨offset, field, h⟩
        exact absurd h (by simp [Except.map])
      · rintro ⟨next, hnext, -⟩
        exact absurd hnext (by simp [Except.map])
    | ended h =>
      subst h
      refine .inr ⟨iff_of_false ?_ ?_, iff_of_false ?_ ?_⟩
      · rintro ⟨offset, field, h⟩
        exact absurd h (by simp [Except.map])
      · rw [forbids_iff rfl rfl]
        exact fun h => h.1 rfl
      · rintro ⟨next, hnext, -⟩
        exact absurd hnext (by simp [Except.map, behind])
      · rw [fieldLine_iff rfl rfl]
        exact fun h => h.1 rfl
    | accepted hfree h hnext hfields =>
      refine .inr ⟨iff_of_false ?_ hfree, iff_of_true ⟨_, rfl, hnext, hfields⟩ h⟩
      rintro ⟨offset, field, h⟩
      exact absurd h (by simp [Except.map])

/-- `Host:` in three parts, and `hosts:`. -/
theorem trailer_line_host :
    (∃ offset field, scanParts ⟨64, 64, 64, 64, 4⟩ ⟨.active (.trailer .new), 3, 0⟩
      [[0x48, 0x6f], [], [0x73, 0x74, 0x3a, 0x0d], [0x0a]] = .error (.forbidden offset field)) ∧
    ∃ next, scanParts ⟨64, 64, 64, 64, 4⟩ ⟨.active (.trailer .new), 3, 0⟩
      [[0x68, 0x6f, 0x73], [0x74, 0x73, 0x3a, 0x0d, 0x0a]] =
        .ok ⟨.active (.trailer next), 3 + 6 + 2, 0⟩ := by
  obtain ⟨-, hlines⟩ := trailer_line ⟨64, 64, 64, 64, 4⟩
  constructor
  · rcases hlines ⟨.active (.trailer .new), 3, 0⟩ .new [0x48, 0x6f, 0x73, 0x74, 0x3a]
        [[0x48, 0x6f], [], [0x73, 0x74, 0x3a, 0x0d], [0x0a]] rfl .new rfl (by decide) rfl with
      ⟨error, -, hroom, -⟩ | ⟨hforbids, -⟩
    · exact absurd ⟨⟨by decide, by decide⟩, by decide⟩ hroom
    · exact hforbids.mpr ⟨[0x48, 0x6f, 0x73, 0x74], [], .host, rfl, ⟨by decide, by decide +kernel⟩, rfl⟩
  · rcases hlines ⟨.active (.trailer .new), 3, 0⟩ .new [0x68, 0x6f, 0x73, 0x74, 0x73, 0x3a]
        [[0x68, 0x6f, 0x73], [0x74, 0x73, 0x3a, 0x0d, 0x0a]] rfl .new rfl (by decide) rfl with
      ⟨error, -, hroom, -⟩ | ⟨-, haccepts⟩
    · exact absurd ⟨⟨by decide, by decide⟩, by decide⟩ hroom
    · have hline : FieldLine [0x68, 0x6f, 0x73, 0x74, 0x73, 0x3a] :=
        @FieldLine.mk [0x68, 0x6f, 0x73, 0x74, 0x73] [] ⟨by decide, by decide +kernel⟩
          (fun field => by cases field <;> rfl) (by simp)
      obtain ⟨next, hnext, -⟩ := haccepts.mpr hline
      exact ⟨next, hnext⟩

end Framer

end Sark.Http.Chunk
