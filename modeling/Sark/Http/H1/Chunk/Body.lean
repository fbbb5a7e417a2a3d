import Sark.Http.H1.Chunk.Framer

/-!
# The grammar of chunked bodies

`Chunked limits bytes body` reads a byte string as a chunked body: chunks, the last chunk, and the
trailer section. The framer completes on the strings of the grammar that its counters have room for,
and on no others.

* `Framer.completes_iff`: that equivalence, from the beginning of every chunk.
* `Framer.Counts.run`: what the counters say in every state that a run reaches.
-/

namespace Sark.Http.Chunk

/-- A size line may be that long, its CRLF included. -/
def FitsLine (limits : Limit) (line : Bytes) : Prop :=
  line.length + 2 ≤ limits.lineBytes ∧ line.length + 2 < 2 ^ 32

/-- A chunked body, and the data of its chunks. -/
inductive Chunked (limits : Limit) : Bytes → Bytes → Prop
  | last {line trailers : Bytes} : SizeLine line 0 → FitsLine limits line →
      Section limits trailers → Chunked limits (line ++ 0x0d :: 0x0a :: trailers) []
  | chunk {line data rest body : Bytes} : SizeLine line data.length → FitsLine limits line →
      data ≠ [] → Chunked limits rest body →
      Chunked limits (line ++ 0x0d :: 0x0a :: (data ++ 0x0d :: 0x0a :: rest)) (data ++ body)

/-- The counters of a framer have room for a byte string and its data. -/
def Framer.HasRoom (limits : Limit) (self : Framer) (bytes body : Bytes) : Prop :=
  self.wireBytes + bytes.length ≤ limits.wireBytes ∧ self.wireBytes + bytes.length < 2 ^ 64 ∧
    self.bodyBytes + body.length ≤ limits.bodyBytes ∧ self.bodyBytes + body.length < 2 ^ 64

/-! ## Size lines -/

namespace Size

/-- What a stage makes of a byte depends neither on the length of the line nor on the offset. -/
theorem parse_toOption (value line : ℕ) (stage : Stage) (byte : UInt8) (offset : ℕ) :
    (parse ⟨value, line, stage⟩ byte offset).toOption =
      (parse ⟨value, 0, stage⟩ byte 0).toOption.map fun next => { next with line } := by
  cases stage <;>
    simp only [parse, digit, tail, nameStart, nameTail, valueStart, valueEnd, quoted, escape]
  case start | digits =>
    cases hex byte with
    | some digit => simp only; split_ifs <;> rfl
    | none => simp only; split_ifs <;> rfl
  all_goals split_ifs <;> rfl

theorem parse_cr (self : Size) : (self.parse 0x0d 0).toOption = none := by
  have hhex : hex 0x0d = none := by decide
  have hows : isOws 0x0d = false := by decide
  have hname : isNameByte 0x0d = false := by decide
  have htext : isQuotedText 0x0d = false := by decide
  have hpair : isQuotedPair 0x0d = false := by decide
  obtain ⟨value, line, stage⟩ := self
  cases stage <;>
    simp [parse, digit, tail, nameStart, nameTail, valueStart, valueEnd, quoted, escape, hhex, hows,
      hname, htext, hpair]

theorem lineTryAdd_eq_ok_iff {line maximum next : ℕ} : lineTryAdd line maximum = .ok next ↔
    line + 1 < 2 ^ 32 ∧ line + 1 ≤ maximum ∧ next = line + 1 := by
  unfold lineTryAdd
  split
  · simp
    omega
  split
  · simp
    omega
  · simp [eq_comm]
    omega

theorem line_of_parse {value line : ℕ} {stage : Stage} {byte : UInt8} {offset : ℕ} {next : Size}
    (h : parse ⟨value, line, stage⟩ byte offset = .ok next) :
    parse ⟨value, 0, stage⟩ byte 0 = .ok ⟨next.value, 0, next.stage⟩ ∧ next.line = line := by
  have hline := parse_toOption value line stage byte offset
  have hzero := parse_toOption value 0 stage byte 0
  rw [h, Except.toOption_ok, eq_comm, Option.map_eq_some_iff] at hline
  obtain ⟨other, hother, rfl⟩ := hline
  rw [hother, Option.map_some] at hzero
  obtain ⟨ovalue, oline, ostage⟩ := other
  obtain rfl : oline = 0 := congrArg Size.line (Option.some.inj hzero)
  exact ⟨Except.toOption_eq_some_iff.mp hother, rfl⟩

theorem parse_of_zero {value line : ℕ} {stage : Stage} {byte : UInt8} {offset : ℕ} {next : Size}
    (h : parse ⟨value, 0, stage⟩ byte 0 = .ok next) :
    parse ⟨value, line, stage⟩ byte offset = .ok { next with line } := by
  have hline := parse_toOption value line stage byte offset
  rw [h, Except.toOption_ok, Option.map_some] at hline
  exact Except.toOption_eq_some_iff.mp hline

end Size

namespace Framer

variable {limits : Limit} {start mid next : Framer} {bytes body : Bytes} {byte : UInt8}

/-- The bytes of a size line, up to its CRLF. -/
theorem runs_line (count wireBytes bodyBytes : ℕ) {value : ℕ} {stage : Stage} {line : Bytes}
    {last : Size}
    (hparse : Size.parseAll ⟨value, 0, stage⟩ line = some last)
    (hcount : count + line.length < 2 ^ 32) (hline : count + line.length ≤ limits.lineBytes)
    (hwire : wireBytes + line.length < 2 ^ 64)
    (hlimit : wireBytes + line.length ≤ limits.wireBytes) :
    Runs limits ⟨.active (.size ⟨value, count, stage⟩), wireBytes, bodyBytes⟩ line
      ⟨.active (.size ⟨last.value, count + line.length, last.stage⟩), wireBytes + line.length,
        bodyBytes⟩ [] := by
  induction line generalizing value count stage wireBytes with
  | nil =>
    obtain rfl := Option.some.inj hparse
    exact runs_nil _
  | cons byte line ih =>
    rw [List.length_cons] at hcount hline hwire hlimit
    unfold Size.parseAll at hparse
    cases hfirst : Size.parse ⟨value, 0, stage⟩ byte 0 with
    | error error => simp [hfirst] at hparse
    | ok middle =>
      simp only [hfirst] at hparse
      have hcr : byte ≠ 0x0d := by
        rintro rfl
        have hnone := Size.parse_cr ⟨value, 0, stage⟩
        rw [hfirst] at hnone
        cases hnone
      obtain ⟨mvalue, mline, mstage⟩ := middle
      obtain ⟨-, rfl⟩ := Size.line_of_parse hfirst
      have hadd : lineTryAdd count limits.lineBytes = .ok (count + 1) :=
        Size.lineTryAdd_eq_ok_iff.mpr ⟨by omega, by omega, rfl⟩
      have hscan : Size.scan ⟨value, count, stage⟩ byte wireBytes limits.lineBytes =
          .ok (⟨mvalue, count + 1, mstage⟩, .pending) := by
        simp only [Size.scan, hadd, ok_bind, if_neg hcr]
        rw [Size.parse_of_zero hfirst, ok_bind]
      have hused : wire wireBytes 1 limits = .ok (wireBytes + 1) :=
        wire_eq_ok_iff.mpr ⟨by omega, by omega, rfl⟩
      have hstep : step limits ⟨.active (.size ⟨value, count, stage⟩), wireBytes, bodyBytes⟩ byte =
          some (⟨.active (.size ⟨mvalue, count + 1, mstage⟩), wireBytes + 1, bodyBytes⟩, []) := by
        simp [step, hused, hscan]
      have hrest := ih (count + 1) (wireBytes + 1) hparse (by omega) (by omega) (by omega)
        (by omega)
      have hruns := runs_cons hstep hrest
      have hline' : count + 1 + line.length = count + (byte :: line).length := by
        rw [List.length_cons]
        omega
      have hwire' : wireBytes + 1 + line.length = wireBytes + (byte :: line).length := by
        rw [List.length_cons]
        omega
      rwa [hline', hwire'] at hruns

theorem runs_sizeLine (wireBytes : ℕ) {bodyBytes size total : ℕ} {line : Bytes} {active : Active}
    (hsize : SizeLine line size) (hline : FitsLine limits line)
    (hwire : wireBytes + line.length + 2 < 2 ^ 64)
    (hlimit : wireBytes + line.length + 2 ≤ limits.wireBytes)
    (hcheck : checkSize bodyBytes size limits = .ok (total, active)) :
    Runs limits ⟨.active (.size .new), wireBytes, bodyBytes⟩ (line ++ [0x0d, 0x0a])
      ⟨.active active, wireBytes + line.length + 2, total⟩ [] := by
  obtain ⟨last, hparse, hend, rfl⟩ := (Size.parseAll_iff 0).mpr hsize
  obtain ⟨hmax, hcount⟩ := hline
  have hread : Runs limits ⟨.active (.size .new), wireBytes, bodyBytes⟩ line
      ⟨.active (.size ⟨last.value, line.length, last.stage⟩), wireBytes + line.length,
        bodyBytes⟩ [] := by
    have hruns := @runs_line limits 0 wireBytes bodyBytes 0 .start line last hparse (by omega)
      (by omega) (by omega) (by omega)
    rwa [Nat.zero_add] at hruns
  have hcr : wire (wireBytes + line.length) 1 limits = .ok (wireBytes + line.length + 1) :=
    wire_eq_ok_iff.mpr ⟨by omega, by omega, rfl⟩
  have hlf : wire (wireBytes + line.length + 1) 1 limits = .ok (wireBytes + line.length + 2) :=
    wire_eq_ok_iff.mpr ⟨by omega, by omega, rfl⟩
  have hfirst : lineTryAdd line.length limits.lineBytes = .ok (line.length + 1) :=
    Size.lineTryAdd_eq_ok_iff.mpr ⟨by omega, by omega, rfl⟩
  have hsecond : lineTryAdd (line.length + 1) limits.lineBytes = .ok (line.length + 2) :=
    Size.lineTryAdd_eq_ok_iff.mpr ⟨by omega, by omega, rfl⟩
  have hstepCr : step limits ⟨.active (.size ⟨last.value, line.length, last.stage⟩),
      wireBytes + line.length, bodyBytes⟩ 0x0d =
        some (⟨.active (.sizeLf ⟨last.value, line.length + 1, last.stage⟩),
          wireBytes + line.length + 1, bodyBytes⟩, []) := by
    simp [step, hcr, Size.scan, hfirst, ok_bind, hend]
  have hstepLf : step limits ⟨.active (.sizeLf ⟨last.value, line.length + 1, last.stage⟩),
      wireBytes + line.length + 1, bodyBytes⟩ 0x0a =
        some (⟨.active active, wireBytes + line.length + 2, total⟩, []) := by
    simp [step, hlf, Size.finish, hsecond, ok_bind, hcheck]
  exact runs_append hread (runs_cons hstepCr (runs_cons hstepLf (runs_nil _)))

theorem cons_of_runs {active : Active} {wireBytes bodyBytes : ℕ}
    (hrun : Runs limits ⟨.active active, wireBytes, bodyBytes⟩ bytes next body)
    (hdone : next.IsDone) :
    ∃ byte rest mid first more, bytes = byte :: rest ∧
      step limits ⟨.active active, wireBytes, bodyBytes⟩ byte = some (mid, first) ∧
      Runs limits mid rest next more ∧ body = first ++ more := by
  cases bytes with
  | nil =>
    obtain ⟨rfl, -⟩ := Prod.mk.inj (Option.some.inj hrun)
    exact absurd hdone (inPhase_not_done ⟨.done 0, wireBytes, bodyBytes⟩ active)
  | cons byte rest =>
    obtain ⟨mid, first, more, hstep, hrest, rfl⟩ := Transducer.run_cons_eq_some_iff.mp hrun
    exact ⟨byte, rest, mid, first, more, rfl, hstep, hrest, rfl⟩

/-- A run that completes has read a size line first. -/
theorem sizeLine_of_runs {value count wireBytes bodyBytes : ℕ} {stage : Stage}
    (hrun : Runs limits ⟨.active (.size ⟨value, count, stage⟩), wireBytes, bodyBytes⟩ bytes next
      body) (hdone : next.IsDone) :
    ∃ line rest last total active, bytes = line ++ 0x0d :: 0x0a :: rest ∧
      Size.parseAll ⟨value, 0, stage⟩ line = some last ∧ last.stage.canEnd = true ∧
      count + line.length + 2 ≤ limits.lineBytes ∧ count + line.length + 2 < 2 ^ 32 ∧
      checkSize bodyBytes last.value limits = .ok (total, active) ∧
      Runs limits ⟨.active active, wireBytes + line.length + 2, total⟩ rest next body := by
  induction hlength : bytes.length using Nat.strong_induction_on
    generalizing bytes value count stage wireBytes body with
  | h length ih =>
  subst hlength
  obtain ⟨byte, bytes, mid, first, more, rfl, hstep, hrest, rfl⟩ := cons_of_runs hrun hdone
  simp only [step, Option.bind_eq_bind, Option.bind_eq_some_iff, Except.toOption_eq_some_iff]
    at hstep
  obtain ⟨used, hwire, ⟨size, progress⟩, hscan, hmid⟩ := hstep
  obtain ⟨-, -, rfl⟩ := wire_eq_ok_iff.mp hwire
  obtain ⟨added, hadd, hscan⟩ := Except.bind_eq_ok_iff.mp hscan
  obtain ⟨hcount, hmax, rfl⟩ := Size.lineTryAdd_eq_ok_iff.mp hadd
  simp only at hcount hmax
  split_ifs at hscan with hcr hend
  · -- The end of the line, whose line feed is next.
    obtain ⟨rfl, rfl⟩ := Prod.mk.inj (Except.ok.inj hscan)
    obtain ⟨rfl, rfl⟩ := Prod.mk.inj (Option.some.inj hmid)
    simp only [↓reduceIte] at hrest
    obtain ⟨lf, after, behind, none, data, rfl, hstepLf, hafter, rfl⟩ := cons_of_runs hrest hdone
    simp only [step, Option.bind_eq_bind, Option.bind_eq_some_iff, Except.toOption_eq_some_iff]
      at hstepLf
    obtain ⟨used, hwireLf, size, hfinish, ⟨total, active⟩, hcheck, hbehind⟩ := hstepLf
    obtain ⟨-, -, rfl⟩ := wire_eq_ok_iff.mp hwireLf
    obtain ⟨added, haddLf, hfinish⟩ := Except.bind_eq_ok_iff.mp hfinish
    obtain ⟨hcountLf, hmaxLf, rfl⟩ := Size.lineTryAdd_eq_ok_iff.mp haddLf
    split_ifs at hfinish with hlf
    obtain rfl := Except.ok.inj hfinish
    obtain ⟨rfl, rfl⟩ := Prod.mk.inj (Option.some.inj hbehind)
    exact ⟨[], after, ⟨value, 0, stage⟩, total, active, by rw [hcr, hlf]; rfl, rfl, hend, hmaxLf,
      hcountLf, hcheck, hafter⟩
  · obtain ⟨after, hparse, hscan⟩ := Except.bind_eq_ok_iff.mp hscan
    obtain ⟨rfl, rfl⟩ := Prod.mk.inj (Except.ok.inj hscan)
    obtain ⟨rfl, rfl⟩ := Prod.mk.inj (Option.some.inj hmid)
    obtain ⟨svalue, sline, sstage⟩ := after
    obtain ⟨hzero, rfl⟩ := Size.line_of_parse hparse
    obtain ⟨line, after, last, total, active, rfl, hall, hend, hmaxAll, hcountAll, hcheck, hafter⟩ :=
      ih bytes.length (by simp) hrest rfl
    simp only at hmaxAll hcountAll
    refine ⟨byte :: line, after, last, total, active, rfl, ?_, hend, ?_, ?_, hcheck, ?_⟩
    · rw [Size.parseAll_cons hzero]
      exact hall
    · rw [List.length_cons]
      omega
    · rw [List.length_cons]
      omega
    · have hused : wireBytes + (byte :: line).length + 2 = wireBytes + 1 + line.length + 2 := by
        rw [List.length_cons]
        omega
      rw [hused]
      exact hafter

/-! ## Data -/

/-- A run that completes has read the data of a chunk and its CRLF first. -/
theorem data_of_runs {left wireBytes bodyBytes : ℕ} {left_ne : left ≠ 0}
    (hrun : Runs limits ⟨.active (.data left left_ne), wireBytes, bodyBytes⟩ bytes next body)
    (hdone : next.IsDone) :
    ∃ data rest more, bytes = data ++ 0x0d :: 0x0a :: rest ∧ data.length = left ∧
      body = data ++ more ∧
      Runs limits ⟨.active (.size .new), wireBytes + left + 2, bodyBytes⟩ rest next more := by
  induction left generalizing bytes wireBytes body with
  | zero => exact absurd rfl left_ne
  | succ left ih =>
    obtain ⟨byte, bytes, mid, first, more, rfl, hstep, hrest, rfl⟩ := cons_of_runs hrun hdone
    simp only [step, Option.bind_eq_bind, Option.bind_eq_some_iff, Except.toOption_eq_some_iff]
      at hstep
    obtain ⟨used, hwire, hmid⟩ := hstep
    obtain ⟨-, -, rfl⟩ := wire_eq_ok_iff.mp hwire
    obtain ⟨rfl, rfl⟩ := Prod.mk.inj (Option.some.inj hmid)
    rw [Nat.add_sub_cancel] at hrest
    by_cases hleft : left = 0
    · -- The last byte of the data, whose CRLF is next.
      subst hleft
      obtain ⟨cr, line, atLf, none, more, rfl, hstepCr, hline, rfl⟩ := cons_of_runs hrest hdone
      simp only [afterData, ↓reduceDIte, step, Option.bind_eq_bind, Option.bind_eq_some_iff,
        Except.toOption_eq_some_iff] at hstepCr
      obtain ⟨used, hwireCr, hatLf⟩ := hstepCr
      obtain ⟨-, -, rfl⟩ := wire_eq_ok_iff.mp hwireCr
      split_ifs at hatLf with hcr
      obtain ⟨rfl, rfl⟩ := Prod.mk.inj (Option.some.inj hatLf)
      obtain ⟨lf, after, atSize, none, data, rfl, hstepLf, hafter, rfl⟩ := cons_of_runs hline hdone
      simp only [step, Option.bind_eq_bind, Option.bind_eq_some_iff, Except.toOption_eq_some_iff]
        at hstepLf
      obtain ⟨used, hwireLf, hatSize⟩ := hstepLf
      obtain ⟨-, -, rfl⟩ := wire_eq_ok_iff.mp hwireLf
      split_ifs at hatSize with hlf
      obtain ⟨rfl, rfl⟩ := Prod.mk.inj (Option.some.inj hatSize)
      exact ⟨[byte], after, data, by rw [hcr, hlf]; rfl, rfl, rfl, hafter⟩
    · rw [afterData, dif_neg hleft] at hrest
      obtain ⟨data, after, behind, rfl, hdata, rfl, hafter⟩ := ih hrest
      refine ⟨byte :: data, after, behind, rfl, by rw [List.length_cons, hdata], rfl, ?_⟩
      have hused : wireBytes + (left + 1) + 2 = wireBytes + 1 + left + 2 := by omega
      rw [hused]
      exact hafter

theorem runs_dataLine (wireBytes bodyBytes : ℕ) {data : Bytes} (hne : data ≠ [])
    (hlength : data.length ≠ 0) (hwire : wireBytes + data.length + 2 < 2 ^ 64)
    (hlimit : wireBytes + data.length + 2 ≤ limits.wireBytes) :
    Runs limits ⟨.active (.data data.length hlength), wireBytes, bodyBytes⟩
      (data ++ [0x0d, 0x0a])
      ⟨.active (.size .new), wireBytes + data.length + 2, bodyBytes⟩ data := by
  have hroom : wire wireBytes data.length limits = .ok (wireBytes + data.length) :=
    wire_eq_ok_iff.mpr ⟨by omega, by omega, rfl⟩
  have hdata := runs_data ⟨.done 0, wireBytes, bodyBytes⟩ data.length hlength hne le_rfl hroom
  rw [Nat.sub_self] at hdata
  have hcr : wire (wireBytes + data.length) 1 limits = .ok (wireBytes + data.length + 1) :=
    wire_eq_ok_iff.mpr ⟨by omega, by omega, rfl⟩
  have hlf : wire (wireBytes + data.length + 1) 1 limits = .ok (wireBytes + data.length + 2) :=
    wire_eq_ok_iff.mpr ⟨by omega, by omega, rfl⟩
  have hstepCr : step limits ⟨.active .dataCr, wireBytes + data.length, bodyBytes⟩ 0x0d =
      some (⟨.active .dataLf, wireBytes + data.length + 1, bodyBytes⟩, []) := by
    simp [step, hcr]
  have hstepLf : step limits ⟨.active .dataLf, wireBytes + data.length + 1, bodyBytes⟩ 0x0a =
      some (⟨.active (.size .new), wireBytes + data.length + 2, bodyBytes⟩, []) := by
    simp [step, hlf]
  have hruns := runs_append hdata (runs_cons hstepCr (runs_cons hstepLf (runs_nil _)))
  simp only [List.append_nil] at hruns
  exact hruns

/-! ## The trailer section -/

theorem scan_offset (limits : Limit) (state : Trailer) (byte : UInt8) (offset : ℕ) :
    (state.scan byte offset limits).toOption = (state.scan byte 0 limits).toOption := by
  obtain ⟨count, fields, nameLen, candidates, stage⟩ := state
  unfold Trailer.scan
  split
  · rfl
  split
  · rfl
  cases stage <;> simp only [Trailer.start, Trailer.name, Trailer.value, Trailer.lineLf]
  case name =>
    split_ifs
    · split <;> rfl
    · rfl
    · rfl
  all_goals split_ifs <;> rfl

theorem scan_zero {state : Trailer} {offset : ℕ} {result : ℕ ⊕ Trailer}
    (h : state.scan byte offset limits = .ok result) : state.scan byte 0 limits = .ok result := by
  have hoffset := scan_offset limits state byte offset
  rw [h, Except.toOption_ok] at hoffset
  exact Except.toOption_eq_some_iff.mp hoffset.symm

/-- A run that completes from a trailer section reads the section to its end. -/
theorem section_of_runs {state : Trailer} {wireBytes bodyBytes : ℕ}
    (hrun : Runs limits ⟨.active (.trailer state), wireBytes, bodyBytes⟩ bytes next body)
    (hdone : next.IsDone) :
    body = [] ∧ (∃ length, state.scanAll limits bytes = some length) ∧
      wireBytes + bytes.length < 2 ^ 64 ∧ wireBytes + bytes.length ≤ limits.wireBytes := by
  induction bytes generalizing state wireBytes body with
  | nil =>
    obtain ⟨byte, rest, mid, first, more, hbytes, -⟩ := cons_of_runs hrun hdone
    cases hbytes
  | cons byte bytes ih =>
    obtain ⟨mid, first, more, hstep, hrest, rfl⟩ := Transducer.run_cons_eq_some_iff.mp hrun
    simp only [step, Option.bind_eq_bind, Option.bind_eq_some_iff, Except.toOption_eq_some_iff]
      at hstep
    obtain ⟨used, hwire, result, hscan, hmid⟩ := hstep
    obtain ⟨hlt, hle, rfl⟩ := wire_eq_ok_iff.mp hwire
    have hzero := scan_zero hscan
    cases result with
    | inl length =>
      obtain ⟨rfl, rfl⟩ := Prod.mk.inj (Option.some.inj hmid)
      -- The framing is complete, so there is no byte left.
      obtain rfl := runs_of_done ⟨length, rfl⟩ hrest
      obtain ⟨-, rfl⟩ := Prod.mk.inj (Option.some.inj hrest)
      exact ⟨rfl, ⟨length, by simp [Trailer.scanAll, hzero]⟩, hlt, hle⟩
    | inr after =>
      obtain ⟨rfl, rfl⟩ := Prod.mk.inj (Option.some.inj hmid)
      obtain ⟨rfl, ⟨length, hall⟩, hroom, hlimit⟩ := ih hrest
      refine ⟨rfl, ⟨length, by simpa [Trailer.scanAll, hzero] using hall⟩, ?_, ?_⟩
      · rw [List.length_cons]
        omega
      · rw [List.length_cons]
        omega

/-- A section that is read to its end completes the framing. -/
theorem runs_section (wireBytes bodyBytes : ℕ) {state : Trailer} {length : ℕ}
    (hall : state.scanAll limits bytes = some length) (hroom : wireBytes + bytes.length < 2 ^ 64)
    (hlimit : wireBytes + bytes.length ≤ limits.wireBytes) :
    Runs limits ⟨.active (.trailer state), wireBytes, bodyBytes⟩ bytes
      ⟨.done length, wireBytes + bytes.length, bodyBytes⟩ [] := by
  induction bytes generalizing state wireBytes with
  | nil => cases hall
  | cons byte bytes ih =>
    rw [List.length_cons] at hroom hlimit ⊢
    have hused : wire wireBytes 1 limits = .ok (wireBytes + 1) :=
      wire_eq_ok_iff.mpr ⟨by omega, by omega, rfl⟩
    unfold Trailer.scanAll at hall
    cases hscan : state.scan byte 0 limits with
    | error error => simp [hscan] at hall
    | ok result =>
      have hhere : state.scan byte wireBytes limits = .ok result := by
        have hoffset := scan_offset limits state byte wireBytes
        rw [hscan, Except.toOption_ok] at hoffset
        exact Except.toOption_eq_some_iff.mp hoffset
      simp only [hscan] at hall
      cases result with
      | inl ended =>
        simp only at hall
        split_ifs at hall with hempty
        obtain rfl := List.isEmpty_iff.mp hempty
        obtain rfl := Option.some.inj hall
        have hstep : step limits ⟨.active (.trailer state), wireBytes, bodyBytes⟩ byte =
            some (⟨.done ended, wireBytes + 1, bodyBytes⟩, []) := by
          simp [step, hused, hhere]
        exact runs_cons hstep (runs_nil _)
      | inr after =>
        have hstep : step limits ⟨.active (.trailer state), wireBytes, bodyBytes⟩ byte =
            some (⟨.active (.trailer after), wireBytes + 1, bodyBytes⟩, []) := by
          simp [step, hused, hhere]
        have hrest := ih (wireBytes + 1) hall (by omega) (by omega)
        have hend : wireBytes + 1 + bytes.length = wireBytes + (bytes.length + 1) := by omega
        rw [hend] at hrest
        exact runs_cons hstep hrest

/-! ## Bodies -/

theorem checkSize_eq_ok_iff {current size total : ℕ} {active : Active} :
    checkSize current size limits = .ok (total, active) ↔
      current + size < 2 ^ 64 ∧ current + size ≤ limits.bodyBytes ∧ total = current + size ∧
        active = if h : size = 0 then .trailer .new else .data size h := by
  unfold checkSize
  split
  · simp
    omega
  split
  · simp
    omega
  next hoverflow hlimit =>
  split_ifs with hsize
  · simp only [Except.ok.injEq, Prod.mk.injEq]
    exact ⟨fun h => ⟨by omega, by omega, h.1.symm, h.2.symm⟩,
      fun h => ⟨h.2.2.1.symm, h.2.2.2.symm⟩⟩
  · simp only [Except.ok.injEq, Prod.mk.injEq]
    exact ⟨fun h => ⟨by omega, by omega, h.1.symm, h.2.symm⟩,
      fun h => ⟨h.2.2.1.symm, h.2.2.2.symm⟩⟩

/-- From the beginning of a chunk the framing completes on the strings of the grammar that the
counters have room for. -/
theorem completes_iff (wireBytes bodyBytes : ℕ) :
    (∃ next, Runs limits ⟨.active (.size .new), wireBytes, bodyBytes⟩ bytes next body ∧
        next.IsDone) ↔
      Chunked limits bytes body ∧
        HasRoom limits ⟨.active (.size .new), wireBytes, bodyBytes⟩ bytes body := by
  constructor
  · rintro ⟨next, hrun, hdone⟩
    induction hlength : bytes.length using Nat.strong_induction_on
      generalizing bytes body wireBytes bodyBytes with
    | h length ih =>
    subst hlength
    obtain ⟨line, rest, last, total, active, rfl, hparse, hend, hmax, hcount, hcheck, hrest⟩ :=
      sizeLine_of_runs hrun hdone
    rw [Nat.zero_add] at hmax hcount
    have hsize : SizeLine line last.value := (Size.parseAll_iff 0).mp ⟨last, hparse, hend, rfl⟩
    obtain ⟨htotal, hbody, rfl, rfl⟩ := checkSize_eq_ok_iff.mp hcheck
    by_cases hzero : last.value = 0
    · -- The last chunk, and the trailer section.
      rw [dif_pos hzero] at hrest
      obtain ⟨rfl, ⟨ended, hall⟩, hroom, hlimit⟩ := section_of_runs hrest hdone
      rw [hzero] at hsize htotal hbody
      refine ⟨.last hsize ⟨hmax, hcount⟩ (Trailer.scanAll_iff.mp hall).1, ?_⟩
      refine ⟨?_, ?_, hbody, htotal⟩ <;> simp only [List.length_append, List.length_cons] <;> omega
    · rw [dif_neg hzero] at hrest
      obtain ⟨data, behind, more, rfl, hdata, rfl, hmore⟩ := data_of_runs hrest hdone
      have hless : behind.length <
          (line ++ 0x0d :: 0x0a :: (data ++ 0x0d :: 0x0a :: behind)).length := by
        simp only [List.length_append, List.length_cons]
        omega
      obtain ⟨hchunked, hwire, hwire', hbytes, hbytes'⟩ := ih _ hless _ _ hmore rfl
      simp only at hwire hwire' hbytes hbytes'
      have hne : data ≠ [] := by
        rintro rfl
        exact hzero hdata.symm
      rw [← hdata] at hsize hbytes hbytes' hwire hwire'
      refine ⟨.chunk hsize ⟨hmax, hcount⟩ hne hchunked, ?_, ?_, ?_, ?_⟩ <;>
        simp only [List.length_append, List.length_cons] <;> omega
  · rintro ⟨hchunked, hroom⟩
    induction hchunked generalizing wireBytes bodyBytes with
    | @last line trailers hsize hline hsection =>
      obtain ⟨hlimit, hwire, hbody, hbody'⟩ := hroom
      simp only [List.length_append, List.length_cons] at hlimit hwire hbody hbody'
      have hcheck : checkSize bodyBytes 0 limits = .ok (bodyBytes, .trailer .new) :=
        checkSize_eq_ok_iff.mpr ⟨hbody', hbody, rfl, rfl⟩
      have hread := runs_sizeLine wireBytes hsize hline (by omega) (by omega) hcheck
      have hall := Trailer.scanAll_iff.mpr ⟨hsection, rfl⟩
      have hrest := runs_section (wireBytes + line.length + 2) bodyBytes hall (by omega) (by omega)
      have hruns := runs_append hread hrest
      rw [List.append_assoc] at hruns
      exact ⟨_, hruns, trailers.length, rfl⟩
    | @chunk line data rest body hsize hline hne hrest ih =>
      obtain ⟨hlimit, hwire, hbody, hbody'⟩ := hroom
      simp only [List.length_append, List.length_cons] at hlimit hwire hbody hbody'
      have hnonempty : data.length ≠ 0 := by
        rwa [ne_eq, List.length_eq_zero_iff]
      have hcheck : checkSize bodyBytes data.length limits =
          .ok (bodyBytes + data.length, .data data.length hnonempty) :=
        checkSize_eq_ok_iff.mpr ⟨by omega, by omega, rfl, (dif_neg hnonempty).symm⟩
      have hfirst := runs_sizeLine wireBytes hsize hline (by omega) (by omega) hcheck
      have hsecond : Runs limits _ (data ++ [0x0d, 0x0a]) _ data :=
        runs_dataLine (wireBytes + line.length + 2) (bodyBytes + data.length) hne hnonempty
          (by omega) (by omega)
      obtain ⟨next, hafter, hdone⟩ := ih (wireBytes + line.length + 2 + data.length + 2)
        (bodyBytes + data.length)
        ⟨by simp only; omega, by simp only; omega, by simp only; omega, by simp only; omega⟩
      refine ⟨next, ?_, hdone⟩
      have hruns := runs_append hfirst (runs_append hsecond hafter)
      simpa only [List.append_assoc, List.cons_append, List.nil_append] using hruns

/-! ## The counters -/

/-- The data that is left of the chunk that is being read. -/
def left (self : Framer) : ℕ :=
  match self.phase with
  | .active (.data left _) => left
  | _ => 0

/-- What the counters say behind some bytes and their data. -/
structure Counts (state : Framer) (bytes body : ℕ) : Prop where
  wire : state.wireBytes = bytes
  body : state.bodyBytes = body + state.left

theorem left_afterData (wireBytes bodyBytes amount : ℕ) :
    (⟨.active (afterData amount), wireBytes, bodyBytes⟩ : Framer).left = amount := by
  unfold afterData left
  split_ifs with h
  · exact h.symm
  · rfl

theorem Counts.step {read passed : ℕ} {first : Bytes} (h : start.Counts read passed)
    (hstep : step limits start byte = some (mid, first)) :
    mid.Counts (read + 1) (passed + first.length) := by
  obtain ⟨phase, wireBytes, bodyBytes⟩ := start
  obtain ⟨rfl, hbody⟩ := h
  cases phase with
  | done trailers => cases hstep
  | active active =>
    simp only [Framer.step, Option.bind_eq_bind, Option.bind_eq_some_iff,
      Except.toOption_eq_some_iff] at hstep
    obtain ⟨used, hwire, hstep⟩ := hstep
    obtain ⟨-, -, rfl⟩ := wire_eq_ok_iff.mp hwire
    cases active with
    | size size =>
      simp only [Option.bind_eq_some_iff, Except.toOption_eq_some_iff] at hstep
      obtain ⟨⟨next, progress⟩, -, hmid⟩ := hstep
      obtain ⟨rfl, rfl⟩ := Prod.mk.inj (Option.some.inj hmid)
      refine ⟨rfl, ?_⟩
      -- The end of the line is not the beginning of the data.
      simp only [left] at hbody ⊢
      split_ifs <;> exact hbody
    | sizeLf size =>
      simp only [Option.bind_eq_some_iff, Except.toOption_eq_some_iff] at hstep
      obtain ⟨next, -, ⟨total, active⟩, hcheck, hmid⟩ := hstep
      obtain ⟨rfl, rfl⟩ := Prod.mk.inj (Option.some.inj hmid)
      obtain ⟨-, -, rfl, rfl⟩ := checkSize_eq_ok_iff.mp hcheck
      refine ⟨rfl, ?_⟩
      simp only [left] at hbody ⊢
      split_ifs with hzero
      · simpa [hzero] using hbody
      · simp [hbody]
    | data left left_ne =>
      obtain ⟨rfl, rfl⟩ := Prod.mk.inj (Option.some.inj hstep)
      refine ⟨rfl, ?_⟩
      rw [left_afterData]
      simp only [Framer.left, List.length_singleton] at hbody ⊢
      omega
    | dataCr =>
      simp only at hstep
      split_ifs at hstep
      obtain ⟨rfl, rfl⟩ := Prod.mk.inj (Option.some.inj hstep)
      exact ⟨rfl, hbody⟩
    | dataLf =>
      simp only at hstep
      split_ifs at hstep
      obtain ⟨rfl, rfl⟩ := Prod.mk.inj (Option.some.inj hstep)
      exact ⟨rfl, hbody⟩
    | trailer state =>
      simp only [Option.bind_eq_some_iff, Except.toOption_eq_some_iff] at hstep
      obtain ⟨result, -, hmid⟩ := hstep
      cases result <;> obtain ⟨rfl, rfl⟩ := Prod.mk.inj (Option.some.inj hmid)
      all_goals exact ⟨rfl, hbody⟩

theorem Counts.run {read passed : ℕ} (h : start.Counts read passed)
    (hrun : Runs limits start bytes next body) :
    next.Counts (read + bytes.length) (passed + body.length) := by
  induction bytes generalizing start read passed body with
  | nil =>
    obtain ⟨rfl, rfl⟩ := Prod.mk.inj (Option.some.inj hrun)
    exact h
  | cons byte bytes ih =>
    obtain ⟨mid, first, more, hstep, hrest, rfl⟩ := Transducer.run_cons_eq_some_iff.mp hrun
    have hcounts := ih (h.step hstep) hrest
    rw [List.length_cons, List.length_append]
    rwa [Nat.add_assoc, Nat.add_comm 1, Nat.add_assoc] at hcounts

theorem counts_new : new.Counts 0 0 :=
  ⟨rfl, rfl⟩

end Framer

end Sark.Http.Chunk
