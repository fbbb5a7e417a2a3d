import Sark.Json.Grammar

/-!
# Contiguous input

`json/src/input.rs` reads values from a byte slice at an index. Strings and containers are read by
loops that skip a run of bytes and then step over one; a `Limit` bounds how far an inline value may
reach. This module models the loops as the source has them and relates them to the grammar.

* `stringWith_eq`: the string loop is the byte-by-byte scan.
* `groupLoop_eq`: the container loop is the byte-by-byte run of the tracker.
* `skipDepth_eq_ok_iff_grammar`: skipping a value succeeds exactly on the values of the grammar.
-/

namespace Sark.Json

/-- A bound on the bytes of one inline value. -/
structure Limit where
  start : ℕ
  capacity : ℕ
  overhead : ℕ
  deriving DecidableEq, Repr

/-- `Limit::check`. -/
def Limit.check (self : Limit) (stop : ℕ) : Except Error Unit :=
  if self.capacity < stop - self.start - self.overhead then .error .token else .ok ()

/-- `Limit::scan_end`: one byte more than the limit admits is looked at. -/
def Limit.scanEnd (self : Limit) (length : ℕ) : ℕ :=
  min length (self.start + (self.capacity + self.overhead + 1))

/-- `check_limit`. -/
def checkLimit : Option Limit → ℕ → Except Error Unit
  | some limit, stop => limit.check stop
  | none, _ => .ok ()

/-- `limit.map_or(input.len(), |limit| limit.scan_end(input.len()))`. -/
def scanEnd : Option Limit → ℕ → ℕ
  | some limit, length => limit.scanEnd length
  | none, length => length

/-- `input.get_unchecked(next..scan_end)`. -/
def window (input : Bytes) (limit : Option Limit) (next : ℕ) : Bytes :=
  (input.take (scanEnd limit input.length)).drop next

/-- `ws_at`. -/
def wsAt (input : Bytes) (index : ℕ) : ℕ :=
  if h : index < input.length then
    if isWhitespace input[index] then wsAt input (index + 1) else index
  else index
termination_by input.length - index

/-- `byte_at`. -/
def byteAt (input : Bytes) (index : ℕ) (want : UInt8) : Option ℕ :=
  if input[index]? = some want then some (index + 1) else none

/-- A string between its quotes. -/
structure StringSpan where
  content : Bytes
  start : ℕ
  stop : ℕ
  escaped : Bool
  decodedLen : ℕ
  deriving DecidableEq, Repr

/-- The span of a string whose closing quote is at `stop`. -/
def StringSpan.new (input : Bytes) (start stop removed : ℕ) : StringSpan where
  content := (input.take stop).drop start
  start := start
  stop := stop
  escaped := removed ≠ 0
  decodedLen := stop - start - removed

/-- The loop of `string_with`. -/
def stringLoop (input : Bytes) (limit : Option Limit) (start : ℕ) (string : StringScan)
    (next : ℕ) : Except Error (StringSpan × ℕ) :=
  if next < input.length then
    let stop := next + (string.skip (window input limit next)).length
    match checkLimit limit stop with
    | .error error => .error error
    | .ok () =>
      match input[stop]? with
      | none => .error .invalid
      | some byte =>
        match string.step byte with
        | .error error => .error error
        | .ok step =>
          match checkLimit limit (stop + 1) with
          | .error error => .error error
          | .ok () =>
            match step with
            | none => .ok (.new input start stop string.removed, stop + 1)
            | some (string, _) => stringLoop input limit start string (stop + 1)
  else .error .invalid
termination_by input.length - next

/-- `string_with`. -/
def stringWith (input : Bytes) (index : ℕ) (limit : Option Limit) :
    Except Error (StringSpan × ℕ) :=
  match byteAt input index 0x22 with
  | none => .error .invalid
  | some start => do
    checkLimit limit start
    stringLoop input limit start .new start

/-- Only an integer that still fits goes on where an integer is wanted. -/
def Atom.isInteger : Atom → Bool
  | .number _ (some _) => true
  | _ => false

/-- The loop of `atom_with`. -/
def atomLoop (integer : Bool) (input : Bytes) (limit : Option Limit) (atom : Atom) (next : ℕ) :
    Except Error (ValueKind × ℕ) :=
  if h : next < input.length then
    if isDelimiter input[next] then atom.finish.map (·, next)
    else
      match atom.step input[next] with
      | .error error => .error error
      | .ok atom =>
        if integer && !atom.isInteger then .error .invalid
        else
          match checkLimit limit (next + 1) with
          | .error error => .error error
          | .ok () => atomLoop integer input limit atom (next + 1)
  else atom.finish.map (·, next)
termination_by input.length - next

/-- `atom_with`. -/
def atomWith (integer : Bool) (input : Bytes) (index : ℕ) (first : UInt8) (limit : Option Limit) :
    Except Error (ValueKind × ℕ) := do
  let atom ← Atom.new first integer
  atomLoop integer input limit atom index

/-- The loop of `group_at`. -/
def groupLoop (input : Bytes) (limit : Option Limit) (nesting : Nesting) (next : ℕ) :
    Except Error ℕ :=
  if next < input.length then
    let stop := next + (nesting.skip (window input limit next)).length
    match checkLimit limit stop with
    | .error error => .error error
    | .ok () =>
      match input[stop]? with
      | none => .error .invalid
      | some byte =>
        match nesting.step byte with
        | (_, .error error) => .error error
        | (nesting, .ok done) =>
          match checkLimit limit (stop + 1) with
          | .error error => .error error
          | .ok () => if done then .ok (stop + 1) else groupLoop input limit nesting (stop + 1)
  else .error .invalid
termination_by input.length - next

/-- `group_at`. -/
def groupAt (input : Bytes) (index : ℕ) (first : UInt8) (limit : Option Limit) (depth : Depth) :
    Except Error ℕ :=
  match byteAt input index first with
  | none => .error .invalid
  | some next => do
    checkLimit limit next
    let nesting ← Nesting.startDepth first depth
    groupLoop input limit nesting next

/-- `value_with`. -/
def valueWith (input : Bytes) (index : ℕ) (limit : Option Limit) (depth : Depth) :
    Except Error ℕ :=
  match input[index]? with
  | none => .error .invalid
  | some first =>
    if first = 0x22 then (stringWith input index limit).map Prod.snd
    else if first = 0x7b ∨ first = 0x5b then groupAt input index first limit depth
    else if first = 0x74 ∨ first = 0x66 ∨ first = 0x6e ∨ first = 0x2d ∨ isDigit first then
      (atomWith false input index first limit).map Prod.snd
    else .error .invalid

/-- `Input::skip_depth`: the index behind the value. -/
def skipDepth (input : Bytes) (index : ℕ) (depth : Depth) : Except Error ℕ :=
  valueWith input (wsAt input index) none depth

/-! ## Positions and suffixes -/

theorem drop_of_getElem? {input : Bytes} {index : ℕ} {byte : UInt8} (h : input[index]? = some byte) :
    index < input.length ∧ input.drop index = byte :: input.drop (index + 1) := by
  obtain ⟨hlt, rfl⟩ := List.getElem?_eq_some_iff.mp h
  exact ⟨hlt, List.drop_eq_getElem_cons hlt⟩

theorem window_none (input : Bytes) (next : ℕ) : window input none next = input.drop next := by
  simp [window, scanEnd]

theorem wsAt_eq (input : Bytes) (index : ℕ) :
    wsAt input index = index + ((input.drop index).takeWhile isWhitespace).length := by
  fun_induction wsAt input index with
  | case1 index h hspace ih =>
    rw [ih, List.drop_eq_getElem_cons h, List.takeWhile_cons_of_pos hspace, List.length_cons]
    omega
  | case2 index h hspace =>
    rw [List.drop_eq_getElem_cons h, List.takeWhile_cons_of_neg hspace, List.length_nil, add_zero]
  | case3 index h => simp [List.drop_eq_nil_of_le (not_lt.mp h)]

/-- The end of the input, or a delimiter. -/
def Delimited (rest : Bytes) : Prop :=
  rest = [] ∨ ∃ byte tail, rest = byte :: tail ∧ isDelimiter byte = true

/-! ## Strings -/

/-- The span and the end index of a scan that started inside `input`. -/
def spanOf (input : Bytes) (start : ℕ) (result : Except Error (Bytes × StringScan × Bytes)) :
    Except Error (StringSpan × ℕ) :=
  result.map fun result =>
    (.new input start (input.length - result.2.2.length - 1) result.2.1.removed,
      input.length - result.2.2.length)

@[simp]
theorem spanOf_emit (input : Bytes) (start : ℕ) (output : Bytes)
    (result : Except Error (Bytes × StringScan × Bytes)) :
    spanOf input start (StringScan.emit output result) = spanOf input start result := by
  cases result <;> rfl

theorem stringLoop_eq (input : Bytes) (start : ℕ) (self : StringScan) (next : ℕ) :
    stringLoop input none start self next =
      spanOf input start (self.scan (input.drop next)) := by
  generalize hlength : input.length - next = n
  induction n using Nat.strong_induction_on generalizing self next with
  | _ n ih =>
    rw [stringLoop]
    split
    · rename_i hnext
      rw [window_none, StringScan.scan_skip, spanOf_emit, List.drop_drop]
      set stop := next + (self.skip (input.drop next)).length
      simp only [checkLimit]
      cases hbyte : input[stop]? with
      | none =>
        rw [List.drop_eq_nil_of_le (List.getElem?_eq_none_iff.mp hbyte)]
        rfl
      | some byte =>
        obtain ⟨hlt, hdrop⟩ := drop_of_getElem? hbyte
        rw [hdrop, StringScan.scan]
        cases hstep : self.step byte with
        | error error =>
          simp only [hstep]
          rfl
        | ok step =>
          cases step with
          | none =>
            have hrest : input.length - (input.drop (stop + 1)).length = stop + 1 := by
              rw [List.length_drop]
              omega
            simp only [hstep, spanOf, Except.map, hrest, Nat.add_sub_cancel]
          | some result =>
            simp only [hstep]
            rw [ih _ (by omega) result.1 (stop + 1) rfl, spanOf_emit]
    · rename_i hnext
      rw [List.drop_eq_nil_of_le (not_lt.mp hnext)]
      rfl

/-! ## Containers -/

theorem Frames.drive_nil (limit : ℕ) (mode : Mode) (bytes : Bytes) :
    Frames.drive limit ⟨[], mode⟩ bytes = .error .invalid := by
  cases bytes <;> rfl

theorem Frames.drive_takeWhile (limit : ℕ) (phase : Phase) (stack : List Phase) (bytes : Bytes) :
    Frames.drive limit ⟨phase :: stack, .structural⟩ bytes =
      Frames.drive limit ⟨phase :: stack, .structural⟩
        (bytes.drop (bytes.takeWhile isWhitespace).length) := by
  induction bytes with
  | nil => rfl
  | cons byte bytes ih =>
    by_cases hspace : isWhitespace byte = true
    · rw [List.takeWhile_cons_of_pos hspace, List.length_cons, List.drop_succ_cons, ← ih,
        Frames.drive_structural]
      simp [Nesting.transition, hspace, Frames.apply]
    · rw [List.takeWhile_cons_of_neg hspace, List.length_nil, List.drop_zero]

theorem Nesting.drive_skip {self : Nesting} (h : self.Checked) (chunk : Bytes) :
    Frames.drive self.limit self.frames chunk =
      Frames.drive self.limit self.frames (chunk.drop (self.skip chunk).length) := by
  cases hstack : self.frames.stack with
  | nil =>
    rw [show self.frames = ⟨[], self.mode⟩ by simp [← hstack, Nesting.frames]]
    rw [Frames.drive_nil, Frames.drive_nil]
  | cons phase stack =>
    rw [show self.frames = ⟨phase :: stack, self.mode⟩ by simp [← hstack, Nesting.frames]]
    unfold Nesting.skip
    cases hmode : self.mode with
    | structural => exact Frames.drive_takeWhile _ _ _ _
    | string string =>
      simp only
      rw [Frames.drive_string, Frames.drive_string, StringScan.scan_skip]
      cases string.scan (chunk.drop (string.skip chunk).length) <;> rfl
    | atom atom => rfl
    | admitted quoted escaped => exact absurd hmode (h.mode_ne quoted escaped)

/-- The container loop is the byte-by-byte run of the tracker. -/
theorem groupLoop_eq (input : Bytes) (nesting : Nesting) (h : nesting.Checked) (next : ℕ) :
    groupLoop input none nesting next =
      (Frames.drive nesting.limit nesting.frames (input.drop next)).map
        (input.length - ·.length) := by
  generalize hlength : input.length - next = n
  induction n using Nat.strong_induction_on generalizing nesting next with
  | _ n ih =>
    rw [groupLoop]
    split
    · rename_i hnext
      rw [window_none, Nesting.drive_skip h, List.drop_drop]
      set stop := next + (nesting.skip (input.drop next)).length
      simp only [checkLimit]
      cases hbyte : input[stop]? with
      | none =>
        rw [List.drop_eq_nil_of_le (List.getElem?_eq_none_iff.mp hbyte)]
        rfl
      | some byte =>
        obtain ⟨hlt, hdrop⟩ := drop_of_getElem? hbyte
        rw [hdrop, Frames.drive]
        have hstep := Nesting.step_frames h byte
        cases hframes : nesting.frames.step nesting.limit byte with
        | error error =>
          rw [hframes] at hstep
          simp only [hstep]
          rfl
        | ok frames =>
          rw [hframes] at hstep
          obtain ⟨following, hstep, rfl, hlimit, hchecked⟩ := hstep
          simp only [hstep]
          split
          · simp only [Except.map, List.length_drop]
            congr 1
            omega
          · rw [ih _ (by omega) following hchecked (stop + 1) rfl, hlimit]
    · rename_i hnext
      rw [List.drop_eq_nil_of_le (not_lt.mp hnext)]
      rfl

/-! ## Atoms -/

theorem exists_delimited_nil_iff {P : Bytes → Prop} {next stop : ℕ} :
    (∃ text rest, P text ∧ [] = text ++ rest ∧ stop = next + text.length ∧ Delimited rest) ↔
      P [] ∧ stop = next := by
  refine ⟨?_, ?_⟩
  · rintro ⟨text, rest, htext, heq, rfl, -⟩
    obtain ⟨rfl, rfl⟩ := List.append_eq_nil_iff.mp heq.symm
    exact ⟨htext, rfl⟩
  · rintro ⟨hnil, rfl⟩
    exact ⟨[], [], hnil, rfl, rfl, .inl rfl⟩

theorem exists_delimited_cons_iff {P : Bytes → Prop} {byte : UInt8} {bytes : Bytes}
    {next stop : ℕ} :
    (∃ text rest, P text ∧ byte :: bytes = text ++ rest ∧ stop = next + text.length ∧
        Delimited rest) ↔
      (P [] ∧ stop = next ∧ isDelimiter byte = true) ∨
        ∃ text rest, P (byte :: text) ∧ bytes = text ++ rest ∧ stop = next + 1 + text.length ∧
          Delimited rest := by
  refine ⟨?_, ?_⟩
  · rintro ⟨text, rest, htext, heq, rfl, hrest⟩
    cases text with
    | nil =>
      rw [List.nil_append] at heq
      subst heq
      obtain hnil | ⟨delimiter, tail, hcons, hdelimiter⟩ := hrest
      · cases hnil
      · cases hcons
        exact .inl ⟨htext, rfl, hdelimiter⟩
    | cons first text =>
      cases heq
      exact .inr ⟨text, rest, htext, rfl, by simp; omega, hrest⟩
  · rintro (⟨hnil, rfl, hdelimiter⟩ | ⟨text, rest, htext, rfl, rfl, hrest⟩)
    · exact ⟨[], byte :: bytes, hnil, rfl, rfl, .inr ⟨byte, bytes, rfl, hdelimiter⟩⟩
    · exact ⟨byte :: text, rest, htext, rfl, by simp; omega, hrest⟩

theorem atomLoop_eq_ok_iff {input : Bytes} {atom : Atom} {next stop : ℕ} :
    (∃ kind, atomLoop false input none atom next = .ok (kind, stop)) ↔
      ∃ text rest, atom.Completes text ∧ input.drop next = text ++ rest ∧
        stop = next + text.length ∧ Delimited rest := by
  have hfinish : ∀ (atom : Atom) next, (∃ kind, atom.finish.map (·, next) = .ok (kind, stop)) ↔
      (∃ kind, atom.finish = .ok kind) ∧ stop = next := by
    intro atom next
    cases atom.finish <;> simp [Except.map, eq_comm]
  generalize hlength : input.length - next = n
  induction n generalizing atom next with
  | zero =>
    have hge : input.length ≤ next := by omega
    rw [atomLoop, dif_neg (not_lt.mpr hge), hfinish, List.drop_eq_nil_of_le hge,
      exists_delimited_nil_iff]
    rfl
  | succ n ih =>
    have hlt : next < input.length := by omega
    rw [atomLoop, dif_pos hlt, List.drop_eq_getElem_cons hlt, exists_delimited_cons_iff]
    cases hdelimiter : isDelimiter input[next] with
    | true =>
      have hstep : ∀ following, atom.step input[next] ≠ .ok following := fun following hstep => by
        simp [Atom.isDelimiter_of_step hstep] at hdelimiter
      simp [hfinish, Atom.Completes, hstep]
    | false =>
      cases hstep : atom.step input[next] with
      | error error => simp [Atom.Completes, hstep]
      | ok following =>
        simpa [checkLimit, Atom.Completes, hstep] using ih (by omega)

/-! ## Values -/

/-- The first bytes of atoms. -/
def startsAtom (first : UInt8) : Prop :=
  first = 0x74 ∨ first = 0x66 ∨ first = 0x6e ∨ first = 0x2d ∨ isDigit first = true

theorem startsAtom_iff {first : UInt8} :
    startsAtom first ↔ ∃ atom, Atom.new first false = .ok atom := by
  unfold startsAtom Atom.new
  split_ifs <;> simp_all

theorem not_startsAtom {first : UInt8} (h : first = 0x22 ∨ first = 0x7b ∨ first = 0x5b) :
    ¬startsAtom first := by
  rw [startsAtom_iff]
  rcases h with rfl | rfl | rfl <;> simp [Atom.new, isDigit]

theorem AtomText.startsAtom {first : UInt8} {bytes : Bytes} (h : AtomText (first :: bytes)) :
    Json.startsAtom first := by
  obtain ⟨atom, hnew, -⟩ := (@Atom.completes_new_iff _ _ false).mpr h
  exact startsAtom_iff.mpr ⟨atom, hnew⟩

theorem derives_value_cons_iff {depth : ℕ} {first : UInt8} {bytes : Bytes} :
    Derives depth .value (first :: bytes) ↔
      AtomText (first :: bytes) ∨
      (first = 0x22 ∧ ∃ content chars, Content content chars ∧ bytes = content ++ [0x22]) ∨
      ∃ phase, opens first = some phase ∧ ∃ inner, depth = inner + 1 ∧
        Derives inner (.rest phase) bytes := by
  refine ⟨fun h => ?_, ?_⟩
  · generalize htext : first :: bytes = text at h
    generalize hgoal : Goal.value = goal at h
    cases h with
    | atom h => exact .inl h
    | string h =>
      cases htext
      exact .inr (.inl ⟨rfl, _, _, h, rfl⟩)
    | group hopens h =>
      cases htext
      exact .inr (.inr ⟨_, hopens, _, rfl, h⟩)
    | _ => cases hgoal
  · rintro (h | ⟨rfl, content, chars, h, rfl⟩ | ⟨phase, hopens, inner, rfl, h⟩)
    · exact .atom h
    · exact .string h
    · exact .group hopens h

theorem ne_nil_of_derives_value {depth : ℕ} {bytes : Bytes} (h : Derives depth .value bytes) :
    bytes ≠ [] := by
  generalize hgoal : Goal.value = goal at h
  cases h with
  | atom h => exact h.ne_nil
  | string | group => simp
  | _ => cases hgoal

theorem input_of_drop {input bytes : Bytes} {index : ℕ} {first : UInt8}
    (hdrop : input.drop index = first :: bytes) :
    input[index]? = some first ∧ input.drop (index + 1) = bytes ∧
      input.length = index + (bytes.length + 1) := by
  refine ⟨?_, ?_, ?_⟩
  · rw [← List.head?_drop, hdrop, List.head?_cons]
  · rw [← List.drop_drop, hdrop, List.drop_succ_cons, List.drop_zero]
  · have hlength := congrArg List.length hdrop
    simp only [List.length_drop, List.length_cons] at hlength
    omega

/-- The string loop, from the opening quote on, is the byte-by-byte scan. -/
theorem stringWith_eq {input bytes : Bytes} {index : ℕ} (hdrop : input.drop index = 0x22 :: bytes) :
    stringWith input index none = spanOf input (index + 1) (StringScan.scan (.base 0) bytes) := by
  obtain ⟨hbyte, hrest, -⟩ := input_of_drop hdrop
  simp only [stringWith, byteAt, if_pos hbyte, checkLimit]
  rw [← hrest, ← stringLoop_eq]
  rfl

theorem stringWith_eq_ok_iff {input bytes : Bytes} {index stop : ℕ}
    (hdrop : input.drop index = 0x22 :: bytes) :
    (stringWith input index none).map Prod.snd = .ok stop ↔
      ∃ content chars rest, Content content chars ∧ bytes = content ++ 0x22 :: rest ∧
        stop = index + (content.length + 2) := by
  obtain ⟨-, -, hlength⟩ := input_of_drop hdrop
  rw [stringWith_eq hdrop]
  refine ⟨fun h => ?_, ?_⟩
  · cases hscan : StringScan.scan (.base 0) bytes with
    | error error => simp [hscan, spanOf, Except.map] at h
    | ok result =>
      obtain ⟨out, final, rest⟩ := result
      obtain ⟨content, chars, hcontent, rfl, -, -⟩ := StringScan.scan_iff.mp hscan
      refine ⟨content, chars, rest, hcontent, rfl, ?_⟩
      simp only [hscan, spanOf, Except.map, Except.ok.injEq] at h
      simp only [List.length_append, List.length_cons] at hlength
      omega
  · rintro ⟨content, chars, rest, hcontent, rfl, rfl⟩
    rw [StringScan.scan_content hcontent]
    simp only [spanOf, Except.map, Except.ok.injEq]
    simp only [List.length_append, List.length_cons] at hlength
    omega

theorem startDepth_eq_ok {first : UInt8} {phase : Phase} {depth : Depth}
    (hopens : opens first = some phase) (hdepth : depth.value ≠ 0) :
    ∃ nesting, Nesting.startDepth first depth = .ok nesting ∧ nesting.Checked ∧
      nesting.limit = depth.value ∧ nesting.frames = ⟨[phase], .structural⟩ := by
  have hstart : Nesting.startDepth first depth =
      .ok (Nesting.set ⟨fun _ => 0, 1, depth.value, .structural⟩ phase) := by
    unfold opens at hopens
    unfold Nesting.startDepth
    rw [if_neg hdepth]
    split_ifs at hopens ⊢ <;> cases hopens <;> rfl
  have hchecked : (Nesting.set ⟨fun _ => 0, 1, depth.value, .structural⟩ phase).Checked :=
    ⟨Nat.one_le_iff_ne_zero.mpr hdepth, depth.value_le, by simp [Nesting.set]⟩
  refine ⟨_, hstart, hchecked, rfl, ?_⟩
  simp only [Nesting.frames, Nesting.set, Frames.mk.injEq, and_true]
  exact Nesting.phases_setAt_self _ (by norm_num) phase

theorem groupAt_eq_ok_iff {input bytes : Bytes} {index stop : ℕ} {first : UInt8} {phase : Phase}
    {depth : Depth} (hopens : opens first = some phase) (hdrop : input.drop index = first :: bytes) :
    groupAt input index first none depth = .ok stop ↔
      ∃ inner text rest, depth.value = inner + 1 ∧ Derives inner (.rest phase) text ∧
        bytes = text ++ rest ∧ stop = index + (text.length + 1) := by
  obtain ⟨hbyte, hrest, hlength⟩ := input_of_drop hdrop
  simp only [groupAt, byteAt, if_pos hbyte, checkLimit]
  by_cases hdepth : depth.value = 0
  · simp [Nesting.startDepth, hdepth, bind, Except.bind]
  obtain ⟨nesting, hstart, hchecked, hlimit, hframes⟩ := startDepth_eq_ok hopens hdepth
  simp only [hstart, bind, Except.bind]
  rw [groupLoop_eq _ _ hchecked, hlimit, hframes, hrest]
  refine ⟨fun h => ?_, ?_⟩
  · cases hdrive : Frames.drive depth.value ⟨[phase], .structural⟩ bytes with
    | error error => simp [hdrive, Except.map] at h
    | ok rest =>
      obtain ⟨text, hderives, rfl⟩ := (Frames.drive_iff (by omega)).mp hdrive
      refine ⟨depth.value - 1, text, rest, by omega, hderives, rfl, ?_⟩
      simp only [hdrive, Except.map, Except.ok.injEq] at h
      simp only [List.length_append] at hlength
      omega
  · rintro ⟨inner, text, rest, hinner, hderives, rfl, rfl⟩
    rw [(Frames.drive_iff (by omega)).mpr ⟨text, by simpa [hinner] using hderives, rfl⟩]
    simp only [Except.map, Except.ok.injEq]
    simp only [List.length_append] at hlength
    omega

theorem Atom.finish_new {first : UInt8} {retain : Bool} {atom : Atom}
    (h : Atom.new first retain = .ok atom) (kind : ValueKind) : atom.finish ≠ .ok kind := by
  unfold Atom.new at h
  split_ifs at h <;> cases h <;> simp [Atom.finish, Literal.bytes]

theorem atomWith_eq_ok_iff {input bytes : Bytes} {index stop : ℕ} {first : UInt8}
    (hdrop : input.drop index = first :: bytes) :
    (atomWith false input index first none).map Prod.snd = .ok stop ↔
      ∃ text rest, AtomText text ∧ first :: bytes = text ++ rest ∧ stop = index + text.length ∧
        Delimited rest := by
  have hsnd : (atomWith false input index first none).map Prod.snd = .ok stop ↔
      ∃ atom, Atom.new first false = .ok atom ∧
        ∃ kind, atomLoop false input none atom index = .ok (kind, stop) := by
    unfold atomWith
    cases hnew : Atom.new first false with
    | error error => simp [bind, Except.bind, Except.map]
    | ok atom =>
      cases hloop : atomLoop false input none atom index <;>
        simp [bind, Except.bind, Except.map, hloop, Prod.ext_iff]
  simp only [hsnd, atomLoop_eq_ok_iff, hdrop]
  refine ⟨?_, ?_⟩
  · rintro ⟨atom, hnew, text, rest, htext, heq, rfl, hrest⟩
    cases text with
    | nil =>
      obtain ⟨kind, hkind⟩ := htext
      exact absurd hkind (Atom.finish_new hnew kind)
    | cons byte text =>
      cases heq
      exact ⟨_, rest, Atom.completes_new_iff.mp ⟨atom, hnew, htext⟩, rfl, rfl, hrest⟩
  · rintro ⟨text, rest, htext, heq, rfl, hrest⟩
    cases text with
    | nil => exact absurd rfl htext.ne_nil
    | cons byte text =>
      cases heq
      obtain ⟨atom, hnew, hcompletes⟩ := (@Atom.completes_new_iff _ _ false).mpr htext
      exact ⟨atom, hnew, _, rest, hcompletes, rfl, rfl, hrest⟩

/-- What follows a value only matters behind an atom, which has no closing byte of its own. -/
def Ends (value rest : Bytes) : Prop :=
  AtomText value → Delimited rest

theorem exists_derives_cons_iff {depth index stop : ℕ} {first : UInt8} {bytes : Bytes} :
    (∃ value rest, Derives depth .value value ∧ first :: bytes = value ++ rest ∧
        stop = index + value.length ∧ Ends value rest) ↔
      ∃ text rest, Derives depth .value (first :: text) ∧ bytes = text ++ rest ∧
        stop = index + (text.length + 1) ∧ Ends (first :: text) rest := by
  refine ⟨?_, ?_⟩
  · rintro ⟨value, rest, hvalue, heq, rfl, hends⟩
    cases value with
    | nil => exact absurd rfl (ne_nil_of_derives_value hvalue)
    | cons byte text =>
      cases heq
      exact ⟨text, rest, hvalue, rfl, rfl, hends⟩
  · rintro ⟨text, rest, hvalue, rfl, rfl, hends⟩
    exact ⟨first :: text, rest, hvalue, rfl, rfl, hends⟩

/-- Behind a first byte that opens neither a string nor a container, a value is an atom. -/
theorem derives_value_cons_iff_atom {depth : ℕ} {first : UInt8} {bytes : Bytes}
    (hquote : first ≠ 0x22) (hopen : ¬(first = 0x7b ∨ first = 0x5b)) :
    Derives depth .value (first :: bytes) ↔ AtomText (first :: bytes) := by
  rw [derives_value_cons_iff]
  have hopens : opens first = none := by
    rw [not_or] at hopen
    simp [opens, hopen]
  simp [hquote, hopens]

/-- Reading a value from its first byte on. -/
theorem valueWith_eq_ok_iff {input : Bytes} {index stop : ℕ} {depth : Depth} :
    valueWith input index none depth = .ok stop ↔
      ∃ value rest, Grammar .value depth.value value ∧ input.drop index = value ++ rest ∧
        stop = index + value.length ∧ Ends value rest := by
  simp only [← derives_value_iff]
  cases hdrop : input.drop index with
  | nil =>
    have hnone : input[index]? = none := by rw [← List.head?_drop, hdrop, List.head?_nil]
    simp only [valueWith, hnone, reduceCtorEq, false_iff]
    rintro ⟨value, rest, hvalue, heq, -, -⟩
    exact ne_nil_of_derives_value hvalue (List.append_eq_nil_iff.mp heq.symm).1
  | cons first bytes =>
    have hatom : ∀ text, first = 0x22 ∨ first = 0x7b ∨ first = 0x5b → ¬AtomText (first :: text) :=
      fun text hfirst h => not_startsAtom hfirst h.startsAtom
    rw [exists_derives_cons_iff]
    simp only [valueWith, (input_of_drop hdrop).1]
    by_cases hquote : first = 0x22
    · subst hquote
      rw [if_pos rfl, stringWith_eq_ok_iff hdrop]
      simp only [derives_value_cons_iff]
      refine ⟨?_, ?_⟩
      · rintro ⟨content, chars, rest, hcontent, rfl, rfl⟩
        exact ⟨content ++ [0x22], rest, .inr (.inl ⟨trivial, content, chars, hcontent, rfl⟩),
          by simp, by simp, fun h => absurd h (hatom _ (.inl rfl))⟩
      · rintro ⟨text, rest, h | ⟨-, content, chars, hcontent, rfl⟩ | ⟨phase, hopens, -⟩, rfl, rfl, -⟩
        · exact absurd h (hatom _ (.inl rfl))
        · exact ⟨content, chars, rest, hcontent, by simp, by simp⟩
        · cases hopens
    rw [if_neg hquote]
    by_cases hopen : first = 0x7b ∨ first = 0x5b
    · obtain ⟨phase, hphase⟩ : ∃ phase, opens first = some phase := by
        rcases hopen with rfl | rfl <;> exact ⟨_, rfl⟩
      simp only [derives_value_cons_iff]
      rw [if_pos hopen, groupAt_eq_ok_iff hphase hdrop]
      refine ⟨?_, ?_⟩
      · rintro ⟨inner, text, rest, hinner, hderives, rfl, rfl⟩
        exact ⟨text, rest, .inr (.inr ⟨phase, hphase, inner, hinner, hderives⟩), rfl, rfl,
          fun h => absurd h (hatom _ (.inr hopen))⟩
      · rintro ⟨text, rest, h | ⟨rfl, -⟩ | ⟨phase', hphase', inner, hinner, hderives⟩, rfl, rfl, -⟩
        · exact absurd h (hatom _ (.inr hopen))
        · exact absurd rfl hquote
        · obtain rfl : phase' = phase := Option.some_inj.mp (hphase'.symm.trans hphase)
          exact ⟨inner, text, rest, hinner, hderives, rfl, rfl⟩
    rw [if_neg hopen]
    simp only [derives_value_cons_iff_atom hquote hopen]
    split_ifs with hstarts
    · rw [atomWith_eq_ok_iff hdrop]
      refine ⟨?_, ?_⟩
      · rintro ⟨text, rest, htext, heq, rfl, hrest⟩
        cases text with
        | nil => exact absurd rfl htext.ne_nil
        | cons byte text =>
          cases heq
          exact ⟨text, rest, htext, rfl, rfl, fun _ => hrest⟩
      · rintro ⟨text, rest, htext, rfl, rfl, hends⟩
        exact ⟨first :: text, rest, htext, rfl, rfl, hends htext⟩
    · refine iff_of_false (by simp) ?_
      rintro ⟨text, rest, htext, -⟩
      exact hstarts htext.startsAtom

theorem isWhitespace_of_grammar {depth : ℕ} {first : UInt8} {bytes : Bytes}
    (h : Grammar .value depth (first :: bytes)) : isWhitespace first = false := by
  rw [← derives_value_iff, derives_value_cons_iff] at h
  rcases h with h | ⟨rfl, -⟩ | ⟨phase, hopens, -⟩
  · obtain ⟨atom, -, following, hstep, -⟩ := (@Atom.completes_new_iff _ _ false).mpr h
    have hdelimiter := Atom.isDelimiter_of_step hstep
    simp only [isDelimiter, Bool.or_eq_false_iff] at hdelimiter
    exact hdelimiter.1.1.1
  · rfl
  · unfold opens at hopens
    split_ifs at hopens with hobject harray
    · rw [hobject]
      rfl
    · rw [harray]
      rfl

/-- Skipping a value succeeds exactly where, behind whitespace, a value of the grammar within the
depth stands, and an atom is ended by a delimiter or the end of the input; and whatever byte the
tracker of containers rejects, in whatever state, it leaves the tracker as it was. -/
theorem skipDepth_eq_ok_iff_grammar :
    (∀ (input : Bytes) (index stop : ℕ) (depth : Depth),
      skipDepth input index depth = .ok stop ↔
        ∃ ws value rest, input.drop index = ws ++ (value ++ rest) ∧ Ws ws ∧
          Grammar .value depth.value value ∧ stop = index + ws.length + value.length ∧
          (AtomText value → Delimited rest)) ∧
    ∀ (nesting : Nesting) (byte : UInt8) (error : Error),
      (nesting.step byte).2 = .error error → (nesting.step byte).1 = nesting := by
  refine ⟨fun input index stop depth => ?_, fun nesting byte error => Nesting.step_error⟩
  have hsplit := List.takeWhile_append_dropWhile (p := isWhitespace) (l := input.drop index)
  set ws := (input.drop index).takeWhile isWhitespace with hws
  set tail := (input.drop index).dropWhile isWhitespace with htail
  have hdrop : input.drop (index + ws.length) = tail := by
    rw [← List.drop_drop, ← hsplit, List.drop_left]
  rw [skipDepth, wsAt_eq, valueWith_eq_ok_iff, ← hws, hdrop]
  refine ⟨?_, ?_⟩
  · rintro ⟨value, rest, hvalue, heq, rfl, hends⟩
    refine ⟨ws, value, rest, by rw [← hsplit, heq], ?_, hvalue, rfl, hends⟩
    exact fun byte hbyte => List.mem_takeWhile_imp hbyte
  · rintro ⟨ws', value, rest, heq, hws', hvalue, rfl, hends⟩
    cases value with
    | nil => exact absurd rfl (ne_nil_of_derives_value (derives_value_iff.mpr hvalue))
    | cons first value =>
      have hfirst := isWhitespace_of_grammar hvalue
      have hws_eq : ws = ws' := by
        rw [hws, heq, List.takeWhile_append_of_pos hws', List.cons_append,
          List.takeWhile_cons_of_neg (by simp [hfirst]), List.append_nil]
      have htail_eq : tail = (first :: value) ++ rest := by
        rw [htail, heq, List.dropWhile_append_of_pos hws', List.cons_append,
          List.dropWhile_cons_of_neg (by simp [hfirst])]
      exact ⟨first :: value, rest, hvalue, htail_eq, by rw [hws_eq], hends⟩

/-- Behind one blank, `[1]` is a value of depth one, and a comma is rejected inside an empty
object. -/
theorem skipDepth_array_of_one :
    (∃ ws value rest, [0x20, 0x5b, 0x31, 0x5d, 0x2c].drop 0 = ws ++ (value ++ rest) ∧ Ws ws ∧
      Grammar .value 1 value ∧ 4 = 0 + ws.length + value.length ∧
      (AtomText value → Delimited rest)) ∧
    (Nesting.step ⟨fun _ => 0, 1, 1, .structural⟩ 0x2c).2 = .error .invalid ∧
    (Nesting.step ⟨fun _ => 0, 1, 1, .structural⟩ 0x2c).1 = ⟨fun _ => 0, 1, 1, .structural⟩ := by
  have hskip : skipDepth [0x20, 0x5b, 0x31, 0x5d, 0x2c] 0 ⟨1, by decide⟩ = .ok 4 := by
    decide +kernel
  have hstep : (Nesting.step ⟨fun _ => 0, 1, 1, .structural⟩ 0x2c).2 = .error .invalid := by
    rfl
  exact ⟨(skipDepth_eq_ok_iff_grammar.1 _ _ _ _).mp hskip, hstep,
    skipDepth_eq_ok_iff_grammar.2 _ _ _ hstep⟩

end Sark.Json
