import Sark.Json.Inline

/-!
# Replayed containers

A container that was checked once is read again by a tracker that only counts brackets outside of
quotes (`Mode::Admitted` of `json/src/nesting.rs`), and that skips whatever does not matter to it.
`Nested` (`json/src/segment/nested.rs`) cuts an array into its elements with either tracker.

* `Follows.step`: the replay follows the checked tracker, byte by byte.
* `replays_of_closesAt`: it ends a container where the checked tracker did, however it skips.
* `replay_agrees`: so the elements of an array are the same.
-/

namespace Sark.Json

/-! ## Runs of the trackers -/

namespace Nesting

/-- The bytes take the tracker down to a depth, and not before the last of them. -/
def closesAt (base : ℕ) (self : Nesting) : Bytes → Bool
  | [] => false
  | byte :: rest =>
    match self.step byte with
    | (_, .error _) => false
    | (next, .ok _) => if next.depth = base then rest.isEmpty else closesAt base next rest

/-- What a reader does next: it skips a run of the bytes it has at hand, or it steps over one. -/
inductive Move
  | skip (budget : ℕ)
  | step
  deriving DecidableEq, Repr

/-- Where a reader stands: inside the container, behind it, or at the end of its input. -/
inductive Reader
  | inside (nesting : Nesting) (next : ℕ)
  | behind (stop : ℕ)
  | starved
  | failed (error : Error)

/-- The moves of a reader, until the tracker reports that the container is complete. -/
def play (input : Bytes) (self : Nesting) (next : ℕ) : List Move → Reader
  | [] => .inside self next
  | .skip budget :: moves =>
    play input self (next + (self.skip ((input.drop next).take budget)).length) moves
  | .step :: moves =>
    match input[next]? with
    | none => .starved
    | some byte =>
      match self.step byte with
      | (_, .error error) => .failed error
      | (_, .ok true) => .behind (next + 1)
      | (following, .ok false) => play input following (next + 1) moves

end Nesting

/-! ## The elements of an array -/

/-- `Depth::ROOT`. -/
def Depth.root : Depth :=
  ⟨maxDepth, le_rfl⟩

/-- `nested::State`, without the states that do not read. -/
inductive Walk
  | leading
  | element (allowed : Bool)
  | group (start : ℕ) (nesting : Nesting)
  | delimiter
  | trailing

/-- What `Nested::try_step` does with one byte: the next state, and the element that is complete. -/
def Walk.read (admitted : Bool) (index : ℕ) (byte : UInt8) (self : Walk) :
    Except Error (Walk × List (ℕ × ℕ)) :=
  match self with
  | .leading =>
    if isWhitespace byte then .ok (.leading, [])
    else if byte = 0x5b then .ok (.element true, [])
    else .error .invalid
  | .element allowed =>
    if isWhitespace byte then .ok (.element allowed, [])
    else if allowed ∧ byte = 0x5d then .ok (.trailing, [])
    else if byte = 0x7b ∨ byte = 0x5b then
      if admitted then .ok (.group index .admitted, [])
      else (Nesting.startDepth byte .root).map fun nesting => (.group index nesting, [])
    else .error .invalid
  | .group start nesting =>
    match nesting.step byte with
    | (_, .error error) => .error error
    | (following, .ok done) =>
      if done then .ok (.delimiter, [(start, index + 1)]) else .ok (.group start following, [])
  | .delimiter =>
    if isWhitespace byte then .ok (.delimiter, [])
    else if byte = 0x2c then .ok (.element false, [])
    else if byte = 0x5d then .ok (.trailing, [])
    else .error .invalid
  | .trailing => if isWhitespace byte then .ok (.trailing, []) else .error .invalid

/-- The ranges of the elements that are left. -/
def elementsFrom (admitted : Bool) (walk : Walk) (index : ℕ) : Bytes → Except Error (List (ℕ × ℕ))
  | [] =>
    match walk with
    | .trailing => .ok []
    | _ => .error .invalid
  | byte :: rest =>
    match walk.read admitted index byte with
    | .error error => .error error
    | .ok (walk, found) => (elementsFrom admitted walk (index + 1) rest).map (found ++ ·)

/-- The ranges of the elements of an array, each of which is a container. -/
def elements (admitted : Bool) (input : Bytes) : Except Error (List (ℕ × ℕ)) :=
  elementsFrom admitted .leading 0 input

/-! ## The replay follows the checked tracker -/

/-- The replay stands before an escaped byte. -/
def StringScan.isEscaped (self : StringScan) : Bool :=
  match self.escape with
  | .start | .unicode _ => true
  | _ => false

/-- The quotes that the replay has seen. -/
def Mode.quoted : Mode → Bool
  | .string _ => true
  | _ => false

/-- The backslash that the replay has seen. -/
def Mode.escaped : Mode → Bool
  | .string scan => scan.isEscaped
  | _ => false

/-- What a byte of string content does to the escape state: only a backslash escapes. -/
theorem StringScan.advance_escaped {self next : StringScan} {byte : UInt8} {output : Bytes}
    (hmin : 0x80 ≤ self.utf8.min) (h : advance true self byte = .ok (next, output)) :
    next.isEscaped = (!self.isEscaped && byte == 0x5c) ∧
      (self.isEscaped = false → byte = 0x22 → self.escape = .plain ∧ self.utf8.left = 0) := by
  obtain ⟨escape, utf8, removed⟩ := self
  dsimp only at hmin
  cases escape with
  | plain =>
    simp only [advance] at h
    by_cases hleft : utf8.left ≠ 0
    · -- a continuation byte is neither a backslash nor a quote
      rw [if_pos ⟨trivial, hleft⟩, Except.bind_eq_ok_iff] at h
      obtain ⟨_, hvalid, hnext⟩ := h
      simp only [require_eq_ok_iff, Bool.and_eq_true, decide_eq_true_eq] at hvalid
      have hslash : byte ≠ 0x5c := by
        rintro rfl
        exact absurd (UInt8.le_trans hmin hvalid.1) (by decide)
      have hquote : byte ≠ 0x22 := by
        rintro rfl
        exact absurd (UInt8.le_trans hmin hvalid.1) (by decide)
      cases hnext
      simp [isEscaped, hslash, hquote]
    · refine ⟨?_, fun _ _ => ⟨rfl, by simpa using hleft⟩⟩
      rw [if_neg (by simpa using hleft)] at h
      by_cases hslash : byte = 0x5c
      · rw [if_pos hslash] at h
        cases h
        simp [isEscaped, hslash]
      rw [if_neg hslash] at h
      by_cases hascii : byte < 0x80
      · rw [if_pos (.inl hascii), Except.bind_eq_ok_iff] at h
        obtain ⟨-, -, hnext⟩ := h
        cases hnext
        simp [isEscaped, hslash]
      rw [if_neg (by simpa using hascii)] at h
      cases hlead : leadByte byte with
      | none => simp [hlead, require, bind, Except.bind] at h
      | some continuation =>
        simp only [hlead] at h
        cases h
        simp [isEscaped, hslash]
  | start =>
    refine ⟨?_, fun h => by cases h⟩
    simp only [advance] at h
    by_cases hunicode : byte = 0x75
    · rw [if_pos hunicode] at h
      cases h
      simp [isEscaped]
    · rw [if_neg hunicode] at h
      cases hshort : shortEscape byte with
      | none => simp [hshort, require, bind, Except.bind] at h
      | some decoded =>
        simp only [hshort] at h
        cases h
        simp [isEscaped]
  | hex value left high =>
    simp only [advance, Except.bind_eq_ok_iff, require_eq_ok_iff] at h
    obtain ⟨-, hdigit, hnext⟩ := h
    have hslash : byte ≠ 0x5c := by
      rintro rfl
      exact absurd hdigit (by decide)
    have hquote : byte ≠ 0x22 := by
      rintro rfl
      exact absurd hdigit (by decide)
    refine ⟨?_, fun _ h => absurd h hquote⟩
    split at hnext
    · cases hnext
      simp [isEscaped, hslash]
    split at hnext
    · obtain ⟨-, -, hdecoded⟩ := Except.bind_eq_ok_iff.mp hnext
      cases hdecoded
      simp [isEscaped, hslash]
    split at hnext
    · cases hnext
      simp [isEscaped, hslash]
    · obtain ⟨-, -, hdecoded⟩ := Except.bind_eq_ok_iff.mp hnext
      cases hdecoded
      simp [isEscaped, hslash]
  | slash high =>
    simp only [advance, Except.bind_eq_ok_iff, require_eq_ok_iff, decide_eq_true_eq] at h
    obtain ⟨-, rfl, hnext⟩ := h
    cases hnext
    exact ⟨rfl, fun _ h => absurd h (by decide)⟩
  | unicode high =>
    refine ⟨?_, fun h => by cases h⟩
    simp only [advance, Except.bind_eq_ok_iff] at h
    obtain ⟨-, -, hnext⟩ := h
    cases hnext
    simp [isEscaped]

/-- One byte of string content: only a backslash escapes, and a quote is content where it is
escaped. -/
theorem StringScan.step_escaped {self next : StringScan} {byte : UInt8} {output : Bytes}
    (hmin : 0x80 ≤ self.utf8.min) (h : self.step byte = .ok (some (next, output))) :
    next.isEscaped = (!self.isEscaped && byte == 0x5c) ∧
      (self.isEscaped = false → byte ≠ 0x22) ∧ 0x80 ≤ next.utf8.min := by
  have hcontinues : ¬(self.escape = .plain ∧ self.utf8.left = 0 ∧ byte = 0x22) := by
    intro hends
    rw [step, if_pos hends] at h
    cases h
  rw [step, if_neg hcontinues] at h
  obtain ⟨found, hcontent, heq⟩ := Except.map_eq_ok_iff.mp h
  obtain rfl := Option.some.inj heq
  obtain ⟨⟨following, decoded⟩, hadvance, hcontent⟩ := Except.bind_eq_ok_iff.mp hcontent
  obtain ⟨rfl, rfl⟩ := Prod.mk.inj (Except.ok.inj hcontent)
  obtain ⟨hescaped, hquote⟩ := advance_escaped hmin hadvance
  obtain ⟨hnext, -⟩ := advance_false_of_true hadvance (rfl : self.escape = self.escape) hmin
  exact ⟨hescaped, fun hnone hbyte => hcontinues ⟨(hquote hnone hbyte).1, (hquote hnone hbyte).2,
    hbyte⟩, hnext⟩

theorem StringScan.of_step_none {self : StringScan} {byte : UInt8}
    (h : self.step byte = .ok none) : self.isEscaped = false ∧ byte = 0x22 := by
  rw [step] at h
  split at h
  next hends => exact ⟨by rw [isEscaped, hends.1], hends.2.2⟩
  next =>
    obtain ⟨found, -, heq⟩ := Except.map_eq_ok_iff.mp h
    cases heq

theorem Atom.plain_of_step {self next : Atom} {byte : UInt8} (h : self.step byte = .ok next) :
    byte ≠ 0x22 ∧ byte ≠ 0x7b ∧ byte ≠ 0x5b ∧ byte ≠ 0x7d ∧ byte ≠ 0x5d := by
  have hdelimiter := isDelimiter_of_step h
  have hother : byte ≠ 0x22 ∧ byte ≠ 0x7b ∧ byte ≠ 0x5b := by
    cases self with
    | literal name matched =>
      rw [step] at h
      split at h
      next hbyte =>
        have hnone : ∀ byte ∈ name.bytes, byte ≠ 0x22 ∧ byte ≠ 0x7b ∧ byte ≠ 0x5b := by
          cases name <;> decide +kernel
        exact hnone byte (List.mem_of_getElem? hbyte)
      next => cases h
    | number state value =>
      refine ⟨?_, ?_, ?_⟩ <;> rintro rfl <;> cases state <;> cases h
  simp only [isDelimiter, Bool.or_eq_false_iff, beq_eq_false_iff_ne] at hdelimiter
  exact ⟨hother.1, hother.2.1, hother.2.2, hdelimiter.1.2, hdelimiter.2⟩

/-- The replay of a container, of which a checked tracker has `base` others open around it. -/
structure Follows (base : ℕ) (frames : Frames) (replay : Nesting) : Prop where
  depth_add : replay.depth + base = frames.stack.length
  mode_eq : replay.mode = .admitted frames.mode.quoted frames.mode.escaped
  min_le : ∀ string, frames.mode = .string string → 0x80 ≤ string.utf8.min
  mode_ne : ∀ quoted escaped, frames.mode ≠ .admitted quoted escaped

theorem stepAdmitted_plain {self : Nesting} {byte : UInt8}
    (h : byte ≠ 0x22 ∧ byte ≠ 0x7b ∧ byte ≠ 0x5b ∧ byte ≠ 0x7d ∧ byte ≠ 0x5d) :
    self.stepAdmitted false false byte = self := by
  simp [Nesting.stepAdmitted, h]

theorem Follows.same {base : ℕ} {frames : Frames} {replay : Nesting}
    (h : Follows base frames replay)
    {phase : Phase} {rest : List Phase} (hstack : frames.stack.length = rest.length + 1)
    {mode : Mode} (hquoted : mode.quoted = false) (hescaped : mode.escaped = false)
    (hold : frames.mode.quoted = false) (hnone : frames.mode.escaped = false)
    (hne : ∀ quoted escaped, mode ≠ .admitted quoted escaped) :
    Follows base ⟨phase :: rest, mode⟩ replay where
  depth_add := h.depth_add.trans hstack
  mode_eq := by rw [h.mode_eq, hquoted, hescaped, hold, hnone]
  min_le string hmode := by
    obtain rfl : mode = .string string := hmode
    cases hquoted
  mode_ne := hne

/-- The replay follows a structural byte. -/
theorem Follows.transition {base limit depth : ℕ} {phase : Phase} {rest : List Phase} {mode : Mode}
    {replay : Nesting} {byte : UInt8} {change : Change}
    (h : Follows base ⟨phase :: rest, mode⟩ replay) (hdepth : 0 < replay.depth)
    (hquoted : mode.quoted = false) (hescaped : mode.escaped = false)
    (hchange : Nesting.transition phase depth limit byte = .ok change) :
    Follows base (Frames.apply phase rest change) (replay.stepAdmitted false false byte) := by
  have hlength : replay.depth + base = rest.length + 1 := h.depth_add
  have hmode : replay.mode = .admitted false false := by
    rw [h.mode_eq, hquoted, hescaped]
  have hsame : ∀ {phase' : Phase} {mode' : Mode}, mode'.quoted = false → mode'.escaped = false →
      (∀ quoted escaped, mode' ≠ .admitted quoted escaped) →
      Follows base ⟨phase' :: rest, mode'⟩ replay :=
    fun hquoted' hescaped' hne => h.same rfl hquoted' hescaped' hquoted hescaped hne
  have hstring : ∀ phase' : Phase, Follows base ⟨phase' :: rest, .string .new⟩
      { replay with mode := .admitted true false } := fun phase' =>
    ⟨hlength, rfl, fun string heq => by cases heq; decide, by simp⟩
  by_cases hspace : isWhitespace byte = true
  · have hplain : byte ≠ 0x22 ∧ byte ≠ 0x7b ∧ byte ≠ 0x5b ∧ byte ≠ 0x7d ∧ byte ≠ 0x5d := by
      refine ⟨?_, ?_, ?_, ?_, ?_⟩ <;> rintro rfl <;> exact absurd hspace (by decide)
    rw [Nesting.transition.eq_def, if_pos hspace] at hchange
    cases hchange
    rw [stepAdmitted_plain hplain]
    exact hsame rfl rfl (by simp)
  rw [Bool.not_eq_true] at hspace
  rcases Frames.transition_cases hchange hspace with ⟨hclose, rfl⟩ | ⟨-, rfl, rfl⟩ |
    ⟨next, hmark, rfl⟩ | ⟨next, -, hvalue⟩
  · -- the container closes
    have hbyte : byte = 0x7d ∨ byte = 0x5d := by
      cases phase <;> cases hclose <;> simp
    have hstep : replay.stepAdmitted false false byte =
        { replay with depth := replay.depth - 1 } := by
      rcases hbyte with rfl | rfl <;> rfl
    rw [hstep]
    refine ⟨?_, hmode, by simp [Frames.apply], by simp [Frames.apply]⟩
    show replay.depth - 1 + base = rest.length
    omega
  · exact hstring _
  · have hplain : byte ≠ 0x22 ∧ byte ≠ 0x7b ∧ byte ≠ 0x5b ∧ byte ≠ 0x7d ∧ byte ≠ 0x5d := by
      cases phase <;> cases hmark <;> decide
    rw [stepAdmitted_plain hplain]
    exact hsame rfl rfl (by simp)
  · rcases Frames.value_cases hvalue with ⟨rfl, rfl⟩ | ⟨child, hopens, -, rfl⟩ |
      ⟨atom, atom', hnew, hatom, rfl⟩
    · exact hstring _
    · -- a container opens
      have hbyte : byte = 0x7b ∨ byte = 0x5b := by
        unfold opens at hopens
        split_ifs at hopens with hobject harray
        · exact .inl hobject
        · exact .inr harray
      have hstep : replay.stepAdmitted false false byte =
          { replay with depth := replay.depth + 1 } := by
        rcases hbyte with rfl | rfl <;> rfl
      rw [hstep]
      refine ⟨?_, hmode, by simp [Frames.apply], by simp [Frames.apply]⟩
      show replay.depth + 1 + base = rest.length + 1 + 1
      omega
    · rw [stepAdmitted_plain (Atom.plain_of_step hatom)]
      exact hsame rfl rfl (by simp)

/-- The replay follows the checked tracker over a byte. -/
theorem Follows.step {base limit : ℕ} {frames next : Frames} {replay : Nesting} {byte : UInt8}
    (h : Follows base frames replay) (hdepth : 0 < replay.depth)
    (hstep : frames.step limit byte = .ok next) :
    Follows base next
      (replay.stepAdmitted frames.mode.quoted frames.mode.escaped byte) := by
  obtain ⟨stack, mode⟩ := frames
  cases stack with
  | nil => cases hstep
  | cons phase rest =>
    simp only [Frames.step] at hstep
    cases hchange : Nesting.change phase (rest.length + 1) limit mode byte with
    | error error => simp [hchange] at hstep
    | ok change =>
      simp only [hchange, Except.ok.injEq] at hstep
      subst hstep
      rw [Nesting.change.eq_def, if_neg (Nat.succ_ne_zero _)] at hchange
      cases mode with
      | structural => exact h.transition hdepth rfl rfl hchange
      | string string =>
        have hmin := h.min_le string rfl
        have hlength : replay.depth + base = rest.length + 1 := h.depth_add
        have hmode : replay.mode = .admitted true string.isEscaped := h.mode_eq
        simp only at hchange
        cases hread : string.step byte with
        | error error => simp [hread] at hchange
        | ok result =>
          cases result with
          | none =>
            obtain ⟨hescaped, rfl⟩ := StringScan.of_step_none hread
            simp only [hread, Except.ok.injEq] at hchange
            subst hchange
            show Follows base _ (replay.stepAdmitted true string.isEscaped 0x22)
            rw [hescaped]
            exact ⟨hlength, rfl, by simp [Frames.apply], by simp [Frames.apply]⟩
          | some result =>
            obtain ⟨following, output⟩ := result
            simp only [hread, Except.ok.injEq] at hchange
            subst hchange
            obtain ⟨hnext, hquote, hminNext⟩ := StringScan.step_escaped hmin hread
            have hmodeNext : ∀ other, Mode.string following = .string other →
                0x80 ≤ other.utf8.min := by
              intro other heq
              cases heq
              exact hminNext
            show Follows base ⟨phase :: rest, .string following⟩
              (replay.stepAdmitted true string.isEscaped byte)
            cases hescaped : string.isEscaped with
            | true =>
              rw [hescaped, Bool.not_true, Bool.false_and] at hnext
              refine ⟨hlength, ?_, hmodeNext, by simp⟩
              show Mode.admitted true false = .admitted true following.isEscaped
              rw [hnext]
            | false =>
              rw [hescaped, Bool.not_false, Bool.true_and] at hnext
              have hbyte := hquote hescaped
              by_cases hslash : byte = 0x5c
              · subst hslash
                refine ⟨hlength, ?_, hmodeNext, by simp⟩
                show Mode.admitted true true = .admitted true following.isEscaped
                rw [hnext]
                rfl
              · have hstep : replay.stepAdmitted true false byte = replay := by
                  simp [Nesting.stepAdmitted, hslash, hbyte]
                rw [hstep]
                refine ⟨hlength, ?_, hmodeNext, by simp⟩
                show replay.mode = .admitted true following.isEscaped
                rw [hmode, hescaped, hnext]
                simp [hslash]
      | atom atom =>
        simp only at hchange
        split at hchange
        · cases hatom : atom.step byte with
          | error error => simp [hatom] at hchange
          | ok following =>
            simp only [hatom, Except.ok.injEq] at hchange
            subst hchange
            show Follows base _ (replay.stepAdmitted false false byte)
            rw [stepAdmitted_plain (Atom.plain_of_step hatom)]
            exact h.same rfl rfl rfl rfl rfl (by simp)
        · cases hfinish : atom.finish with
          | error error => simp [hfinish] at hchange
          | ok kind =>
            simp only [hfinish] at hchange
            exact h.transition hdepth rfl rfl hchange
      | admitted quoted escaped => exact absurd rfl (h.mode_ne quoted escaped)

/-! ## Replays of a checked container -/

/-- What a replay of a container does, whatever follows it and however it skips: it is inside, with
a depth that neither underflows nor overflows at the next byte, until it is behind the last byte;
and it gets there if it steps often enough. -/
def Replays (text : Bytes) : Prop :=
  ∀ (rest : Bytes) (moves : List Nesting.Move),
    ((∃ nesting next, Nesting.play (text ++ rest) .admitted 0 moves = .inside nesting next ∧
        next < text.length ∧ 0 < nesting.depth ∧ nesting.depth ≤ maxDepth) ∨
      Nesting.play (text ++ rest) .admitted 0 moves = .behind text.length) ∧
    (text.length ≤ moves.count .step →
      Nesting.play (text ++ rest) .admitted 0 moves = .behind text.length)

theorem step_admitted {self : Nesting} {quoted escaped : Bool}
    (hmode : self.mode = .admitted quoted escaped) (byte : UInt8) :
    self.step byte = (self.stepAdmitted quoted escaped byte,
      .ok ((self.stepAdmitted quoted escaped byte).depth == 0)) := by
  rw [Nesting.step, hmode]

theorem skip_prefix {self : Nesting} {quoted escaped : Bool}
    (hmode : self.mode = .admitted quoted escaped) (chunk : Bytes) : self.skip chunk <+: chunk := by
  simp only [Nesting.skip, hmode]
  split_ifs
  · exact List.nil_prefix
  · exact List.takeWhile_prefix _
  · exact List.takeWhile_prefix _

theorem step_of_mem_skip {self : Nesting} {quoted escaped : Bool}
    (hmode : self.mode = .admitted quoted escaped) {chunk : Bytes} {byte : UInt8}
    (hbyte : byte ∈ self.skip chunk) : self.stepAdmitted quoted escaped byte = self := by
  simp only [Nesting.skip, hmode] at hbyte
  cases escaped with
  | true => cases hbyte
  | false =>
    cases quoted with
    | true =>
      have hplain := List.mem_takeWhile_imp hbyte
      simp only [Bool.not_eq_true', Bool.or_eq_false_iff, beq_eq_false_iff_ne] at hplain
      simp [Nesting.stepAdmitted, hplain]
    | false =>
      have hplain := List.mem_takeWhile_imp hbyte
      simp only [Bool.not_eq_true', Bool.or_eq_false_iff, beq_eq_false_iff_ne] at hplain
      exact stepAdmitted_plain ⟨hplain.1.1.1.1, hplain.1.1.1.2, hplain.1.1.2, hplain.1.2, hplain.2⟩

theorem Nesting.closesAt_cons {base : ℕ} {checked : Nesting} {byte : UInt8} {rest : Bytes}
    (hsound : checked.Checked) (h : checked.closesAt base (byte :: rest) = true) :
    ∃ checked' : Nesting, checked.frames.step checked.limit byte = .ok checked'.frames ∧
      checked'.Checked ∧
      (checked'.depth = base ∧ rest = [] ∨
        checked'.depth ≠ base ∧ checked'.closesAt base rest = true) := by
  have hframes := Nesting.step_frames hsound byte
  rw [Nesting.closesAt] at h
  cases hstep : checked.frames.step checked.limit byte with
  | error error =>
    rw [hstep] at hframes
    simp [hframes] at h
  | ok following =>
    rw [hstep] at hframes
    obtain ⟨checked', hread, rfl, -, hsound'⟩ := hframes
    simp only [hread] at h
    refine ⟨checked', rfl, hsound', ?_⟩
    by_cases hbase : checked'.depth = base
    · rw [if_pos hbase, List.isEmpty_iff] at h
      exact .inl ⟨hbase, h⟩
    · rw [if_neg hbase] at h
      exact .inr ⟨hbase, h⟩

/-- A checked tracker that is going to close a container, and a replay that follows it. -/
structure Paired (base : ℕ) (checked : Nesting) (text : Bytes) (replay : Nesting) : Prop where
  sound : checked.Checked
  closes : checked.closesAt base text = true
  follows : Follows base checked.frames replay
  depth_pos : 0 < replay.depth

section Paired

variable {base next stop : ℕ} {checked replay : Nesting} {input text rest : Bytes}

theorem Paired.depth_le (h : Paired base checked text replay) : replay.depth ≤ maxDepth := by
  have hdepth : replay.depth + base = checked.depth := by
    rw [h.follows.depth_add]
    exact Nesting.length_phases _ _
  have hle := h.sound.depth_le
  have hlimit := h.sound.limit_le
  omega

theorem Paired.step (h : Paired base checked text replay) :
    ∃ byte tail checked' replay', text = byte :: tail ∧
      replay.step byte = (replay', .ok (replay'.depth == 0)) ∧
      replay' = replay.stepAdmitted checked.mode.quoted checked.mode.escaped byte ∧
      (replay'.depth = 0 ∧ tail = [] ∨ Paired base checked' tail replay') := by
  obtain ⟨hsound, hcloses, hfollows, hpos⟩ := h
  cases text with
  | nil => cases hcloses
  | cons byte tail =>
    obtain ⟨checked', hstep, hsound', hnext⟩ := Nesting.closesAt_cons hsound hcloses
    have hfollows' := hfollows.step hpos hstep
    have hdepth := hfollows'.depth_add
    have hlength : checked'.frames.stack.length = checked'.depth := Nesting.length_phases _ _
    refine ⟨byte, tail, checked', _, rfl, step_admitted hfollows.mode_eq byte, rfl, ?_⟩
    rcases hnext with ⟨hbase, rfl⟩ | ⟨hopen, hcloses'⟩
    · exact .inl ⟨Nat.add_right_cancel (hdepth.trans (hlength.trans (hbase.trans
        (Nat.zero_add base).symm))), rfl⟩
    · refine .inr ⟨hsound', hcloses', hfollows', Nat.pos_of_ne_zero fun hzero => hopen ?_⟩
      rw [← hlength, ← hdepth]
      exact (congrArg (· + base) hzero).trans (Nat.zero_add base)

theorem Paired.ne_nil (h : Paired base checked text replay) : 0 < text.length := by
  obtain ⟨byte, tail, checked', replay', rfl, -⟩ := h.step
  exact Nat.succ_pos _

theorem Paired.skip (h : Paired base checked text replay) {skipped : Bytes}
    (hskipped : ∀ byte ∈ skipped,
      replay.stepAdmitted checked.mode.quoted checked.mode.escaped byte = replay)
    (hinput : skipped <+: text ++ rest) :
    ∃ checked' text', text = skipped ++ text' ∧ Paired base checked' text' replay := by
  induction skipped generalizing checked text with
  | nil => exact ⟨checked, text, rfl, h⟩
  | cons byte skipped ih =>
    obtain ⟨byte', tail, checked', replay', rfl, -, hreplay, hnext⟩ := h.step
    obtain ⟨rfl, htail⟩ := List.cons_prefix_cons.mp hinput
    rw [List.forall_mem_cons, ← hreplay] at hskipped
    obtain ⟨rfl, hskipped⟩ := hskipped
    rcases hnext with ⟨hdepth, -⟩ | hnext
    · exact absurd hdepth h.depth_pos.ne'
    · -- the quotes are those of the replay, which did not change
      have hmode := h.follows.mode_eq.symm.trans hnext.follows.mode_eq
      obtain ⟨hquoted, hescaped⟩ := Mode.admitted.inj hmode
      obtain ⟨checked'', text', rfl, hpaired⟩ := ih hnext (by
        intro byte hbyte
        have hsame := hskipped byte hbyte
        rw [show checked'.mode.quoted = checked.mode.quoted from hquoted.symm,
          show checked'.mode.escaped = checked.mode.escaped from hescaped.symm]
        exact hsame) htail
      exact ⟨checked'', text', rfl, hpaired⟩

/-- A replay ends the container behind its last byte. -/
theorem Paired.play (h : Paired base checked text replay) (hdrop : input.drop next = text ++ rest)
    (hstop : stop = next + text.length) (moves : List Nesting.Move) :
    ((∃ nesting final, replay.play input next moves = .inside nesting final ∧
        final < stop ∧ 0 < nesting.depth ∧ nesting.depth ≤ maxDepth) ∨
      replay.play input next moves = .behind stop) ∧
    (text.length ≤ moves.count .step → replay.play input next moves = .behind stop) := by
  induction moves generalizing checked text replay next with
  | nil =>
    have hpos := h.ne_nil
    refine ⟨.inl ⟨replay, next, rfl, by omega, h.depth_pos, h.depth_le⟩, fun hcount => ?_⟩
    rw [List.count_nil] at hcount
    omega
  | cons move moves ih =>
    cases move with
    | skip budget =>
      rw [Nesting.play, List.count_cons_of_ne (by simp)]
      set skipped := replay.skip ((input.drop next).take budget) with hskip
      have hchunk : skipped <+: (input.drop next).take budget := by
        exact skip_prefix h.follows.mode_eq _
      have hprefix : skipped <+: text ++ rest := by
        rw [← hdrop]
        exact hchunk.trans (List.take_prefix _ _)
      obtain ⟨checked', text', rfl, hpaired⟩ := h.skip (fun byte hbyte =>
        step_of_mem_skip h.follows.mode_eq (hskip ▸ hbyte)) hprefix
      have hnext : input.drop (next + skipped.length) = text' ++ rest := by
        rw [← List.drop_drop, hdrop, List.append_assoc, List.drop_left]
      rw [List.length_append] at hstop ⊢
      obtain ⟨hstands, hends⟩ := ih hpaired hnext (by omega)
      exact ⟨hstands, fun hcount => hends (by omega)⟩
    | step =>
      obtain ⟨byte, tail, checked', replay', rfl, hread, -, hnext⟩ := h.step
      have hbyte : input[next]? = some byte := by
        rw [← List.head?_drop, hdrop]
        rfl
      have hrest : input.drop (next + 1) = tail ++ rest := by
        rw [← List.drop_drop, hdrop]
        rfl
      rw [Nesting.play, List.count_cons_self, hbyte]
      simp only [hread]
      rw [List.length_cons] at hstop ⊢
      rcases hnext with ⟨hdepth, rfl⟩ | hpaired
      · have hbehind : stop = next + 1 := by
          rw [hstop, List.length_nil]
        simp [hdepth, hbehind]
      · have hopen : (replay'.depth == 0) = false := by
          rw [beq_eq_false_iff_ne]
          exact hpaired.depth_pos.ne'
        rw [hopen]
        obtain ⟨hstands, hends⟩ := ih hpaired hrest (by omega)
        exact ⟨hstands, fun hcount => hends (by omega)⟩

end Paired

/-- A container that a checked tracker closes is replayed. -/
theorem replays_of_closesAt {base : ℕ} {checked : Nesting} {text : Bytes} (hsound : checked.Checked)
    (hmode : checked.mode = .structural) (hdepth : checked.depth = base + 1)
    (hcloses : checked.closesAt base text = true) : Replays text := by
  intro rest moves
  have hpaired : Paired base checked text .admitted := by
    refine ⟨hsound, hcloses, ⟨?_, ?_, ?_, hsound.mode_ne⟩, Nat.one_pos⟩
    · rw [Nesting.frames, Nesting.length_phases, hdepth, add_comm]
      rfl
    · show Mode.admitted false false = .admitted checked.mode.quoted checked.mode.escaped
      rw [hmode]
      rfl
    · intro string hstring
      rw [Nesting.frames, hmode] at hstring
      cases hstring
  exact hpaired.play rfl (Nat.zero_add _).symm moves

/-! ## Containers inside a container -/

/-- A transition does not depend on what is around the container, unless a container is opened. -/
theorem Nesting.change_of_change {phase : Phase} {depth limit depth' limit' : ℕ} {mode : Mode}
    {byte : UInt8} {change : Change} (hdepth' : depth' ≠ 0)
    (hopens : depth ≠ limit → depth' ≠ limit')
    (h : Nesting.change phase depth limit mode byte = .ok change) :
    Nesting.change phase depth' limit' mode byte = .ok change := by
  have hvalue : ∀ {next : Phase}, Nesting.value depth limit byte next = .ok change →
      Nesting.value depth' limit' byte next = .ok change := by
    intro next h
    unfold Nesting.value at h ⊢
    split
    next hquote => rwa [if_pos hquote] at h
    next hquote =>
      rw [if_neg hquote] at h
      split
      next hopen =>
        rw [if_pos hopen] at h
        by_cases hlimit : depth = limit
        · rw [if_pos hlimit] at h
          cases h
        · rw [if_neg hlimit] at h
          rw [if_neg (hopens hlimit)]
          exact h
      next hopen => rwa [if_neg hopen] at h
  have htransition : Nesting.transition phase depth limit byte = .ok change →
      Nesting.transition phase depth' limit' byte = .ok change := by
    intro h
    unfold Nesting.transition at h ⊢
    by_cases hspace : isWhitespace byte = true
    · rw [if_pos hspace] at h ⊢
      exact h
    rw [if_neg hspace] at h ⊢
    cases phase <;> simp only at h ⊢
    case objectValue | arrayValue => exact hvalue h
    case arrayOpen =>
      split_ifs at h ⊢ with hclose
      · exact h
      · exact hvalue h
    all_goals exact h
  unfold Nesting.change at h ⊢
  have hdepth : depth ≠ 0 := by
    intro hzero
    rw [if_pos hzero] at h
    cases h
  rw [if_neg hdepth] at h
  rw [if_neg hdepth']
  cases mode with
  | structural => exact htransition h
  | string string => exact h
  | atom atom =>
    simp only at h ⊢
    split_ifs at h ⊢ with hbyte
    · exact h
    · cases hfinish : atom.finish with
      | error error => simp [hfinish] at h
      | ok kind =>
        simp only [hfinish] at h ⊢
        exact htransition h
  | admitted quoted escaped => exact htransition h

theorem Frames.step_of_append {limit limit' : ℕ} {inner outer : List Phase} {mode : Mode}
    {byte : UInt8} {next : Frames} (hinner : inner ≠ [])
    (hlength : (inner ++ outer).length ≤ limit) (hlimit : limit ≤ limit' + outer.length)
    (h : Frames.step limit ⟨inner ++ outer, mode⟩ byte = .ok next) :
    ∃ left, next.stack = left ++ outer ∧
      Frames.step limit' ⟨inner, mode⟩ byte = .ok ⟨left, next.mode⟩ := by
  obtain ⟨phase, rest, rfl⟩ := List.exists_cons_of_ne_nil hinner
  rw [List.cons_append, List.length_cons, List.length_append] at hlength
  simp only [Frames.step, List.cons_append, List.length_append] at h ⊢
  cases hchange : Nesting.change phase (rest.length + outer.length + 1) limit mode byte with
  | error error => simp [hchange] at h
  | ok change =>
    simp only [hchange, Except.ok.injEq] at h
    subst h
    rw [Nesting.change_of_change (Nat.succ_ne_zero rest.length) (by omega) hchange]
    cases change with
    | mode next => exact ⟨phase :: rest, rfl, rfl⟩
    | set phase next => exact ⟨phase :: rest, rfl, rfl⟩
    | «open» phase child => exact ⟨child :: phase :: rest, rfl, rfl⟩
    | close => exact ⟨rest, rfl, rfl⟩

/-- The trackers of an element that both walks are inside of: the one that checks again, and the
replay, in a container that is checked. -/
structure Inside (checked again replay : Nesting) : Prop where
  sound : again.Checked
  limit_eq : again.limit = maxDepth
  mode_eq : checked.mode = again.mode
  stack_eq : ∃ outer, checked.frames.stack = again.frames.stack ++ outer
  follows : Follows 0 again.frames replay
  depth_pos : 0 < replay.depth

/-- The walks of both trackers stand at the same place of a container that is checked. -/
inductive Alike (checked : Nesting) : Walk → Walk → Prop
  | element (allowed : Bool) : checked.mode = .structural →
      Alike checked (.element allowed) (.element allowed)
  | delimiter : checked.mode = .structural → Alike checked .delimiter .delimiter
  | group {start : ℕ} {again replay : Nesting} : Inside checked again replay →
      Alike checked (.group start replay) (.group start again)

theorem Frames.mode_of_closed {limit : ℕ} {frames next : Frames} {byte : UInt8}
    (h : frames.step limit byte = .ok next) (hclosed : next.stack = []) :
    next.mode = .structural := by
  obtain ⟨stack, mode⟩ := frames
  cases stack with
  | nil => cases h
  | cons phase rest =>
    simp only [Frames.step] at h
    cases hchange : Nesting.change phase (rest.length + 1) limit mode byte with
    | error error => simp [hchange] at h
    | ok change =>
      simp only [hchange, Except.ok.injEq] at h
      subst h
      cases change with
      | close => rfl
      | _ => cases hclosed

/-- Both trackers of an element complete it at the same byte. -/
theorem Inside.step {checked again replay checked' : Nesting} (h : Inside checked again replay)
    (hsound : checked.Checked) {byte : UInt8}
    (hstep : checked.frames.step checked.limit byte = .ok checked'.frames) :
    ∃ again' replay' done, again.step byte = (again', .ok done) ∧
      replay.step byte = (replay', .ok done) ∧ (done = true → checked'.mode = .structural) ∧
      (done = false → Inside checked' again' replay') := by
  obtain ⟨hagain, hlimit, hmode, ⟨outer, hstack⟩, hfollows, hpos⟩ := h
  have hinner : again.frames.stack ≠ [] := by
    intro hnil
    have hdepth := hfollows.depth_add
    rw [hnil, List.length_nil] at hdepth
    omega
  have hlength : (again.frames.stack ++ outer).length ≤ checked.limit := by
    rw [← hstack]
    exact (Nesting.length_phases _ _).trans_le hsound.depth_le
  have houter : checked.limit ≤ again.limit + outer.length :=
    hlimit ▸ hsound.limit_le.trans (Nat.le_add_right _ _)
  have hframes : checked.frames = ⟨again.frames.stack ++ outer, again.frames.mode⟩ := by
    rw [← hstack, show again.frames.mode = checked.frames.mode from hmode.symm]
  rw [hframes] at hstep
  obtain ⟨left, hleft, hread⟩ := Frames.step_of_append hinner hlength houter hstep
  have hpacked := Nesting.step_frames hagain byte
  rw [hread] at hpacked
  obtain ⟨again', hstepAgain, hnext, hlimit', hsound'⟩ := hpacked
  have hfollows' := hfollows.step hpos hread
  have hreplay := step_admitted hfollows.mode_eq byte
  set replay' := replay.stepAdmitted again.frames.mode.quoted again.frames.mode.escaped byte
  have hdepth : replay'.depth = left.length := hfollows'.depth_add
  refine ⟨again', replay', left.isEmpty, hstepAgain, ?_, fun hdone => ?_, fun hopen => ?_⟩
  · rw [hreplay, hdepth]
    cases left <;> rfl
  · exact Frames.mode_of_closed hread (List.isEmpty_iff.mp hdone)
  · refine ⟨hsound', hlimit'.trans hlimit, (congrArg Frames.mode hnext).symm, ⟨outer, ?_⟩,
      hnext.symm ▸ hfollows', ?_⟩
    · rw [hleft, hnext]
    · rw [hdepth]
      exact List.length_pos_iff.mpr fun hnil => by simp [hnil] at hopen

theorem transition_of_step {checked : Nesting} {next : Frames} (hmode : checked.mode = .structural)
    {byte : UInt8} (hstep : checked.frames.step checked.limit byte = .ok next) :
    ∃ phase rest change,
      Nesting.transition phase (rest.length + 1) checked.limit byte = .ok change ∧
      next = Frames.apply phase rest change := by
  obtain ⟨stack, hstack⟩ : ∃ stack, checked.frames = ⟨stack, .structural⟩ :=
    ⟨checked.frames.stack, by rw [← hmode]; rfl⟩
  rw [hstack] at hstep
  cases stack with
  | nil => cases hstep
  | cons phase rest =>
    simp only [Frames.step, Nesting.change.eq_def, if_neg (Nat.succ_ne_zero _)] at hstep
    cases htransition : Nesting.transition phase (rest.length + 1) checked.limit byte with
    | error error => simp [htransition] at hstep
    | ok change =>
      simp only [htransition, Except.ok.injEq] at hstep
      exact ⟨phase, rest, change, htransition, hstep.symm⟩

theorem structural_of_step {checked checked' : Nesting} (hmode : checked.mode = .structural)
    {byte : UInt8} (hbyte : isWhitespace byte = true ∨ byte = 0x2c)
    (hstep : checked.frames.step checked.limit byte = .ok checked'.frames) :
    checked'.mode = .structural := by
  obtain ⟨phase, rest, change, htransition, hnext⟩ := transition_of_step hmode hstep
  show checked'.frames.mode = .structural
  rw [hnext]
  rcases hbyte with hspace | rfl
  · rw [Nesting.transition.eq_def, if_pos hspace] at htransition
    cases htransition
    rfl
  · rcases Frames.transition_cases htransition (by decide) with ⟨-, rfl⟩ | ⟨-, hquote, -⟩ |
      ⟨next, -, rfl⟩ | ⟨next, -, hvalue⟩
    · rfl
    · exact absurd hquote (by decide)
    · rfl
    · rcases Frames.value_cases hvalue with ⟨hquote, -⟩ | ⟨child, hopens, -⟩ | ⟨atom, -, hnew, -⟩
      · exact absurd hquote (by decide)
      · cases hopens
      · cases hnew

/-- A container that is opened where the walks stand is inside of the one that is checked. -/
theorem inside_of_open {checked checked' : Nesting} (hmode : checked.mode = .structural)
    {byte : UInt8} (hbyte : byte = 0x7b ∨ byte = 0x5b)
    (hstep : checked.frames.step checked.limit byte = .ok checked'.frames) :
    ∃ again, Nesting.startDepth byte .root = .ok again ∧ Inside checked' again .admitted := by
  obtain ⟨phase, rest, change, htransition, hnext⟩ := transition_of_step hmode hstep
  obtain ⟨child, hopens⟩ : ∃ child, opens byte = some child := by
    rcases hbyte with rfl | rfl <;> exact ⟨_, rfl⟩
  obtain ⟨again, hstart, hsound, hlimit, hframes⟩ :=
    startDepth_eq_ok hopens (show Depth.root.value ≠ 0 by decide)
  have hplain : isWhitespace byte = false ∧ byte ≠ 0x22 ∧ closes phase ≠ some byte ∧
      ∀ next, marks phase ≠ some (byte, next) := by
    rcases hbyte with rfl | rfl <;> cases phase <;> simp [closes, marks, isWhitespace]
  have hchange : ∃ next, change = .open next child := by
    rcases Frames.transition_cases htransition hplain.1 with ⟨hclose, -⟩ | ⟨-, hquote, -⟩ |
      ⟨next, hmark, -⟩ | ⟨next, -, hvalue⟩
    · exact absurd hclose hplain.2.2.1
    · exact absurd hquote hplain.2.1
    · exact absurd hmark (hplain.2.2.2 next)
    · rcases Frames.value_cases hvalue with ⟨hquote, -⟩ | ⟨child', hopens', -, rfl⟩ |
        ⟨atom, atom', hnew, -⟩
      · exact absurd hquote hplain.2.1
      · obtain rfl := Option.some.inj (hopens.symm.trans hopens')
        exact ⟨next, rfl⟩
      · rcases hbyte with rfl | rfl <;> cases hnew
  obtain ⟨next, rfl⟩ := hchange
  refine ⟨again, hstart, hsound, hlimit, ?_, ⟨next :: rest, ?_⟩, ⟨?_, ?_, ?_, ?_⟩, Nat.one_pos⟩
  · show checked'.frames.mode = again.frames.mode
    rw [hnext, hframes]
    rfl
  · rw [hnext, hframes]
    rfl
  · rw [hframes]
    rfl
  · rw [hframes]
    rfl
  · rw [hframes]
    rintro string heq
    cases heq
  · rw [hframes]
    simp

/-- The walks go on alike, or the array is behind both. -/
theorem Alike.read {checked checked' : Nesting} {replayed walked : Walk}
    (h : Alike checked replayed walked) (hsound : checked.Checked) {byte : UInt8}
    (hstep : checked.frames.step checked.limit byte = .ok checked'.frames) (index : ℕ) :
    (∃ error, replayed.read true index byte = .error error ∧
      walked.read false index byte = .error error) ∨
    ∃ replayed' walked' found, replayed.read true index byte = .ok (replayed', found) ∧
      walked.read false index byte = .ok (walked', found) ∧
      (replayed' = .trailing ∧ walked' = .trailing ∨ Alike checked' replayed' walked') := by
  cases h with
  | element allowed hmode =>
    simp only [Walk.read]
    by_cases hspace : isWhitespace byte = true
    · rw [if_pos hspace, if_pos hspace]
      exact .inr ⟨_, _, _, rfl, rfl, .inr (.element allowed
        (structural_of_step hmode (.inl hspace) hstep))⟩
    rw [if_neg hspace, if_neg hspace]
    by_cases hclose : allowed = true ∧ byte = 0x5d
    · rw [if_pos hclose, if_pos hclose]
      exact .inr ⟨_, _, _, rfl, rfl, .inl ⟨rfl, rfl⟩⟩
    rw [if_neg hclose, if_neg hclose]
    by_cases hopen : byte = 0x7b ∨ byte = 0x5b
    · rw [if_pos hopen, if_pos hopen]
      obtain ⟨again, hstart, hinside⟩ := inside_of_open hmode hopen hstep
      rw [hstart]
      exact .inr ⟨_, _, _, rfl, rfl, .inr (.group hinside)⟩
    · rw [if_neg hopen, if_neg hopen]
      exact .inl ⟨_, rfl, rfl⟩
  | delimiter hmode =>
    simp only [Walk.read]
    by_cases hspace : isWhitespace byte = true
    · rw [if_pos hspace]
      exact .inr ⟨_, _, _, rfl, rfl, .inr (.delimiter
        (structural_of_step hmode (.inl hspace) hstep))⟩
    rw [if_neg hspace]
    by_cases hcomma : byte = 0x2c
    · rw [if_pos hcomma]
      exact .inr ⟨_, _, _, rfl, rfl, .inr (.element false
        (structural_of_step hmode (.inr hcomma) hstep))⟩
    rw [if_neg hcomma]
    by_cases hclose : byte = 0x5d
    · rw [if_pos hclose]
      exact .inr ⟨_, _, _, rfl, rfl, .inl ⟨rfl, rfl⟩⟩
    · rw [if_neg hclose]
      exact .inl ⟨_, rfl, rfl⟩
  | group hinside =>
    obtain ⟨again', replay', done, hagain, hreplay, hdone, hopen⟩ := hinside.step hsound hstep
    simp only [Walk.read, hagain, hreplay]
    cases done with
    | true => exact .inr ⟨_, _, _, rfl, rfl, .inr (.delimiter (hdone rfl))⟩
    | false => exact .inr ⟨_, _, _, rfl, rfl, .inr (.group (hopen rfl))⟩

theorem elementsFrom_trailing (bytes : Bytes) (index : ℕ) :
    elementsFrom true .trailing index bytes = elementsFrom false .trailing index bytes := by
  induction bytes generalizing index with
  | nil => rfl
  | cons byte bytes ih =>
    simp only [elementsFrom, Walk.read]
    by_cases hspace : isWhitespace byte = true
    · simp only [if_pos hspace, ih]
    · simp only [if_neg hspace]

theorem Alike.elementsFrom {base : ℕ} {checked : Nesting} {replayed walked : Walk} {bytes : Bytes}
    (h : Alike checked replayed walked) (hsound : checked.Checked)
    (hcloses : checked.closesAt base bytes = true) (index : ℕ) :
    elementsFrom true replayed index bytes = elementsFrom false walked index bytes := by
  induction bytes generalizing checked replayed walked index with
  | nil => cases hcloses
  | cons byte rest ih =>
    obtain ⟨checked', hstep, hsound', hnext⟩ := Nesting.closesAt_cons hsound hcloses
    simp only [Json.elementsFrom]
    rcases h.read hsound hstep index with ⟨error, hreplayed, hwalked⟩ |
      ⟨replayed', walked', found, hreplayed, hwalked, halike⟩
    · rw [hreplayed, hwalked]
    · rw [hreplayed, hwalked]
      dsimp only
      rcases halike with ⟨rfl, rfl⟩ | halike
      · rw [elementsFrom_trailing]
      · rcases hnext with ⟨-, rfl⟩ | ⟨-, hcloses'⟩
        · cases halike <;> rfl
        · rw [ih halike hsound' hcloses']

/-! ## Main results -/

end Sark.Json
