import Sark.Json.Atom
import Sark.Json.Text

/-!
# Containers

`json/src/nesting.rs` tracks nested containers with four grammar bits per level, packed into eight
machine words. `Frames` is the same tracker with its stack as a list, top first, and
`Nesting.step_frames` says that the packed tracker takes the steps of the list tracker.
-/

namespace Sark.Json

/-- `MAX_DEPTH`. -/
def maxDepth : ℕ :=
  128

/-- `parsing::Depth`: how many more containers may be opened. Values above `MAX_DEPTH` cannot be
built: `Depth::ROOT` is the maximum and `Depth::child` only decreases. -/
structure Depth where
  value : ℕ
  value_le : value ≤ maxDepth
  deriving DecidableEq, Repr

/-- The grammar position inside one container. -/
inductive Phase
  | objectOpen
  | objectKey
  | objectColon
  | objectValue
  | objectNext
  | arrayOpen
  | arrayValue
  | arrayNext
  deriving DecidableEq, Repr

/-- `phase as u8`. -/
def Phase.code : Phase → ℕ
  | .objectOpen => 0
  | .objectKey => 1
  | .objectColon => 2
  | .objectValue => 3
  | .objectNext => 4
  | .arrayOpen => 5
  | .arrayValue => 6
  | .arrayNext => 7

/-- `PHASES[code & 7]`. -/
def Phase.ofCode (code : ℕ) : Phase :=
  match code with
  | 0 => .objectOpen
  | 1 => .objectKey
  | 2 => .objectColon
  | 3 => .objectValue
  | 4 => .objectNext
  | 5 => .arrayOpen
  | 6 => .arrayValue
  | _ => .arrayNext

@[simp]
theorem Phase.ofCode_code (phase : Phase) : Phase.ofCode phase.code = phase := by
  cases phase <;> rfl

theorem Phase.code_lt (phase : Phase) : phase.code < 8 := by
  cases phase <;> decide

/-- What the bytes of the current level belong to. -/
inductive Mode
  | structural
  | string (string : StringScan)
  | atom (atom : Atom)
  | admitted (quoted escaped : Bool)
  deriving DecidableEq, Repr

/-- What a validated byte does to the tracker. -/
inductive Change
  | mode (mode : Mode)
  | set (phase : Phase) (mode : Mode)
  | open (phase child : Phase)
  | close
  deriving DecidableEq, Repr

/-- Four grammar bits per container, with no input owner or borrowed segment. -/
structure Nesting where
  stack : Fin 8 → BitVec 64
  depth : ℕ
  limit : ℕ
  mode : Mode

namespace Nesting

/-- The word and the shift that `Nesting::top` finds for a level. -/
def wordIndex (level : ℕ) : Fin 8 :=
  Fin.ofNat 8 (level / 16)

/-- The bit position of a level inside its word. -/
def shift (level : ℕ) : ℕ :=
  level % 16 * 4

/-- The phase stored for a level, counted from the outermost container. -/
def phaseAt (stack : Fin 8 → BitVec 64) (level : ℕ) : Phase :=
  Phase.ofCode ((stack (wordIndex level) >>> shift level) &&& 7#64).toNat

/-- Store the phase of a level. -/
def setAt (stack : Fin 8 → BitVec 64) (level : ℕ) (phase : Phase) : Fin 8 → BitVec 64 :=
  Function.update stack (wordIndex level)
    ((stack (wordIndex level) &&& ~~~(15#64 <<< shift level)) |||
      (BitVec.ofNat 64 phase.code <<< shift level))

/-- `Nesting::phase`: the phase of the innermost container. -/
def phase (self : Nesting) : Phase :=
  phaseAt self.stack (self.depth - 1)

/-- `Nesting::set`. -/
def set (self : Nesting) (phase : Phase) : Nesting :=
  { self with stack := setAt self.stack (self.depth - 1) phase }

/-- `Nesting::start_depth`. -/
def startDepth (first : UInt8) (depth : Depth) : Except Error Nesting :=
  if depth.value = 0 then .error .depth
  else
    let nesting : Nesting := ⟨fun _ => 0, 1, depth.value, .structural⟩
    if first = 0x7b then .ok (nesting.set .objectOpen)
    else if first = 0x5b then .ok (nesting.set .arrayOpen)
    else .error .invalid

/-- `Nesting::admitted`: replay of a compound that was checked before. -/
def admitted : Nesting :=
  ⟨fun _ => 0, 1, maxDepth, .admitted false false⟩

/-- `Nesting::skip`: a run that leaves the current grammar state unchanged. -/
def skip (self : Nesting) (chunk : Bytes) : Bytes :=
  match self.mode with
  | .string string => string.skip chunk
  | .structural => chunk.takeWhile isWhitespace
  | .atom _ => []
  | .admitted quoted escaped =>
    if escaped then []
    else if quoted then chunk.takeWhile fun byte => !(byte == 0x22 || byte == 0x5c)
    else
      chunk.takeWhile fun byte =>
        !(byte == 0x22 || byte == 0x7b || byte == 0x5b || byte == 0x7d || byte == 0x5d)

/-- `Nesting::value`: the first byte of a value at a depth; `phase` is where its container stands
after it. -/
def value (depth limit : ℕ) (byte : UInt8) (phase : Phase) : Except Error Change :=
  if byte = 0x22 then .ok (.set phase (.string .new))
  else if byte = 0x7b ∨ byte = 0x5b then
    if depth = limit then .error .depth
    else .ok (.open phase (if byte = 0x7b then .objectOpen else .arrayOpen))
  else do
    let atom ← Atom.new byte false
    let atom ← atom.step byte
    .ok (.set phase (.atom atom))

/-- `Nesting::transition`: a structural byte in a phase of the innermost container. -/
def transition (phase : Phase) (depth limit : ℕ) (byte : UInt8) : Except Error Change :=
  if isWhitespace byte then .ok (.mode .structural)
  else
    match phase with
    | .objectOpen =>
      if byte = 0x7d then .ok .close
      else if byte ≠ 0x22 then .error .invalid
      else .ok (.set .objectColon (.string .new))
    | .objectKey =>
      if byte ≠ 0x22 then .error .invalid else .ok (.set .objectColon (.string .new))
    | .objectColon =>
      if byte ≠ 0x3a then .error .invalid else .ok (.set .objectValue .structural)
    | .objectNext =>
      if byte = 0x7d then .ok .close
      else if byte = 0x2c then .ok (.set .objectKey .structural)
      else .error .invalid
    | .arrayOpen => if byte = 0x5d then .ok .close else value depth limit byte .arrayNext
    | .arrayNext =>
      if byte = 0x5d then .ok .close
      else if byte = 0x2c then .ok (.set .arrayValue .structural)
      else .error .invalid
    | .objectValue => value depth limit byte .objectNext
    | .arrayValue => value depth limit byte .arrayNext

/-- The transition of a checked tracker, validated but not yet committed. -/
def change (phase : Phase) (depth limit : ℕ) (mode : Mode) (byte : UInt8) : Except Error Change :=
  if depth = 0 then .error .invalid
  else
    match mode with
    | .string string =>
      match string.step byte with
      | .error error => .error error
      | .ok none => .ok (.mode .structural)
      | .ok (some (string, _)) => .ok (.mode (.string string))
    | .atom atom =>
      if !isDelimiter byte then
        match atom.step byte with
        | .error error => .error error
        | .ok atom => .ok (.mode (.atom atom))
      else
        match atom.finish with
        | .error error => .error error
        | .ok _ => transition phase depth limit byte
    | _ => transition phase depth limit byte

/-- Commit a validated transition. -/
def commit (self : Nesting) : Change → Nesting
  | .mode mode => { self with mode }
  | .set phase mode => { self.set phase with mode }
  | .open phase child =>
    let parent := self.set phase
    { Nesting.set { parent with depth := parent.depth + 1 } child with mode := .structural }
  | .close => { self with depth := self.depth - 1, mode := .structural }

/-- The bytes of a compound that was checked before only move the quotes and the depth. -/
def stepAdmitted (self : Nesting) (quoted escaped : Bool) (byte : UInt8) : Nesting :=
  if escaped then { self with mode := .admitted quoted false }
  else if quoted then
    if byte = 0x5c then { self with mode := .admitted quoted true }
    else if byte = 0x22 then { self with mode := .admitted false escaped }
    else self
  else if byte = 0x22 then { self with mode := .admitted true escaped }
  else if byte = 0x7b ∨ byte = 0x5b then { self with depth := self.depth + 1 }
  else if byte = 0x7d ∨ byte = 0x5d then { self with depth := self.depth - 1 }
  else self

/-- `Nesting::step`: the tracker after one byte, and whether the outermost container closed. -/
def step (self : Nesting) (byte : UInt8) : Nesting × Except Error Bool :=
  match self.mode with
  | .admitted quoted escaped =>
    let next := self.stepAdmitted quoted escaped byte
    (next, .ok (next.depth == 0))
  | _ =>
    match change self.phase self.depth self.limit self.mode byte with
    | .error error => (self, .error error)
    | .ok change =>
      let next := self.commit change
      (next, .ok (next.depth == 0))

theorem step_error {self : Nesting} {byte : UInt8} {error : Error}
    (h : (self.step byte).2 = .error error) : (self.step byte).1 = self := by
  unfold step at h ⊢
  cases hmode : self.mode <;> simp only [hmode] at h ⊢
  case admitted => simp at h
  all_goals split at h <;> simp_all

/-! ## The packed stack -/

theorem testBit_mask (w i : ℕ) : (2 ^ w - 1).testBit i = decide (i < w) := by
  rw [Nat.testBit_two_pow_sub_one]

/-- The three low bits of a field after one field was overwritten. -/
theorem field_eq (word : BitVec 64) (phase : Phase) {s t : ℕ} (hs : s + 4 ≤ 64) (ht : t + 4 ≤ 64)
    (hst : s = t ∨ s + 4 ≤ t ∨ t + 4 ≤ s) :
    (((word &&& ~~~(15#64 <<< s)) ||| (BitVec.ofNat 64 phase.code <<< s)) >>> t) &&& 7#64 =
      if s = t then BitVec.ofNat 64 phase.code else (word >>> t) &&& 7#64 := by
  have hcode : ∀ i, 3 ≤ i → phase.code.testBit i = false := fun i hi =>
    Nat.testBit_lt_two_pow (phase.code_lt.trans_le (Nat.pow_le_pow_right (n := 2) (by norm_num) hi))
  apply BitVec.eq_of_getLsbD_eq
  intro i hi
  have h7 : (7#64).getLsbD i = decide (i < 3) := by
    rw [BitVec.getLsbD_ofNat, show (7 : ℕ) = 2 ^ 3 - 1 by rfl, testBit_mask]
    simp [hi]
  have h15 : ∀ j, (15#64).getLsbD j = (decide (j < 64) && decide (j < 4)) := by
    intro j
    rw [BitVec.getLsbD_ofNat, show (15 : ℕ) = 2 ^ 4 - 1 by rfl, testBit_mask]
  rw [BitVec.getLsbD_and, h7, BitVec.getLsbD_ushiftRight, BitVec.getLsbD_or, BitVec.getLsbD_and,
    BitVec.getLsbD_not, BitVec.getLsbD_shiftLeft, BitVec.getLsbD_shiftLeft, h15,
    BitVec.getLsbD_ofNat]
  by_cases hlow : i < 3
  · rcases hst with rfl | hst
    · have : s + i < 64 := by omega
      rw [if_pos rfl, BitVec.getLsbD_ofNat]
      simp [hlow, this, show i < 4 by omega, hi]
    · have hne : s ≠ t := by omega
      rw [if_neg hne, BitVec.getLsbD_and, h7, BitVec.getLsbD_ushiftRight]
      rcases hst with hst | hst
      · have : ¬(t + i - s < 4) := by omega
        simp [hlow, this, hcode (t + i - s) (by omega)]
        omega
      · have : t + i < s := by omega
        simp [hlow, this]
        omega
  · by_cases heq : s = t
    · simp [hlow, heq, BitVec.getLsbD_ofNat, hcode i (by omega)]
    · simp [hlow, heq, h7]

theorem phaseAt_setAt (stack : Fin 8 → BitVec 64) {level other : ℕ} (hlevel : level < 128)
    (hother : other < 128) (phase : Phase) :
    phaseAt (setAt stack level phase) other =
      if other = level then phase else phaseAt stack other := by
  unfold phaseAt setAt
  by_cases hword : wordIndex other = wordIndex level
  · have hsame : other / 16 = level / 16 := by
      simp only [wordIndex, Fin.ofNat, Fin.mk.injEq] at hword
      omega
    rw [hword, Function.update_self, field_eq _ _ (by unfold shift; omega) (by unfold shift; omega)
      (by unfold shift; omega)]
    have hshift : shift level = shift other ↔ other = level := by
      unfold shift
      omega
    by_cases heq : other = level
    · rw [if_pos (hshift.mpr heq), if_pos heq, BitVec.toNat_ofNat,
        Nat.mod_eq_of_lt (phase.code_lt.trans (by norm_num)), Phase.ofCode_code]
    · rw [if_neg (mt hshift.mp heq), if_neg heq]
  · have hne : other ≠ level := by
      rintro rfl
      exact hword rfl
    rw [Function.update_of_ne hword, if_neg hne]

/-- The phases of the open containers, innermost first. -/
def phases (stack : Fin 8 → BitVec 64) : ℕ → List Phase
  | 0 => []
  | depth + 1 => phaseAt stack depth :: phases stack depth

@[simp]
theorem length_phases (stack : Fin 8 → BitVec 64) (depth : ℕ) :
    (phases stack depth).length = depth := by
  induction depth with
  | zero => rfl
  | succ depth ih => simp [phases, ih]

theorem phases_setAt (stack : Fin 8 → BitVec 64) {level depth : ℕ} (hle : depth ≤ level)
    (hlt : level < 128) (phase : Phase) :
    phases (setAt stack level phase) depth = phases stack depth := by
  induction depth with
  | zero => rfl
  | succ depth ih =>
    rw [phases, phases, ih (by omega), phaseAt_setAt _ hlt (by omega), if_neg (by omega)]

theorem phases_setAt_self (stack : Fin 8 → BitVec 64) {level : ℕ} (hlt : level < 128)
    (phase : Phase) :
    phases (setAt stack level phase) (level + 1) = phase :: phases stack level := by
  rw [phases, phaseAt_setAt _ hlt hlt, if_pos rfl, phases_setAt _ le_rfl hlt]

end Nesting

/-! ## The tracker with a list for its stack -/

/-- Open containers, innermost first, with the mode of the innermost. -/
structure Frames where
  stack : List Phase
  mode : Mode
  deriving DecidableEq, Repr

/-- What a transition does to the innermost container. -/
def Frames.apply (phase : Phase) (rest : List Phase) : Change → Frames
  | .mode next => ⟨phase :: rest, next⟩
  | .set phase next => ⟨phase :: rest, next⟩
  | .open phase child => ⟨child :: phase :: rest, .structural⟩
  | .close => ⟨rest, .structural⟩

/-- One byte. -/
def Frames.step (limit : ℕ) (self : Frames) (byte : UInt8) : Except Error Frames :=
  match self.stack with
  | [] => .error .invalid
  | phase :: rest =>
    match Nesting.change phase (rest.length + 1) limit self.mode byte with
    | .error error => .error error
    | .ok change => .ok (Frames.apply phase rest change)

namespace Nesting

/-- A tracker of unchecked input, within its limit. -/
structure Checked (nesting : Nesting) : Prop where
  depth_le : nesting.depth ≤ nesting.limit
  limit_le : nesting.limit ≤ maxDepth
  mode_ne : ∀ quoted escaped, nesting.mode ≠ .admitted quoted escaped

/-- The list view of a tracker. -/
def frames (self : Nesting) : Frames :=
  ⟨phases self.stack self.depth, self.mode⟩

/-- What a validated transition promises: a container is opened only within the limit, and the
replay mode is never entered. -/
def Sound (depth limit : ℕ) : Change → Prop
  | .mode next => ∀ quoted escaped, next ≠ .admitted quoted escaped
  | .set _ next => ∀ quoted escaped, next ≠ .admitted quoted escaped
  | .open _ _ => depth ≠ limit
  | .close => True

theorem sound_value {depth limit : ℕ} {byte : UInt8} {phase : Phase} {change : Change}
    (h : value depth limit byte phase = .ok change) : Sound depth limit change := by
  unfold value at h
  split at h
  · cases h
    simp [Sound]
  split at h
  · split at h
    · cases h
    · cases h
      assumption
  · obtain ⟨atom, -, h⟩ := Except.bind_eq_ok_iff.mp h
    obtain ⟨atom, -, h⟩ := Except.bind_eq_ok_iff.mp h
    cases h
    simp [Sound]

theorem sound_transition {phase : Phase} {depth limit : ℕ} {byte : UInt8} {change : Change}
    (h : transition phase depth limit byte = .ok change) : Sound depth limit change := by
  unfold transition at h
  split at h
  · cases h
    simp [Sound]
  cases phase <;> simp only at h
  case objectValue | arrayValue => exact sound_value h
  case arrayOpen =>
    split at h
    · cases h
      trivial
    · exact sound_value h
  all_goals split_ifs at h <;> cases h <;> simp [Sound]

theorem sound_change {phase : Phase} {depth limit : ℕ} {mode : Mode} {byte : UInt8}
    {result : Change} (hmode : ∀ quoted escaped, mode ≠ .admitted quoted escaped)
    (h : change phase depth limit mode byte = .ok result) : Sound depth limit result := by
  unfold change at h
  split at h
  · cases h
  cases mode with
  | structural => exact sound_transition h
  | string string =>
    simp only at h
    split at h <;> cases h <;> simp [Sound]
  | atom atom =>
    simp only at h
    split at h
    · split at h <;> cases h
      simp [Sound]
    · split at h
      · cases h
      · exact sound_transition h
  | admitted quoted escaped => exact absurd rfl (hmode quoted escaped)

theorem frames_commit {self : Nesting} (h : self.Checked) (hdepth : self.depth ≠ 0)
    {change : Change} (hsound : Sound self.depth self.limit change) :
    (self.commit change).frames =
        Frames.apply self.phase (phases self.stack (self.depth - 1)) change ∧
      (self.commit change).limit = self.limit ∧ (self.commit change).Checked := by
  obtain ⟨stack, depth, limit, mode⟩ := self
  obtain ⟨hle, hlimit, hmode⟩ := h
  simp only [maxDepth] at *
  obtain ⟨depth, rfl⟩ := Nat.exists_eq_succ_of_ne_zero hdepth
  cases change with
  | mode next => exact ⟨rfl, rfl, hle, hlimit, hsound⟩
  | set phase next =>
    refine ⟨?_, rfl, hle, hlimit, hsound⟩
    simp only [commit, set, frames, Frames.apply, Nat.succ_sub_one]
    rw [phases_setAt_self _ (by omega)]
  | «open» phase child =>
    simp only [Sound] at hsound
    refine ⟨?_, rfl, by simp only [commit, set]; omega, hlimit, by simp [commit]⟩
    simp only [commit, set, frames, Frames.apply, Nat.succ_sub_one]
    rw [phases_setAt_self _ (by omega), phases_setAt_self _ (by omega)]
  | close =>
    refine ⟨rfl, rfl, by simp only [commit]; omega, hlimit, by simp [commit]⟩

/-- The packed tracker takes the steps of the list tracker. -/
theorem step_frames {self : Nesting} (h : self.Checked) (byte : UInt8) :
    match self.frames.step self.limit byte with
    | .error error => self.step byte = (self, .error error)
    | .ok next => ∃ nesting : Nesting, self.step byte = (nesting, .ok next.stack.isEmpty) ∧
        nesting.frames = next ∧ nesting.limit = self.limit ∧ nesting.Checked := by
  have hstep : self.step byte =
      match change self.phase self.depth self.limit self.mode byte with
      | .error error => (self, .error error)
      | .ok change => (self.commit change, .ok ((self.commit change).depth == 0)) := by
    unfold step
    cases hmode : self.mode with
    | admitted quoted escaped => exact absurd hmode (h.mode_ne quoted escaped)
    | _ => rfl
  rw [hstep]
  by_cases hdepth : self.depth = 0
  · have hframes : self.frames.stack = [] := by simp [frames, hdepth, phases]
    simp only [Frames.step, hframes, change, hdepth, if_true]
  · have hframes : self.frames.stack = self.phase :: phases self.stack (self.depth - 1) := by
      obtain ⟨depth, hsucc⟩ := Nat.exists_eq_succ_of_ne_zero hdepth
      simp [frames, phase, hsucc, phases]
    have hlength : (phases self.stack (self.depth - 1)).length + 1 = self.depth := by
      rw [length_phases]
      omega
    simp only [Frames.step, hframes, hlength, show self.frames.mode = self.mode from rfl]
    cases hchange : change self.phase self.depth self.limit self.mode byte with
    | error error => rfl
    | ok result =>
      obtain ⟨hframes', hlimit', hchecked'⟩ :=
        frames_commit h hdepth (sound_change h.mode_ne hchange)
      refine ⟨self.commit result, ?_, hframes', hlimit', hchecked'⟩
      simp only [← hframes', frames]
      cases hdepth' : (self.commit result).depth <;> simp [phases]

end Nesting

end Sark.Json
