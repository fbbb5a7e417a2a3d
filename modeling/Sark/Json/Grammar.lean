import Sark.Json.Nesting

/-!
# The grammar of JSON values

`Grammar nonterminal depth bytes` is the value grammar of RFC 8259, with the container depth as a
bound. The tracker of `Sark.Json.Nesting` does not follow this grammar literally: it reads a
container from left to right and only knows what may come next. `Derives` is the grammar in that
reading, where `Goal.rest phase` derives the bytes that remain of a container in a phase.

* `Frames.drive_iff`: the tracker accepts exactly what `Derives` derives.
* `derives_value_iff`: the two grammars derive the same values.
-/

namespace Sark.Json

/-! ## RFC 8259 -/

/-- Insignificant whitespace. -/
def Ws (bytes : Bytes) : Prop :=
  ∀ byte ∈ bytes, isWhitespace byte = true

/-- The nonterminals of the grammar that contain values. -/
inductive Nonterminal
  | value
  | elements
  | members
  deriving DecidableEq, Repr

/-- The values of container depth at most `depth`, the lists of array elements and the lists of
object members. -/
inductive Grammar : Nonterminal → ℕ → Bytes → Prop
  | atom {depth : ℕ} {bytes : Bytes} : AtomText bytes → Grammar .value depth bytes
  | string {depth : ℕ} {content : Bytes} {chars : List Char} : Content content chars →
      Grammar .value depth (0x22 :: (content ++ [0x22]))
  | emptyArray {depth : ℕ} {ws : Bytes} : Ws ws → Grammar .value (depth + 1) (0x5b :: (ws ++ [0x5d]))
  | array {depth : ℕ} {elements : Bytes} : Grammar .elements depth elements →
      Grammar .value (depth + 1) (0x5b :: (elements ++ [0x5d]))
  | emptyObject {depth : ℕ} {ws : Bytes} : Ws ws → Grammar .value (depth + 1) (0x7b :: (ws ++ [0x7d]))
  | object {depth : ℕ} {members : Bytes} : Grammar .members depth members →
      Grammar .value (depth + 1) (0x7b :: (members ++ [0x7d]))
  | element {depth : ℕ} {w₁ value w₂ : Bytes} : Ws w₁ → Grammar .value depth value → Ws w₂ →
      Grammar .elements depth (w₁ ++ (value ++ w₂))
  | elements {depth : ℕ} {w₁ value w₂ rest : Bytes} : Ws w₁ → Grammar .value depth value → Ws w₂ →
      Grammar .elements depth rest → Grammar .elements depth (w₁ ++ (value ++ (w₂ ++ 0x2c :: rest)))
  | member {depth : ℕ} {w₁ key w₂ w₃ value w₄ : Bytes} {chars : List Char} : Ws w₁ →
      Content key chars → Ws w₂ → Ws w₃ → Grammar .value depth value → Ws w₄ →
      Grammar .members depth (w₁ ++ 0x22 :: (key ++ 0x22 :: (w₂ ++ 0x3a :: (w₃ ++ (value ++ w₄)))))
  | members {depth : ℕ} {w₁ key w₂ w₃ value w₄ rest : Bytes} {chars : List Char} : Ws w₁ →
      Content key chars → Ws w₂ → Ws w₃ → Grammar .value depth value → Ws w₄ →
      Grammar .members depth rest →
      Grammar .members depth
        (w₁ ++ 0x22 :: (key ++ 0x22 :: (w₂ ++ 0x3a :: (w₃ ++ (value ++ (w₄ ++ 0x2c :: rest))))))

/-! ## The same grammar, from left to right -/

/-- The phase behind an opening byte. -/
def opens : UInt8 → Option Phase := fun byte =>
  if byte = 0x7b then some .objectOpen else if byte = 0x5b then some .arrayOpen else none

/-- The byte that may close a container in a phase. -/
def closes : Phase → Option UInt8
  | .objectOpen | .objectNext => some 0x7d
  | .arrayOpen | .arrayNext => some 0x5d
  | _ => none

/-- The separator that may follow in a phase, and the phase behind it. -/
def marks : Phase → Option (UInt8 × Phase)
  | .objectColon => some (0x3a, .objectValue)
  | .objectNext => some (0x2c, .objectKey)
  | .arrayNext => some (0x2c, .arrayValue)
  | _ => none

/-- The phase behind a value, in the phases where a value may follow. -/
def takes : Phase → Option Phase
  | .objectValue => some .objectNext
  | .arrayOpen | .arrayValue => some .arrayNext
  | _ => none

/-- What is to be derived: a value, or the rest of a container from a phase on. -/
inductive Goal
  | value
  | rest (phase : Phase)
  deriving DecidableEq, Repr

/-- The bytes of a goal, with at most `depth` nested containers inside. -/
inductive Derives : ℕ → Goal → Bytes → Prop
  | atom {depth : ℕ} {bytes : Bytes} : AtomText bytes → Derives depth .value bytes
  | string {depth : ℕ} {content : Bytes} {chars : List Char} : Content content chars →
      Derives depth .value (0x22 :: (content ++ [0x22]))
  | group {depth : ℕ} {byte : UInt8} {phase : Phase} {bytes : Bytes} : opens byte = some phase →
      Derives depth (.rest phase) bytes → Derives (depth + 1) .value (byte :: bytes)
  | space {depth : ℕ} {byte : UInt8} {phase : Phase} {bytes : Bytes} : isWhitespace byte = true →
      Derives depth (.rest phase) bytes → Derives depth (.rest phase) (byte :: bytes)
  | close {depth : ℕ} {byte : UInt8} {phase : Phase} : closes phase = some byte →
      Derives depth (.rest phase) [byte]
  | key {depth : ℕ} {phase : Phase} {content bytes : Bytes} {chars : List Char} :
      phase = .objectOpen ∨ phase = .objectKey → Content content chars →
      Derives depth (.rest .objectColon) bytes →
      Derives depth (.rest phase) (0x22 :: (content ++ 0x22 :: bytes))
  | mark {depth : ℕ} {byte : UInt8} {phase next : Phase} {bytes : Bytes} :
      marks phase = some (byte, next) → Derives depth (.rest next) bytes →
      Derives depth (.rest phase) (byte :: bytes)
  | value {depth : ℕ} {phase next : Phase} {value bytes : Bytes} : takes phase = some next →
      Derives depth .value value → Derives depth (.rest next) bytes →
      Derives depth (.rest phase) (value ++ bytes)

/-! ## The tracker accepts the grammar -/

namespace Frames

/-- Step until the outermost container closes; what follows it. -/
def drive (limit : ℕ) (self : Frames) : Bytes → Except Error Bytes
  | [] => .error .invalid
  | byte :: rest =>
    match self.step limit byte with
    | .error error => .error error
    | .ok next => if next.stack.isEmpty then .ok rest else drive limit next rest

/-- Go on with the enclosing containers, if there are any. -/
def resume (limit : ℕ) (stack : List Phase) (rest : Bytes) : Except Error Bytes :=
  if stack.isEmpty then .ok rest else drive limit ⟨stack, .structural⟩ rest

variable {limit : ℕ} {phase : Phase} {stack : List Phase}

theorem drive_structural {byte : UInt8} {rest : Bytes} :
    drive limit ⟨phase :: stack, .structural⟩ (byte :: rest) =
      match Nesting.transition phase (stack.length + 1) limit byte with
      | .error error => .error error
      | .ok change =>
        if (Frames.apply phase stack change).stack.isEmpty then .ok rest
        else drive limit (Frames.apply phase stack change) rest := by
  simp only [drive, step, Nesting.change, Nat.add_eq_zero_iff, one_ne_zero, and_false, if_false]
  cases Nesting.transition phase (stack.length + 1) limit byte <;> rfl

theorem drive_string (string : StringScan) (bytes : Bytes) :
    drive limit ⟨phase :: stack, .string string⟩ bytes =
      match string.scan bytes with
      | .error error => .error error
      | .ok (_, _, rest) => drive limit ⟨phase :: stack, .structural⟩ rest := by
  induction bytes generalizing string with
  | nil => rfl
  | cons byte bytes ih =>
    simp only [drive, step, Nesting.change, Nat.add_eq_zero_iff, one_ne_zero, and_false, if_false,
      StringScan.scan]
    cases hstep : string.step byte with
    | error error => simp
    | ok result =>
      cases result with
      | none => simp [Frames.apply]
      | some result =>
        obtain ⟨next, output⟩ := result
        simp only [Frames.apply, List.isEmpty_cons, Bool.false_eq_true, if_false, ih]
        cases next.scan bytes <;> rfl

theorem drive_atom_append {atom : Atom} {bytes rest : Bytes} {byte : UInt8}
    (h : atom.Completes bytes) (hbyte : isDelimiter byte = true) :
    drive limit ⟨phase :: stack, .atom atom⟩ (bytes ++ byte :: rest) =
      drive limit ⟨phase :: stack, .structural⟩ (byte :: rest) := by
  induction bytes generalizing atom with
  | nil =>
    obtain ⟨kind, hfinish⟩ := h
    rw [List.nil_append, drive_structural]
    simp only [drive, step, Nesting.change, Nat.add_eq_zero_iff, one_ne_zero, and_false, if_false,
      hbyte, Bool.not_true, Bool.false_eq_true, hfinish]
    cases Nesting.transition phase (stack.length + 1) limit byte <;> rfl
  | cons first bytes ih =>
    obtain ⟨next, hstep, hrest⟩ := h
    have hfirst := Atom.isDelimiter_of_step hstep
    simp only [List.cons_append, drive, step, Nesting.change, Nat.add_eq_zero_iff, one_ne_zero,
      and_false, if_false, hfirst, Bool.not_false, if_true, hstep, Frames.apply,
      List.isEmpty_cons, Bool.false_eq_true]
    exact ih hrest

theorem completes_of_drive {atom : Atom} {bytes out : Bytes}
    (h : drive limit ⟨phase :: stack, .atom atom⟩ bytes = .ok out) :
    ∃ text byte rest, atom.Completes text ∧ isDelimiter byte = true ∧
      bytes = text ++ byte :: rest := by
  induction bytes generalizing atom with
  | nil => simp [drive] at h
  | cons byte bytes ih =>
    by_cases hbyte : isDelimiter byte = true
    · cases hfinish : atom.finish with
      | error error =>
        simp [drive, step, Nesting.change, hbyte, hfinish] at h
      | ok kind => exact ⟨[], byte, bytes, ⟨kind, hfinish⟩, hbyte, rfl⟩
    · cases hstep : atom.step byte with
      | error error => simp [drive, step, Nesting.change, hbyte, hstep] at h
      | ok next =>
        simp only [drive, step, Nesting.change, Nat.add_eq_zero_iff, one_ne_zero, and_false,
          if_false, hbyte, Bool.not_false, if_true, hstep, Frames.apply, List.isEmpty_cons,
          Bool.false_eq_true] at h
        obtain ⟨text, delimiter, rest, htext, hdelim, rfl⟩ := ih h
        exact ⟨byte :: text, delimiter, rest, ⟨next, hstep, htext⟩, hdelim, rfl⟩

/-- In a phase where a value may follow, any byte but whitespace and a closing bracket starts one. -/
theorem transition_takes {next : Phase} {depth : ℕ} {byte : UInt8} (h : takes phase = some next)
    (hspace : isWhitespace byte = false) (hclose : byte ≠ 0x5d) :
    Nesting.transition phase depth limit byte = Nesting.value depth limit byte next := by
  cases phase <;> cases h <;> simp [Nesting.transition, hspace, hclose]

theorem delimiter_of_derives {next : Phase} {depth : ℕ} {bytes : Bytes} (htakes : takes phase = some next)
    (h : Derives depth (.rest next) bytes) :
    ∃ byte rest, bytes = byte :: rest ∧ isDelimiter byte = true := by
  have hnext : next = .objectNext ∨ next = .arrayNext := by
    cases phase <;> simp [takes] at htakes <;> simp [← htakes]
  cases h with
  | space hspace => exact ⟨_, _, rfl, by simp [isDelimiter, hspace]⟩
  | close hclose =>
    refine ⟨_, _, rfl, ?_⟩
    rcases hnext with rfl | rfl <;> cases hclose <;> decide
  | key hphase =>
    rcases hnext with rfl | rfl <;> simp at hphase
  | mark hmark =>
    refine ⟨_, _, rfl, ?_⟩
    rcases hnext with rfl | rfl <;> cases hmark <;> decide
  | value htakes =>
    rcases hnext with rfl | rfl <;> cases htakes

/-- What the tracker does with the bytes of a goal. -/
def Reads (limit depth : ℕ) (bytes : Bytes) : Goal → Prop
  | .rest phase => ∀ (stack : List Phase) (rest : Bytes), stack.length + 1 + depth ≤ limit →
      drive limit ⟨phase :: stack, .structural⟩ (bytes ++ rest) = resume limit stack rest
  | .value => ∀ (phase next : Phase) (stack : List Phase) (byte : UInt8) (rest : Bytes),
      takes phase = some next → isDelimiter byte = true → stack.length + 1 + depth ≤ limit →
      drive limit ⟨phase :: stack, .structural⟩ (bytes ++ byte :: rest) =
        drive limit ⟨next :: stack, .structural⟩ (byte :: rest)

theorem reads_atom {depth : ℕ} {bytes : Bytes} (h : AtomText bytes) :
    Reads limit depth bytes .value := by
  intro phase next stack byte rest htakes hbyte _
  cases bytes with
  | nil => exact absurd rfl h.ne_nil
  | cons first bytes =>
    obtain ⟨atom, hnew, atom', hstep, hcompletes⟩ :=
      (@Atom.completes_new_iff _ _ false).mpr h
    have hdelimiter := Atom.isDelimiter_of_step hstep
    have hspace : isWhitespace first = false := by
      simp only [isDelimiter, Bool.or_eq_false_iff] at hdelimiter
      exact hdelimiter.1.1.1
    have hne : first ≠ 0x5d ∧ first ≠ 0x22 ∧ ¬(first = 0x7b ∨ first = 0x5b) := by
      refine ⟨?_, ?_, ?_⟩
      · rintro rfl
        simp [isDelimiter] at hdelimiter
      · rintro rfl
        simp [Atom.new, isDigit] at hnew
      · rintro (rfl | rfl) <;> simp [Atom.new, isDigit] at hnew
    rw [List.cons_append, drive_structural, transition_takes htakes hspace hne.1]
    simp only [Nesting.value, hne.2.1, hne.2.2, if_false, hnew, hstep, bind, Except.bind,
      Frames.apply, List.isEmpty_cons, Bool.false_eq_true]
    exact drive_atom_append hcompletes hbyte

theorem reads_string {depth : ℕ} {content : Bytes} {chars : List Char} (h : Content content chars) :
    Reads limit depth (0x22 :: (content ++ [0x22])) .value := by
  intro phase next stack byte rest htakes _ _
  have hscan := StringScan.scan_content h 0 (byte :: rest)
  rw [List.cons_append, drive_structural, transition_takes htakes (by decide) (by decide)]
  simp only [Nesting.value, if_true, Frames.apply, List.isEmpty_cons, Bool.false_eq_true, if_false]
  rw [drive_string, List.append_assoc, List.singleton_append]
  rw [show StringScan.new = StringScan.base 0 from rfl, hscan]

theorem reads_group {depth : ℕ} {first : UInt8} {child : Phase} {bytes : Bytes}
    (hopens : opens first = some child) (ih : Reads limit depth bytes (.rest child)) :
    Reads limit (depth + 1) (first :: bytes) .value := by
  intro phase next stack byte rest htakes _ hle
  have hfirst : first = 0x7b ∧ child = .objectOpen ∨ first = 0x5b ∧ child = .arrayOpen := by
    unfold opens at hopens
    split_ifs at hopens with h₁ h₂
    · exact .inl ⟨h₁, (Option.some.inj hopens).symm⟩
    · exact .inr ⟨h₂, (Option.some.inj hopens).symm⟩
  have hvalue : Nesting.value (stack.length + 1) limit first next = .ok (.open next child) := by
    have hlt : stack.length + 1 ≠ limit := by omega
    rcases hfirst with ⟨rfl, rfl⟩ | ⟨rfl, rfl⟩ <;> simp [Nesting.value, hlt]
  have hplain : isWhitespace first = false ∧ first ≠ 0x5d := by
    rcases hfirst with ⟨rfl, -⟩ | ⟨rfl, -⟩ <;> decide
  rw [List.cons_append, drive_structural, transition_takes htakes hplain.1 hplain.2, hvalue]
  simp only [Frames.apply, List.isEmpty_cons, Bool.false_eq_true, if_false]
  rw [ih (next :: stack) (byte :: rest) (by simp; omega)]
  simp [resume]

/-- The tracker reads whatever the grammar derives. -/
theorem reads_of_derives {depth : ℕ} {goal : Goal} {bytes : Bytes} (h : Derives depth goal bytes) :
    Reads limit depth bytes goal := by
  induction h with
  | atom h => exact reads_atom h
  | string h => exact reads_string h
  | group hopens _ ih => exact reads_group hopens ih
  | @space depth byte phase bytes hspace _ ih =>
    intro stack rest hle
    rw [List.cons_append, drive_structural]
    simp only [Nesting.transition, hspace, if_true, Frames.apply, List.isEmpty_cons,
      Bool.false_eq_true, if_false]
    exact ih stack rest hle
  | @close depth byte phase hclose =>
    intro stack rest hle
    have htransition : Nesting.transition phase (stack.length + 1) limit byte = .ok .close := by
      cases phase <;> cases hclose <;> simp [Nesting.transition, isWhitespace]
    rw [List.singleton_append, drive_structural, htransition]
    rfl
  | @key depth phase content bytes chars hphase hcontent _ ih =>
    intro stack rest hle
    have htransition : Nesting.transition phase (stack.length + 1) limit 0x22 =
        .ok (.set .objectColon (.string .new)) := by
      rcases hphase with rfl | rfl <;> simp [Nesting.transition, isWhitespace]
    rw [List.cons_append, drive_structural, htransition]
    simp only [Frames.apply, List.isEmpty_cons, Bool.false_eq_true, if_false]
    rw [drive_string, List.append_assoc, List.cons_append,
      show StringScan.new = StringScan.base 0 from rfl, StringScan.scan_content hcontent]
    exact ih stack rest hle
  | @mark depth byte phase next bytes hmark _ ih =>
    intro stack rest hle
    have htransition : Nesting.transition phase (stack.length + 1) limit byte =
        .ok (.set next .structural) := by
      cases phase <;> cases hmark <;> simp [Nesting.transition, isWhitespace]
    rw [List.cons_append, drive_structural, htransition]
    simp only [Frames.apply, List.isEmpty_cons, Bool.false_eq_true, if_false]
    exact ih stack rest hle
  | @value depth phase next value bytes htakes _ hrest ihvalue ihrest =>
    intro stack rest hle
    obtain ⟨byte, tail, rfl, hbyte⟩ := delimiter_of_derives htakes hrest
    rw [List.append_assoc, List.cons_append, ihvalue phase next stack byte _ htakes hbyte hle,
      ← List.cons_append]
    exact ihrest stack rest hle

/-- What a structural byte that is not whitespace can do: close the container, start a key, pass a
separator or start a value. -/
theorem transition_cases {depth : ℕ} {byte : UInt8} {change : Change}
    (h : Nesting.transition phase depth limit byte = .ok change)
    (hspace : isWhitespace byte = false) :
    (closes phase = some byte ∧ change = .close) ∨
      ((phase = .objectOpen ∨ phase = .objectKey) ∧ byte = 0x22 ∧
        change = .set .objectColon (.string .new)) ∨
      (∃ next, marks phase = some (byte, next) ∧ change = .set next .structural) ∨
      ∃ next, takes phase = some next ∧ Nesting.value depth limit byte next = .ok change := by
  unfold Nesting.transition at h
  rw [if_neg (by simp [hspace])] at h
  cases phase <;> simp only at h
  case objectValue | arrayValue => exact .inr (.inr (.inr ⟨_, rfl, h⟩))
  case arrayOpen =>
    split at h
    · rename_i hclose
      exact .inl ⟨by rw [hclose]; rfl, (Except.ok.inj h).symm⟩
    · exact .inr (.inr (.inr ⟨_, rfl, h⟩))
  all_goals
    split_ifs at h <;> cases h
    all_goals simp_all [closes, marks, takes]

/-- What the first byte of a value can do: start a string, open a container or start an atom. -/
theorem value_cases {depth : ℕ} {byte : UInt8} {next : Phase} {change : Change}
    (h : Nesting.value depth limit byte next = .ok change) :
    (byte = 0x22 ∧ change = .set next (.string .new)) ∨
      (∃ child, opens byte = some child ∧ depth ≠ limit ∧ change = .open next child) ∨
      ∃ atom atom', Atom.new byte false = .ok atom ∧ atom.step byte = .ok atom' ∧
        change = .set next (.atom atom') := by
  unfold Nesting.value at h
  split at h
  · exact .inl ⟨‹_›, (Except.ok.inj h).symm⟩
  split at h
  · rename_i hopen
    split at h
    · cases h
    · rename_i hlimit
      refine .inr (.inl ⟨_, ?_, hlimit, (Except.ok.inj h).symm⟩)
      rcases hopen with rfl | rfl <;> rfl
  · obtain ⟨atom, hnew, h⟩ := Except.bind_eq_ok_iff.mp h
    obtain ⟨atom', hstep, h⟩ := Except.bind_eq_ok_iff.mp h
    exact .inr (.inr ⟨atom, atom', hnew, hstep, (Except.ok.inj h).symm⟩)

/-- An accepted run derives the rest of the innermost container and goes on with the others. -/
theorem derives_of_drive {bytes out : Bytes} (hle : stack.length + 1 ≤ limit)
    (h : drive limit ⟨phase :: stack, .structural⟩ bytes = .ok out) :
    ∃ text rest, Derives (limit - (stack.length + 1)) (.rest phase) text ∧ bytes = text ++ rest ∧
      resume limit stack rest = .ok out := by
  -- every step consumes a byte, so the argument is on the length of what is left
  generalize hlength : bytes.length = n
  induction n using Nat.strong_induction_on generalizing bytes phase stack with
  | _ n ih =>
    cases bytes with
    | nil => simp [drive] at h
    | cons byte bytes =>
      simp only [List.length_cons] at hlength
      rw [drive_structural] at h
      cases htransition : Nesting.transition phase (stack.length + 1) limit byte with
      | error error => simp [htransition] at h
      | ok change =>
        simp only [htransition] at h
        by_cases hspace : isWhitespace byte = true
        · have hchange : change = .mode .structural := by
            simp only [Nesting.transition, hspace, if_true, Except.ok.injEq] at htransition
            exact htransition.symm
          subst hchange
          obtain ⟨text, rest, hderives, rfl, hresume⟩ := ih _ (by omega) hle h rfl
          exact ⟨byte :: text, rest, .space hspace hderives, rfl, hresume⟩
        rw [Bool.not_eq_true] at hspace
        rcases transition_cases htransition hspace with ⟨hclose, rfl⟩ | ⟨hphase, rfl, rfl⟩ |
          ⟨next, hmark, rfl⟩ | ⟨next, htakes, hvalue⟩
        · exact ⟨[byte], bytes, .close hclose, rfl, h⟩
        · simp only [Frames.apply, List.isEmpty_cons, Bool.false_eq_true, if_false] at h
          rw [drive_string] at h
          split at h
          · cases h
          · rename_i decoded final tail hscan
            obtain ⟨content, chars, hcontent, rfl, -, -⟩ := StringScan.scan_iff.mp hscan
            obtain ⟨text, rest, hderives, rfl, hresume⟩ :=
              ih tail.length (by simp at hlength; omega) hle h rfl
            exact ⟨0x22 :: (content ++ 0x22 :: text), rest, .key hphase hcontent hderives, by simp,
              hresume⟩
        · obtain ⟨text, rest, hderives, rfl, hresume⟩ := ih _ (by omega) hle h rfl
          exact ⟨byte :: text, rest, .mark hmark hderives, rfl, hresume⟩
        · rcases value_cases hvalue with ⟨rfl, rfl⟩ | ⟨child, hopens, hlimit, rfl⟩ |
            ⟨atom, atom', hnew, hstep, rfl⟩
          · simp only [Frames.apply, List.isEmpty_cons, Bool.false_eq_true, if_false] at h
            rw [drive_string] at h
            split at h
            · cases h
            · rename_i decoded final tail hscan
              obtain ⟨content, chars, hcontent, rfl, -, -⟩ := StringScan.scan_iff.mp hscan
              obtain ⟨text, rest, hderives, rfl, hresume⟩ :=
                ih tail.length (by simp at hlength; omega) hle h rfl
              refine ⟨(0x22 :: (content ++ [0x22])) ++ text, rest,
                .value htakes (.string hcontent) hderives, by simp, hresume⟩
          · -- the inner container first, then the rest of this one
            have hlt : stack.length + 1 < limit := lt_of_le_of_ne hle hlimit
            obtain ⟨inner, tail, hinner, rfl, houter⟩ :=
              ih _ (by omega) (show (next :: stack).length + 1 ≤ limit by simpa using hlt) h rfl
            have hdrive : drive limit ⟨next :: stack, .structural⟩ tail = .ok out := by
              simpa [resume] using houter
            obtain ⟨text, rest, hderives, rfl, hresume⟩ :=
              ih tail.length (by simp at hlength; omega) hle hdrive rfl
            have hgroup : Derives (limit - (stack.length + 1)) .value (byte :: inner) := by
              have hdepth : limit - (stack.length + 1) = limit - (stack.length + 1 + 1) + 1 := by
                omega
              rw [hdepth]
              exact .group hopens hinner
            exact ⟨(byte :: inner) ++ text, rest, .value htakes hgroup hderives, by simp, hresume⟩
          · simp only [Frames.apply, List.isEmpty_cons, Bool.false_eq_true, if_false] at h
            obtain ⟨atomText, delimiter, tail, hcompletes, hdelimiter, rfl⟩ := completes_of_drive h
            rw [drive_atom_append hcompletes hdelimiter] at h
            obtain ⟨text, rest, hderives, hsplit, hresume⟩ :=
              ih _ (by simp at hlength ⊢; omega) hle h rfl
            have hatom : AtomText (byte :: atomText) :=
              Atom.completes_new_iff.mp ⟨atom, hnew, atom', hstep, hcompletes⟩
            refine ⟨(byte :: atomText) ++ text, rest, .value htakes (.atom hatom) hderives, ?_,
              hresume⟩
            rw [hsplit]
            simp

theorem drive_iff {bytes out : Bytes} (hle : 1 ≤ limit) :
    drive limit ⟨[phase], .structural⟩ bytes = .ok out ↔
      ∃ text, Derives (limit - 1) (.rest phase) text ∧ bytes = text ++ out := by
  refine ⟨fun h => ?_, ?_⟩
  · obtain ⟨text, rest, hderives, rfl, hresume⟩ := derives_of_drive (show ([] : List Phase).length + 1 ≤ limit by simpa) h
    obtain rfl : rest = out := by simpa [resume] using hresume
    exact ⟨text, hderives, rfl⟩
  · rintro ⟨text, hderives, rfl⟩
    have hreads := @reads_of_derives limit _ _ _ hderives [] out (by simp; omega)
    simpa [resume] using hreads

end Frames

/-! ## The two grammars agree -/

theorem Derives.spaces {depth : ℕ} {phase : Phase} {ws bytes : Bytes} (hws : Ws ws)
    (h : Derives depth (.rest phase) bytes) : Derives depth (.rest phase) (ws ++ bytes) := by
  induction ws with
  | nil => exact h
  | cons byte ws ih =>
    rw [Ws, List.forall_mem_cons] at hws
    exact .space hws.1 (ih hws.2)

theorem derives_close {phase : Phase} {byte : UInt8} (hclose : closes phase = some byte) {ws : Bytes}
    (hws : Ws ws) (depth : ℕ) : Derives depth (.rest phase) (ws ++ [byte]) :=
  (Derives.close hclose).spaces hws

/-- What the lists of the grammar look like from left to right: closed, they are the rest of a
container that has just been opened or has just passed a comma. -/
def FromLeft (depth : ℕ) (bytes : Bytes) : Nonterminal → Prop
  | .value => Derives depth .value bytes
  | .elements => ∀ phase, phase = .arrayOpen ∨ phase = .arrayValue →
      Derives depth (.rest phase) (bytes ++ [0x5d])
  | .members => ∀ phase, phase = .objectOpen ∨ phase = .objectKey →
      Derives depth (.rest phase) (bytes ++ [0x7d])

theorem fromLeft_of_grammar {nonterminal : Nonterminal} {depth : ℕ} {bytes : Bytes}
    (h : Grammar nonterminal depth bytes) : FromLeft depth bytes nonterminal := by
  have harray : ∀ phase, phase = .arrayOpen ∨ phase = .arrayValue →
      takes phase = some .arrayNext := by
    rintro phase (rfl | rfl) <;> rfl
  induction h with
  | atom h => exact .atom h
  | string h => exact .string h
  | @emptyArray depth _ hws =>
    exact .group (show opens 0x5b = some .arrayOpen from rfl) (derives_close rfl hws depth)
  | array _ ih => exact .group (show opens 0x5b = some .arrayOpen from rfl) (ih _ (.inl rfl))
  | @emptyObject depth _ hws =>
    exact .group (show opens 0x7b = some .objectOpen from rfl) (derives_close rfl hws depth)
  | object _ ih => exact .group (show opens 0x7b = some .objectOpen from rfl) (ih _ (.inl rfl))
  | @element depth _ _ _ hw₁ _ hw₂ ih =>
    intro phase hphase
    simp only [List.append_assoc]
    exact (Derives.value (harray phase hphase) ih (derives_close rfl hw₂ depth)).spaces hw₁
  | elements hw₁ _ hw₂ _ ihvalue ihrest =>
    intro phase hphase
    simp only [List.append_assoc, List.cons_append]
    have hrest := Derives.mark (show marks .arrayNext = some (0x2c, .arrayValue) from rfl)
      (ihrest .arrayValue (.inr rfl))
    exact (Derives.value (harray phase hphase) ihvalue (hrest.spaces hw₂)).spaces hw₁
  | @member depth _ _ _ _ _ _ _ hw₁ hkey hw₂ hw₃ _ hw₄ ih =>
    intro phase hphase
    simp only [List.append_assoc, List.cons_append]
    have hclose := derives_close (show closes .objectNext = some 0x7d from rfl) hw₄ depth
    have hvalue := (Derives.value (show takes .objectValue = some .objectNext from rfl) ih
      hclose).spaces hw₃
    have hcolon := (Derives.mark (show marks .objectColon = some (0x3a, .objectValue) from rfl)
      hvalue).spaces hw₂
    exact (Derives.key hphase hkey hcolon).spaces hw₁
  | members hw₁ hkey hw₂ hw₃ _ hw₄ _ ihvalue ihrest =>
    intro phase hphase
    simp only [List.append_assoc, List.cons_append]
    have hnext := (Derives.mark (show marks .objectNext = some (0x2c, .objectKey) from rfl)
      (ihrest .objectKey (.inr rfl))).spaces hw₄
    have hvalue := (Derives.value (show takes .objectValue = some .objectNext from rfl) ihvalue
      hnext).spaces hw₃
    have hcolon := (Derives.mark (show marks .objectColon = some (0x3a, .objectValue) from rfl)
      hvalue).spaces hw₂
    exact (Derives.key hphase hkey hcolon).spaces hw₁

/-- What the rest of a container looks like in the grammar. -/
def InGrammar (depth : ℕ) (bytes : Bytes) : Goal → Prop
  | .value => Grammar .value depth bytes
  | .rest .arrayOpen =>
      (∃ ws, Ws ws ∧ bytes = ws ++ [0x5d]) ∨
        ∃ elements, Grammar .elements depth elements ∧ bytes = elements ++ [0x5d]
  | .rest .arrayValue => ∃ elements, Grammar .elements depth elements ∧ bytes = elements ++ [0x5d]
  | .rest .arrayNext => ∃ ws, Ws ws ∧ (bytes = ws ++ [0x5d] ∨
      ∃ elements, Grammar .elements depth elements ∧ bytes = ws ++ 0x2c :: (elements ++ [0x5d]))
  | .rest .objectOpen =>
      (∃ ws, Ws ws ∧ bytes = ws ++ [0x7d]) ∨
        ∃ members, Grammar .members depth members ∧ bytes = members ++ [0x7d]
  | .rest .objectKey => ∃ members, Grammar .members depth members ∧ bytes = members ++ [0x7d]
  | .rest .objectNext => ∃ ws, Ws ws ∧ (bytes = ws ++ [0x7d] ∨
      ∃ members, Grammar .members depth members ∧ bytes = ws ++ 0x2c :: (members ++ [0x7d]))
  | .rest .objectValue => ∃ w₁ value w₂, Ws w₁ ∧ Grammar .value depth value ∧ Ws w₂ ∧
      (bytes = w₁ ++ (value ++ (w₂ ++ [0x7d])) ∨ ∃ members, Grammar .members depth members ∧
        bytes = w₁ ++ (value ++ (w₂ ++ 0x2c :: (members ++ [0x7d]))))
  | .rest .objectColon => ∃ w₁ w₂ value w₃, Ws w₁ ∧ Ws w₂ ∧ Grammar .value depth value ∧ Ws w₃ ∧
      (bytes = w₁ ++ 0x3a :: (w₂ ++ (value ++ (w₃ ++ [0x7d]))) ∨
        ∃ members, Grammar .members depth members ∧
          bytes = w₁ ++ 0x3a :: (w₂ ++ (value ++ (w₃ ++ 0x2c :: (members ++ [0x7d])))))

theorem Ws.cons {byte : UInt8} {ws : Bytes} (hbyte : isWhitespace byte = true) (hws : Ws ws) :
    Ws (byte :: ws) :=
  List.forall_mem_cons.mpr ⟨hbyte, hws⟩

theorem ws_nil : Ws [] := by
  simp [Ws]

theorem Grammar.space_elements {depth : ℕ} {byte : UInt8} {bytes : Bytes}
    (hbyte : isWhitespace byte = true) (h : Grammar .elements depth bytes) :
    Grammar .elements depth (byte :: bytes) := by
  cases h with
  | element hw₁ hvalue hw₂ => exact .element (hw₁.cons hbyte) hvalue hw₂
  | elements hw₁ hvalue hw₂ hrest => exact .elements (hw₁.cons hbyte) hvalue hw₂ hrest

theorem Grammar.space_members {depth : ℕ} {byte : UInt8} {bytes : Bytes}
    (hbyte : isWhitespace byte = true) (h : Grammar .members depth bytes) :
    Grammar .members depth (byte :: bytes) := by
  cases h with
  | member hw₁ hkey hw₂ hw₃ hvalue hw₄ =>
    exact .member (hw₁.cons hbyte) hkey hw₂ hw₃ hvalue hw₄
  | members hw₁ hkey hw₂ hw₃ hvalue hw₄ hrest =>
    exact .members (hw₁.cons hbyte) hkey hw₂ hw₃ hvalue hw₄ hrest

theorem InGrammar.space {depth : ℕ} {byte : UInt8} {phase : Phase} {bytes : Bytes}
    (hbyte : isWhitespace byte = true) (h : InGrammar depth bytes (.rest phase)) :
    InGrammar depth (byte :: bytes) (.rest phase) := by
  cases phase with
  | arrayOpen =>
    rcases h with ⟨ws, hws, rfl⟩ | ⟨elements, helements, rfl⟩
    · exact .inl ⟨byte :: ws, hws.cons hbyte, rfl⟩
    · exact .inr ⟨_, helements.space_elements hbyte, rfl⟩
  | objectOpen =>
    rcases h with ⟨ws, hws, rfl⟩ | ⟨members, hmembers, rfl⟩
    · exact .inl ⟨byte :: ws, hws.cons hbyte, rfl⟩
    · exact .inr ⟨_, hmembers.space_members hbyte, rfl⟩
  | arrayValue =>
    obtain ⟨elements, helements, rfl⟩ := h
    exact ⟨_, helements.space_elements hbyte, rfl⟩
  | objectKey =>
    obtain ⟨members, hmembers, rfl⟩ := h
    exact ⟨_, hmembers.space_members hbyte, rfl⟩
  | arrayNext =>
    obtain ⟨ws, hws, rfl | ⟨elements, helements, rfl⟩⟩ := h
    · exact ⟨byte :: ws, hws.cons hbyte, .inl rfl⟩
    · exact ⟨byte :: ws, hws.cons hbyte, .inr ⟨_, helements, rfl⟩⟩
  | objectNext =>
    obtain ⟨ws, hws, rfl | ⟨members, hmembers, rfl⟩⟩ := h
    · exact ⟨byte :: ws, hws.cons hbyte, .inl rfl⟩
    · exact ⟨byte :: ws, hws.cons hbyte, .inr ⟨_, hmembers, rfl⟩⟩
  | objectValue =>
    obtain ⟨w₁, value, w₂, hw₁, hvalue, hw₂, rfl | ⟨members, hmembers, rfl⟩⟩ := h
    · exact ⟨byte :: w₁, value, w₂, hw₁.cons hbyte, hvalue, hw₂, .inl rfl⟩
    · exact ⟨byte :: w₁, value, w₂, hw₁.cons hbyte, hvalue, hw₂, .inr ⟨_, hmembers, rfl⟩⟩
  | objectColon =>
    obtain ⟨w₁, w₂, value, w₃, hw₁, hw₂, hvalue, hw₃, rfl | ⟨members, hmembers, rfl⟩⟩ := h
    · exact ⟨byte :: w₁, w₂, value, w₃, hw₁.cons hbyte, hw₂, hvalue, hw₃, .inl rfl⟩
    · exact ⟨byte :: w₁, w₂, value, w₃, hw₁.cons hbyte, hw₂, hvalue, hw₃,
        .inr ⟨_, hmembers, rfl⟩⟩

theorem elements_of_arrayNext {depth : ℕ} {value bytes : Bytes} (hvalue : Grammar .value depth value)
    (h : InGrammar depth bytes (.rest .arrayNext)) :
    ∃ elements, Grammar .elements depth elements ∧ value ++ bytes = elements ++ [0x5d] := by
  obtain ⟨ws, hws, rfl | ⟨elements, helements, rfl⟩⟩ := h
  · exact ⟨[] ++ (value ++ ws), .element ws_nil hvalue hws, by simp⟩
  · exact ⟨[] ++ (value ++ (ws ++ 0x2c :: elements)), .elements ws_nil hvalue hws helements, by simp⟩

theorem members_of_objectColon {depth : ℕ} {key bytes : Bytes} {chars : List Char}
    (hkey : Content key chars) (h : InGrammar depth bytes (.rest .objectColon)) :
    ∃ members, Grammar .members depth members ∧
      0x22 :: (key ++ 0x22 :: bytes) = members ++ [0x7d] := by
  obtain ⟨w₁, w₂, value, w₃, hw₁, hw₂, hvalue, hw₃, rfl | ⟨members, hmembers, rfl⟩⟩ := h
  · exact ⟨_, .member ws_nil hkey hw₁ hw₂ hvalue hw₃, by simp⟩
  · exact ⟨_, .members ws_nil hkey hw₁ hw₂ hvalue hw₃ hmembers, by simp⟩

theorem inGrammar_of_derives {depth : ℕ} {goal : Goal} {bytes : Bytes}
    (h : Derives depth goal bytes) : InGrammar depth bytes goal := by
  induction h with
  | atom h => exact .atom h
  | string h => exact .string h
  | @group depth byte phase bytes hopens _ ih =>
    unfold opens at hopens
    split_ifs at hopens with h₁ h₂
    · obtain rfl := Option.some.inj hopens
      subst h₁
      rcases ih with ⟨ws, hws, rfl⟩ | ⟨members, hmembers, rfl⟩
      · exact .emptyObject hws
      · exact .object hmembers
    · obtain rfl := Option.some.inj hopens
      subst h₂
      rcases ih with ⟨ws, hws, rfl⟩ | ⟨elements, helements, rfl⟩
      · exact .emptyArray hws
      · exact .array helements
  | space hbyte _ ih => exact ih.space hbyte
  | @close depth byte phase hclose =>
    cases phase <;> cases hclose
    · exact .inl ⟨[], ws_nil, rfl⟩
    · exact ⟨[], ws_nil, .inl rfl⟩
    · exact .inl ⟨[], ws_nil, rfl⟩
    · exact ⟨[], ws_nil, .inl rfl⟩
  | key hphase hkey _ ih =>
    obtain ⟨members, hmembers, heq⟩ := members_of_objectColon hkey ih
    rcases hphase with rfl | rfl
    · exact .inr ⟨members, hmembers, heq⟩
    · exact ⟨members, hmembers, heq⟩
  | @mark depth byte phase next bytes hmark _ ih =>
    cases phase <;> cases hmark
    · obtain ⟨w₁, value, w₂, hw₁, hvalue, hw₂, rfl | ⟨members, hmembers, rfl⟩⟩ := ih
      · exact ⟨[], w₁, value, w₂, ws_nil, hw₁, hvalue, hw₂, .inl rfl⟩
      · exact ⟨[], w₁, value, w₂, ws_nil, hw₁, hvalue, hw₂, .inr ⟨members, hmembers, rfl⟩⟩
    · obtain ⟨members, hmembers, rfl⟩ := ih
      exact ⟨[], ws_nil, .inr ⟨members, hmembers, rfl⟩⟩
    · obtain ⟨elements, helements, rfl⟩ := ih
      exact ⟨[], ws_nil, .inr ⟨elements, helements, rfl⟩⟩
  | @value depth phase next value bytes htakes _ _ ihvalue ihrest =>
    cases phase <;> cases htakes
    · obtain ⟨ws, hws, rfl | ⟨members, hmembers, rfl⟩⟩ := ihrest
      · exact ⟨[], value, ws, ws_nil, ihvalue, hws, .inl rfl⟩
      · exact ⟨[], value, ws, ws_nil, ihvalue, hws, .inr ⟨members, hmembers, rfl⟩⟩
    · exact .inr (elements_of_arrayNext ihvalue ihrest)
    · exact elements_of_arrayNext ihvalue ihrest

/-- The two grammars derive the same values. -/
theorem derives_value_iff {depth : ℕ} {bytes : Bytes} :
    Derives depth .value bytes ↔ Grammar .value depth bytes :=
  ⟨inGrammar_of_derives, fromLeft_of_grammar⟩

end Sark.Json
