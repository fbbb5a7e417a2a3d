import Sark.Json.Bytes
import Sark.Library.Fallible

/-!
# JSON atoms

Literals and numbers, `json/src/segment/atom.rs`. An `Atom` is read byte by byte; whether it is
complete is decided when a delimiter follows. `Atom.run_iff` says that the bytes an atom accepts
from its first byte on are exactly the literals and the numbers of RFC 8259.
-/

namespace Sark.Json

/-- What a scanned value turned out to be. -/
inductive ValueKind
  | string (escapes : ℕ)
  | unsigned (value : ℕ)
  | negative (value : ℕ)
  | number
  | true
  | false
  | null
  | compound
  deriving DecidableEq, Repr

/-- The three literal names. -/
inductive Literal
  | true
  | false
  | null
  deriving DecidableEq, Repr

/-- The bytes of a literal; `Literal::byte` and `Literal::len` read them off. -/
def Literal.bytes : Literal → Bytes
  | .true => [0x74, 0x72, 0x75, 0x65]
  | .false => [0x66, 0x61, 0x6c, 0x73, 0x65]
  | .null => [0x6e, 0x75, 0x6c, 0x6c]

/-- `Literal::finish`. -/
def Literal.finish : Literal → ValueKind
  | .true => .true
  | .false => .false
  | .null => .null

/-- Where a number stands. -/
inductive NumberState
  | start
  | minus
  | zero
  | negativeZero
  | integer
  | negativeInteger
  | dot
  | fraction
  | exponent
  | exponentSign
  | exponentDigits
  deriving DecidableEq, Repr

/-- `u8::is_ascii_digit`. -/
def isDigit (byte : UInt8) : Bool :=
  0x30 ≤ byte && byte ≤ 0x39

/-- `b'e' | b'E'`. -/
def isExponent (byte : UInt8) : Bool :=
  byte == 0x65 || byte == 0x45

/-- `b'+' | b'-'`. -/
def isSign (byte : UInt8) : Bool :=
  byte == 0x2b || byte == 0x2d

/-- `NumberState::next`. -/
def NumberState.next (self : NumberState) (byte : UInt8) : Except Error NumberState :=
  match self with
  | .start =>
    if byte = 0x2d then .ok .minus
    else if byte = 0x30 then .ok .zero
    else if isDigit byte then .ok .integer
    else .error .invalid
  | .minus =>
    if byte = 0x30 then .ok .negativeZero
    else if 0x31 ≤ byte ∧ byte ≤ 0x39 then .ok .negativeInteger
    else .error .invalid
  | .zero | .negativeZero =>
    if byte = 0x2e then .ok .dot
    else if isExponent byte then .ok .exponent
    else .error .invalid
  | .integer =>
    if byte = 0x2e then .ok .dot
    else if isExponent byte then .ok .exponent
    else if isDigit byte then .ok .integer
    else .error .invalid
  | .negativeInteger =>
    if byte = 0x2e then .ok .dot
    else if isExponent byte then .ok .exponent
    else if isDigit byte then .ok .negativeInteger
    else .error .invalid
  | .dot => if isDigit byte then .ok .fraction else .error .invalid
  | .fraction =>
    if isExponent byte then .ok .exponent
    else if isDigit byte then .ok .fraction
    else .error .invalid
  | .exponent =>
    if isSign byte then .ok .exponentSign
    else if isDigit byte then .ok .exponentDigits
    else .error .invalid
  | .exponentSign => if isDigit byte then .ok .exponentDigits else .error .invalid
  | .exponentDigits => if isDigit byte then .ok .exponentDigits else .error .invalid

theorem NumberState.next_exponentSign (byte : UInt8) :
    exponentSign.next byte = exponentDigits.next byte := by
  simp only [next]

/-- `segment::Atom`. The value of an integer is retained while it fits `u64`. -/
inductive Atom
  | literal (literal : Literal) (matched : ℕ)
  | number (state : NumberState) (value : Option ℕ)
  deriving DecidableEq, Repr

/-- `value.checked_mul(10)` and `checked_add` of a digit, on `u64`. -/
def pushDigit (value : ℕ) (byte : UInt8) : Option ℕ :=
  if value * 10 < 2 ^ 64 ∧ value * 10 + (byte.toNat - 0x30) < 2 ^ 64 then
    some (value * 10 + (byte.toNat - 0x30))
  else none

namespace Atom

/-- `Atom::new`: the kind of atom that a first byte announces. -/
def new (byte : UInt8) (retain : Bool) : Except Error Atom :=
  if byte = 0x74 then .ok (.literal .true 0)
  else if byte = 0x66 then .ok (.literal .false 0)
  else if byte = 0x6e then .ok (.literal .null 0)
  else if byte = 0x2d ∨ isDigit byte then
    .ok (.number .start (if retain then some 0 else none))
  else .error .invalid

/-- `Atom::step`. -/
def step (self : Atom) (byte : UInt8) : Except Error Atom :=
  match self with
  | .literal name matched =>
    if name.bytes[matched]? = some byte then .ok (.literal name (matched + 1))
    else .error .invalid
  | .number state value =>
    match state.next byte with
    | .error error => .error error
    | .ok next =>
      let value :=
        if next = .zero ∨ next = .negativeZero ∨ next = .integer ∨ next = .negativeInteger then
          value.bind fun value => pushDigit value byte
        else if next = .minus then value
        else none
      .ok (.number next value)

/-- `Atom::finish`. -/
def finish (self : Atom) : Except Error ValueKind :=
  match self with
  | .literal name matched =>
    if matched = name.bytes.length then .ok name.finish else .error .invalid
  | .number state value =>
    match state, value with
    | .negativeZero, some value | .negativeInteger, some value => .ok (.negative value)
    | .zero, value | .negativeZero, value | .integer, value | .negativeInteger, value
    | .fraction, value | .exponentDigits, value =>
      match value with
      | some value => .ok (.unsigned value)
      | none => .ok .number
    | _, _ => .error .invalid

end Atom

/-! ## The grammar of atoms -/

/-- A nonempty run of digits. -/
def Digits (bytes : Bytes) : Prop :=
  bytes ≠ [] ∧ ∀ byte ∈ bytes, isDigit byte = true

/-- `int`: no leading zeros. -/
inductive Int : Bytes → Prop
  | zero : Int [0x30]
  | digits {byte : UInt8} {rest : Bytes} : isDigit byte = true → byte ≠ 0x30 →
      (∀ byte ∈ rest, isDigit byte = true) → Int (byte :: rest)

/-- `frac`, which may be absent. -/
inductive Frac : Bytes → Prop
  | none : Frac []
  | some {digits : Bytes} : Digits digits → Frac (0x2e :: digits)

/-- `exp`, which may be absent. -/
inductive Exp : Bytes → Prop
  | none : Exp []
  | some {mark : UInt8} {digits : Bytes} : isExponent mark = true → Digits digits →
      Exp (mark :: digits)
  | signed {mark sign : UInt8} {digits : Bytes} : isExponent mark = true → isSign sign = true →
      Digits digits → Exp (mark :: sign :: digits)

/-- `number = [ minus ] int [ frac ] [ exp ]`. -/
inductive Number : Bytes → Prop
  | positive {int frac exp : Bytes} : Int int → Frac frac → Exp exp → Number (int ++ frac ++ exp)
  | negative {int frac exp : Bytes} : Int int → Frac frac → Exp exp →
      Number (0x2d :: (int ++ frac ++ exp))

/-- A literal name or a number. -/
inductive AtomText : Bytes → Prop
  | literal (literal : Literal) : AtomText literal.bytes
  | number {bytes : Bytes} : Number bytes → AtomText bytes

/-! ## Numbers, backwards from their final states -/

namespace NumberState

/-- A number may end here. -/
def isFinal : NumberState → Bool
  | .zero | .negativeZero | .integer | .negativeInteger | .fraction | .exponentDigits => true
  | _ => false

/-- The bytes that complete a number from this state. -/
def Completes (self : NumberState) : Bytes → Prop
  | [] => self.isFinal = true
  | byte :: rest => ∃ next, self.next byte = .ok next ∧ Completes next rest

theorem completes_exponentDigits (bytes : Bytes) :
    exponentDigits.Completes bytes ↔ ∀ byte ∈ bytes, isDigit byte = true := by
  induction bytes with
  | nil => simp [Completes, isFinal]
  | cons byte bytes ih =>
    by_cases h : isDigit byte = true <;> simp [Completes, NumberState.next, h, ih]

theorem completes_exponentSign (bytes : Bytes) :
    exponentSign.Completes bytes ↔ Digits bytes := by
  cases bytes with
  | nil => simp [Completes, isFinal, Digits]
  | cons byte bytes =>
    rw [Completes, next_exponentSign, ← Completes, completes_exponentDigits, Digits]
    simp

theorem completes_exponent (bytes : Bytes) :
    exponent.Completes bytes ↔
      Digits bytes ∨ ∃ sign digits, isSign sign = true ∧ Digits digits ∧ bytes = sign :: digits := by
  cases bytes with
  | nil => simp [Completes, isFinal, Digits]
  | cons byte bytes =>
    by_cases hsign : isSign byte = true
    · have hdigit : isDigit byte = false := by
        simp only [isSign, Bool.or_eq_true, beq_iff_eq] at hsign
        rcases hsign with rfl | rfl <;> rfl
      simp [Completes, NumberState.next, hsign, hdigit, completes_exponentSign, Digits]
    · by_cases h : isDigit byte = true <;>
        simp [Completes, NumberState.next, hsign, h, Digits, completes_exponentDigits]

theorem completes_mark {mark : UInt8} (hmark : isExponent mark = true) (bytes : Bytes) :
    exponent.Completes bytes ↔ Exp (mark :: bytes) := by
  rw [completes_exponent]
  refine ⟨?_, fun h => ?_⟩
  · rintro (h | ⟨sign, digits, hsign, hdigits, rfl⟩)
    · exact .some hmark h
    · exact .signed hmark hsign hdigits
  · cases h with
    | some _ hdigits => exact .inl hdigits
    | signed _ hsign hdigits => exact .inr ⟨_, _, hsign, hdigits, rfl⟩

theorem isDigit_of_isExponent {byte : UInt8} (h : isExponent byte = true) :
    isDigit byte = false := by
  simp only [isExponent, Bool.or_eq_true, beq_iff_eq] at h
  rcases h with rfl | rfl <;> rfl

theorem exp_cons_iff {byte : UInt8} {bytes : Bytes} :
    Exp (byte :: bytes) ↔ isExponent byte = true ∧ exponent.Completes bytes := by
  refine ⟨fun h => ?_, fun h => (completes_mark h.1 bytes).mp h.2⟩
  have hmark : isExponent byte = true := by cases h <;> assumption
  exact ⟨hmark, (completes_mark hmark bytes).mpr h⟩

theorem digits_append_iff {tail : Bytes → Prop} {byte : UInt8} {bytes : Bytes} :
    (∃ digits rest, (∀ byte ∈ digits, isDigit byte = true) ∧ tail rest ∧
        byte :: bytes = digits ++ rest) ↔
      tail (byte :: bytes) ∨ isDigit byte = true ∧
        ∃ digits rest, (∀ byte ∈ digits, isDigit byte = true) ∧ tail rest ∧
          bytes = digits ++ rest := by
  refine ⟨?_, ?_⟩
  · rintro ⟨digits, rest, hdigits, hrest, heq⟩
    cases digits with
    | nil =>
      obtain rfl : byte :: bytes = rest := heq
      exact .inl hrest
    | cons digit digits =>
      obtain ⟨rfl, rfl⟩ : byte = digit ∧ bytes = digits ++ rest := by simpa using heq
      rw [List.forall_mem_cons] at hdigits
      exact .inr ⟨hdigits.1, digits, rest, hdigits.2, hrest, rfl⟩
  · rintro (hrest | ⟨hbyte, digits, rest, hdigits, hrest, rfl⟩)
    · exact ⟨[], _, by simp, hrest, rfl⟩
    · exact ⟨byte :: digits, rest, by simpa [hbyte] using hdigits, hrest, rfl⟩

theorem completes_fraction (bytes : Bytes) :
    fraction.Completes bytes ↔
      ∃ digits exp, (∀ byte ∈ digits, isDigit byte = true) ∧ Exp exp ∧ bytes = digits ++ exp := by
  induction bytes with
  | nil =>
    simp only [Completes, isFinal, true_iff]
    exact ⟨[], [], by simp, .none, rfl⟩
  | cons byte bytes ih =>
    rw [digits_append_iff, ← ih, exp_cons_iff]
    by_cases hmark : isExponent byte = true
    · simp [Completes, NumberState.next, hmark, isDigit_of_isExponent hmark]
    · by_cases h : isDigit byte = true <;> simp [Completes, NumberState.next, hmark, h]

theorem completes_dot (bytes : Bytes) :
    dot.Completes bytes ↔ ∃ digits exp, Digits digits ∧ Exp exp ∧ bytes = digits ++ exp := by
  cases bytes with
  | nil =>
    simp only [Completes, isFinal, Bool.false_eq_true, false_iff]
    rintro ⟨digits, exp, hdigits, -, heq⟩
    exact hdigits.1 (List.append_eq_nil_iff.mp heq.symm).1
  | cons byte bytes =>
    refine ⟨?_, ?_⟩
    · rintro ⟨next, hnext, hcompletes⟩
      simp only [NumberState.next] at hnext
      split at hnext
      · rename_i hbyte
        cases hnext
        obtain ⟨digits, exp, hdigits, hexp, rfl⟩ := (completes_fraction bytes).mp hcompletes
        exact ⟨byte :: digits, exp, ⟨by simp, by simpa [hbyte] using hdigits⟩, hexp, rfl⟩
      · simp at hnext
    · rintro ⟨digits, exp, hdigits, hexp, heq⟩
      obtain ⟨digit, digits, rfl⟩ := List.exists_cons_of_ne_nil hdigits.1
      obtain ⟨rfl, rfl⟩ : byte = digit ∧ bytes = digits ++ exp := by simpa using heq
      obtain ⟨hbyte, hrest⟩ := List.forall_mem_cons.mp hdigits.2
      exact ⟨.fraction, by simp [NumberState.next, hbyte],
        (completes_fraction _).mpr ⟨digits, exp, hrest, hexp, rfl⟩⟩

/-- What may follow the integer part of a number. -/
def Tail (bytes : Bytes) : Prop :=
  ∃ frac exp, Frac frac ∧ Exp exp ∧ bytes = frac ++ exp

theorem tail_nil : Tail [] :=
  ⟨[], [], .none, .none, rfl⟩

theorem tail_cons_iff {byte : UInt8} {bytes : Bytes} :
    Tail (byte :: bytes) ↔
      byte = 0x2e ∧ dot.Completes bytes ∨ isExponent byte = true ∧ exponent.Completes bytes := by
  rw [← exp_cons_iff, completes_dot]
  refine ⟨?_, ?_⟩
  · rintro ⟨frac, exp, hfrac, hexp, heq⟩
    cases hfrac with
    | none =>
      rw [List.nil_append] at heq
      exact .inr (heq ▸ hexp)
    | @some digits hdigits =>
      obtain ⟨rfl, rfl⟩ : byte = 0x2e ∧ bytes = digits ++ exp := by simpa using heq
      exact .inl ⟨rfl, digits, exp, hdigits, hexp, rfl⟩
  · rintro (⟨rfl, digits, exp, hdigits, hexp, rfl⟩ | hexp)
    · exact ⟨_, exp, .some hdigits, hexp, rfl⟩
    · exact ⟨[], _, .none, hexp, rfl⟩

theorem completes_zero {self : NumberState} (hself : self = .zero ∨ self = .negativeZero)
    (bytes : Bytes) : self.Completes bytes ↔ Tail bytes := by
  cases bytes with
  | nil => rcases hself with rfl | rfl <;> simp [Completes, isFinal, tail_nil]
  | cons byte bytes =>
    rw [tail_cons_iff]
    by_cases hdot : byte = 0x2e
    · have hmark : isExponent byte = false := by rw [hdot]; rfl
      rcases hself with rfl | rfl <;> simp [Completes, NumberState.next, hdot, isExponent]
    · by_cases hmark : isExponent byte = true <;> rcases hself with rfl | rfl <;>
        simp [Completes, NumberState.next, hdot, hmark]

theorem completes_integer {self : NumberState} (hself : self = .integer ∨ self = .negativeInteger)
    (bytes : Bytes) :
    self.Completes bytes ↔
      ∃ digits rest, (∀ byte ∈ digits, isDigit byte = true) ∧ Tail rest ∧
        bytes = digits ++ rest := by
  induction bytes with
  | nil =>
    refine iff_of_true ?_ ⟨[], [], by simp, tail_nil, rfl⟩
    rcases hself with rfl | rfl <;> rfl
  | cons byte bytes ih =>
    rw [digits_append_iff, ← ih, tail_cons_iff]
    by_cases hdot : byte = 0x2e
    · rcases hself with rfl | rfl <;> simp [Completes, NumberState.next, hdot, isExponent, isDigit]
    · by_cases hmark : isExponent byte = true
      · rcases hself with rfl | rfl <;>
          simp [Completes, NumberState.next, hdot, hmark, isDigit_of_isExponent hmark]
      · by_cases h : isDigit byte = true <;> rcases hself with rfl | rfl <;>
          simp [Completes, NumberState.next, hdot, hmark, h]

theorem int_append_iff {byte : UInt8} {bytes : Bytes} :
    (∃ int rest, Int int ∧ Tail rest ∧ byte :: bytes = int ++ rest) ↔
      byte = 0x30 ∧ Tail bytes ∨ byte ≠ 0x30 ∧ isDigit byte = true ∧
        ∃ digits rest, (∀ byte ∈ digits, isDigit byte = true) ∧ Tail rest ∧
          bytes = digits ++ rest := by
  refine ⟨?_, ?_⟩
  · rintro ⟨int, rest, hint, hrest, heq⟩
    cases hint with
    | zero =>
      obtain ⟨rfl, rfl⟩ : byte = 0x30 ∧ bytes = rest := by simpa using heq
      exact .inl ⟨rfl, hrest⟩
    | @digits first digits hfirst hne hdigits =>
      obtain ⟨rfl, rfl⟩ : byte = first ∧ bytes = digits ++ rest := by simpa using heq
      exact .inr ⟨hne, hfirst, digits, rest, hdigits, hrest, rfl⟩
  · rintro (⟨rfl, hrest⟩ | ⟨hne, hbyte, digits, rest, hdigits, hrest, rfl⟩)
    · exact ⟨[0x30], bytes, .zero, hrest, rfl⟩
    · exact ⟨byte :: digits, rest, .digits hbyte hne hdigits, hrest, rfl⟩

theorem completes_minus (bytes : Bytes) :
    minus.Completes bytes ↔ ∃ int rest, Int int ∧ Tail rest ∧ bytes = int ++ rest := by
  cases bytes with
  | nil =>
    simp only [Completes, isFinal, Bool.false_eq_true, false_iff]
    rintro ⟨int, rest, hint, -, heq⟩
    cases hint <;> simp at heq
  | cons byte bytes =>
    rw [int_append_iff, ← completes_zero (.inr rfl), ← completes_integer (.inr rfl)]
    by_cases hzero : byte = 0x30
    · simp [Completes, NumberState.next, hzero]
    · have hrange : (0x31 ≤ byte ∧ byte ≤ 0x39) ↔ isDigit byte = true := by
        simp only [isDigit, Bool.and_eq_true, decide_eq_true_eq, UInt8.le_iff_toNat_le,
          ← UInt8.toNat_inj, UInt8.reduceToNat] at hzero ⊢
        omega
      by_cases h : isDigit byte = true <;> simp [Completes, NumberState.next, hzero, hrange, h]

/-- A number is what completes the start state. -/
theorem completes_start (bytes : Bytes) : start.Completes bytes ↔ Number bytes := by
  have hnumber : Number bytes ↔
      (∃ int rest, Int int ∧ Tail rest ∧ bytes = int ++ rest) ∨
        ∃ tail, bytes = 0x2d :: tail ∧ ∃ int rest, Int int ∧ Tail rest ∧ tail = int ++ rest := by
    refine ⟨fun h => ?_, ?_⟩
    · cases h with
      | @positive int frac exp hint hfrac hexp =>
        exact .inl ⟨int, _, hint, ⟨frac, exp, hfrac, hexp, rfl⟩, by simp⟩
      | @negative int frac exp hint hfrac hexp =>
        exact .inr ⟨_, rfl, int, _, hint, ⟨frac, exp, hfrac, hexp, rfl⟩, by simp⟩
    · rintro (⟨int, rest, hint, ⟨frac, exp, hfrac, hexp, rfl⟩, rfl⟩ |
        ⟨_, rfl, int, rest, hint, ⟨frac, exp, hfrac, hexp, rfl⟩, rfl⟩)
      · rw [← List.append_assoc]
        exact .positive hint hfrac hexp
      · rw [← List.append_assoc]
        exact .negative hint hfrac hexp
  rw [hnumber]
  cases bytes with
  | nil =>
    simp only [Completes, isFinal, Bool.false_eq_true, false_iff]
    rintro (⟨int, rest, hint, -, heq⟩ | ⟨tail, heq, -⟩)
    · cases hint <;> simp at heq
    · simp at heq
  | cons byte bytes =>
    rw [int_append_iff, ← completes_zero (.inl rfl), ← completes_integer (.inl rfl)]
    by_cases hminus : byte = 0x2d
    · have hcompletes : start.Completes (byte :: bytes) ↔ minus.Completes bytes := by
        simp [Completes, NumberState.next, hminus]
      rw [hcompletes, completes_minus]
      refine ⟨fun h => .inr ⟨bytes, by rw [hminus], h⟩, ?_⟩
      rintro ((⟨hzero, -⟩ | ⟨-, hdigit, -⟩) | ⟨tail, heq, h⟩)
      · exact absurd (hminus.symm.trans hzero) (by decide)
      · exact absurd (hminus ▸ hdigit) (by decide)
      · obtain ⟨-, rfl⟩ : byte = 0x2d ∧ bytes = tail := by simpa using heq
        exact h
    · by_cases hzero : byte = 0x30
      · simp [Completes, NumberState.next, hzero]
      · by_cases h : isDigit byte = true <;>
          simp [Completes, NumberState.next, hminus, hzero, h]

end NumberState

/-! ## Atoms -/

/-- The bytes that end an atom. -/
def isDelimiter (byte : UInt8) : Bool :=
  isWhitespace byte || byte == 0x2c || byte == 0x7d || byte == 0x5d

theorem isDelimiter_iff {byte : UInt8} :
    isDelimiter byte = true ↔ byte = 0x20 ∨ byte = 0x09 ∨ byte = 0x0a ∨ byte = 0x0d ∨
      byte = 0x2c ∨ byte = 0x7d ∨ byte = 0x5d := by
  simp [isDelimiter, isWhitespace, or_assoc]

namespace Atom

theorem isDelimiter_of_step {self next : Atom} {byte : UInt8} (h : self.step byte = .ok next) :
    isDelimiter byte = false := by
  by_contra hdelimiter
  rw [Bool.not_eq_false] at hdelimiter
  cases self with
  | literal name matched =>
    simp only [step] at h
    split at h
    · rename_i hbyte
      have hmem := List.mem_of_getElem? hbyte
      have hnone : ∀ byte ∈ name.bytes, isDelimiter byte = false := by
        cases name <;> simp [Literal.bytes, isDelimiter, isWhitespace]
      rw [hnone byte hmem] at hdelimiter
      exact absurd hdelimiter (by decide)
    · simp at h
  | number state value =>
    have herror : state.next byte = .error .invalid := by
      rw [isDelimiter_iff] at hdelimiter
      rcases hdelimiter with rfl | rfl | rfl | rfl | rfl | rfl | rfl <;> cases state <;> rfl
    simp [step, herror] at h

/-- The bytes that complete an atom from this state. -/
def Completes (self : Atom) : Bytes → Prop
  | [] => ∃ kind, self.finish = .ok kind
  | byte :: rest => ∃ next, self.step byte = .ok next ∧ Completes next rest

theorem completes_number (state : NumberState) (value : Option ℕ) (bytes : Bytes) :
    (number state value).Completes bytes ↔ state.Completes bytes := by
  induction bytes generalizing state value with
  | nil => cases state <;> cases value <;> simp [Completes, NumberState.Completes, finish,
      NumberState.isFinal]
  | cons byte bytes ih =>
    cases hnext : state.next byte with
    | error error => simp [Completes, NumberState.Completes, step, hnext]
    | ok next => simp [Completes, NumberState.Completes, step, hnext, ih]

theorem completes_literal (name : Literal) (matched : ℕ) (hle : matched ≤ name.bytes.length)
    (bytes : Bytes) :
    (literal name matched).Completes bytes ↔ bytes = name.bytes.drop matched := by
  induction bytes generalizing matched with
  | nil =>
    by_cases h : matched = name.bytes.length
    · simp [Completes, finish, h]
    · refine iff_of_false (by simp [Completes, finish, h]) fun hdrop => ?_
      exact h (le_antisymm hle (List.drop_eq_nil_iff.mp hdrop.symm))
  | cons byte bytes ih =>
    by_cases hlt : matched < name.bytes.length
    · rw [List.drop_eq_getElem_cons hlt, List.cons.injEq, ← ih (matched + 1) hlt]
      by_cases hbyte : byte = name.bytes[matched]
      · simp [Completes, step, hlt, hbyte]
      · simp [Completes, step, hlt, hbyte, eq_comm]
    · have hlength : matched = name.bytes.length := by omega
      simp [Completes, step, hlength]

theorem first_of_number {first : UInt8} {rest : Bytes} (h : Number (first :: rest)) :
    first = 0x2d ∨ isDigit first = true := by
  obtain ⟨next, hnext, -⟩ := (NumberState.completes_start _).mpr h
  simp only [NumberState.next] at hnext
  split_ifs at hnext with hminus hzero hdigit
  · exact .inl hminus
  · exact .inr (by rw [hzero]; decide)
  · exact .inr hdigit

theorem new_of_number {first : UInt8} (h : first = 0x2d ∨ isDigit first = true) (retain : Bool) :
    new first retain = .ok (.number .start (if retain then some 0 else none)) := by
  have hne : first ≠ 0x74 ∧ first ≠ 0x66 ∧ first ≠ 0x6e := by
    refine ⟨?_, ?_, ?_⟩ <;> rintro rfl <;> exact absurd h (by decide)
  rw [new, if_neg hne.1, if_neg hne.2.1, if_neg hne.2.2, if_pos h]

theorem new_eq_ok {first : UInt8} {retain : Bool} {atom : Atom} (h : new first retain = .ok atom) :
    (∃ name, atom = .literal name 0) ∨ ∃ value, atom = .number .start value := by
  unfold new at h
  split at h
  · exact .inl ⟨.true, (Except.ok.inj h).symm⟩
  split at h
  · exact .inl ⟨.false, (Except.ok.inj h).symm⟩
  split at h
  · exact .inl ⟨.null, (Except.ok.inj h).symm⟩
  split at h
  · exact .inr ⟨_, (Except.ok.inj h).symm⟩
  · cases h

/-- What completes an atom announced by its first byte is one atom of the grammar. -/
theorem completes_new_iff {first : UInt8} {rest : Bytes} {retain : Bool} :
    (∃ atom, new first retain = .ok atom ∧ atom.Completes (first :: rest)) ↔
      AtomText (first :: rest) := by
  refine ⟨?_, fun h => ?_⟩
  · rintro ⟨atom, hnew, hcompletes⟩
    rcases new_eq_ok hnew with ⟨name, rfl⟩ | ⟨value, rfl⟩
    · rw [(completes_literal name 0 (by simp) _).mp hcompletes]
      exact .literal name
    · rw [completes_number, NumberState.completes_start] at hcompletes
      exact .number hcompletes
  · generalize hbytes : first :: rest = bytes at h
    cases h with
    | literal name =>
      refine ⟨.literal name 0, ?_, ?_⟩
      · cases name <;> simp only [Literal.bytes, List.cons.injEq] at hbytes <;>
          rw [hbytes.1] <;> rfl
      · exact (completes_literal name 0 (by simp) _).mpr rfl
    | number hnumber =>
      subst hbytes
      refine ⟨_, new_of_number (first_of_number hnumber) retain, ?_⟩
      rwa [completes_number, NumberState.completes_start]

end Atom

theorem AtomText.ne_nil {bytes : Bytes} (h : AtomText bytes) : bytes ≠ [] := by
  rintro rfl
  generalize hnil : ([] : Bytes) = bytes at h
  cases h with
  | literal name => cases name <;> simp [Literal.bytes] at hnil
  | number h =>
    subst hnil
    simpa [NumberState.Completes, NumberState.isFinal] using (NumberState.completes_start _).mpr h

end Sark.Json
