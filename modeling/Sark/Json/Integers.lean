import Sark.Json.Writing
import Sark.Library.Decimal

/-!
# Integers

`put_u64` and `put_i64` of `json/src/writing` write two digits at a time from a table, into a buffer
that is filled from its end; `json_size` counts the digits by a logarithm. `parse_u64` and
`parse_i64` of `json/src/input.rs` read an atom whose value is kept while it fits.

* `u64Bytes_spec`: what is written is the number, without leading zeros.
* `atomWith_integer_eq_ok_iff`: the atoms that are integers.
* `integers_exact`: integers are read back, and nothing else is an integer.
-/

namespace Sark.Json

/-! ## The writer -/

/-- `Digits::PAIRS`. -/
def digitPairs : List Bytes :=
  (List.range 100).map fun value =>
    [0x30 + UInt8.ofNat (value / 10), 0x30 + UInt8.ofNat (value % 10)]

/-- `bytes[start..start + 2].copy_from_slice(pair)`, which must be a range of the buffer. -/
def copyPair (bytes : Bytes) (start : ℕ) (pair : Bytes) : Option Bytes :=
  if start + 2 ≤ bytes.length then some (bytes.take start ++ pair ++ bytes.drop (start + 2))
  else none

/-- Two digits in front of those that are written: the buffer and where it starts. -/
def putPair (bytes : Bytes) (start value : ℕ) : Option (Bytes × ℕ) := do
  let start ← Fallible.sub start 2
  let pair ← digitPairs[value]?
  let bytes ← copyPair bytes start pair
  some (bytes, start)

/-- The loop of `Digits::write`. -/
def digitsLoop (bytes : Bytes) (start value : ℕ) : Option (Bytes × ℕ × ℕ) :=
  if 100 ≤ value then
    (putPair bytes start (value % 100)).bind fun next => digitsLoop next.1 next.2 (value / 100)
  else some (bytes, start, value)
termination_by value

/-- `Digits::write`, into a buffer of twenty bytes. -/
def digitsWrite (value : ℕ) : Option Bytes :=
  (digitsLoop (List.replicate 20 0) 20 value).bind fun found =>
    (putPair found.1 found.2.1 found.2.2).map fun last =>
      last.1.drop (last.2 + if found.2.2 < 10 then 1 else 0)

/-- The bytes that `put_u64` writes. -/
def u64Bytes (value : ℕ) : Option Bytes :=
  if value < 100 then (digitPairs[value]?).map fun pair => if value < 10 then pair.drop 1 else pair
  else digitsWrite value

section Writer

variable {σ ε : Type*} (sink : Sink σ ε)

/-- `Writer::put_u64`. It is `none` where a slice would not be a range of the buffer. -/
def putU64 (out : σ) (value : ℕ) : Option (Except ε σ) :=
  (u64Bytes value).map (sink.writeSlice out)

/-- `Writer::put_i64`. -/
def putI64 (out : σ) (value : ℤ) : Option (Except ε σ) :=
  if value < 0 then
    match sink.writeSlice out [0x2d] with
    | .error error => some (.error error)
    | .ok out => putU64 sink out value.natAbs
  else putU64 sink out value.natAbs

end Writer

/-- `u64::checked_ilog10`. -/
def checkedIlog10 (value : ℕ) : Option ℕ :=
  if value = 0 then none else some (Nat.log 10 value)

/-- `<u64 as Size>::json_size`. -/
def jsonSizeU64 (value : ℕ) : ℕ :=
  (checkedIlog10 value).getD 0 + 1

/-- `<i64 as Size>::json_size`. -/
def jsonSizeI64 (value : ℤ) : ℕ :=
  jsonSizeU64 value.natAbs + if value < 0 then 1 else 0

/-! ## The reader -/

/-- `ValueKind::i64`. -/
def ValueKind.i64 : ValueKind → Except Error ℤ
  | .unsigned value => if value < 2 ^ 63 then .ok value else .error .invalid
  | .negative value => if value ≤ 2 ^ 63 then .ok (-value) else .error .invalid
  | _ => .error .invalid

/-- `Input::parse_u64`: the index that the caller is left with, and the value. -/
def parseU64 (input : Bytes) (index : ℕ) : ℕ × Except Error ℕ :=
  match input[index]? with
  | none => (index, .error .invalid)
  | some first =>
    if first = 0x2d then (index, .error .invalid)
    else
      match atomWith true input index first none with
      | .error error => (index, .error error)
      | .ok (.unsigned value, next) => (next, .ok value)
      | .ok _ => (index, .error .invalid)

/-- `parse_i64`. -/
def parseI64 (input : Bytes) (index : ℕ) : ℕ × Except Error ℤ :=
  match input[index]? with
  | none => (index, .error .invalid)
  | some first =>
    match atomWith true input index first none with
    | .error error => (index, .error error)
    | .ok (kind, next) =>
      match kind.i64 with
      | .error error => (index, .error error)
      | .ok value => (next, .ok value)

/-! ## What is written -/

open Decimal

theorem digit_lt_of_isDigit {byte : UInt8} (h : isDigit byte = true) : digit byte < 10 := by
  simp only [isDigit, Bool.and_eq_true, decide_eq_true_eq, UInt8.le_iff_toNat_le,
    UInt8.reduceToNat] at h
  rw [digit]
  omega

/-- The digit of a number below ten. -/
def ascii (value : ℕ) : UInt8 :=
  0x30 + UInt8.ofNat value

theorem ascii_spec {value : ℕ} (h : value < 10) :
    isDigit (ascii value) = true ∧ digit (ascii value) = value ∧
      (value ≠ 0 → ascii value ≠ 0x30) := by
  have hall : ∀ value < 10, isDigit (ascii value) = true ∧ digit (ascii value) = value ∧
      (value ≠ 0 → ascii value ≠ 0x30) := by
    decide +kernel
  exact hall value h

theorem digitPairs_get {value : ℕ} (h : value < 100) :
    digitPairs[value]? = some [ascii (value / 10), ascii (value % 10)] := by
  rw [digitPairs, List.getElem?_map, List.getElem?_range h]
  rfl

/-- The digits that begin a number: one or two. -/
def leadBytes (value : ℕ) : Bytes :=
  if value < 10 then [ascii (value % 10)] else [ascii (value / 10), ascii (value % 10)]

/-- Digits behind the first ones, which are not a zero unless they are all there is. -/
theorem int_leadBytes {value : ℕ} {low : Bytes} (hvalue : value < 100)
    (hlow : ∀ byte ∈ low, isDigit byte = true) (hzero : value ≠ 0 ∨ low = []) :
    Int (leadBytes value ++ low) ∧ extend 0 (leadBytes value ++ low) = extend value low := by
  obtain ⟨hdigit, hright, hne⟩ := ascii_spec (Nat.mod_lt value (show 0 < 10 by norm_num))
  rw [leadBytes]
  split_ifs with hshort
  · have hmod : value % 10 = value := Nat.mod_eq_of_lt hshort
    rw [List.singleton_append, extend_cons, hright, hmod, zero_mul, zero_add]
    refine ⟨?_, rfl⟩
    rw [hmod] at hdigit hne
    rcases Nat.eq_zero_or_pos value with rfl | hpos
    · rw [hzero.resolve_left (by simp)]
      exact .zero
    · exact .digits hdigit (hne hpos.ne') hlow
  · obtain ⟨hfirst, hleft, hne⟩ := ascii_spec (show value / 10 < 10 by omega)
    have hsum : (0 * 10 + value / 10) * 10 + value % 10 = value := by omega
    rw [List.cons_append, List.singleton_append, extend_cons, extend_cons, hleft, hright, hsum]
    exact ⟨.digits hfirst (hne (by omega)) (List.forall_mem_cons.mpr ⟨hdigit, hlow⟩), rfl⟩

theorem putPair_spec {bytes : Bytes} {start value : ℕ} (hvalue : value < 100) (hstart : 2 ≤ start)
    (hlength : start ≤ bytes.length) :
    ∃ following, putPair bytes start value = some (following, start - 2) ∧
      following.length = bytes.length ∧
      following.drop (start - 2) =
        [ascii (value / 10), ascii (value % 10)] ++ bytes.drop start := by
  set pair := [ascii (value / 10), ascii (value % 10)] with hpair
  have hfits : start - 2 + 2 ≤ bytes.length := by omega
  have htake : (bytes.take (start - 2)).length = start - 2 := by
    rw [List.length_take]
    omega
  refine ⟨bytes.take (start - 2) ++ pair ++ bytes.drop (start - 2 + 2), ?_, ?_, ?_⟩
  · rw [putPair, Fallible.sub_of_le hstart]
    show (digitPairs[value]?.bind fun pair => (copyPair bytes (start - 2) pair).bind fun bytes =>
      some (bytes, start - 2)) = _
    rw [digitPairs_get hvalue, Option.bind_some, copyPair, if_pos hfits]
    rfl
  · rw [List.length_append, List.length_append, htake, List.length_drop, hpair]
    simp only [List.length_cons, List.length_nil]
    omega
  · rw [List.append_assoc, List.drop_left' htake, Nat.sub_add_cancel hstart]

/-- The loop leaves one or two digits, and has put all others at the end of the buffer. -/
theorem digitsLoop_spec {bytes : Bytes} {room value : ℕ} (hlength : 2 * (room + 1) ≤ bytes.length)
    (hvalue : value < 100 ^ (room + 1)) :
    ∃ following start left low, digitsLoop bytes (2 * (room + 1)) value =
        some (following, start, left) ∧ 2 ≤ start ∧ start ≤ following.length ∧ left < 100 ∧
      following.drop start = low ++ bytes.drop (2 * (room + 1)) ∧
      (∀ byte ∈ low, isDigit byte = true) ∧ extend left low = value ∧ (left ≠ 0 ∨ low = []) := by
  induction room generalizing bytes value with
  | zero =>
    have hshort : ¬100 ≤ value := by omega
    refine ⟨bytes, 2, value, [], ?_, le_rfl, hlength, not_le.mp hshort, rfl, by simp, rfl, .inr rfl⟩
    rw [digitsLoop, if_neg hshort]
  | succ room ih =>
    rw [digitsLoop]
    by_cases hlong : 100 ≤ value
    · obtain ⟨next, hput, hnext, hdrop⟩ :=
        putPair_spec (Nat.mod_lt value (show 0 < 100 by norm_num))
          (show 2 ≤ 2 * (room + 1 + 1) by omega) hlength
      have hroom : 2 * (room + 1 + 1) - 2 = 2 * (room + 1) := by omega
      rw [hroom] at hput hdrop
      obtain ⟨following, start, left, low, hloop, hstart, hfits, hleft, hfollowing, hlow, hextend,
        hzero⟩ := ih (show 2 * (room + 1) ≤ next.length by omega)
          (show value / 100 < 100 ^ (room + 1) from Nat.div_lt_of_lt_mul (by rwa [← pow_succ']))
      obtain ⟨hfirst, hleftDigit, -⟩ := ascii_spec (show value % 100 / 10 < 10 by omega)
      obtain ⟨hsecond, hrightDigit, -⟩ := ascii_spec (show value % 100 % 10 < 10 by omega)
      refine ⟨following, start, left, low ++ [ascii (value % 100 / 10), ascii (value % 100 % 10)],
        ?_, hstart, hfits, hleft, ?_, ?_, ?_, ?_⟩
      · rw [if_pos hlong, hput, Option.bind_some]
        exact hloop
      · rw [hfollowing, hdrop, List.append_assoc]
      · intro byte hbyte
        simp only [List.mem_append, List.mem_cons, List.not_mem_nil, or_false] at hbyte
        rcases hbyte with hbyte | rfl | rfl
        · exact hlow byte hbyte
        · exact hfirst
        · exact hsecond
      · rw [extend_append, hextend, extend_cons, extend_cons, hleftDigit, hrightDigit, extend_nil]
        omega
      · refine .inl fun hnone => ?_
        rcases hzero with hne | rfl
        · exact hne hnone
        · rw [extend_nil] at hextend
          omega
    · refine ⟨bytes, _, value, [], if_neg hlong, by omega, hlength, not_le.mp hlong, rfl, by simp,
        rfl, .inr rfl⟩

/-- What is written of a number is the number, without leading zeros. -/
theorem u64Bytes_spec {value : ℕ} (h : value < 2 ^ 64) :
    ∃ written, u64Bytes value = some written ∧ Int written ∧ extend 0 written = value := by
  rw [u64Bytes]
  by_cases hshort : value < 100
  · obtain ⟨hint, hextend⟩ := @int_leadBytes value [] hshort (by simp) (.inr rfl)
    rw [List.append_nil] at hint hextend
    refine ⟨leadBytes value, ?_, hint, hextend⟩
    rw [if_pos hshort, digitPairs_get hshort, leadBytes]
    split_ifs <;> rfl
  · obtain ⟨following, start, left, low, hloop, hstart, hfits, hleft, hdrop, hlow, hextend,
      hzero⟩ :=
      @digitsLoop_spec (List.replicate 20 0) 9 value (by simp) (by omega)
    obtain ⟨final, hput, -, hfinal⟩ := putPair_spec hleft hstart hfits
    obtain ⟨hint, hsame⟩ := int_leadBytes hleft hlow hzero
    refine ⟨leadBytes left ++ low, ?_, hint, hsame.trans hextend⟩
    have hdigits : final.drop (start - 2) = [ascii (left / 10), ascii (left % 10)] ++ low := by
      rw [hfinal, hdrop]
      simp
    rw [if_neg hshort, digitsWrite, hloop, Option.bind_some]
    dsimp only
    rw [hput, Option.map_some, ← List.drop_drop, hdigits, leadBytes]
    split_ifs <;> rfl

theorem length_of_int {digits : Bytes} (h : Int digits) :
    digits.length = jsonSizeU64 (extend 0 digits) := by
  rw [jsonSizeU64, checkedIlog10]
  cases h with
  | zero => rfl
  | @digits byte rest hbyte hne hrest =>
    have hfirst : digit byte ≠ 0 := by
      simp only [isDigit, Bool.and_eq_true, decide_eq_true_eq, UInt8.le_iff_toNat_le,
        UInt8.reduceToNat] at hbyte
      have hzero : UInt8.toNat 0x30 = 48 := rfl
      rw [ne_eq, ← UInt8.toNat_inj] at hne
      rw [digit]
      omega
    have hbytes : ∀ other ∈ byte :: rest, isDigit other = true :=
      List.forall_mem_cons.mpr ⟨hbyte, hrest⟩
    have hall : ∀ other ∈ byte :: rest, digit other < 10 := fun other hother =>
      digit_lt_of_isDigit (hbytes other hother)
    rw [if_neg (extend_ne_zero hfirst), log_extend hfirst hall]
    rfl

/-! ## What is read -/

/-- The bytes that complete an atom which stays an integer, and what it turns out to be. -/
def Atom.Counts (kind : ValueKind) (self : Atom) : Bytes → Prop
  | [] => self.finish = .ok kind
  | byte :: rest =>
    ∃ next, self.step byte = .ok next ∧ next.isInteger = true ∧ Counts kind next rest

/-- The atom loop, where an integer is wanted, stops at the first delimiter with an integer. -/
theorem atomLoop_integer_eq_ok_iff {input : Bytes} {atom : Atom} {next stop : ℕ}
    {kind : ValueKind} :
    atomLoop true input none atom next = .ok (kind, stop) ↔
      ∃ text rest, atom.Counts kind text ∧ input.drop next = text ++ rest ∧
        stop = next + text.length ∧ Delimited rest := by
  have hfinish : ∀ (atom : Atom) next, atom.finish.map (·, next) = .ok (kind, stop) ↔
      atom.finish = .ok kind ∧ stop = next := by
    intro atom next
    cases atom.finish <;> simp [Except.map, eq_comm]
  generalize hlength : input.length - next = n
  induction n generalizing atom next with
  | zero =>
    have hge : input.length ≤ next := by omega
    rw [atomLoop, dif_neg (not_lt.mpr hge), hfinish, List.drop_eq_nil_of_le hge,
      exists_delimited_nil_iff]
    rfl
  | succ n ih =>
    have hlt : next < input.length := by omega
    rw [atomLoop, dif_pos hlt, List.drop_eq_getElem_cons hlt, exists_delimited_cons_iff]
    cases hdelimiter : isDelimiter input[next] with
    | true =>
      have hstep : ∀ following, atom.step input[next] ≠ .ok following := fun following hstep => by
        simp [Atom.isDelimiter_of_step hstep] at hdelimiter
      simp [hfinish, Atom.Counts, hstep]
    | false =>
      cases hstep : atom.step input[next] with
      | error error => simp [Atom.Counts, hstep]
      | ok following =>
        cases hinteger : following.isInteger with
        | false => simp [Atom.Counts, hstep, hinteger]
        | true => simpa [checkLimit, Atom.Counts, hstep, hinteger] using ih (by omega)

theorem pushDigit_eq_some_iff {value next : ℕ} {byte : UInt8} :
    pushDigit value byte = some next ↔
      value * 10 + digit byte < 2 ^ 64 ∧ next = value * 10 + digit byte := by
  rw [pushDigit, digit]
  split_ifs with h
  · rw [Option.some.injEq]
    exact ⟨fun heq => ⟨h.2, heq.symm⟩, fun heq => heq.2.symm⟩
  · refine iff_of_false (by simp) fun ⟨hlt, _⟩ => h ⟨?_, hlt⟩
    omega

/-- The kind of the integers that a state is in. -/
def NumberState.kind : NumberState → ℕ → ValueKind
  | .negativeZero | .negativeInteger => .negative
  | _ => .unsigned

/-- The states in which an integer may end. -/
def NumberState.IsInteger (state : NumberState) : Prop :=
  (state = .zero ∨ state = .negativeZero) ∨ state = .integer ∨ state = .negativeInteger

theorem counts_nil_iff {state : NumberState} (hstate : state.IsInteger) {value : ℕ}
    {kind : ValueKind} :
    (Atom.number state (some value)).Counts kind [] ↔ kind = state.kind value := by
  have hfinish : (Atom.number state (some value)).finish = .ok (state.kind value) := by
    rcases hstate with (rfl | rfl) | rfl | rfl <;> rfl
  show (Atom.number state (some value)).finish = .ok kind ↔ _
  rw [hfinish, Except.ok.injEq, eq_comm]

theorem counts_zero {state : NumberState} (hstate : state = .zero ∨ state = .negativeZero)
    {value : ℕ} {kind : ValueKind} {text : Bytes} :
    (Atom.number state (some value)).Counts kind text ↔ text = [] ∧ kind = state.kind value := by
  cases text with
  | nil =>
    rw [counts_nil_iff (.inl hstate)]
    exact (and_iff_right rfl).symm
  | cons byte text =>
    refine iff_of_false ?_ (by simp)
    rintro ⟨next, hstep, hinteger, -⟩
    by_cases hdot : byte = 0x2e
    · rcases hstate with rfl | rfl <;> simp [Atom.step, NumberState.next, hdot] at hstep <;>
        simp [← hstep, Atom.isInteger] at hinteger
    · by_cases hmark : isExponent byte = true <;> rcases hstate with rfl | rfl <;>
        simp [Atom.step, NumberState.next, hdot, hmark] at hstep <;>
        simp [← hstep, Atom.isInteger] at hinteger

/-- The step of an integer at a further byte. -/
theorem step_integer {state : NumberState}
    (hstate : state = .integer ∨ state = .negativeInteger) {value : ℕ} {byte : UInt8}
    {next : Atom} :
    (Atom.number state (some value)).step byte = .ok next ∧ next.isInteger = true ↔
      isDigit byte = true ∧ value * 10 + digit byte < 2 ^ 64 ∧
        next = .number state (some (value * 10 + digit byte)) := by
  have hstep : ∀ following, state.next byte = .ok following → isDigit byte = false →
      following ≠ .zero ∧ following ≠ .negativeZero ∧ following ≠ .integer ∧
        following ≠ .negativeInteger ∧ following ≠ .minus := by
    intro following hnext hdigit
    rcases hstate with rfl | rfl <;>
      simp only [NumberState.next, hdigit, Bool.false_eq_true, if_false] at hnext <;>
      split_ifs at hnext <;> cases hnext <;> simp
  by_cases hdigit : isDigit byte = true
  · have hnext : state.next byte = .ok state := by
      have hdot : byte ≠ 0x2e := by
        rintro rfl
        exact absurd hdigit (by decide)
      have hmark : isExponent byte = false := by
        by_contra hmark
        rw [Bool.not_eq_false] at hmark
        rw [NumberState.isDigit_of_isExponent hmark] at hdigit
        cases hdigit
      rcases hstate with rfl | rfl <;> simp [NumberState.next, hdot, hmark, hdigit]
    have hvalue : (Atom.number state (some value)).step byte =
        .ok (.number state (pushDigit value byte)) := by
      rcases hstate with rfl | rfl <;> simp [Atom.step, hnext]
    rw [hvalue, Except.ok.injEq]
    refine ⟨?_, ?_⟩
    · rintro ⟨rfl, hinteger⟩
      cases hpush : pushDigit value byte with
      | none =>
        rw [hpush] at hinteger
        cases hinteger
      | some pushed =>
        obtain ⟨hlt, rfl⟩ := pushDigit_eq_some_iff.mp hpush
        exact ⟨hdigit, hlt, rfl⟩
    · rintro ⟨-, hlt, rfl⟩
      rw [pushDigit_eq_some_iff.mpr ⟨hlt, rfl⟩]
      exact ⟨rfl, rfl⟩
  · refine iff_of_false ?_ fun h => hdigit h.1
    rw [Bool.not_eq_true] at hdigit
    rintro ⟨hok, hinteger⟩
    cases hnext : state.next byte with
    | error error => simp [Atom.step, hnext] at hok
    | ok following =>
      obtain ⟨hzero, hnegative, hint, hminus, hstart⟩ := hstep following hnext hdigit
      simp only [Atom.step, hnext, hzero, hnegative, hint, hminus, hstart, or_self, if_false,
        Except.ok.injEq] at hok
      rw [← hok] at hinteger
      cases hinteger

theorem counts_integer {state : NumberState}
    (hstate : state = .integer ∨ state = .negativeInteger) {value : ℕ} (hvalue : value < 2 ^ 64)
    {kind : ValueKind} {text : Bytes} :
    (Atom.number state (some value)).Counts kind text ↔
      (∀ byte ∈ text, isDigit byte = true) ∧ extend value text < 2 ^ 64 ∧
        kind = state.kind (extend value text) := by
  induction text generalizing value with
  | nil =>
    rw [counts_nil_iff (.inr hstate), extend_nil]
    exact ⟨fun h => ⟨by simp, hvalue, h⟩, fun h => h.2.2⟩
  | cons byte text ih =>
    rw [List.forall_mem_cons, extend_cons]
    refine ⟨?_, ?_⟩
    · rintro ⟨next, hstep, hinteger, hcounts⟩
      obtain ⟨hdigit, hlt, rfl⟩ := (step_integer hstate).mp ⟨hstep, hinteger⟩
      obtain ⟨hdigits, hrest⟩ := (ih hlt).mp hcounts
      exact ⟨⟨hdigit, hdigits⟩, hrest⟩
    · rintro ⟨⟨hdigit, hdigits⟩, hlt, hkind⟩
      have hnext := (le_extend _ _).trans_lt hlt
      obtain ⟨hstep, hinteger⟩ := (step_integer hstate).mpr ⟨hdigit, hnext, rfl⟩
      exact ⟨_, hstep, hinteger, (ih hnext).mpr ⟨hdigits, hlt, hkind⟩⟩

theorem int_cons_iff {byte : UInt8} {text : Bytes} :
    Int (byte :: text) ↔ byte = 0x30 ∧ text = [] ∨
      isDigit byte = true ∧ byte ≠ 0x30 ∧ ∀ byte ∈ text, isDigit byte = true := by
  refine ⟨fun h => ?_, ?_⟩
  · cases h with
    | zero => exact .inl ⟨rfl, rfl⟩
    | digits hbyte hne htext => exact .inr ⟨hbyte, hne, htext⟩
  · rintro (⟨rfl, rfl⟩ | ⟨hbyte, hne, htext⟩)
    · exact .zero
    · exact .digits hbyte hne htext

/-- The states behind the first byte of an integer: a zero, or another digit. -/
def FirstStates (state single longer : NumberState) : Prop :=
  state = .start ∧ single = .zero ∧ longer = .integer ∨
    state = .minus ∧ single = .negativeZero ∧ longer = .negativeInteger

theorem counts_first {state single longer : NumberState}
    (hstates : FirstStates state single longer)
    {kind : ValueKind} {text : Bytes} (hsign : ∀ rest, text ≠ 0x2d :: rest) :
    (Atom.number state (some 0)).Counts kind text ↔
      Int text ∧ extend 0 text < 2 ^ 64 ∧ kind = single.kind (extend 0 text) := by
  have hzero : single = .zero ∨ single = .negativeZero := by
    rcases hstates with ⟨-, rfl, -⟩ | ⟨-, rfl, -⟩ <;> simp
  have hinteger : longer = .integer ∨ longer = .negativeInteger := by
    rcases hstates with ⟨-, -, rfl⟩ | ⟨-, -, rfl⟩ <;> simp
  have hkind : longer.kind = single.kind := by
    rcases hstates with ⟨-, rfl, rfl⟩ | ⟨-, rfl, rfl⟩ <;> rfl
  cases text with
  | nil =>
    refine iff_of_false ?_ fun ⟨h, _⟩ => by cases h
    rcases hstates with ⟨rfl, -⟩ | ⟨rfl, -⟩ <;> simp [Atom.Counts, Atom.finish]
  | cons byte text =>
    have hminus : byte ≠ 0x2d := fun h => hsign text (h ▸ rfl)
    rw [int_cons_iff, extend_cons, zero_mul, zero_add]
    show (∃ next, (Atom.number state (some 0)).step byte = .ok next ∧ next.isInteger = true ∧
      Atom.Counts kind next text) ↔ _
    by_cases hbyte : byte = 0x30
    · subst hbyte
      have hstep : (Atom.number state (some 0)).step 0x30 = .ok (.number single (some 0)) := by
        rcases hstates with ⟨rfl, rfl, -⟩ | ⟨rfl, rfl, -⟩ <;> rfl
      have hdigit : digit 0x30 = 0 := rfl
      simp only [hstep, Except.ok.injEq, exists_eq_left', Atom.isInteger, true_and,
        counts_zero hzero, hdigit, ne_eq, not_true, false_and, and_false, or_false]
      refine ⟨?_, ?_⟩
      · rintro ⟨rfl, hkind⟩
        exact ⟨rfl, by norm_num, hkind⟩
      · rintro ⟨rfl, -, hkind⟩
        exact ⟨rfl, hkind⟩
    · by_cases hdigit : isDigit byte = true
      · have hlt : digit byte < 2 ^ 64 := (digit_lt_of_isDigit hdigit).trans (by norm_num)
        have hpush : pushDigit 0 byte = some (digit byte) :=
          pushDigit_eq_some_iff.mpr ⟨by omega, by omega⟩
        have hrange : 0x31 ≤ byte ∧ byte ≤ 0x39 := by
          simp only [isDigit, Bool.and_eq_true, decide_eq_true_eq, UInt8.le_iff_toNat_le,
            ← UInt8.toNat_inj, UInt8.reduceToNat] at hbyte hdigit ⊢
          omega
        have hstep : (Atom.number state (some 0)).step byte =
            .ok (.number longer (some (digit byte))) := by
          rcases hstates with ⟨rfl, -, rfl⟩ | ⟨rfl, -, rfl⟩ <;>
            simp [Atom.step, NumberState.next, hminus, hbyte, hdigit, hrange, hpush]
        simp only [hstep, Except.ok.injEq, exists_eq_left', Atom.isInteger, true_and,
          counts_integer hinteger hlt, hkind, hdigit, hbyte, ne_eq, not_false_iff, false_and,
          false_or]
      · refine iff_of_false ?_ (by simp [hbyte, hdigit])
        rintro ⟨next, hstep, -⟩
        have hrange : ¬(0x31 ≤ byte ∧ byte ≤ 0x39) := by
          simp only [isDigit, Bool.and_eq_true, decide_eq_true_eq, UInt8.le_iff_toNat_le,
            UInt8.reduceToNat] at hdigit ⊢
          omega
        rcases hstates with ⟨rfl, -⟩ | ⟨rfl, -⟩ <;>
          simp [Atom.step, NumberState.next, hminus, hbyte, hdigit, hrange] at hstep

/-- An integer text that fits, and what it is read as. -/
inductive IntegerText : Bytes → ValueKind → Prop
  | positive {text : Bytes} : Int text → extend 0 text < 2 ^ 64 →
      IntegerText text (.unsigned (extend 0 text))
  | negative {text : Bytes} : Int text → extend 0 text < 2 ^ 64 →
      IntegerText (0x2d :: text) (.negative (extend 0 text))

theorem sign_not_int {text : Bytes} (h : Int text) (rest : Bytes) : text ≠ 0x2d :: rest := by
  rintro rfl
  rcases int_cons_iff.mp h with ⟨hbyte, -⟩ | ⟨hdigit, -⟩
  · exact absurd hbyte (by decide)
  · exact absurd hdigit (by decide)

/-- The integers that an atom may be. -/
theorem counts_new_iff {first : UInt8} {rest : Bytes} {kind : ValueKind} :
    (∃ atom, Atom.new first true = .ok atom ∧ atom.Counts kind (first :: rest)) ↔
      IntegerText (first :: rest) kind := by
  have hstart : FirstStates .start .zero .integer := .inl ⟨rfl, rfl, rfl⟩
  have hminus : FirstStates .minus .negativeZero .negativeInteger := .inr ⟨rfl, rfl, rfl⟩
  have hstep : ∀ {rest : Bytes}, (Atom.number .start (some 0)).Counts kind (0x2d :: rest) ↔
      (Atom.number .minus (some 0)).Counts kind rest := by
    intro rest
    refine ⟨?_, fun h => ⟨_, rfl, rfl, h⟩⟩
    rintro ⟨next, hnext, -, h⟩
    exact Except.ok.inj hnext ▸ h
  refine ⟨?_, fun h => ?_⟩
  · rintro ⟨atom, hnew, hcounts⟩
    rcases Atom.new_eq_ok hnew with ⟨name, rfl⟩ | ⟨value, rfl⟩
    · -- a literal is not an integer behind its first byte
      obtain ⟨next, hnext, hinteger, -⟩ := hcounts
      rw [Atom.step] at hnext
      split at hnext
      · rw [← Except.ok.inj hnext] at hinteger
        cases hinteger
      · cases hnext
    · obtain rfl : value = some 0 := by
        unfold Atom.new at hnew
        simp only [if_true] at hnew
        split_ifs at hnew <;> cases hnew
        rfl
      by_cases hfirst : first = 0x2d
      · subst hfirst
        have hrest := hstep.mp hcounts
        have hsign : ∀ tail, rest ≠ 0x2d :: tail := by
          rintro tail rfl
          obtain ⟨next, hnext, -⟩ := hrest
          cases hnext
        obtain ⟨hint, hlt, rfl⟩ := (counts_first hminus hsign).mp hrest
        exact .negative hint hlt
      · have hsign : ∀ tail, first :: rest ≠ 0x2d :: tail := fun tail h =>
          hfirst (List.cons.inj h).1
        obtain ⟨hint, hlt, rfl⟩ := (counts_first hstart hsign).mp hcounts
        exact .positive hint hlt
  · generalize hbytes : first :: rest = bytes at h
    cases h with
    | positive hint hlt =>
      subst hbytes
      have hdigit : isDigit first = true := by
        rcases int_cons_iff.mp hint with ⟨rfl, -⟩ | ⟨hdigit, -⟩
        · decide
        · exact hdigit
      exact ⟨_, Atom.new_of_number (.inr hdigit) true,
        (counts_first hstart (sign_not_int hint)).mpr ⟨hint, hlt, rfl⟩⟩
    | negative hint hlt =>
      obtain ⟨rfl, rfl⟩ := List.cons.inj hbytes
      exact ⟨_, Atom.new_of_number (.inl rfl) true,
        hstep.mpr ((counts_first hminus (sign_not_int hint)).mpr ⟨hint, hlt, rfl⟩)⟩

/-- Where an integer is wanted, an atom is one, up to the end of the input or a delimiter. -/
theorem atomWith_integer_eq_ok_iff {input : Bytes} {index stop : ℕ} {first : UInt8}
    {kind : ValueKind} (hfirst : input[index]? = some first) :
    atomWith true input index first none = .ok (kind, stop) ↔
      ∃ text rest, IntegerText text kind ∧ input.drop index = text ++ rest ∧
        stop = index + text.length ∧ Delimited rest := by
  obtain ⟨-, hdrop⟩ := drop_of_getElem? hfirst
  simp only [atomWith, Except.bind_eq_ok_iff, atomLoop_integer_eq_ok_iff]
  refine ⟨?_, ?_⟩
  · rintro ⟨atom, hnew, text, rest, hcounts, heq, hstop, hrest⟩
    cases text with
    | nil => exact absurd hcounts (Atom.finish_new hnew kind)
    | cons byte text =>
      rw [heq] at hdrop
      obtain ⟨rfl, -⟩ := List.cons.inj hdrop
      exact ⟨_, rest, counts_new_iff.mp ⟨atom, hnew, hcounts⟩, heq, hstop, hrest⟩
  · rintro ⟨text, rest, htext, heq, hstop, hrest⟩
    cases text with
    | nil =>
      generalize hnil : ([] : Bytes) = text at htext
      cases htext with
      | positive hint =>
        subst hnil
        cases hint
      | negative => cases hnil
    | cons byte text =>
      rw [heq] at hdrop
      obtain ⟨rfl, -⟩ := List.cons.inj hdrop
      obtain ⟨atom, hnew, hcounts⟩ := counts_new_iff.mpr htext
      exact ⟨atom, hnew, _, rest, hcounts, heq, hstop, hrest⟩

/-! ## Main results -/

/-- An integer, with or without a sign, and its value. -/
inductive Signed : Bytes → ℤ → Prop
  | positive {text : Bytes} : Int text → Signed text (extend 0 text)
  | negative {text : Bytes} : Int text → Signed (0x2d :: text) (-(extend 0 text))

/-- An unsigned integer is read where it fits. -/
theorem parseU64_eq_ok_iff {input : Bytes} {index stop value : ℕ} :
    parseU64 input index = (stop, .ok value) ↔
      ∃ text rest, Int text ∧ value = extend 0 text ∧ value < 2 ^ 64 ∧
        input.drop index = text ++ rest ∧ stop = index + text.length ∧ Delimited rest := by
  rw [parseU64]
  cases hfirst : input[index]? with
  | none =>
    refine iff_of_false (by simp) ?_
    rintro ⟨text, rest, hint, -, -, hdrop, -⟩
    rw [List.drop_eq_nil_of_le (List.getElem?_eq_none_iff.mp hfirst)] at hdrop
    obtain ⟨rfl, -⟩ := List.append_eq_nil_iff.mp hdrop.symm
    cases hint
  | some first =>
    have hatom := fun kind => @atomWith_integer_eq_ok_iff input index stop first kind hfirst
    obtain ⟨-, hcons⟩ := drop_of_getElem? hfirst
    dsimp only
    by_cases hsign : first = 0x2d
    · rw [if_pos hsign]
      refine iff_of_false (by simp) ?_
      rintro ⟨text, rest, hint, -, -, hdrop, -⟩
      cases text with
      | nil => cases hint
      | cons byte text =>
        rw [hdrop, List.cons_append] at hcons
        exact sign_not_int hint text (by rw [(List.cons.inj hcons).1, hsign])
    · rw [if_neg hsign]
      have hread : (∃ text rest, Int text ∧ value = extend 0 text ∧ value < 2 ^ 64 ∧
          input.drop index = text ++ rest ∧ stop = index + text.length ∧ Delimited rest) ↔
          atomWith true input index first none = .ok (.unsigned value, stop) := by
        rw [hatom]
        refine ⟨?_, ?_⟩
        · rintro ⟨text, rest, hint, rfl, hlt, hrest⟩
          exact ⟨text, rest, .positive hint hlt, hrest⟩
        · rintro ⟨text, rest, htext, hrest⟩
          generalize hkind : ValueKind.unsigned value = kind at htext
          cases htext with
          | positive hint hlt =>
            obtain rfl := ValueKind.unsigned.inj hkind
            exact ⟨text, rest, hint, rfl, hlt, hrest⟩
          | negative => cases hkind
      rw [hread]
      cases atomWith true input index first none with
      | error error => simp
      | ok result =>
        obtain ⟨kind, next⟩ := result
        cases kind with
        | unsigned found => simp [and_comm]
        | _ => simp

/-- Where an unsigned integer is not read, the index of the caller is what it was. -/
theorem parseU64_error {input : Bytes} {index : ℕ} {error : Error}
    (h : (parseU64 input index).2 = .error error) : (parseU64 input index).1 = index := by
  rw [parseU64] at h ⊢
  cases hfirst : input[index]? with
  | none => rfl
  | some first =>
    simp only [hfirst] at h ⊢
    by_cases hsign : first = 0x2d
    · rw [if_pos hsign]
    · rw [if_neg hsign] at h ⊢
      cases hatom : atomWith true input index first none with
      | error error => rfl
      | ok result =>
        obtain ⟨kind, next⟩ := result
        simp only [hatom] at h ⊢
        cases kind with
        | unsigned found => cases h
        | _ => rfl

theorem i64_eq_ok_iff {text : Bytes} {kind : ValueKind} (htext : IntegerText text kind)
    {value : ℤ} :
    kind.i64 = .ok value ↔ Signed text value ∧ -2 ^ 63 ≤ value ∧ value < 2 ^ 63 := by
  cases htext with
  | positive hint hlt =>
    have hsigned : Signed text value ↔ value = (extend 0 text : ℕ) := by
      refine ⟨fun h => ?_, fun h => h ▸ .positive hint⟩
      cases h with
      | positive => rfl
      | negative => exact absurd rfl (sign_not_int hint _)
    rw [hsigned, ValueKind.i64]
    split_ifs with hfits
    · rw [Except.ok.injEq]
      omega
    · simp only [reduceCtorEq, false_iff]
      omega
  | @negative text hint hlt =>
    have hsigned : Signed (0x2d :: text) value ↔ value = -(extend 0 text : ℕ) := by
      refine ⟨fun h => ?_, fun h => h ▸ .negative hint⟩
      generalize hbytes : (0x2d :: text : Bytes) = bytes at h
      cases h with
      | positive hpositive => exact absurd hbytes.symm (sign_not_int hpositive text)
      | negative => rw [(List.cons.inj hbytes).2]
    rw [hsigned, ValueKind.i64]
    split_ifs with hfits
    · rw [Except.ok.injEq]
      omega
    · simp only [reduceCtorEq, false_iff]
      omega

/-- A signed integer is read where it fits. -/
theorem parseI64_eq_ok_iff {input : Bytes} {index stop : ℕ} {value : ℤ} :
    parseI64 input index = (stop, .ok value) ↔
      ∃ text rest, Signed text value ∧ -2 ^ 63 ≤ value ∧ value < 2 ^ 63 ∧
        input.drop index = text ++ rest ∧ stop = index + text.length ∧ Delimited rest := by
  rw [parseI64]
  cases hfirst : input[index]? with
  | none =>
    refine iff_of_false (by simp) ?_
    rintro ⟨text, rest, hsigned, -, -, hdrop, -⟩
    rw [List.drop_eq_nil_of_le (List.getElem?_eq_none_iff.mp hfirst)] at hdrop
    obtain ⟨rfl, -⟩ := List.append_eq_nil_iff.mp hdrop.symm
    generalize hnil : ([] : Bytes) = bytes at hsigned
    cases hsigned with
    | positive hint =>
      subst hnil
      cases hint
    | negative => cases hnil
  | some first =>
    have hatom := fun kind => @atomWith_integer_eq_ok_iff input index stop first kind hfirst
    have hread : (∃ text rest, Signed text value ∧ -2 ^ 63 ≤ value ∧ value < 2 ^ 63 ∧
        input.drop index = text ++ rest ∧ stop = index + text.length ∧ Delimited rest) ↔
        ∃ kind, atomWith true input index first none = .ok (kind, stop) ∧ kind.i64 = .ok value := by
      refine ⟨?_, ?_⟩
      · rintro ⟨text, rest, hsigned, hlow, hhigh, hrest⟩
        obtain ⟨kind, htext⟩ : ∃ kind, IntegerText text kind := by
          cases hsigned with
          | positive hint => exact ⟨_, .positive hint (by omega)⟩
          | negative hint => exact ⟨_, .negative hint (by omega)⟩
        exact ⟨kind, (hatom kind).mpr ⟨text, rest, htext, hrest⟩,
          (i64_eq_ok_iff htext).mpr ⟨hsigned, hlow, hhigh⟩⟩
      · rintro ⟨kind, hread, hkind⟩
        obtain ⟨text, rest, htext, hrest⟩ := (hatom kind).mp hread
        obtain ⟨hsigned, hlow, hhigh⟩ := (i64_eq_ok_iff htext).mp hkind
        exact ⟨text, rest, hsigned, hlow, hhigh, hrest⟩
    rw [hread]
    dsimp only
    cases atomWith true input index first none with
    | error error => simp
    | ok result =>
      obtain ⟨kind, next⟩ := result
      dsimp only
      cases hkind : kind.i64 with
      | error error => simp [hkind]
      | ok found => simp [hkind, and_comm]

theorem parseI64_error {input : Bytes} {index : ℕ} {error : Error}
    (h : (parseI64 input index).2 = .error error) : (parseI64 input index).1 = index := by
  rw [parseI64] at h ⊢
  cases hfirst : input[index]? with
  | none => rfl
  | some first =>
    simp only [hfirst] at h ⊢
    cases hatom : atomWith true input index first none with
    | error error => rfl
    | ok result =>
      obtain ⟨kind, next⟩ := result
      simp only [hatom] at h ⊢
      cases hkind : kind.i64 with
      | error error => rfl
      | ok value =>
        simp only [hkind] at h
        cases h

theorem putI64_spec {value : ℤ} (hlow : -2 ^ 63 ≤ value) (hhigh : value < 2 ^ 63) :
    ∃ written, (∀ out, putI64 Sink.growing out value = some (.ok (out ++ written))) ∧
      Signed written value ∧ written.length = jsonSizeI64 value := by
  have hlt : value.natAbs < 2 ^ 64 := by omega
  obtain ⟨digits, hdigits, hint, hextend⟩ := u64Bytes_spec hlt
  have hlength := length_of_int hint
  rw [hextend] at hlength
  by_cases hneg : value < 0
  · refine ⟨0x2d :: digits, fun out => ?_, ?_, ?_⟩
    · rw [putI64, if_pos hneg]
      simp [putU64, hdigits]
    · have hvalue : value = -(extend 0 digits : ℕ) := by omega
      rw [hvalue]
      exact .negative hint
    · rw [List.length_cons, hlength, jsonSizeI64, if_pos hneg]
  · refine ⟨digits, fun out => ?_, ?_, ?_⟩
    · rw [putI64, if_neg hneg]
      simp [putU64, hdigits]
    · have hvalue : value = (extend 0 digits : ℕ) := by omega
      rw [hvalue]
      exact .positive hint
    · rw [hlength, jsonSizeI64, if_neg hneg]
      rfl

/-- Integers. What is written of a number is as long as its size says, and followed by a delimiter
it is read back up to there. At every index an integer is read exactly where, up to a delimiter,
the text is one without fraction and exponent and its value fits; otherwise the index of the caller
is what it was. A sign is read by `parse_i64` only. -/
theorem integers_exact :
    (∀ value : ℕ, value < 2 ^ 64 → ∃ written,
      (∀ out, putU64 Sink.growing out value = some (.ok (out ++ written))) ∧
      written.length = jsonSizeU64 value ∧ ∀ before rest, Delimited rest →
        parseU64 (before ++ (written ++ rest)) before.length =
          (before.length + written.length, .ok value)) ∧
    (∀ value : ℤ, -2 ^ 63 ≤ value → value < 2 ^ 63 → ∃ written,
      (∀ out, putI64 Sink.growing out value = some (.ok (out ++ written))) ∧
      written.length = jsonSizeI64 value ∧ ∀ before rest, Delimited rest →
        parseI64 (before ++ (written ++ rest)) before.length =
          (before.length + written.length, .ok value)) ∧
    ∀ (input : Bytes) (index : ℕ),
      (∀ stop value, parseU64 input index = (stop, .ok value) ↔
        ∃ text rest, Int text ∧ value = extend 0 text ∧ value < 2 ^ 64 ∧
          input.drop index = text ++ rest ∧ stop = index + text.length ∧ Delimited rest) ∧
      (∀ error, (parseU64 input index).2 = .error error → (parseU64 input index).1 = index) ∧
      (∀ stop value, parseI64 input index = (stop, .ok value) ↔
        ∃ text rest, Signed text value ∧ -2 ^ 63 ≤ value ∧ value < 2 ^ 63 ∧
          input.drop index = text ++ rest ∧ stop = index + text.length ∧ Delimited rest) ∧
      ∀ error, (parseI64 input index).2 = .error error → (parseI64 input index).1 = index := by
  refine ⟨fun value hlt => ?_, fun value hlow hhigh => ?_, fun input index =>
    ⟨fun stop value => parseU64_eq_ok_iff, fun error => parseU64_error,
      fun stop value => parseI64_eq_ok_iff, fun error => parseI64_error⟩⟩
  · obtain ⟨written, hwritten, hint, rfl⟩ := u64Bytes_spec hlt
    refine ⟨written, fun out => ?_, length_of_int hint, fun before rest hrest => ?_⟩
    · simp [putU64, hwritten]
    · exact parseU64_eq_ok_iff.mpr
        ⟨written, rest, hint, rfl, hlt, List.drop_left, rfl, hrest⟩
  · obtain ⟨written, hput, hsigned, hlength⟩ := putI64_spec hlow hhigh
    exact ⟨written, hput, hlength, fun before rest hrest => parseI64_eq_ok_iff.mpr
      ⟨written, rest, hsigned, hlow, hhigh, List.drop_left, rfl, hrest⟩⟩

/-- The least number of `i64`, and a zero with a sign. -/
theorem integers_exact_min :
    (∃ written, (∀ out, putI64 Sink.growing out (-2 ^ 63) = some (.ok (out ++ written))) ∧
      written.length = jsonSizeI64 (-2 ^ 63) ∧ parseI64 (written ++ [0x2c]) 0 =
        (written.length, .ok (-2 ^ 63))) ∧
    parseI64 [0x2d, 0x30] 0 = (2, .ok 0) ∧ parseU64 [0x2d, 0x30] 0 = (0, .error .invalid) := by
  obtain ⟨written, hput, hlength, hparse⟩ :=
    integers_exact.2.1 (-2 ^ 63) (by norm_num) (by norm_num)
  have hback := hparse [] [0x2c] (.inr ⟨0x2c, [], rfl, by decide⟩)
  rw [List.nil_append, List.length_nil, Nat.zero_add] at hback
  exact ⟨⟨written, hput, hlength, hback⟩, by decide +kernel, by decide +kernel⟩

end Sark.Json
