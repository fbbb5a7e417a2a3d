import Sark.Http.H1.Value
import Sark.Library.Fallible

/-!
# Prefixed integers

The integers of HPACK and QPACK (`http/src/field/metadata/integer.rs`): a value below `2^bits - 1`
stands in the low bits of one byte, a larger one is continued in groups of seven bits. A
`Continuation` is what a resumable reader keeps between two bytes.

* `PrefixedInt.take_emit`: reading what was written gives the value back.
* `PrefixedInt.take_append`: a verdict does not change when more input arrives.
* `PrefixedInt.take_iff`: the inputs that are read, and as which value.
* `Continuation.resume_eq`: a reader that is resumed piece by piece reads what one shot reads.
-/

namespace Sark.Metadata

/-- The exact byte and accumulator rejected by a prefixed integer continuation. -/
structure IntegerOverflow where
  value : ℕ
  shift : ℕ
  byte : UInt8
  deriving DecidableEq, Repr

/-- `integer::Error`. -/
inductive IntegerError
  | needMore
  | overflow (cause : IntegerOverflow)
  deriving DecidableEq, Repr

/-- The value so far and the weight of the next group. -/
structure Continuation where
  value : ℕ
  shift : ℕ
  deriving DecidableEq, Repr

/-- What a byte does to a continuation: `ControlFlow::Continue` or `ControlFlow::Break`. -/
inductive Push
  | more (next : Continuation)
  | done (value : ℕ)
  deriving DecidableEq, Repr

namespace Continuation

/-- `Continuation::new`. -/
def new (first : ℕ) : Continuation :=
  ⟨first, 0⟩

/-- `Continuation::try_push`, in 64-bit arithmetic. -/
def tryPush (self : Continuation) (byte : UInt8) : Except IntegerOverflow Push :=
  let overflow : IntegerOverflow := ⟨self.value, self.shift, byte⟩
  let chunk := byte.toNat % 128
  if (2 ^ 64 - 1) >>> self.shift < chunk then .error overflow
  else if 2 ^ 64 ≤ self.value + chunk <<< self.shift then .error overflow
  else if byte.toNat < 128 then .ok (.done (self.value + chunk <<< self.shift))
  else if 64 ≤ self.shift + 7 then .error overflow
  else .ok (.more ⟨self.value + chunk <<< self.shift, self.shift + 7⟩)

/-- `Continuation::try_push` with the continuation that it leaves behind. -/
def push (self : Continuation) (byte : UInt8) :
    Continuation × Except IntegerOverflow (Option ℕ) :=
  let overflow : IntegerOverflow := ⟨self.value, self.shift, byte⟩
  let chunk := byte.toNat % 128
  if (2 ^ 64 - 1) >>> self.shift < chunk then (self, .error overflow)
  else if 2 ^ 64 ≤ self.value + chunk <<< self.shift then (self, .error overflow)
  else if byte.toNat < 128 then
    let value := self.value + chunk <<< self.shift
    ({ self with value }, .ok (some value))
  else if 64 ≤ self.shift + 7 then (self, .error overflow)
  else (⟨self.value + chunk <<< self.shift, self.shift + 7⟩, .ok none)

theorem push_of_error {self : Continuation} {byte : UInt8} {cause : IntegerOverflow}
    (h : (self.push byte).2 = .error cause) : (self.push byte).1 = self := by
  unfold push at h ⊢
  dsimp only at h ⊢
  split_ifs at h ⊢ with hchunk hsum hlast hshift
  all_goals rfl

theorem tryPush_eq_push (self : Continuation) (byte : UInt8) :
    self.tryPush byte = (self.push byte).2.map fun
      | some value => .done value
      | none => .more (self.push byte).1 := by
  unfold tryPush push
  dsimp only
  split_ifs with hchunk hsum hlast hshift
  all_goals rfl

/-- A resumed reader: it pushes the bytes of a piece until the value is complete. -/
def feed (self : Continuation) : Bytes → Continuation × Except IntegerOverflow (Option (ℕ × Bytes))
  | [] => (self, .ok none)
  | byte :: rest =>
    match self.push byte with
    | (next, .error cause) => (next, .error cause)
    | (next, .ok (some value)) => (next, .ok (some (value, rest)))
    | (next, .ok none) => next.feed rest

/-- A reader that is resumed with one piece after the other. -/
def resume (self : Continuation) : List Bytes → Except IntegerError (ℕ × Bytes)
  | [] => .error .needMore
  | piece :: pieces =>
    match self.feed piece with
    | (_, .error cause) => .error (.overflow cause)
    | (_, .ok (some (value, rest))) => .ok (value, rest ++ pieces.flatten)
    | (next, .ok none) => next.resume pieces

/-- The loop of `PrefixedInt::read`: the value and what follows it. -/
def read (self : Continuation) : Bytes → Except IntegerError (ℕ × Bytes)
  | [] => .error .needMore
  | byte :: rest =>
    match self.tryPush byte with
    | .error cause => .error (.overflow cause)
    | .ok (.done value) => .ok (value, rest)
    | .ok (.more next) => next.read rest

end Continuation

namespace PrefixedInt

/-- `PrefixedInt::<BITS>::MAX_PREFIX`. -/
def maxPrefix (bits : ℕ) : ℕ :=
  2 ^ bits - 1

/-- `PrefixedInt::<BITS>::take`: the value and what follows it. -/
def take (bits : ℕ) : Bytes → Except IntegerError (ℕ × Bytes)
  | [] => .error .needMore
  | byte :: tail =>
    let first := byte.toNat % 2 ^ bits
    if first < maxPrefix bits then .ok (first, tail)
    else (Continuation.new (maxPrefix bits)).read tail

/-- The groups behind a saturated prefix. -/
def groups (rest : ℕ) : Bytes :=
  if 128 ≤ rest then UInt8.ofNat (rest % 128 + 128) :: groups (rest >>> 7)
  else [UInt8.ofNat rest]
termination_by rest
decreasing_by
  rw [Nat.shiftRight_eq_div_pow]
  omega

/-- `PrefixedInt::<BITS>::encoded_len`. -/
def encodedLen (bits value : ℕ) : ℕ :=
  if value < maxPrefix bits then 1
  else 1 + (1 + Nat.log2 ((value - maxPrefix bits) ||| 1) / 7)

/-- `PrefixedInt::<BITS>::emit`: the high bits of `pattern` stand in front of the value. -/
def emit (bits : ℕ) (pattern : UInt8) (value : ℕ) : Bytes :=
  let high := pattern.toNat - pattern.toNat % 2 ^ bits
  if value < maxPrefix bits then [UInt8.ofNat (high + value)]
  else UInt8.ofNat (high + maxPrefix bits) :: groups (value - maxPrefix bits)

end PrefixedInt

theorem Nat.sub_mod_self_add_mod {a b m : ℕ} (h : b < m) : (a - a % m + b) % m = b := by
  have hdiv : a - a % m = m * (a / m) := by
    have := Nat.div_add_mod a m
    omega
  rw [hdiv, Nat.mul_add_mod, Nat.mod_eq_of_lt h]

/-! ## Reading what was written -/

namespace Continuation

theorem tryPush_of_lt {value shift : ℕ} {byte : UInt8}
    (h : value + byte.toNat % 128 * 2 ^ shift < 2 ^ 64) :
    tryPush ⟨value, shift⟩ byte =
      if byte.toNat < 128 then .ok (.done (value + byte.toNat % 128 * 2 ^ shift))
      else if 64 ≤ shift + 7 then .error ⟨value, shift, byte⟩
      else .ok (.more ⟨value + byte.toNat % 128 * 2 ^ shift, shift + 7⟩) := by
  have hchunk : ¬((2 ^ 64 - 1) >>> shift < byte.toNat % 128) := by
    rw [Nat.shiftRight_eq_div_pow, not_lt, Nat.le_div_iff_mul_le (Nat.two_pow_pos shift)]
    omega
  simp only [tryPush, if_neg hchunk, Nat.shiftLeft_eq]
  rw [if_neg (not_le.mpr h)]

/-- The groups of a value that fits are read back. -/
theorem read_groups {rest value shift : ℕ} (hvalue : value + rest * 2 ^ shift < 2 ^ 64)
    (tail : Bytes) :
    read ⟨value, shift⟩ (PrefixedInt.groups rest ++ tail) =
      .ok (value + rest * 2 ^ shift, tail) := by
  fun_induction PrefixedInt.groups rest generalizing value shift with
  | case1 rest hrest ih =>
    have hbyte : (UInt8.ofNat (rest % 128 + 128)).toNat = rest % 128 + 128 := by
      rw [UInt8.toNat_ofNat']
      omega
    have hchunk : (UInt8.ofNat (rest % 128 + 128)).toNat % 128 = rest % 128 := by omega
    -- the value splits into this group and the ones behind it
    have hsplit : value + rest % 128 * 2 ^ shift + (rest >>> 7) * 2 ^ (shift + 7) =
        value + rest * 2 ^ shift := by
      rw [Nat.shiftRight_eq_div_pow, pow_add, show 2 ^ 7 = 128 by norm_num]
      conv_rhs => rw [← Nat.div_add_mod rest 128]
      ring
    have hshift : shift + 7 < 64 := by
      by_contra hge
      have hpow : 2 ^ 64 ≤ 2 ^ (shift + 7) := Nat.pow_le_pow_right (by norm_num) (by omega)
      have hone : 1 ≤ rest >>> 7 := by
        rw [Nat.shiftRight_eq_div_pow]
        omega
      have := Nat.mul_le_mul hone hpow
      omega
    rw [List.cons_append, read, tryPush_of_lt (by rw [hchunk]; omega), if_neg (by omega),
      if_neg (by omega)]
    simp only [hchunk]
    rw [ih (by omega), hsplit]
  | case2 rest hrest =>
    have hbyte : (UInt8.ofNat rest).toNat = rest := by
      rw [UInt8.toNat_ofNat']
      omega
    have hchunk : (UInt8.ofNat rest).toNat % 128 = rest := by omega
    rw [List.singleton_append, read, tryPush_of_lt (by rwa [hchunk]), if_pos (by omega)]
    simp only [hchunk]

theorem read_append {self : Continuation} {input : Bytes} (tail : Bytes)
    (h : self.read input ≠ .error .needMore) :
    self.read (input ++ tail) = (self.read input).map fun result => (result.1, result.2 ++ tail) := by
  induction input generalizing self with
  | nil => exact absurd rfl h
  | cons byte input ih =>
    rw [List.cons_append, read]
    rw [read] at h ⊢
    cases hpush : self.tryPush byte with
    | error cause => rfl
    | ok push =>
      cases push with
      | done value => rfl
      | more next =>
        rw [hpush] at h
        exact ih h

end Continuation

namespace PrefixedInt

theorem take_append {bits : ℕ} {input : Bytes} (tail : Bytes)
    (h : take bits input ≠ .error .needMore) :
    take bits (input ++ tail) =
      (take bits input).map fun result => (result.1, result.2 ++ tail) := by
  cases input with
  | nil => exact absurd rfl h
  | cons byte input =>
    simp only [List.cons_append, take] at h ⊢
    split
    · rfl
    · rename_i hlarge
      rw [if_neg hlarge] at h
      exact Continuation.read_append tail h

theorem take_emit {bits value : ℕ} (hbits : bits ≤ 8) (hvalue : value < 2 ^ 64) (pattern : UInt8)
    (tail : Bytes) : take bits (emit bits pattern value ++ tail) = .ok (value, tail) := by
  have hlt := pattern.toNat_lt
  have hpow : 2 ^ bits ≤ 256 := Nat.pow_le_pow_right (n := 2) (by norm_num) hbits
  have hpos := Nat.two_pow_pos bits
  -- the first byte of the encoding keeps the low bits of the value apart from the pattern
  have hfirst : ∀ low, low < 2 ^ bits →
      (UInt8.ofNat (pattern.toNat - pattern.toNat % 2 ^ bits + low)).toNat % 2 ^ bits = low := by
    intro low hlow
    have hdvd : 2 ^ bits ∣ 2 ^ 8 := pow_dvd_pow 2 hbits
    rw [UInt8.toNat_ofNat', Nat.mod_mod_of_dvd _ hdvd, Nat.sub_mod_self_add_mod hlow]
  rw [emit]
  split
  · rename_i hsmall
    have hvalue' := hfirst value (by rw [maxPrefix] at hsmall; omega)
    simp only [List.singleton_append, take, hvalue', if_pos hsmall]
  · rename_i hlarge
    have hmax := hfirst (maxPrefix bits) (by rw [maxPrefix]; omega)
    simp only [List.cons_append, take, hmax, lt_irrefl, if_false, Continuation.new]
    rw [Continuation.read_groups (by omega)]
    congr 2
    omega

theorem take_of_emit_append {bits value : ℕ} (hbits : bits ≤ 8) (hvalue : value < 2 ^ 64)
    {pattern : UInt8} {lead rest : Bytes} (hrest : rest ≠ [])
    (hemit : lead ++ rest = emit bits pattern value) : take bits lead = .error .needMore := by
  by_contra hlead
  have hwhole := take_emit hbits hvalue pattern []
  rw [List.append_nil, ← hemit, take_append rest hlead] at hwhole
  obtain ⟨result, -, heq⟩ := Except.map_eq_ok_iff.mp hwhole
  exact hrest (List.append_eq_nil_iff.mp (Prod.mk.inj heq).2).2

theorem log2_or_one {n : ℕ} (h : n ≠ 0) : Nat.log2 (n ||| 1) = Nat.log2 n := by
  have hle : n ≤ n ||| 1 := Nat.left_le_or
  rw [Nat.log2_def, Nat.log2_def n, Nat.or_div_two, Nat.or_zero]
  by_cases hn : 2 ≤ n
  · rw [if_pos (hn.trans hle), if_pos hn]
  · obtain rfl : n = 1 := by omega
    rfl

theorem log2_shiftRight {n : ℕ} (h : 128 ≤ n) : Nat.log2 (n >>> 7) + 7 = Nat.log2 n := by
  have hdiv : n / 128 ≠ 0 := by omega
  have hlow := Nat.log2_self_le hdiv
  have hhigh := Nat.lt_log2_self (n := n / 128)
  rw [Nat.shiftRight_eq_div_pow, show 2 ^ 7 = 128 by norm_num]
  refine ((Nat.log2_eq_iff (by omega)).mpr ⟨?_, ?_⟩).symm
  · rw [pow_add]
    omega
  · rw [show Nat.log2 (n / 128) + 7 + 1 = (Nat.log2 (n / 128) + 1) + 7 by omega, pow_add]
    omega

theorem length_groups (rest : ℕ) : (groups rest).length = 1 + Nat.log2 (rest ||| 1) / 7 := by
  fun_induction groups rest with
  | case1 rest hrest ih =>
    have hlog := log2_shiftRight hrest
    have hsmaller : rest >>> 7 ≠ 0 := by
      rw [Nat.shiftRight_eq_div_pow]
      omega
    rw [log2_or_one hsmaller] at ih
    rw [List.length_cons, ih, log2_or_one (by omega)]
    omega
  | case2 rest hrest =>
    by_cases hzero : rest = 0
    · subst hzero
      rfl
    · have hlog : Nat.log2 rest < 7 := (Nat.log2_lt hzero).mpr (by omega)
      rw [log2_or_one hzero, List.length_singleton]
      omega

theorem length_emit (bits : ℕ) (pattern : UInt8) (value : ℕ) :
    (emit bits pattern value).length = encodedLen bits value := by
  unfold emit encodedLen
  split
  · rfl
  · rw [List.length_cons, length_groups, Nat.add_comm]

end PrefixedInt

/-! ## What is read -/

/-- The number that groups of seven bits stand for, the low ones first. -/
def groupsValue : Bytes → ℕ
  | [] => 0
  | byte :: rest => byte.toNat % 128 + 128 * groupsValue rest

/-- The groups of a number: all but the last are marked. -/
structure Groups (marked : Bytes) (last : UInt8) : Prop where
  marked : ∀ byte ∈ marked, 128 ≤ byte.toNat
  last : last.toNat < 128

namespace Continuation

theorem tryPush_of_le {value shift : ℕ} {byte : UInt8}
    (h : 2 ^ 64 ≤ value + byte.toNat % 128 * 2 ^ shift) :
    tryPush ⟨value, shift⟩ byte = .error ⟨value, shift, byte⟩ := by
  simp only [tryPush, Nat.shiftLeft_eq, if_pos h, ite_self]

theorem read_iff {number : Continuation} {input rest : Bytes} {value k : ℕ}
    (hshift : number.shift = 7 * k) (hk : k ≤ 9) :
    number.read input = .ok (value, rest) ↔
      ∃ marked last, Groups marked last ∧ input = marked ++ last :: rest ∧
        marked.length + k ≤ 9 ∧
        value = number.value + groupsValue (marked ++ [last]) * 2 ^ (7 * k) ∧
        value < 2 ^ 64 := by
  induction input generalizing number k with
  | nil => simp [read]
  | cons byte input ih =>
    obtain ⟨current, shift⟩ := number
    obtain rfl : shift = 7 * k := hshift
    -- the groups of an input begin with its first byte
    have hfirst {marked : Bytes} {last : UInt8} (h : byte :: input = marked ++ last :: rest) :
        marked = [] ∧ byte = last ∧ input = rest ∨
          ∃ marked', marked = byte :: marked' ∧ input = marked' ++ last :: rest := by
      cases marked with
      | nil => simpa using h
      | cons first marked =>
        obtain ⟨rfl, rfl⟩ := List.cons.inj h
        exact .inr ⟨marked, rfl, rfl⟩
    have hweight (marked : Bytes) (last : UInt8) :
        groupsValue (byte :: marked ++ [last]) * 2 ^ (7 * k) =
          byte.toNat % 128 * 2 ^ (7 * k) +
            groupsValue (marked ++ [last]) * 2 ^ (7 * (k + 1)) := by
      rw [List.cons_append, groupsValue, mul_add 7, pow_add]
      ring
    rw [read]
    by_cases hfits : current + byte.toNat % 128 * 2 ^ (7 * k) < 2 ^ 64
    · rw [tryPush_of_lt hfits]
      by_cases hbyte : byte.toNat < 128
      · rw [if_pos hbyte]
        constructor
        · intro h
          obtain ⟨rfl, rfl⟩ := Prod.mk.inj (Except.ok.inj h)
          refine ⟨[], byte, ⟨by simp, hbyte⟩, rfl, by simpa using hk, ?_, hfits⟩
          simp only [List.nil_append, groupsValue, mul_zero, add_zero]
        · rintro ⟨marked, last, hgroups, hinput, -, rfl, -⟩
          rcases hfirst hinput with ⟨rfl, rfl, rfl⟩ | ⟨marked, rfl, rfl⟩
          · simp only [List.nil_append, groupsValue, mul_zero, add_zero]
          · have := hgroups.marked byte (by simp)
            omega
      · rw [if_neg hbyte]
        by_cases hlast : 64 ≤ 7 * k + 7
        · -- a tenth group must be the last one
          rw [if_pos hlast]
          refine iff_of_false (by simp) ?_
          rintro ⟨marked, last, hgroups, hinput, hlength, -, -⟩
          rcases hfirst hinput with ⟨rfl, rfl, rfl⟩ | ⟨marked, rfl, rfl⟩
          · exact hbyte hgroups.last
          · rw [List.length_cons] at hlength
            omega
        · rw [if_neg hlast]
          dsimp only
          have hnext := @ih ⟨current + byte.toNat % 128 * 2 ^ (7 * k), 7 * k + 7⟩ (k + 1) rfl
            (by omega)
          rw [hnext]
          constructor
          · rintro ⟨marked, last, hgroups, rfl, hlength, rfl, hvalue⟩
            have hmarked : ∀ other ∈ byte :: marked, 128 ≤ other.toNat := by
              rw [List.forall_mem_cons]
              exact ⟨not_lt.mp hbyte, hgroups.marked⟩
            refine ⟨byte :: marked, last, ⟨hmarked, hgroups.last⟩, rfl, ?_, ?_, hvalue⟩
            · rw [List.length_cons]
              omega
            · rw [hweight, add_assoc]
          · rintro ⟨marked, last, hgroups, hinput, hlength, rfl, hvalue⟩
            rcases hfirst hinput with ⟨rfl, rfl, rfl⟩ | ⟨marked, rfl, rfl⟩
            · exact absurd hgroups.last hbyte
            · rw [hweight, ← add_assoc] at hvalue ⊢
              rw [List.length_cons] at hlength
              have hmarked := (List.forall_mem_cons.mp hgroups.marked).2
              exact ⟨marked, last, ⟨hmarked, hgroups.last⟩, rfl, by omega, rfl, hvalue⟩
    · rw [tryPush_of_le (not_lt.mp hfits)]
      refine iff_of_false (by simp) ?_
      rintro ⟨marked, last, hgroups, hinput, -, rfl, hvalue⟩
      rcases hfirst hinput with ⟨rfl, rfl, rfl⟩ | ⟨marked, rfl, rfl⟩
      · simp only [List.nil_append, groupsValue, mul_zero, add_zero] at hvalue
        exact hfits hvalue
      · rw [hweight] at hvalue
        dsimp only at hvalue
        omega

theorem read_cons_push (number : Continuation) (byte : UInt8) (rest : Bytes) :
    number.read (byte :: rest) =
      match number.push byte with
      | (_, .error cause) => .error (.overflow cause)
      | (_, .ok (some value)) => .ok (value, rest)
      | (next, .ok none) => next.read rest := by
  rw [read, tryPush_eq_push]
  rcases number.push byte with ⟨next, cause | ⟨⟩ | value⟩ <;> rfl

theorem read_append_of_feed (number : Continuation) (piece rest : Bytes) :
    number.read (piece ++ rest) =
      match number.feed piece with
      | (_, .error cause) => .error (.overflow cause)
      | (_, .ok (some (value, behind))) => .ok (value, behind ++ rest)
      | (next, .ok none) => next.read rest := by
  induction piece generalizing number with
  | nil => rfl
  | cons byte piece ih =>
    rw [List.cons_append, read_cons_push, feed]
    rcases number.push byte with ⟨next, cause | ⟨⟩ | value⟩
    · rfl
    · exact ih next
    · rfl

theorem resume_eq (number : Continuation) (pieces : List Bytes) :
    number.resume pieces = number.read pieces.flatten := by
  induction pieces generalizing number with
  | nil => rfl
  | cons piece pieces ih =>
    rw [List.flatten_cons, read_append_of_feed, resume]
    rcases number.feed piece with ⟨next, cause | ⟨⟩ | ⟨value, behind⟩⟩
    · rfl
    · exact ih next
    · rfl

end Continuation

namespace PrefixedInt

/-- What an input with a prefix of `bits` bits stands for: a small value in the prefix itself, or a
saturated prefix and at most ten groups that fit in 64 bits. -/
def Denotes (bits : ℕ) (input : Bytes) (value : ℕ) (rest : Bytes) : Prop :=
  ∃ first tail, input = first :: tail ∧
    (first.toNat % 2 ^ bits < maxPrefix bits ∧ value = first.toNat % 2 ^ bits ∧ rest = tail ∨
      first.toNat % 2 ^ bits = maxPrefix bits ∧
        ∃ marked last, Groups marked last ∧ tail = marked ++ last :: rest ∧ marked.length ≤ 9 ∧
          value = maxPrefix bits + groupsValue (marked ++ [last]) ∧ value < 2 ^ 64)

theorem take_iff {bits value : ℕ} {input rest : Bytes} :
    take bits input = .ok (value, rest) ↔ Denotes bits input value rest := by
  cases input with
  | nil => simp [take, Denotes]
  | cons first tail =>
    have hmod := Nat.mod_lt first.toNat (Nat.two_pow_pos bits)
    have hread := @Continuation.read_iff (Continuation.new (maxPrefix bits)) tail rest value 0 rfl
      (by omega)
    simp only [mul_zero, pow_zero, mul_one, add_zero, Continuation.new] at hread
    rw [take]
    constructor
    · intro h
      refine ⟨first, tail, rfl, ?_⟩
      split at h
      next hsmall =>
        obtain ⟨rfl, rfl⟩ := Prod.mk.inj (Except.ok.inj h)
        exact .inl ⟨hsmall, rfl, rfl⟩
      next hlarge =>
        refine .inr ⟨?_, hread.mp h⟩
        rw [maxPrefix] at hlarge ⊢
        omega
    · rintro ⟨first, tail, ⟨rfl, rfl⟩, ⟨hsmall, rfl, rfl⟩ | ⟨hlarge, hgroups⟩⟩
      · rw [if_pos hsmall]
      · rw [if_neg (by omega)]
        exact hread.mpr hgroups

/-- Prefixed integers of every width: what is written is read back from exactly the bytes written
and from no fewer, an input is read as the value that it denotes, a reader that is resumed in the
groups reads the same, and a group that is refused leaves the reader as it was. -/
theorem codec {bits : ℕ} (hbits : 1 ≤ bits ∧ bits ≤ 8) :
    (∀ (value : ℕ), value < 2 ^ 64 → ∀ (pattern : UInt8) (suffix : Bytes),
      take bits (emit bits pattern value ++ suffix) = .ok (value, suffix) ∧
      (emit bits pattern value).length = encodedLen bits value ∧
      ∀ lead rest, rest ≠ [] → lead ++ rest = emit bits pattern value →
        take bits lead = .error .needMore) ∧
    (∀ input value rest, take bits input = .ok (value, rest) ↔ Denotes bits input value rest) ∧
    (∀ first pieces, first.toNat % 2 ^ bits = maxPrefix bits →
      (Continuation.new (maxPrefix bits)).resume pieces = take bits (first :: pieces.flatten)) ∧
    ∀ (number : Continuation) (byte : UInt8) (cause : IntegerOverflow),
      (number.push byte).2 = .error cause → (number.push byte).1 = number := by
  refine ⟨fun value hvalue pattern suffix => ⟨take_emit hbits.2 hvalue pattern suffix,
    length_emit bits pattern value, fun lead rest hrest hemit =>
      take_of_emit_append hbits.2 hvalue hrest hemit⟩, fun _ _ _ => take_iff, ?_,
    fun _ _ _ => Continuation.push_of_error⟩
  intro first pieces hfirst
  rw [Continuation.resume_eq, take]
  simp only [hfirst, lt_irrefl, if_false]

/-- The largest value behind a prefix of five bits. -/
theorem codec_five_bits :
    take 5 (emit 5 0x20 (2 ^ 64 - 1) ++ [0xff]) = .ok (2 ^ 64 - 1, [0xff]) :=
  ((codec (by decide : 1 ≤ 5 ∧ 5 ≤ 8)).1 _ (by decide) 0x20 [0xff]).1

end PrefixedInt

end Sark.Metadata
