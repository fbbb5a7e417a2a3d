import Sark.Http.H1.Value
import Sark.Library.Splice
import Sark.Library.Utf8Scan

/-!
# Text in two parts

The validation of a text message that was received in two parts (`ws/src/fragment/text.rs`). A
character that the end of the first part breaks off is completed in a small buffer with as many
bytes of the second part as its first byte asks for.

* `needed_bounds`: the buffer holds what is copied into it.
* `validatePair_spec`: both parts are validated as one byte string.
-/

namespace Sark.Ws

open Utf8 (ScanError Valid front front_take leadWidth lt_of_front_short validate validateFrom
  validateFrom_add validateFrom_append validateFrom_append_invalid validateFrom_eq_ok_iff
  exists_of_front exists_of_validateFrom_short)

/-- `fragment::Utf8`: how many bytes are valid, and the length of the invalid sequence behind them
unless the end of the bytes is the reason. -/
structure TextError where
  valid : ℕ
  error : Option ℕ
  deriving DecidableEq, Repr

namespace TextError

/-- `Utf8::at`. -/
def at' (base : ℕ) (error : ScanError) : TextError :=
  ⟨base + error.validUpTo, error.errorLen⟩

/-- `Utf8::check`, with `str::from_utf8` as the validation of the library. -/
def check (bytes : Bytes) (base : ℕ) : Except TextError Unit :=
  (validate bytes).mapError (at' base)

end TextError

/-- `u8::leading_ones`. -/
def leadingOnes (byte : UInt8) : ℕ :=
  ((List.range 8).takeWhile fun i => byte.toNat.testBit (7 - i)).length

/-- How many bytes of the second part belong to the character that the first one breaks off. -/
def needed (tail second : Bytes) : ℕ :=
  min (leadingOnes (tail.getD 0 0) - tail.length) second.length

/-- `validate_pair`. -/
def validatePair (first second : Bytes) : Except TextError Unit :=
  match validate first with
  | .ok () => TextError.check second first.length
  | .error error =>
    if error.errorLen.isSome then .error (TextError.at' 0 error)
    else do
      let base := error.validUpTo
      let tail := first.drop base
      let needed := needed tail second
      let buf := List.replicate 4 0
      let buf := splice 0 tail buf
      let buf := splice tail.length (second.take needed) buf
      TextError.check (buf.take (tail.length + needed)) base
      TextError.check (second.drop needed) (first.length + needed)

/-! ## The buffer -/

section Buffer

variable {lead : UInt8} {rest first second : Bytes} {n : ℕ}

theorem leadingOnes_eq (h : 0xc2 ≤ lead) (h' : lead ≤ 0xf4) :
    leadingOnes lead = leadWidth lead := by
  have hall : ∀ n < 256, 0xc2 ≤ n → n ≤ 0xf4 →
      leadingOnes (UInt8.ofNat n) = leadWidth (UInt8.ofNat n) := by
    decide +kernel
  have hlead := hall lead.toNat lead.toNat_lt (UInt8.le_iff_toNat_le.mp h)
    (UInt8.le_iff_toNat_le.mp h')
  rwa [UInt8.ofNat_toNat] at hlead

theorem leadWidth_le (lead : UInt8) : leadWidth lead ≤ 4 := by
  rw [leadWidth]
  split_ifs <;> omega

/-- What is broken off is shorter than its character, which fits the buffer. -/
theorem needed_bounds (h : front lead rest = .short) (second : Bytes) :
    (lead :: rest).length < leadingOnes lead ∧
      (lead :: rest).length + needed (lead :: rest) second ≤ 4 := by
  obtain ⟨hlt, hlow, hhigh⟩ := lt_of_front_short h
  have hle := leadWidth_le lead
  rw [needed, List.getD_cons_zero, leadingOnes_eq hlow hhigh, List.length_cons]
  omega

/-- The buffer holds the end of the first part and what the second one completes it with. -/
theorem buffer_eq {tail more : Bytes} (h : tail.length + more.length ≤ 4) :
    (splice tail.length more (splice 0 tail (List.replicate 4 0))).take
      (tail.length + more.length) = tail ++ more := by
  have hsplice := @splice_splice_right _ 0 tail more (List.replicate 4 (0 : UInt8))
    (by rw [List.length_replicate]; omega)
  rw [Nat.zero_add] at hsplice
  rw [hsplice, splice, List.take_zero, List.nil_append, ← List.length_append, List.take_left]

/-- The completed character decides what the validation of the whole says at its place. -/
theorem validateFrom_completed (place : ℕ) (h : front lead rest = .short) (second : Bytes) :
    validateFrom place (lead :: rest ++ second) =
      (validateFrom place (lead :: rest ++ second.take (needed (lead :: rest) second)) >>= fun _ =>
        validateFrom (place + ((lead :: rest).length + needed (lead :: rest) second))
          (second.drop (needed (lead :: rest) second))) := by
  obtain ⟨hlt, hlow, hhigh⟩ := lt_of_front_short h
  have hneeded : needed (lead :: rest) second =
      min (leadWidth lead - 1 - rest.length) second.length := by
    rw [needed, List.getD_cons_zero, leadingOnes_eq hlow hhigh, List.length_cons,
      Nat.sub_sub, Nat.add_comm 1]
  generalize needed (lead :: rest) second = n at *
  -- the front reaches no further than the buffer
  have hfront : front lead (rest ++ second.take n) = front lead (rest ++ second) := by
    rw [← front_take lead (rest ++ second), ← front_take lead (rest ++ second.take n),
      List.take_append, List.take_append, List.take_take]
    congr 2
    rw [List.take_eq_take_iff]
    omega
  rw [List.cons_append, List.cons_append, validateFrom, validateFrom, hfront]
  rcases hcase : front lead (rest ++ second) with width | length | _
  · -- the buffer holds the character and nothing else
    rw [← hfront] at hcase
    obtain ⟨rfl, tails, more, hsplit, hwidth, -⟩ := exists_of_front hcase
    have hlength := congrArg List.length hsplit
    rw [List.length_append, List.length_append, List.length_take] at hlength
    have hn : n = leadWidth lead - 1 - rest.length := by omega
    have hbuffer : (rest ++ second.take n).drop (leadWidth lead - 1) = [] := by
      rw [List.drop_eq_nil_iff, List.length_append, List.length_take]
      omega
    have hbehind : (rest ++ second).drop (leadWidth lead - 1) = second.drop n := by
      rw [List.drop_append, List.drop_of_length_le (by omega), List.nil_append, hn]
    simp only
    rw [hbuffer, hbehind, validateFrom, List.length_cons,
      show place + (rest.length + 1 + n) = place + leadWidth lead by omega]
    rfl
  · rfl
  · rfl

end Buffer

theorem check_eq (bytes : Bytes) (base : ℕ) :
    TextError.check bytes base =
      (validateFrom base bytes).mapError fun e => ⟨e.validUpTo, e.errorLen⟩ := by
  have hadd := validateFrom_add 0 base bytes
  rw [Nat.add_zero] at hadd
  rw [hadd, TextError.check, validate]
  cases validateFrom 0 bytes with
  | ok result => rfl
  | error e => rfl

theorem mapError_bind {ε ε' α β : Type} (x : Except ε α) (f : α → Except ε β) (g : ε → ε') :
    (x >>= f).mapError g = (x.mapError g >>= fun a => (f a).mapError g) := by
  cases x <;> rfl

theorem validatePair_eq_check (first second : Bytes) :
    validatePair first second = TextError.check (first ++ second) 0 := by
  rw [validatePair, check_eq (first ++ second)]
  rcases hfirst : validate first with error | _
  · simp only
    by_cases hinvalid : error.errorLen.isSome
    · rw [if_pos hinvalid, validateFrom_append_invalid hfirst hinvalid]
      simp [TextError.at', Except.mapError]
    · rw [if_neg hinvalid]
      obtain ⟨lead, byte, rest, rfl, hplace, hshort, hmore⟩ :=
        exists_of_validateFrom_short hfirst (by simpa using hinvalid)
      have hdrop : (lead ++ byte :: rest).drop error.validUpTo = byte :: rest := by
        rw [hplace, Nat.zero_add, List.drop_left]
      have hlength : (lead ++ byte :: rest).length = error.validUpTo + (byte :: rest).length := by
        rw [hplace, Nat.zero_add, List.length_append]
      obtain ⟨-, hfits⟩ := needed_bounds hshort second
      have htake : (second.take (needed (byte :: rest) second)).length =
          needed (byte :: rest) second := by
        rw [List.length_take]
        exact Nat.min_eq_left (Nat.min_le_right _ _)
      have hbuffer := @buffer_eq (byte :: rest) (second.take (needed (byte :: rest) second))
        (by omega)
      rw [htake] at hbuffer
      rw [hmore, validateFrom_completed _ hshort]
      simp only [hdrop]
      rw [hbuffer, check_eq, check_eq, hlength, Nat.add_assoc, mapError_bind]
  · simp only
    rw [validateFrom_append hfirst, check_eq, Nat.zero_add]

/-- Two parts are accepted exactly when they make up valid UTF-8; otherwise the error is that of
validating them as one byte string. -/
theorem validatePair_spec (first second : Bytes) :
    (validatePair first second = .ok () ↔ Valid (first ++ second)) ∧
      validatePair first second =
        (validate (first ++ second)).mapError fun e => ⟨e.validUpTo, e.errorLen⟩ := by
  rw [validatePair_eq_check, check_eq]
  refine ⟨?_, rfl⟩
  rw [← validateFrom_eq_ok_iff 0]
  cases validateFrom 0 (first ++ second) with
  | ok result => exact iff_of_true rfl rfl
  | error e => exact iff_of_false (by simp [Except.mapError]) (by simp)

end Sark.Ws
