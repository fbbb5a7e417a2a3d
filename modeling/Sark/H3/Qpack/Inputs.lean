import Sark.Http.Metadata.Integer

/-!
# The prefix of a field section

How a QPACK decoder reads the two numbers in front of a field section
(`h3/src/qpack/decoder/inputs.rs`), and how an encoder writes them (`h3/src/qpack/mod.rs` and
`encoder/delta/mod.rs`). The insert count that a section requires is written modulo twice the number
of entries that the table may have, and the base as a distance from it, with a sign.

* `Prepared.required_iff`: an accepted value is that of the one count in the window around the
  decoder's own inserts that wraps to it.
* `Prepared.base_new`: the base of a section is reconstructed.
* `Prepared.insert_count`: what an encoder writes is read back as the same count and the same base.
-/

namespace Sark.Qpack

open Metadata (IntegerOverflow IntegerError PrefixedInt.take PrefixedInt.emit PrefixedInt.maxPrefix
  PrefixedInt.take_emit)

/-! ## References and sections -/

/-- `qpack::Reference`: an insert count that is required, which is not zero. -/
structure Reference where
  count : ℕ
  pos : 0 < count
  deriving Repr

theorem Reference.eq_iff (a b : Reference) : a.count = b.count ↔ a = b := by
  rcases a with ⟨a, ha⟩
  rcases b with ⟨b, hb⟩
  rw [Reference.mk.injEq]

instance : DecidableEq Reference :=
  fun a b => decidable_of_iff (a.count = b.count) (Reference.eq_iff a b)

/-- `Reference::absolute`. -/
def Reference.absolute (self : Reference) : ℕ :=
  self.count - 1

/-- `Reference::is_received`. -/
def Reference.isReceived (self : Reference) (received : ℕ) : Bool :=
  decide (self.count ≤ received)

/-- `qpack::Requirement`. -/
inductive Requirement
  | static
  | dynamic (required : Reference)
  deriving DecidableEq, Repr

/-- `Requirement::count`. -/
def Requirement.count : Requirement → ℕ
  | .static => 0
  | .dynamic required => required.count

/-- `qpack::DeltaSign`. -/
inductive DeltaSign
  | positive
  | negative
  deriving DecidableEq, Repr

/-- `Section::sign`. -/
def DeltaSign.bit : DeltaSign → UInt8
  | .positive => 0
  | .negative => 0x80

/-- `qpack::Section`. -/
structure Section where
  encodedRequired : ℕ
  delta : ℕ
  sign : DeltaSign
  lines : Bytes
  deriving DecidableEq, Repr

/-- `Section::new`. -/
def Section.new (encoded required base : ℕ) (lines : Bytes) : Section :=
  if base ≥ required then ⟨encoded, base - required, .positive, lines⟩
  else ⟨encoded, required - base - 1, .negative, lines⟩

/-- `Section::write_prefix`. -/
def Section.writePrefix (self : Section) : Bytes :=
  PrefixedInt.emit 8 0 self.encodedRequired ++ PrefixedInt.emit 7 self.sign.bit self.delta

/-- `Delta::encode_count`. The range is twice the number of entries that the table may have. -/
def encodeCount (range required : ℕ) : ℕ :=
  if required = 0 ∨ range = 0 then 0 else required % range + 1

/-! ## The decoder -/

/-- `decoder::Error`, as far as the prefix is concerned. -/
inductive InputError
  | incomplete (available : ℕ)
  | integer (bits available : ℕ) (cause : IntegerOverflow)
  | required (encoded inserted maximum : ℕ)
  | base (required delta : ℕ) (sign : DeltaSign)
  deriving DecidableEq, Repr

/-- `Error::integer`. -/
def InputError.ofInteger (bits len : ℕ) : IntegerError → InputError
  | .needMore => .incomplete len
  | .overflow cause => .integer bits len cause

/-- `inputs::Input`: what a reader of a section needs of its input. -/
class Input (I : Type) where
  remaining : I → ℕ
  peek : I → Option UInt8 × I
  prefixed : ℕ → I → Except InputError (ℕ × I)

/-- `Input for &[u8]`. -/
instance : Input Bytes where
  remaining := List.length
  peek := fun input => (input.head?, input)
  prefixed := fun bits input =>
    (PrefixedInt.take bits input).mapError (.ofInteger bits input.length)

/-- `inputs::DecodePlan`. -/
structure DecodePlan (I : Type) where
  input : I
  requirement : Requirement
  base : ℕ
  deriving DecidableEq, Repr

/-- `inputs::Prepared`. -/
inductive Prepared (I : Type)
  | ready (plan : DecodePlan I)
  | blocked (required : Reference)
  deriving DecidableEq, Repr

/-- A sum that a word holds. -/
def checkedAdd (a b : ℕ) : Option ℕ :=
  if a + b < 2 ^ 64 then some (a + b) else none

/-- A product that a word holds. -/
def checkedMul (a b : ℕ) : Option ℕ :=
  if a * b < 2 ^ 64 then some (a * b) else none

namespace Prepared

variable {I : Type}

/-- A count that is not zero. -/
def dynamic (error : InputError) (required : ℕ) : Except InputError Requirement :=
  if h : 0 < required then .ok (.dynamic ⟨required, h⟩) else .error error

/-- `Prepared::required`. -/
def required (encoded inserts max : ℕ) : Except InputError Requirement :=
  if encoded = 0 then .ok .static
  else
    let error := InputError.required encoded inserts max
    match checkedMul max 2 with
    | none => .error error
    | some range =>
      if encoded > range then .error error
      else
        match checkedAdd inserts max with
        | none => .error error
        | some upper =>
          match (checkedAdd (upper / range * range) encoded).bind (Fallible.sub · 1) with
          | none => .error error
          | some required =>
            if required > upper then
              if required ≤ range then .error error else dynamic error (required - range)
            else dynamic error required

/-- `Prepared::base`. -/
def base (required delta : ℕ) (sign : DeltaSign) : Except InputError ℕ :=
  let answer :=
    match sign with
    | .negative => (Fallible.sub required delta).bind (Fallible.sub · 1)
    | .positive => checkedAdd required delta
  answer.elim (.error (.base required delta sign)) .ok

/-- A plan, if its base is one. -/
def plan (input : I) (requirement : Requirement) (delta : ℕ) (sign : DeltaSign) :
    Except InputError (Prepared I) :=
  (base requirement.count delta sign).map fun base => .ready ⟨input, requirement, base⟩

/-- `Prepared::parse`, with the requirement that is retained for a section that has to wait. -/
def parse [Input I] (input : I) (inserts max : ℕ) (retained : Option Reference) :
    Except InputError (Prepared I) × Option Reference :=
  match Input.prefixed 8 input with
  | .error error => (.error error, retained)
  | .ok (encoded, input) =>
    match retained.elim (required encoded inserts max) (.ok ∘ .dynamic) with
    | .error error => (.error error, retained)
    | .ok requirement =>
      let len := Input.remaining input
      match Input.peek input with
      | (none, _) => (.error (.incomplete len), retained)
      | (some byte, input) =>
        let sign := if byte &&& 0x80 ≠ 0 then DeltaSign.negative else .positive
        match Input.prefixed 7 input with
        | .error error => (.error error, retained)
        | .ok (delta, input) =>
          match requirement with
          | .dynamic required =>
            if required.isReceived inserts then
              (plan input (.dynamic required) delta sign, some required)
            else (.ok (.blocked required), some required)
          | .static => (plan input .static delta sign, retained)

end Prepared

/-! ## Counts that wrap -/

/-- The multiple of the range at the upper end of a window finds a count of the window, or the count
one range above it. -/
theorem wrapped_add_mod {upper range required : ℕ} (hupper : required ≤ upper)
    (hlower : upper < required + range) :
    upper / range * range + required % range = required ∨
      upper / range * range + required % range = required + range ∧ upper < required + range := by
  have hpos : 0 < range := by omega
  have hdiv := Nat.div_add_mod' required range
  have hle : required / range ≤ upper / range := Nat.div_le_div_right hupper
  have hge : upper / range ≤ required / range + 1 := by
    rw [← Nat.add_div_right _ hpos]
    exact Nat.div_le_div_right hlower.le
  rcases Nat.eq_or_lt_of_le hle with heq | hlt
  · left
    rw [← heq, hdiv]
  · right
    obtain hnext : upper / range = required / range + 1 := by omega
    rw [hnext, Nat.succ_mul]
    exact ⟨by omega, hlower⟩

namespace Prepared

/-- No number on the way to a required count overflows. -/
structure Fits (encoded inserts max : ℕ) : Prop where
  range : max * 2 < 2 ^ 64
  upper : inserts + max < 2 ^ 64
  wrapped : (inserts + max) / (max * 2) * (max * 2) + encoded < 2 ^ 64

/-- The window of a decoder: the counts that are at most as many entries ahead of its inserts, or
behind them, as its table has. -/
structure InWindow (required : Reference) (inserts max : ℕ) : Prop where
  lower : inserts < required.count + max
  upper : required.count ≤ inserts + max

theorem dynamic_eq_ok_iff {error : InputError} {n : ℕ} {required : Reference} :
    dynamic error n = .ok (.dynamic required) ↔ required.count = n := by
  obtain ⟨count, hcount⟩ := required
  rw [dynamic]
  split
  next h =>
    simp only [Except.ok.injEq, Requirement.dynamic.injEq, Reference.mk.injEq]
    exact eq_comm
  next h =>
    simp only [reduceCtorEq, false_iff]
    omega

theorem required_of_fits {encoded inserts max : ℕ} (hne : encoded ≠ 0) (hrange : encoded ≤ max * 2)
    (h : Fits encoded inserts max) :
    required encoded inserts max =
      let found := (inserts + max) / (max * 2) * (max * 2) + encoded - 1
      if inserts + max < found then
        if found ≤ max * 2 then .error (.required encoded inserts max)
        else dynamic (.required encoded inserts max) (found - max * 2)
      else dynamic (.required encoded inserts max) found := by
  have hmul : checkedMul max 2 = some (max * 2) := if_pos h.range
  have hadd : checkedAdd inserts max = some (inserts + max) := if_pos h.upper
  have hwrapped : checkedAdd ((inserts + max) / (max * 2) * (max * 2)) encoded =
      some ((inserts + max) / (max * 2) * (max * 2) + encoded) := if_pos h.wrapped
  have hone : 1 ≤ (inserts + max) / (max * 2) * (max * 2) + encoded := by omega
  simp only [required, if_neg hne, hmul, hadd, hwrapped, Option.bind_some,
    Fallible.sub_of_le hone, gt_iff_lt, if_neg (Nat.not_lt.mpr hrange)]

theorem fits_of_required {encoded inserts max : ℕ} {count : Reference}
    (h : required encoded inserts max = .ok (.dynamic count)) :
    encoded ≠ 0 ∧ encoded ≤ max * 2 ∧ Fits encoded inserts max := by
  rw [required] at h
  split at h
  next => exact absurd h (by simp)
  next hne =>
    dsimp only at h
    rw [checkedMul] at h
    by_cases hmul : max * 2 < 2 ^ 64
    · rw [if_pos hmul] at h
      dsimp only at h
      by_cases hrange : encoded > max * 2
      · rw [if_pos hrange] at h
        exact absurd h (by simp)
      · rw [if_neg hrange, checkedAdd] at h
        by_cases hadd : inserts + max < 2 ^ 64
        · rw [if_pos hadd] at h
          dsimp only at h
          rw [checkedAdd] at h
          by_cases hwrapped : (inserts + max) / (max * 2) * (max * 2) + encoded < 2 ^ 64
          · exact ⟨hne, by omega, hmul, hadd, hwrapped⟩
          · rw [if_neg hwrapped] at h
            exact absurd h (by simp)
        · rw [if_neg hadd] at h
          exact absurd h (by simp)
    · rw [if_neg hmul] at h
      exact absurd h (by simp)

/-- What an encoder writes for a count, in the window of the decoder, is accepted, and nothing else
is, where no number overflows. -/
theorem required_iff {encoded inserts max : ℕ} {count : Reference} :
    required encoded inserts max = .ok (.dynamic count) ↔
      encoded = encodeCount (max * 2) count.count ∧ InWindow count inserts max ∧
        Fits encoded inserts max := by
  have hcount := count.pos
  constructor
  · intro h
    obtain ⟨hne, hrange, hfits⟩ := fits_of_required h
    rw [required_of_fits hne hrange hfits] at h
    have hmax : 0 < max * 2 := by omega
    have hmod : ∀ a, a * (max * 2) + encoded - 1 = encoded - 1 + max * 2 * a := by
      intro a
      rw [Nat.mul_comm (max * 2)]
      omega
    have hlow : (encoded - 1) % (max * 2) = encoded - 1 := Nat.mod_eq_of_lt (by omega)
    have hdiv := Nat.div_add_mod' (inserts + max) (max * 2)
    have hrest := Nat.mod_lt (inserts + max) hmax
    have hencode : encodeCount (max * 2) count.count = count.count % (max * 2) + 1 :=
      if_neg (by omega)
    dsimp only at h
    -- either the count is found at once, or one range above it
    split_ifs at h with habove hbelow
    · have heq := dynamic_eq_ok_iff.mp h
      refine ⟨?_, ⟨by omega, by omega⟩, hfits⟩
      have hadd : count.count + max * 2 =
          (inserts + max) / (max * 2) * (max * 2) + encoded - 1 := by omega
      rw [hencode, ← Nat.add_mod_right, hadd, hmod, Nat.add_mul_mod_self_left, hlow]
      omega
    · have heq := dynamic_eq_ok_iff.mp h
      refine ⟨?_, ⟨by omega, by omega⟩, hfits⟩
      rw [hencode, heq, hmod, Nat.add_mul_mod_self_left, hlow]
      omega
  · rintro ⟨hencoded, hwindow, hfits⟩
    have hlower := hwindow.lower
    have hupper := hwindow.upper
    have hmax : 0 < max * 2 := by omega
    have hencode : encoded = count.count % (max * 2) + 1 := by
      rw [hencoded]
      exact if_neg (by omega)
    have hmod := Nat.mod_lt count.count hmax
    rw [required_of_fits (by omega) (by omega) hfits]
    dsimp only
    have hspan : inserts + max < count.count + max * 2 := by omega
    rcases wrapped_add_mod hupper hspan with hfound | ⟨hfound, hfar⟩
    · rw [if_neg (by omega)]
      exact dynamic_eq_ok_iff.mpr (by omega)
    · rw [if_pos (by omega), if_neg (by omega)]
      exact dynamic_eq_ok_iff.mpr (by omega)

theorem required_static_iff {encoded inserts max : ℕ} :
    required encoded inserts max = .ok .static ↔ encoded = 0 := by
  refine ⟨fun h => ?_, fun h => if_pos h⟩
  have hdynamic : ∀ error n, dynamic error n ≠ .ok .static := by
    intro error n
    rw [dynamic]
    split
    · simp
    · simp
  by_contra hne
  simp only [required, if_neg hne] at h
  grind

/-! ## Bases -/

theorem base_new {required base encoded : ℕ} {lines : Bytes} (hbase : base < 2 ^ 64) :
    Prepared.base required (Section.new encoded required base lines).delta
      (Section.new encoded required base lines).sign = .ok base := by
  rw [Section.new]
  split
  next hle =>
    have hadd : checkedAdd required (base - required) = some base := by
      rw [checkedAdd, Nat.add_sub_cancel' hle, if_pos hbase]
    simp only [Prepared.base, hadd, Option.elim_some]
  next hlt =>
    have hsub : Fallible.sub required (required - base - 1) = some (base + 1) := by
      rw [Fallible.sub_of_le (by omega)]
      congr 1
      omega
    have hone : Fallible.sub (base + 1) 1 = some base := Fallible.sub_of_le (by omega)
    simp only [Prepared.base, hsub, Option.bind_some, hone, Option.elim_some]

theorem head_emit_sign (sign : DeltaSign) (delta : ℕ) (rest : Bytes) :
    ∃ byte, (PrefixedInt.emit 7 sign.bit delta ++ rest).head? = some byte ∧
      (byte &&& 0x80 ≠ 0 ↔ sign = .negative) := by
  have hbits : ∀ low < 128, UInt8.ofNat (0 + low) &&& 0x80 = 0 ∧
      UInt8.ofNat (128 + low) &&& 0x80 ≠ 0 := by decide +kernel
  have hsign : ∀ low < 128,
      UInt8.ofNat (sign.bit.toNat - sign.bit.toNat % 2 ^ 7 + low) &&& 0x80 ≠ 0 ↔
        sign = .negative := by
    intro low hlow
    cases sign with
    | positive => exact iff_of_false (not_not.mpr (hbits low hlow).1) (by simp)
    | negative => exact iff_of_true (hbits low hlow).2 rfl
  rw [PrefixedInt.emit]
  split
  next hsmall => exact ⟨_, rfl, hsign _ (by rw [PrefixedInt.maxPrefix] at hsmall; omega)⟩
  next => exact ⟨_, rfl, hsign _ (by rw [PrefixedInt.maxPrefix]; omega)⟩

theorem delta_lt {encoded required base : ℕ} {lines : Bytes} (hrequired : required < 2 ^ 64)
    (hbase : base < 2 ^ 64) : (Section.new encoded required base lines).delta < 2 ^ 64 := by
  rw [Section.new]
  split
  · dsimp only
    omega
  · dsimp only
    omega

/-- A section is read with the requirement that is retained, or that its first number stands for,
and with the base that it was written with. -/
theorem parse_writePrefix {encoded inserts max base : ℕ} {lines : Bytes}
    {retained : Option Reference} {requirement : Requirement} (hencoded : encoded < 2 ^ 64)
    (hrequired : requirement.count < 2 ^ 64) (hbase : base < 2 ^ 64)
    (h : retained.elim (required encoded inserts max) (.ok ∘ .dynamic) = .ok requirement) :
    parse ((Section.new encoded requirement.count base lines).writePrefix ++ lines) inserts max
        retained =
      match requirement with
      | .dynamic required =>
        if required.isReceived inserts then
          (.ok (.ready ⟨lines, .dynamic required, base⟩), some required)
        else (.ok (.blocked required), some required)
      | .static => (.ok (.ready ⟨lines, .static, base⟩), retained) := by
  have hdelta : (Section.new encoded requirement.count base lines).delta < 2 ^ 64 :=
    delta_lt hrequired hbase
  have hreconstructed := @base_new requirement.count base encoded lines hbase
  have hnew : (Section.new encoded requirement.count base lines).encodedRequired = encoded := by
    rw [Section.new]
    split <;> rfl
  generalize Section.new encoded requirement.count base lines = written at *
  obtain ⟨byte, hbyte, hsign⟩ := head_emit_sign written.sign written.delta lines
  have hfirst : (Input.prefixed 8 (written.writePrefix ++ lines) : Except InputError (ℕ × Bytes)) =
      .ok (encoded, PrefixedInt.emit 7 written.sign.bit written.delta ++ lines) := by
    rw [Section.writePrefix, List.append_assoc, hnew]
    exact congrArg (Except.mapError _) (PrefixedInt.take_emit le_rfl hencoded 0 _)
  have hsecond : (Input.prefixed 7 (PrefixedInt.emit 7 written.sign.bit written.delta ++ lines) :
      Except InputError (ℕ × Bytes)) = .ok (written.delta, lines) :=
    congrArg (Except.mapError _) (PrefixedInt.take_emit (by omega) hdelta _ _)
  have hpeek : Input.peek (PrefixedInt.emit 7 written.sign.bit written.delta ++ lines) =
      (some byte, PrefixedInt.emit 7 written.sign.bit written.delta ++ lines) :=
    congrArg (Prod.mk · _) hbyte
  have hread : (if byte &&& 0x80 ≠ 0 then DeltaSign.negative else .positive) = written.sign := by
    cases hcase : written.sign with
    | negative => exact if_pos (hsign.mpr hcase)
    | positive => exact if_neg fun hne => absurd (hsign.mp hne) (by simp [hcase])
  rw [parse, hfirst]
  simp only [h, hpeek, hsecond, hread]
  cases requirement with
  | static =>
    simp only [plan, hreconstructed, Except.map]
  | dynamic required =>
    simp only [plan, hreconstructed, Except.map]

/-- A required insert count is written modulo the range of a table and read back.

A count in the window of the decoder is found again, exactly if no 64-bit number overflows; whatever
value is accepted stands for such a count, and for the one that is written so, or for a section
without one; a base is found again from its distance to the count and the sign; and a section prefix
as an encoder writes it, in front of any field lines, gives its decoder the same count and base, at
once or when it is tried again with the count that was retained. -/
theorem insert_count (inserts max : ℕ) :
    (∀ count, InWindow count inserts max →
      (required (encodeCount (max * 2) count.count) inserts max = .ok (.dynamic count) ↔
        Fits (encodeCount (max * 2) count.count) inserts max)) ∧
    (∀ encoded count, required encoded inserts max = .ok (.dynamic count) →
      InWindow count inserts max ∧ encoded = encodeCount (max * 2) count.count) ∧
    (∀ encoded, required encoded inserts max = .ok .static ↔ encoded = 0) ∧
    (∀ encoded count base lines, base < 2 ^ 64 →
      Prepared.base count (Section.new encoded count base lines).delta
        (Section.new encoded count base lines).sign = .ok base) ∧
    (∀ base lines, base < 2 ^ 64 →
      parse ((Section.new (encodeCount (max * 2) 0) 0 base lines).writePrefix ++ lines) inserts max
        none = (.ok (.ready ⟨lines, .static, base⟩), none)) ∧
    ∀ (count : Reference) base lines retained, InWindow count inserts max →
      Fits (encodeCount (max * 2) count.count) inserts max → base < 2 ^ 64 →
      retained = none ∨ retained = some count →
      parse ((Section.new (encodeCount (max * 2) count.count) count.count base lines).writePrefix ++
          lines) inserts max retained =
        (if count.count ≤ inserts then .ok (.ready ⟨lines, .dynamic count, base⟩)
          else .ok (.blocked count), some count) := by
  refine ⟨fun count hwindow => ?_, fun encoded count h => ?_, fun _ => required_static_iff,
    fun _ _ _ _ hbase => base_new hbase, fun base lines hbase => ?_,
    fun count base lines retained hwindow hfits hbase hretained => ?_⟩
  · rw [required_iff]
    exact ⟨fun h => h.2.2, fun h => ⟨rfl, hwindow, h⟩⟩
  · obtain ⟨hencoded, hwindow, -⟩ := required_iff.mp h
    exact ⟨hwindow, hencoded⟩
  · have hzero : encodeCount (max * 2) 0 = 0 := if_pos (.inl rfl)
    rw [hzero]
    exact @parse_writePrefix 0 inserts max base lines none .static (by decide) (by decide) hbase rfl
  · have hupper := hwindow.upper
    have hword := hfits.upper
    have hrequired := required_iff.mpr ⟨rfl, hwindow, hfits⟩
    have helim : retained.elim (required (encodeCount (max * 2) count.count) inserts max)
        (.ok ∘ .dynamic) = .ok (.dynamic count) := by
      rcases hretained with rfl | rfl
      · exact hrequired
      · rfl
    have hparse := @parse_writePrefix _ inserts max base lines retained (.dynamic count)
      (lt_of_le_of_lt (Nat.le_add_left _ _) hfits.wrapped)
      (show count.count < 2 ^ 64 by omega) hbase helim
    refine hparse.trans ?_
    by_cases hreceived : count.count ≤ inserts
    · have hyes : count.isReceived inserts = true := decide_eq_true hreceived
      simp only [hyes, if_pos hreceived, if_true]
    · have hno : ¬count.isReceived inserts = true := by simpa [Reference.isReceived] using hreceived
      simp only [if_neg hno, if_neg hreceived]

/-- The counts on either side of a multiple of the range, for a table of three entries. -/
example : (required (encodeCount 6 6) 5 3, required (encodeCount 6 5) 7 3) =
    (.ok (.dynamic ⟨6, by decide⟩), .ok (.dynamic ⟨5, by decide⟩)) := by
  decide +kernel

end Prepared

end Sark.Qpack
