import Sark.Json.Input

/-!
# Writing text

`json/src/writing` writes a string by splitting it at the bytes that need an escape, and sizes it
by the same splits; `json/src/source/outputs.rs` replays the content of a literal byte by byte.
Both sides are related to `escapeAll`, which escapes every byte on its own.

* `putStr_eq`: the writer emits `escapeAll` between quotes.
* `trySize_eq`: the sizer computes the length of what the writer emits.
* `Decoder.yields_of_scan`: the replay yields the bytes that the checked scan decoded.
-/

namespace Sark.Json

/-! ## The escape table -/

/-- The bytes with a short form and the letters of their forms. -/
def shortForms : List (UInt8 × UInt8) :=
  [(0x22, 0x22), (0x5c, 0x5c), (0x0a, 0x6e), (0x0d, 0x72), (0x09, 0x74), (0x08, 0x62), (0x0c, 0x66)]

/-- The control bytes without a short form, in increasing order. -/
def controlForms : List UInt8 :=
  ((List.range 32).map UInt8.ofNat).filter fun byte => !(shortForms.map Prod.fst).contains byte

/-- `b"0123456789abcdef"[digit]`. -/
def lowerHex (digit : ℕ) : UInt8 :=
  if digit < 10 then UInt8.ofNat (0x30 + digit) else UInt8.ofNat (0x61 + (digit - 10))

/-- A byte that text does not hold unescaped, by its index in the table, counted from one. -/
structure Token where
  index : ℕ
  deriving DecidableEq, Repr

namespace Token

/-- `Escape::ENCODING.1`: short forms precede the remaining control bytes, each encoded as
`\u00XX`. -/
def encoding : Bytes :=
  shortForms.flatMap (fun form => [0x5c, form.2]) ++
    controlForms.flatMap fun byte =>
      [0x5c, 0x75, 0x30, 0x30, lowerHex (byte.toNat >>> 4), lowerHex (byte.toNat &&& 15)]

/-- `Escape::new`, which reads `Escape::ENCODING.0`. -/
def new (byte : UInt8) : Option Token :=
  ((shortForms.map Prod.fst ++ controlForms).idxOf? byte).map fun index => ⟨index + 1⟩

/-- `Escape::overhead`. -/
def overhead (self : Token) : ℕ :=
  if self.index ≤ 7 then 1 else 5

/-- `Escape::bytes`. -/
def bytes (self : Token) : Bytes :=
  let index := self.index - 1
  let length := self.overhead + 1
  let start := if length = 2 then index * 2 else 14 + (index - 7) * 6
  (encoding.drop start).take length

end Token

/-! ## The writer -/

/-- A plain run and the escape behind it. -/
structure Split where
  plain : Bytes
  token : Token
  deriving DecidableEq, Repr

/-- The byte loop of `Split::escape` over what the word loop left. -/
def Split.search (input : Bytes) : Bytes → Option (Split × Bytes)
  | [] => none
  | byte :: suffix =>
    match Token.new byte with
    | some token => some (⟨input.take (input.length - suffix.length - 1), token⟩, suffix)
    | none => Split.search input suffix

/-- `Split::escape`: the first escape of a value, and the value behind it. -/
def Split.escape (value : Bytes) : Option (Split × Bytes) :=
  Split.search value (value.drop (plainWords false value))

/-- `write::Sink`: where a writer puts its slices. -/
structure Sink (σ ε : Type*) where
  writeSlice : σ → Bytes → Except ε σ
  writeSlices : σ → List Bytes → Except ε σ

/-- A sink that accepts everything. -/
def Sink.growing : Sink Bytes Empty where
  writeSlice out slice := .ok (out ++ slice)
  writeSlices out slices := .ok (out ++ slices.flatten)

theorem Split.length_lt_of_search {input bytes suffix : Bytes} {split : Split}
    (h : Split.search input bytes = some (split, suffix)) : suffix.length < bytes.length := by
  induction bytes with
  | nil => cases h
  | cons byte bytes ih =>
    rw [Split.search] at h
    split at h
    · cases h
      simp
    · have := ih h
      simp only [List.length_cons]
      omega

theorem Split.length_lt_of_escape {value suffix : Bytes} {split : Split}
    (h : Split.escape value = some (split, suffix)) : suffix.length < value.length := by
  have hlt := Split.length_lt_of_search h
  rw [List.length_drop] at hlt
  omega

section Writer

variable {σ ε : Type*} (sink : Sink σ ε)

/-- `if !slice.is_empty() { self = self.put(slice)? }`. -/
def putNonempty (out : σ) (slice : Bytes) : Except ε σ :=
  if slice.isEmpty then .ok out else sink.writeSlice out slice

/-- The loop of `Writer::put_rest` while there is an escape to write. -/
def putSplits (out : σ) (value : Bytes) (split : Split) : Except ε (σ × Bytes) :=
  match putNonempty sink out split.plain with
  | .error error => .error error
  | .ok out =>
    match sink.writeSlice out split.token.bytes with
    | .error error => .error error
    | .ok out =>
      match _ : Split.escape value with
      | none => .ok (out, value)
      | some (next, rest) => putSplits out rest next
termination_by value.length
decreasing_by exact Split.length_lt_of_escape ‹_›

/-- `Writer::put_rest`. -/
def putRest (out : σ) (value : Bytes) (split : Split) : Except ε σ :=
  match putSplits sink out value split with
  | .error error => .error error
  | .ok (out, value) =>
    match putNonempty sink out value with
    | .error error => .error error
    | .ok out => sink.writeSlice out [0x22]

/-- `Writer::put_plain`. -/
def putPlain (out : σ) (value : Bytes) : Except ε σ :=
  sink.writeSlices out [[0x22], value, [0x22]]

/-- `Writer::put_str`. -/
def putStr (out : σ) (value : Bytes) : Except ε σ :=
  match Split.escape value with
  | some (split, rest) =>
    match sink.writeSlice out [0x22] with
    | .error error => .error error
    | .ok out => putRest sink out rest split
  | none => putPlain sink out value

end Writer

/-! ## The sizer -/

/-- `exact::Overflow`. -/
structure Overflow where
  current : ℕ
  added : ℕ
  deriving DecidableEq, Repr

/-- `Overflow::try_add`, on `usize`. -/
def Overflow.tryAdd (current added : ℕ) : Except Overflow ℕ :=
  if current + added < 2 ^ 64 then .ok (current + added) else .error ⟨current, added⟩

/-- The loop of `<[u8] as TrySize>::try_size`. -/
def sizeLoop (length : ℕ) (value : Bytes) : Except Overflow ℕ :=
  match _ : Split.escape value with
  | none => .ok length
  | some (split, rest) =>
    match Overflow.tryAdd length split.token.overhead with
    | .error overflow => .error overflow
    | .ok length => sizeLoop length rest
termination_by value.length
decreasing_by exact Split.length_lt_of_escape ‹_›

/-- `<[u8] as TrySize>::try_size`. -/
def trySize (value : Bytes) : Except Overflow ℕ :=
  match Overflow.tryAdd 2 value.length with
  | .error overflow => .error overflow
  | .ok length => sizeLoop length value

/-! ## Replay -/

/-- `outputs::Decoder`: a four-byte word holds the decoded bytes that were not taken yet, lowest
first. -/
structure Decoder where
  raw : Bytes
  string : StringScan
  pending : ℕ
  remaining : ℕ
  deriving DecidableEq, Repr

namespace Decoder

/-- `Decoder::new`. -/
def new (content : Bytes) : Decoder :=
  ⟨content, .new, 0, 0⟩

/-- `Decoder::next`. -/
def next (self : Decoder) : Option (UInt8 × Decoder) :=
  if self.remaining ≠ 0 then
    some (UInt8.ofNat self.pending,
      { self with pending := self.pending >>> 8, remaining := self.remaining - 1 })
  else
    match _ : self.raw with
    | [] => none
    | byte :: rest =>
      let (string, output) := self.string.decode byte
      next ⟨rest, string, Swar.ofBytes output, output.length⟩
termination_by self.raw.length
decreasing_by simp [*]

/-- The bytes that the iterator yields before it ends. -/
inductive Yields : Decoder → Bytes → Prop
  | done {self : Decoder} : self.next = none → Yields self []
  | more {self following : Decoder} {byte : UInt8} {bytes : Bytes} :
      self.next = some (byte, following) → Yields following bytes → Yields self (byte :: bytes)

end Decoder

/-! ## Escapes one by one -/

/-- What the table says about a byte: a plain byte has no entry, and the form of any other byte is
an escape that denotes it. -/
def Token.Correct (byte : UInt8) : Bool :=
  match Token.new byte with
  | none => isPlainByte false byte
  | some token =>
    !isPlainByte false byte && byte < 0x80 &&
      match token.bytes with
      | [0x5c, letter] => token.overhead == 1 && shortEscape letter == some byte
      | [0x5c, 0x75, h₁, h₂, h₃, h₄] =>
        token.overhead == 5 && isHexDigit h₁ && isHexDigit h₂ && isHexDigit h₃ && isHexDigit h₄ &&
          hexValue h₁ h₂ h₃ h₄ == byte.toNat
      | _ => false

theorem Token.correct (byte : UInt8) : Token.Correct byte = true := by
  have hall : ∀ n < 256, Token.Correct (UInt8.ofNat n) = true := by decide +kernel
  simpa using hall byte.toNat byte.toNat_lt

theorem Token.new_eq_none_iff {byte : UInt8} :
    Token.new byte = none ↔ isPlainByte false byte = true := by
  have hcorrect := Token.correct byte
  unfold Token.Correct at hcorrect
  cases hnew : Token.new byte with
  | none => simpa [hnew] using hcorrect
  | some token => simp_all

theorem Token.unit {byte : UInt8} {token : Token} (h : Token.new byte = some token) :
    byte.toNat < 0x80 ∧ token.bytes.length = token.overhead + 1 ∧
      ∀ c : Char, c.val.toNat = byte.toNat → TextUnit token.bytes c := by
  have hcorrect := Token.correct byte
  simp only [Token.Correct, h, Bool.and_eq_true, decide_eq_true_eq] at hcorrect
  obtain ⟨⟨-, hascii⟩, hform⟩ := hcorrect
  refine ⟨by simpa [UInt8.lt_iff_toNat_lt] using hascii, ?_⟩
  split at hform
  · rename_i letter hbytes
    simp only [Bool.and_eq_true, beq_iff_eq] at hform
    exact ⟨by simp [hbytes, hform.1], fun c hc => hbytes ▸ .short hform.2 hc⟩
  · rename_i h₁ h₂ h₃ h₄ hbytes
    simp only [Bool.and_eq_true, beq_iff_eq] at hform
    obtain ⟨⟨⟨⟨⟨hover, d₁⟩, d₂⟩, d₃⟩, d₄⟩, hvalue⟩ := hform
    exact ⟨by simp [hbytes, hover],
      fun c hc => hbytes ▸ .unicode ⟨d₁, d₂, d₃, d₄, hvalue.trans hc.symm⟩⟩
  · cases hform

/-- The form of one byte. -/
def escapeByte (byte : UInt8) : Bytes :=
  match Token.new byte with
  | none => [byte]
  | some token => token.bytes

/-- Every byte escaped on its own. -/
def escapeAll (value : Bytes) : Bytes :=
  value.flatMap escapeByte

theorem escapeByte_of_plain {byte : UInt8} (h : isPlainByte false byte = true) :
    escapeByte byte = [byte] := by
  rw [escapeByte, Token.new_eq_none_iff.mpr h]

theorem escapeAll_of_plain {value : Bytes} (h : ∀ byte ∈ value, isPlainByte false byte = true) :
    escapeAll value = value := by
  induction value with
  | nil => rfl
  | cons byte value ih =>
    rw [List.forall_mem_cons] at h
    rw [escapeAll, List.flatMap_cons, escapeByte_of_plain h.1, ← escapeAll, ih h.2]
    rfl

theorem escapeAll_append (left right : Bytes) :
    escapeAll (left ++ right) = escapeAll left ++ escapeAll right := by
  simp [escapeAll]

theorem length_escapeByte (byte : UInt8) :
    (escapeByte byte).length = 1 ∧ isPlainByte false byte = true ∨ 1 < (escapeByte byte).length := by
  cases hnew : Token.new byte with
  | none => exact .inl ⟨by simp [escapeByte, hnew], Token.new_eq_none_iff.mp hnew⟩
  | some token =>
    refine .inr ?_
    simp only [escapeByte, hnew, (Token.unit hnew).2.1, Token.overhead]
    split <;> omega

theorem length_le_escapeAll (value : Bytes) : value.length ≤ (escapeAll value).length := by
  induction value with
  | nil => simp
  | cons byte value ih =>
    have hbyte := length_escapeByte byte
    rw [escapeAll, List.flatMap_cons, List.length_append, List.length_cons, ← escapeAll]
    omega

theorem escapeAll_eq_self_iff {value : Bytes} :
    escapeAll value = value ↔ ∀ byte ∈ value, isPlainByte false byte = true := by
  refine ⟨fun h => ?_, escapeAll_of_plain⟩
  induction value with
  | nil => simp
  | cons byte value ih =>
    have hlength := congrArg List.length h
    have hle := length_le_escapeAll value
    rw [escapeAll, List.flatMap_cons, List.length_append, List.length_cons, ← escapeAll] at hlength
    obtain ⟨-, hplain⟩ | hlt := length_escapeByte byte
    · rw [escapeAll, List.flatMap_cons, escapeByte_of_plain hplain, ← escapeAll] at h
      exact List.forall_mem_cons.mpr ⟨hplain, ih (List.cons.inj h).2⟩
    · omega

/-! ## Splits -/

theorem Split.search_spec {input before bytes : Bytes} (hinput : input = before ++ bytes)
    (hbefore : ∀ byte ∈ before, isPlainByte false byte = true) :
    match Split.search input bytes with
    | none => ∀ byte ∈ input, isPlainByte false byte = true
    | some (split, suffix) => ∃ byte, input = split.plain ++ byte :: suffix ∧
        (∀ byte ∈ split.plain, isPlainByte false byte = true) ∧
        Token.new byte = some split.token := by
  induction bytes generalizing before with
  | nil => simpa [hinput, Split.search] using hbefore
  | cons byte bytes ih =>
    rw [Split.search]
    cases hnew : Token.new byte with
    | none =>
      refine @ih (before ++ [byte]) (by simpa using hinput) ?_
      intro other hother
      rw [List.mem_append, List.mem_singleton] at hother
      rcases hother with hother | rfl
      · exact hbefore other hother
      · exact Token.new_eq_none_iff.mp hnew
    | some token =>
      have htake : input.take (input.length - bytes.length - 1) = before := by
        rw [hinput, List.length_append, List.length_cons,
          show before.length + (bytes.length + 1) - bytes.length - 1 = before.length by omega,
          List.take_left]
      refine ⟨byte, ?_, ?_, hnew⟩
      · rw [htake, hinput]
      · rwa [htake]

theorem Split.escape_spec (value : Bytes) :
    match Split.escape value with
    | none => ∀ byte ∈ value, isPlainByte false byte = true
    | some (split, suffix) => ∃ byte, value = split.plain ++ byte :: suffix ∧
        (∀ byte ∈ split.plain, isPlainByte false byte = true) ∧
        Token.new byte = some split.token :=
  Split.search_spec (List.take_append_drop _ _).symm plain_of_mem_take_plainWords

theorem escapeAll_of_split {value suffix : Bytes} {split : Split}
    (h : Split.escape value = some (split, suffix)) :
    escapeAll value = split.plain ++ (split.token.bytes ++ escapeAll suffix) := by
  have hspec := Split.escape_spec value
  rw [h] at hspec
  obtain ⟨byte, hvalue, hplain, hnew⟩ := hspec
  rw [hvalue, escapeAll_append, escapeAll_of_plain hplain, escapeAll, List.flatMap_cons, escapeByte,
    hnew, ← escapeAll]

theorem escapeAll_of_escape_eq_none {value : Bytes} (h : Split.escape value = none) :
    escapeAll value = value := by
  have hspec := Split.escape_spec value
  rw [h] at hspec
  exact escapeAll_of_plain hspec

/-! ## The writer and the sizer -/

@[simp]
theorem Sink.growing_writeSlice (out slice : Bytes) :
    Sink.growing.writeSlice out slice = .ok (out ++ slice) :=
  rfl

@[simp]
theorem putNonempty_growing (out slice : Bytes) :
    putNonempty Sink.growing out slice = .ok (out ++ slice) := by
  cases slice <;> simp [putNonempty]

theorem putSplits_eq (out value : Bytes) (split : Split) :
    ∃ written rest, putSplits Sink.growing out value split = .ok (out ++ written, rest) ∧
      written ++ rest = split.plain ++ (split.token.bytes ++ escapeAll value) := by
  generalize hlength : value.length = n
  induction n using Nat.strong_induction_on generalizing out value split with
  | _ n ih =>
    rw [putSplits]
    simp only [putNonempty_growing, Sink.growing_writeSlice]
    split
    · rename_i hnone
      exact ⟨split.plain ++ split.token.bytes, value, by simp,
        by simp [escapeAll_of_escape_eq_none hnone]⟩
    · rename_i next rest hsome
      have hlt := Split.length_lt_of_escape hsome
      obtain ⟨written, tail, hrest, heq⟩ :=
        ih _ (hlength ▸ hlt) (out ++ split.plain ++ split.token.bytes) rest next rfl
      refine ⟨split.plain ++ (split.token.bytes ++ written), tail, ?_, ?_⟩
      · simpa using hrest
      · rw [escapeAll_of_split hsome, ← heq]
        simp

/-- The writer emits every byte escaped on its own, between quotes. -/
theorem putStr_eq (out value : Bytes) :
    putStr Sink.growing out value = .ok (out ++ 0x22 :: (escapeAll value ++ [0x22])) := by
  rw [putStr]
  split
  · rename_i split rest hsome
    obtain ⟨written, tail, hrest, heq⟩ := putSplits_eq (out ++ [0x22]) rest split
    simp only [Sink.growing_writeSlice, putRest, hrest, putNonempty_growing]
    simp [escapeAll_of_split hsome, ← heq]
  · rename_i hnone
    simp [putPlain, Sink.growing, escapeAll_of_escape_eq_none hnone]

theorem length_of_split {value suffix : Bytes} {split : Split}
    (h : Split.escape value = some (split, suffix)) :
    (escapeAll value).length + suffix.length =
      value.length + split.token.overhead + (escapeAll suffix).length := by
  have hspec := Split.escape_spec value
  rw [h] at hspec
  obtain ⟨byte, hvalue, -, hnew⟩ := hspec
  have hlength := congrArg List.length hvalue
  rw [List.length_append, List.length_cons] at hlength
  rw [escapeAll_of_split h, List.length_append, List.length_append, (Token.unit hnew).2.1]
  omega

theorem sizeLoop_eq {length : ℕ} (hlength : length < 2 ^ 64) (value : Bytes) :
    match sizeLoop length value with
    | .ok size => size + value.length = length + (escapeAll value).length ∧ size < 2 ^ 64
    | .error _ => 2 ^ 64 + value.length ≤ length + (escapeAll value).length := by
  fun_induction sizeLoop length value with
  | case1 length value hnone => exact ⟨by rw [escapeAll_of_escape_eq_none hnone], hlength⟩
  | case2 length value split rest hsome overflow hadd =>
    have hsplit := length_of_split hsome
    have hle := length_le_escapeAll rest
    unfold Overflow.tryAdd at hadd
    split at hadd
    · cases hadd
    · simp only
      omega
  | case3 length value split rest hsome total hadd ih =>
    have hsplit := length_of_split hsome
    unfold Overflow.tryAdd at hadd
    split at hadd
    · rename_i hlt
      cases hadd
      have hrest := ih hlt
      split
      · rename_i heq
        rw [heq] at hrest
        simp only at hrest
        omega
      · rename_i heq
        rw [heq] at hrest
        simp only at hrest
        omega
    · cases hadd

/-- The sizer computes the length of what the writer emits, or finds it not representable. -/
theorem trySize_eq_ok_iff {value : Bytes} {size : ℕ} :
    trySize value = .ok size ↔ size = (escapeAll value).length + 2 ∧ size < 2 ^ 64 := by
  have hle := length_le_escapeAll value
  unfold trySize Overflow.tryAdd
  by_cases hlt : 2 + value.length < 2 ^ 64
  · rw [if_pos hlt]
    have hloop := sizeLoop_eq hlt value
    simp only
    split at hloop
    · rename_i heq
      rw [heq, Except.ok.injEq]
      omega
    · rename_i heq
      rw [heq]
      refine iff_of_false (by simp) ?_
      omega
  · rw [if_neg hlt]
    refine iff_of_false (by simp) ?_
    omega

/-! ## Written text is content -/

theorem isPlainByte_of_le {byte : UInt8} (h : 0x80 ≤ byte.toNat) : isPlainByte false byte = true := by
  have hne : ∀ other : UInt8, other.toNat < 0x80 → byte ≠ other := by
    rintro other hlt rfl
    omega
  exact isPlainByte_iff.mpr ⟨by omega, hne _ (by decide), hne _ (by decide), by simp⟩

theorem plain_of_mem_utf8EncodeChar {c : Char} (h : 0x80 ≤ c.val.toNat) :
    ∀ byte ∈ String.utf8EncodeChar c, isPlainByte false byte = true := by
  have hlength := two_le_length_utf8EncodeChar h
  have hsequence := Utf8.sequence_encode c
  generalize String.utf8EncodeChar c = bytes at *
  have hplain : ∀ byte ∈ bytes, 0x80 ≤ byte.toNat := by
    cases hsequence with
    | one => simp at hlength
    | two | three | four =>
      simp only [Utf8.Tail.iff_toNat, UInt8.le_iff_toNat_le, UInt8.reduceToNat] at *
      simp
      omega
  exact fun byte hbyte => isPlainByte_of_le (hplain byte hbyte)

theorem content_escapeAll (chars : List Char) : Content (escapeAll (Utf8.encode chars)) chars := by
  induction chars with
  | nil => exact .nil
  | cons c chars ih =>
    rw [Utf8.encode_cons, escapeAll_append]
    refine .cons ?_ ih
    by_cases hascii : c.val.toNat < 0x80
    · have hbyte : c.val.toNat = (UInt8.ofNat c.val.toNat).toNat := by
        rw [UInt8.toNat_ofNat']
        omega
      have hchar := utf8EncodeChar_ascii hbyte (hbyte ▸ hascii)
      cases hnew : Token.new (UInt8.ofNat c.val.toNat) with
      | none =>
        have hplain := Token.new_eq_none_iff.mp hnew
        obtain ⟨hcontrol, hquote, hslash, -⟩ := isPlainByte_iff.mp hplain
        rw [escapeAll_of_plain (by simpa [hchar] using hplain)]
        refine .plain (by omega) ?_ ?_
        · exact fun heq => hquote (UInt8.toNat_inj.mp (hbyte.symm.trans heq))
        · exact fun heq => hslash (UInt8.toNat_inj.mp (hbyte.symm.trans heq))
      | some token =>
        rw [hchar, escapeAll, List.flatMap_singleton, escapeByte, hnew]
        exact (Token.unit hnew).2.2 c hbyte
    · rw [escapeAll_of_plain (plain_of_mem_utf8EncodeChar (by omega))]
      exact .plain (by omega) (by omega) (by omega)

/-! ## Replay -/

namespace Decoder

theorem Yields.pending {raw : Bytes} {string : StringScan} {bytes : Bytes}
    (h : Yields ⟨raw, string, 0, 0⟩ bytes) (pending : Bytes) :
    Yields ⟨raw, string, Swar.ofBytes pending, pending.length⟩ (pending ++ bytes) := by
  induction pending with
  | nil => exact h
  | cons byte pending ih =>
    refine .more ?_ ih
    have hlt := byte.toNat_lt
    rw [next, if_pos (by simp)]
    have hbyte : UInt8.ofNat (Swar.ofBytes (byte :: pending)) = byte := by
      rw [← UInt8.toNat_inj, UInt8.toNat_ofNat', Swar.ofBytes_cons]
      omega
    have hshift : Swar.ofBytes (byte :: pending) >>> 8 = Swar.ofBytes pending := by
      rw [Nat.shiftRight_eq_div_pow, Swar.ofBytes_cons]
      omega
    rw [hbyte, hshift]
    rfl

theorem Yields.of_next_eq {self other : Decoder} {bytes : Bytes} (h : Yields self bytes)
    (hnext : other.next = self.next) : Yields other bytes := by
  cases h with
  | done hdone => exact .done (hnext.trans hdone)
  | more hmore hrest => exact .more (hnext.trans hmore) hrest

theorem yields_decodeAll (raw : Bytes) (string : StringScan) :
    Yields ⟨raw, string, 0, 0⟩ (string.decodeAll raw) := by
  induction raw generalizing string with
  | nil => exact .done (by rw [next]; simp)
  | cons byte raw ih =>
    refine ((ih (string.decode byte).1).pending (string.decode byte).2).of_next_eq ?_
    rw [next]
    simp

end Decoder

theorem stringWith_of_content {input content rest : Bytes} {chars : List Char} {index : ℕ}
    (hcontent : Content content chars) (hdrop : input.drop index = 0x22 :: (content ++ 0x22 :: rest)) :
    ∃ span, stringWith input index none = .ok (span, index + (content.length + 2)) ∧
      span.content = content ∧ span.decodedLen = (Utf8.encode chars).length := by
  obtain ⟨-, htail, hlength⟩ := input_of_drop hdrop
  rw [List.length_append, List.length_cons] at hlength
  have hle := hcontent.length_le
  rw [stringWith_eq hdrop, StringScan.scan_content hcontent]
  simp only [spanOf, Except.map]
  refine ⟨_, congrArg Except.ok (Prod.ext rfl ?_), ?_, ?_⟩
  · simp only
    omega
  · have hstop : input.length - rest.length - 1 = index + 1 + content.length := by omega
    simp only [StringSpan.new, hstop]
    rw [List.drop_take, htail, Nat.add_sub_cancel_left, List.take_left]
  · simp only [StringSpan.new, StringScan.base]
    omega

theorem content_of_stringWith {input : Bytes} {index stop : ℕ} {span : StringSpan}
    (h : stringWith input index none = .ok (span, stop)) :
    ∃ chars, Content span.content chars ∧ span.decodedLen = (Utf8.encode chars).length := by
  have hbyte : input[index]? = some 0x22 := by
    by_contra hne
    simp [stringWith, byteAt, hne] at h
  obtain ⟨-, hdrop⟩ := drop_of_getElem? hbyte
  have hsnd : (stringWith input index none).map Prod.snd = .ok stop := by rw [h]; rfl
  obtain ⟨content, chars, rest, hcontent, htail, -⟩ := (stringWith_eq_ok_iff hdrop).mp hsnd
  obtain ⟨span', hspan, hcontent', hdecoded⟩ := stringWith_of_content hcontent (htail ▸ hdrop)
  obtain rfl : span' = span := by
    rw [hspan] at h
    exact (Prod.mk.inj (Except.ok.inj h)).1
  exact ⟨chars, hcontent' ▸ hcontent, hdecoded⟩

theorem yields_of_content {content : Bytes} {chars : List Char} (h : Content content chars) :
    Decoder.Yields (Decoder.new content) (Utf8.encode chars) := by
  have hscan := StringScan.scan_content h 0 []
  obtain ⟨content', heq, hdecode⟩ :=
    @StringScan.decodeAll_of_scan _ .new _ _ _ _ hscan rfl (by decide)
  obtain rfl : content = content' := List.append_cancel_right heq
  rw [← hdecode]
  exact Decoder.yields_decodeAll content .new

/-- The text round trip: what the writer emits for valid UTF-8 is one string literal, which decodes
to the text again; the sizer predicts its length, unless that is not a machine word; and the text is
copied unchanged exactly when it has no quote, backslash or control byte. For every literal that
the checked scan accepts, the replay yields the bytes which that scan decoded, as many as the span
says, and these are valid UTF-8. -/
theorem putStr_round_trip :
    (∀ text : Bytes, Utf8.Valid text →
      ∃ written, putStr Sink.growing [] text = .ok written ∧
        (∃ span, stringWith written 0 none = .ok (span, written.length) ∧
          Decoder.Yields (Decoder.new span.content) text) ∧
        (∀ size, trySize text = .ok size ↔ size = written.length ∧ size < 2 ^ 64) ∧
        (written = 0x22 :: (text ++ [0x22]) ↔
          ∀ byte ∈ text, byte ≠ 0x22 ∧ byte ≠ 0x5c ∧ 0x20 ≤ byte)) ∧
    ∀ (input : Bytes) (index stop : ℕ) (span : StringSpan),
      stringWith input index none = .ok (span, stop) →
        ∃ out final, StringScan.new.scan (span.content ++ [0x22]) = .ok (out, final, []) ∧
          (∃ chars, Content span.content chars ∧ out = Utf8.encode chars) ∧
          Decoder.Yields (Decoder.new span.content) out ∧ span.decodedLen = out.length ∧
          Utf8.Valid out := by
  refine ⟨?_, ?_⟩
  · rintro text ⟨chars, rfl⟩
    have hcontent := content_escapeAll chars
    set text := Utf8.encode chars
    refine ⟨_, putStr_eq [] text, ?_, fun size => ?_, ?_⟩
    · obtain ⟨span, hspan, hself, -⟩ :=
        @stringWith_of_content (0x22 :: (escapeAll text ++ [0x22])) _ [] _ 0 hcontent rfl
      refine ⟨span, by simpa using hspan, ?_⟩
      rw [hself]
      exact yields_of_content hcontent
    · rw [trySize_eq_ok_iff]
      simp
    · have hself : 0x22 :: (escapeAll text ++ [0x22]) = 0x22 :: (text ++ [0x22]) ↔
          escapeAll text = text := by
        rw [List.cons_inj_right, List.append_left_inj]
      rw [List.nil_append, hself, escapeAll_eq_self_iff]
      simp only [isPlainByte_iff, UInt8.le_iff_toNat_le, UInt8.reduceToNat, Bool.false_eq_true,
        false_implies, and_true]
      exact forall₂_congr fun byte _ => by tauto
  · intro input index stop span h
    obtain ⟨chars, hcontent, hdecoded⟩ := content_of_stringWith h
    exact ⟨_, _, StringScan.scan_content hcontent 0 [], ⟨chars, hcontent, rfl⟩,
      yields_of_content hcontent, hdecoded, chars, rfl⟩

/-- An `a` and a quote, and the literal of a line feed. -/
theorem putStr_round_trip_quote :
    (Utf8.Valid [0x61, 0x22] ∧
      ∃ written, putStr Sink.growing [] [0x61, 0x22] = .ok written ∧
        (∃ span, stringWith written 0 none = .ok (span, written.length) ∧
          Decoder.Yields (Decoder.new span.content) [0x61, 0x22]) ∧
        (∀ size, trySize [0x61, 0x22] = .ok size ↔ size = written.length ∧ size < 2 ^ 64)) ∧
    stringWith [0x22, 0x5c, 0x6e, 0x22] 0 none = .ok (⟨[0x5c, 0x6e], 1, 3, true, 1⟩, 4) ∧
      ∃ out final, StringScan.new.scan [0x5c, 0x6e, 0x22] = .ok (out, final, []) ∧
        Decoder.Yields (Decoder.new [0x5c, 0x6e]) out ∧ 1 = out.length := by
  have hvalid : Utf8.Valid [0x61, 0x22] := ⟨[Char.ofNat 0x61, Char.ofNat 0x22], by decide⟩
  have hliteral : stringWith [0x22, 0x5c, 0x6e, 0x22] 0 none =
      .ok (⟨[0x5c, 0x6e], 1, 3, true, 1⟩, 4) := by
    decide +kernel
  obtain ⟨written, hput, hparse, hsize, -⟩ := putStr_round_trip.1 _ hvalid
  obtain ⟨out, final, hscan, -, hyields, hlength, -⟩ := putStr_round_trip.2 _ _ _ _ hliteral
  exact ⟨⟨hvalid, written, hput, hparse, hsize⟩, hliteral, out, final, hscan, hyields, hlength⟩

end Sark.Json
