import Sark.Json.Bytes
import Sark.Library.Fallible
import Sark.Library.Utf8

/-!
# JSON strings

The incremental string grammar of `json/src/source/string.rs`. A `StringScan` reads the content of
a string byte by byte, validating UTF-8 and escapes, and hands out the decoded bytes of each step.
The same code runs unchecked over content that was admitted before.

Against it stands the string grammar of RFC 8259: `Content bytes chars` derives the characters
that the content of a string literal denotes. `StringScan.scan_iff` says that the byte-wise scan
accepts exactly the literals of the grammar and decodes them to the encoding of their characters.
-/

namespace Sark.Json

/-! ## The scanner -/

/-- Where the scanner stands in an escape sequence. -/
inductive Escape
  | plain
  | start
  | hex (value left high : ℕ)
  | slash (high : ℕ)
  | unicode (high : ℕ)
  deriving DecidableEq, Repr

/-- Continuation bytes owed, and the range of the next one. -/
structure Continuation where
  left : ℕ
  min : UInt8
  max : UInt8
  deriving DecidableEq, Repr

/-- `source::string::String`. -/
@[ext]
structure StringScan where
  escape : Escape
  utf8 : Continuation
  /-- Content bytes read beyond those decoded. -/
  removed : ℕ
  deriving DecidableEq, Repr

/-- `Decoded::scalar`: the bytes of a scalar value. -/
def scalar (value : ℕ) : Bytes :=
  if value < 0x80 then [UInt8.ofNat value]
  else if value < 0x800 then
    [UInt8.ofNat (0xc0 ||| value >>> 6), UInt8.ofNat (0x80 ||| value &&& 0x3f)]
  else if value < 0x10000 then
    [UInt8.ofNat (0xe0 ||| value >>> 12), UInt8.ofNat (0x80 ||| (value >>> 6) &&& 0x3f),
      UInt8.ofNat (0x80 ||| value &&& 0x3f)]
  else
    [UInt8.ofNat (0xf0 ||| value >>> 18), UInt8.ofNat (0x80 ||| (value >>> 12) &&& 0x3f),
      UInt8.ofNat (0x80 ||| (value >>> 6) &&& 0x3f), UInt8.ofNat (0x80 ||| value &&& 0x3f)]

/-- `u8::is_ascii_hexdigit`. -/
def isHexDigit (byte : UInt8) : Bool :=
  (0x30 ≤ byte && byte ≤ 0x39) || (0x41 ≤ byte && byte ≤ 0x46) || (0x61 ≤ byte && byte ≤ 0x66)

/-- The value of a hexadecimal digit, `(byte & 0x0f) + 9 * (byte >> 6)`. -/
def hexDigit (byte : UInt8) : ℕ :=
  (byte &&& 0x0f).toNat + 9 * (byte >>> 6).toNat

/-- The byte denoted by a two-byte escape. -/
def shortEscape (byte : UInt8) : Option UInt8 :=
  if byte = 0x22 ∨ byte = 0x5c ∨ byte = 0x2f then some byte
  else if byte = 0x62 then some 0x08
  else if byte = 0x66 then some 0x0c
  else if byte = 0x6e then some 0x0a
  else if byte = 0x72 then some 0x0d
  else if byte = 0x74 then some 0x09
  else none

/-- The continuation bytes announced by a lead byte. -/
def leadByte (byte : UInt8) : Option Continuation :=
  if 0xc2 ≤ byte ∧ byte ≤ 0xdf then some ⟨1, 0x80, 0xbf⟩
  else if byte = 0xe0 then some ⟨2, 0xa0, 0xbf⟩
  else if (0xe1 ≤ byte ∧ byte ≤ 0xec) ∨ (0xee ≤ byte ∧ byte ≤ 0xef) then some ⟨2, 0x80, 0xbf⟩
  else if byte = 0xed then some ⟨2, 0x80, 0x9f⟩
  else if byte = 0xf0 then some ⟨3, 0x90, 0xbf⟩
  else if 0xf1 ≤ byte ∧ byte ≤ 0xf3 then some ⟨3, 0x80, 0xbf⟩
  else if byte = 0xf4 then some ⟨3, 0x80, 0x8f⟩
  else none

namespace StringScan

/-- `String::new`. -/
def new : StringScan :=
  ⟨.plain, ⟨0, 0x80, 0xbf⟩, 0⟩

/-- `Validation::require`: the checked mode fails, the admitted mode goes on. -/
def require (check : Bool) (valid : Bool) : Except Error Unit :=
  if check && !valid then .error .invalid else .ok ()

/-- The match of `String::content`: the state after one byte and the bytes it decodes. -/
def advance (check : Bool) (self : StringScan) (byte : UInt8) :
    Except Error (StringScan × Bytes) :=
  match self.escape with
  | .plain =>
    if check ∧ self.utf8.left ≠ 0 then do
      require check (self.utf8.min ≤ byte && byte ≤ self.utf8.max)
      .ok ({ self with utf8 := ⟨self.utf8.left - 1, 0x80, 0xbf⟩ }, [byte])
    else if byte = 0x5c then .ok ({ self with escape := .start }, [])
    else if byte < 0x80 ∨ !check then do
      require check (0x20 ≤ byte)
      .ok (self, [byte])
    else
      match leadByte byte with
      | some utf8 => .ok ({ self with utf8 }, [byte])
      | none => do
        require check false
        .ok ({ self with utf8 := ⟨0, 0, 0⟩ }, [byte])
  | .start =>
    if byte = 0x75 then .ok ({ self with escape := .hex 0 4 0 }, [])
    else
      match shortEscape byte with
      | some decoded => .ok ({ self with escape := .plain }, [decoded])
      | none => do
        require check false
        .ok ({ self with escape := .plain }, [0])
  | .hex value left high => do
    require check (isHexDigit byte)
    let value := (value <<< 4) % 2 ^ 16 ||| hexDigit byte
    if left ≠ 1 then .ok ({ self with escape := .hex value (left - 1) high }, [])
    else if high ≠ 0 then
      require check (0xdc00 ≤ value && value ≤ 0xdfff)
      .ok ({ self with escape := .plain },
        scalar (0x10000 + ((high &&& 0x3ff) <<< 10 ||| value &&& 0x3ff)))
    else if 0xd800 ≤ value ∧ value ≤ 0xdbff then .ok ({ self with escape := .slash value }, [])
    else
      require check !(0xdc00 ≤ value && value ≤ 0xdfff)
      .ok ({ self with escape := .plain }, scalar value)
  | .slash high => do
    require check (byte = 0x5c)
    .ok ({ self with escape := .unicode high }, [])
  | .unicode high => do
    require check (byte = 0x75)
    .ok ({ self with escape := .hex 0 4 high }, [])

/-- `String::content`: only the checked mode counts the bytes that decoding removes. -/
def content (check : Bool) (self : StringScan) (byte : UInt8) :
    Except Error (StringScan × Bytes) := do
  let (next, output) ← advance check self byte
  if check then .ok ({ next with removed := next.removed + 1 - output.length }, output)
  else .ok (next, output)

/-- `String::step`: `none` is the closing quote. -/
def step (self : StringScan) (byte : UInt8) : Except Error (Option (StringScan × Bytes)) :=
  if self.escape = .plain ∧ self.utf8.left = 0 ∧ byte = 0x22 then .ok none
  else (content true self byte).map some

/-- `String::skip`: an admitted ASCII run that leaves every state field unchanged. -/
def skip (self : StringScan) (chunk : Bytes) : Bytes :=
  if self.escape ≠ .plain ∨ self.utf8.left ≠ 0 then [] else takePlain true chunk

/-- Put decoded bytes in front of what the rest of a scan decodes. -/
def emit (output : Bytes) (result : Except Error (Bytes × StringScan × Bytes)) :
    Except Error (Bytes × StringScan × Bytes) :=
  result.map fun result => (output ++ result.1, result.2)

/-- Step up to the closing quote: the decoded bytes, the final state and what follows. -/
def scan (self : StringScan) : Bytes → Except Error (Bytes × StringScan × Bytes)
  | [] => .error .invalid
  | byte :: rest =>
    match step self byte with
    | .error error => .error error
    | .ok none => .ok ([], self, rest)
    | .ok (some (next, output)) => emit output (scan next rest)

end StringScan

/-! ## The grammar of string content -/

/-- The value of four hexadecimal digits. -/
def hexValue (h₁ h₂ h₃ h₄ : UInt8) : ℕ :=
  hexDigit h₁ * 4096 + hexDigit h₂ * 256 + hexDigit h₃ * 16 + hexDigit h₄

/-- Four hexadecimal digits with a value. -/
def Hex (value : ℕ) (h₁ h₂ h₃ h₄ : UInt8) : Prop :=
  isHexDigit h₁ ∧ isHexDigit h₂ ∧ isHexDigit h₃ ∧ isHexDigit h₄ ∧ hexValue h₁ h₂ h₃ h₄ = value

/-- One character of string content as RFC 8259 writes it: unescaped, by a two-byte escape, by a
`\u` escape of its code point, or by a pair of `\u` escapes for a surrogate pair. -/
inductive TextUnit : Bytes → Char → Prop
  | plain {c : Char} : 0x20 ≤ c.val.toNat → c.val.toNat ≠ 0x22 → c.val.toNat ≠ 0x5c →
      TextUnit (String.utf8EncodeChar c) c
  | short {byte decoded : UInt8} {c : Char} : shortEscape byte = some decoded →
      c.val.toNat = decoded.toNat → TextUnit [0x5c, byte] c
  | unicode {h₁ h₂ h₃ h₄ : UInt8} {c : Char} : Hex c.val.toNat h₁ h₂ h₃ h₄ →
      TextUnit [0x5c, 0x75, h₁, h₂, h₃, h₄] c
  | pair {h₁ h₂ h₃ h₄ l₁ l₂ l₃ l₄ : UInt8} {high low : ℕ} {c : Char} :
      Hex high h₁ h₂ h₃ h₄ → Hex low l₁ l₂ l₃ l₄ → 0xd800 ≤ high → high ≤ 0xdbff →
      0xdc00 ≤ low → low ≤ 0xdfff →
      c.val.toNat = 0x10000 + (high - 0xd800) * 0x400 + (low - 0xdc00) →
      TextUnit [0x5c, 0x75, h₁, h₂, h₃, h₄, 0x5c, 0x75, l₁, l₂, l₃, l₄] c

/-- The content of a string literal and the characters it denotes. -/
inductive Content : Bytes → List Char → Prop
  | nil : Content [] []
  | cons {unit rest : Bytes} {c : Char} {chars : List Char} :
      TextUnit unit c → Content rest chars → Content (unit ++ rest) (c :: chars)

/-! ## Arithmetic of the escapes -/

theorem hexDigit_eq (byte : UInt8) : hexDigit byte = byte.toNat % 16 + 9 * (byte.toNat / 64) := by
  simp only [hexDigit, UInt8.toNat_and, UInt8.toNat_shiftRight, UInt8.reduceToNat]
  rw [show (15 : ℕ) = 2 ^ 4 - 1 by rfl, Nat.and_two_pow_sub_one_eq_mod, Nat.shiftRight_eq_div_pow]

theorem hexDigit_lt {byte : UInt8} (h : isHexDigit byte = true) : hexDigit byte < 16 := by
  rw [hexDigit_eq]
  simp only [isHexDigit, Bool.or_eq_true, Bool.and_eq_true, decide_eq_true_eq,
    UInt8.le_iff_toNat_le, UInt8.reduceToNat] at h
  omega

theorem shift_or_digit {value digit : ℕ} (hvalue : value < 2 ^ 12) (hdigit : digit < 16) :
    (value <<< 4) % 2 ^ 16 ||| digit = value * 16 + digit := by
  rw [Nat.shiftLeft_eq, Nat.mod_eq_of_lt (by omega), mul_comm value,
    ← Nat.two_pow_add_eq_or_of_lt (by omega), mul_comm]

theorem digits_lt {h₁ h₂ h₃ : UInt8} (d₁ : isHexDigit h₁ = true) (d₂ : isHexDigit h₂ = true)
    (d₃ : isHexDigit h₃ = true) :
    hexDigit h₁ * 256 + hexDigit h₂ * 16 + hexDigit h₃ < 2 ^ 12 := by
  have := hexDigit_lt d₁
  have := hexDigit_lt d₂
  have := hexDigit_lt d₃
  omega

theorem digits_eq (h₁ h₂ h₃ h₄ : UInt8) :
    (hexDigit h₁ * 256 + hexDigit h₂ * 16 + hexDigit h₃) * 16 + hexDigit h₄ =
      hexValue h₁ h₂ h₃ h₄ := by
  rw [hexValue]
  ring

theorem marker_or {x i : ℕ} (h : x < 2 ^ i) (a : ℕ) : 2 ^ i * a ||| x = x % 2 ^ i + 2 ^ i * a := by
  rw [← Nat.two_pow_add_eq_or_of_lt h, Nat.mod_eq_of_lt h, add_comm]

theorem scalar_eq (c : Char) : scalar c.val.toNat = String.utf8EncodeChar c := by
  have hrange := Utf8.char_range c
  have hmask : ∀ v : ℕ, 0x80 ||| v &&& 0x3f = v % 64 + 0x80 := by
    intro v
    rw [show (0x3f : ℕ) = 2 ^ 6 - 1 by rfl, Nat.and_two_pow_sub_one_eq_mod]
    simpa using marker_or (i := 6) (Nat.mod_lt v (by norm_num)) 2
  simp only [scalar, String.utf8EncodeChar, hmask, Nat.shiftRight_eq_div_pow, Nat.reducePow]
  generalize c.val.toNat = v at *
  by_cases h₁ : v < 0x80
  · rw [if_pos h₁, if_pos (by omega)]
  rw [if_neg h₁, if_neg (show ¬v ≤ 0x7f by omega)]
  by_cases h₂ : v < 0x800
  · have hlead : 0xc0 ||| v / 64 = v / 64 % 0x20 + 0xc0 := marker_or (i := 5) (by omega) 6
    rw [if_pos h₂, if_pos (show v ≤ 0x7ff by omega), hlead]
  rw [if_neg h₂, if_neg (show ¬v ≤ 0x7ff by omega)]
  by_cases h₃ : v < 0x10000
  · have hlead : 0xe0 ||| v / 4096 = v / 4096 % 0x10 + 0xe0 := marker_or (i := 4) (by omega) 14
    rw [if_pos h₃, if_pos (show v ≤ 0xffff by omega), hlead]
  · have hlead : 0xf0 ||| v / 262144 = v / 262144 % 0x08 + 0xf0 := marker_or (i := 3) (by omega) 30
    rw [if_neg h₃, if_neg (show ¬v ≤ 0xffff by omega), hlead]

theorem surrogate_eq {high low : ℕ} (hhigh : 0xd800 ≤ high) (hhigh' : high ≤ 0xdbff)
    (hlow : 0xdc00 ≤ low) (hlow' : low ≤ 0xdfff) :
    0x10000 + ((high &&& 0x3ff) <<< 10 ||| low &&& 0x3ff) =
      0x10000 + (high - 0xd800) * 0x400 + (low - 0xdc00) := by
  rw [show (0x3ff : ℕ) = 2 ^ 10 - 1 by rfl, Nat.and_two_pow_sub_one_eq_mod,
    Nat.and_two_pow_sub_one_eq_mod, Nat.shiftLeft_eq, mul_comm (high % 2 ^ 10),
    ← Nat.two_pow_add_eq_or_of_lt (by omega)]
  omega

/-! ## One step of the scan

What `scan` does in each state, as equations. `base removed` is the state between two characters. -/

namespace StringScan

/-- The state between two characters. -/
def base (removed : ℕ) : StringScan :=
  ⟨.plain, ⟨0, 0x80, 0xbf⟩, removed⟩

@[simp]
theorem emit_nil (result : Except Error (Bytes × StringScan × Bytes)) :
    emit [] result = result := by
  cases result <;> simp [emit, Except.map]

@[simp]
theorem emit_emit (left right : Bytes) (result : Except Error (Bytes × StringScan × Bytes)) :
    emit left (emit right result) = emit (left ++ right) result := by
  cases result <;> simp [emit, Except.map]

theorem emit_eq_ok_iff {output : Bytes} {result : Except Error (Bytes × StringScan × Bytes)}
    {out : Bytes × StringScan × Bytes} :
    emit output result = .ok out ↔ ∃ tail, result = .ok (tail, out.2) ∧ out.1 = output ++ tail := by
  cases result with
  | error error => simp [emit, Except.map]
  | ok result =>
    obtain ⟨decoded, final, rest⟩ := result
    obtain ⟨decoded', final', rest'⟩ := out
    simp only [emit, Except.map, Except.ok.injEq, Prod.mk.injEq]
    refine ⟨?_, ?_⟩
    · rintro ⟨rfl, rfl, rfl⟩
      exact ⟨decoded, ⟨rfl, rfl, rfl⟩, rfl⟩
    · rintro ⟨tail, ⟨rfl, rfl, rfl⟩, rfl⟩
      exact ⟨rfl, rfl, rfl⟩

/-- Away from the closing quote, the scan goes on with the state after the byte. -/
theorem scan_cons {self : StringScan} {byte : UInt8} {rest : Bytes}
    (h : ¬(self.escape = .plain ∧ self.utf8.left = 0 ∧ byte = 0x22)) :
    scan self (byte :: rest) =
      match content true self byte with
      | .error error => .error error
      | .ok (next, output) => emit output (scan next rest) := by
  rw [scan, step, if_neg h]
  cases content true self byte <;> rfl

theorem require_range {α : Type} [LE α] [DecidableLE α] {low high x : α}
    (h : ¬(low ≤ x ∧ x ≤ high)) :
    require true (decide (low ≤ x) && decide (x ≤ high)) = .error .invalid := by
  rw [require, if_pos (by rw [← Bool.decide_and, decide_eq_false h]; rfl)]

variable (removed : ℕ) (byte : UInt8) (rest : Bytes)

theorem scan_base :
    scan (base removed) (byte :: rest) =
      if byte = 0x22 then .ok ([], base removed, rest)
      else if byte = 0x5c then scan ⟨.start, ⟨0, 0x80, 0xbf⟩, removed + 1⟩ rest
      else if byte < 0x80 then
        if 0x20 ≤ byte then emit [byte] (scan (base removed) rest) else .error .invalid
      else
        match leadByte byte with
        | some utf8 => emit [byte] (scan ⟨.plain, utf8, removed⟩ rest)
        | none => .error .invalid := by
  by_cases hquote : byte = 0x22
  · simp [scan, step, base, hquote]
  rw [if_neg hquote, scan_cons (by simp [hquote])]
  by_cases hslash : byte = 0x5c
  · simp [base, hslash, content, advance, bind, Except.bind]
  rw [if_neg hslash]
  by_cases hascii : byte < 0x80
  · by_cases hcontrol : 0x20 ≤ byte <;>
      simp [base, hslash, hascii, hcontrol, content, advance, require, bind, Except.bind]
  · cases hlead : leadByte byte <;>
      simp [base, hslash, hascii, hlead, content, advance, require, bind, Except.bind]

theorem scan_tail (left : ℕ) (min max : UInt8) :
    scan ⟨.plain, ⟨left + 1, min, max⟩, removed⟩ (byte :: rest) =
      if min ≤ byte ∧ byte ≤ max then emit [byte] (scan ⟨.plain, ⟨left, 0x80, 0xbf⟩, removed⟩ rest)
      else .error .invalid := by
  rw [scan_cons (by simp)]
  by_cases h : min ≤ byte ∧ byte ≤ max
  · simp [h, content, advance, require, bind, Except.bind]
  · simp [h, content, advance, require_range h, bind, Except.bind]

theorem scan_start :
    scan ⟨.start, ⟨0, 0x80, 0xbf⟩, removed⟩ (byte :: rest) =
      if byte = 0x75 then scan ⟨.hex 0 4 0, ⟨0, 0x80, 0xbf⟩, removed + 1⟩ rest
      else
        match shortEscape byte with
        | some decoded => emit [decoded] (scan (base removed) rest)
        | none => .error .invalid := by
  rw [scan_cons (by simp)]
  by_cases hunicode : byte = 0x75
  · simp [hunicode, content, advance, bind, Except.bind]
  · cases hshort : shortEscape byte <;>
      simp [hunicode, hshort, base, content, advance, require, bind, Except.bind]

theorem scan_hex {value left high : ℕ} (hvalue : value < 2 ^ 12) (hleft : left ≠ 0) :
    scan ⟨.hex value (left + 1) high, ⟨0, 0x80, 0xbf⟩, removed⟩ (byte :: rest) =
      if isHexDigit byte then
        scan ⟨.hex (value * 16 + hexDigit byte) left high, ⟨0, 0x80, 0xbf⟩, removed + 1⟩ rest
      else .error .invalid := by
  rw [scan_cons (by simp)]
  by_cases h : isHexDigit byte
  · simp [h, hleft, content, advance, require, bind, Except.bind,
      ← shift_or_digit hvalue (hexDigit_lt h)]
  · simp [h, content, advance, require, bind, Except.bind]

theorem scan_hex_last {value : ℕ} (hvalue : value < 2 ^ 12) :
    scan ⟨.hex value 1 0, ⟨0, 0x80, 0xbf⟩, removed⟩ (byte :: rest) =
      if isHexDigit byte then
        let value := value * 16 + hexDigit byte
        if 0xd800 ≤ value ∧ value ≤ 0xdbff then
          scan ⟨.slash value, ⟨0, 0x80, 0xbf⟩, removed + 1⟩ rest
        else if 0xdc00 ≤ value ∧ value ≤ 0xdfff then .error .invalid
        else emit (scalar value) (scan (base (removed + 1 - (scalar value).length)) rest)
      else .error .invalid := by
  rw [scan_cons (by simp)]
  by_cases h : isHexDigit byte
  · rw [if_pos h]
    simp only [content, advance, require, h, bind, Except.bind,
      shift_or_digit hvalue (hexDigit_lt h)]
    generalize value * 16 + hexDigit byte = v
    by_cases hhigh : 0xd800 ≤ v ∧ v ≤ 0xdbff
    · simp [hhigh]
    · by_cases hlow : 0xdc00 ≤ v ∧ v ≤ 0xdfff
      · simp [hhigh, hlow]
      · simp [hhigh, hlow, base]
  · simp [h, content, advance, require, bind, Except.bind]

theorem scan_hex_low {value high : ℕ} (hvalue : value < 2 ^ 12) (hhigh : high ≠ 0) :
    scan ⟨.hex value 1 high, ⟨0, 0x80, 0xbf⟩, removed⟩ (byte :: rest) =
      if isHexDigit byte then
        let value := value * 16 + hexDigit byte
        if 0xdc00 ≤ value ∧ value ≤ 0xdfff then
          let scalar := scalar (0x10000 + ((high &&& 0x3ff) <<< 10 ||| value &&& 0x3ff))
          emit scalar (scan (base (removed + 1 - scalar.length)) rest)
        else .error .invalid
      else .error .invalid := by
  rw [scan_cons (by simp)]
  by_cases h : isHexDigit byte
  · rw [if_pos h]
    simp only [content, advance, h, bind, Except.bind, shift_or_digit hvalue (hexDigit_lt h)]
    generalize value * 16 + hexDigit byte = v
    by_cases hlow : 0xdc00 ≤ v ∧ v ≤ 0xdfff
    · simp [require, hhigh, hlow, base]
    · simp [require_range hlow, hhigh, hlow, show require true true = .ok () from rfl]
  · simp [h, content, advance, require, bind, Except.bind]

theorem scan_slash (high : ℕ) :
    scan ⟨.slash high, ⟨0, 0x80, 0xbf⟩, removed⟩ (byte :: rest) =
      if byte = 0x5c then scan ⟨.unicode high, ⟨0, 0x80, 0xbf⟩, removed + 1⟩ rest
      else .error .invalid := by
  rw [scan_cons (by simp)]
  by_cases h : byte = 0x5c <;> simp [h, content, advance, require, bind, Except.bind]

theorem scan_unicode (high : ℕ) :
    scan ⟨.unicode high, ⟨0, 0x80, 0xbf⟩, removed⟩ (byte :: rest) =
      if byte = 0x75 then scan ⟨.hex 0 4 high, ⟨0, 0x80, 0xbf⟩, removed + 1⟩ rest
      else .error .invalid := by
  rw [scan_cons (by simp)]
  by_cases h : byte = 0x75 <;> simp [h, content, advance, require, bind, Except.bind]

end StringScan

/-! ## One character -/

theorem utf8EncodeChar_ascii {c : Char} {byte : UInt8} (h : c.val.toNat = byte.toNat)
    (hascii : byte.toNat < 0x80) : String.utf8EncodeChar c = [byte] := by
  simp only [String.utf8EncodeChar, h]
  rw [if_pos (by omega)]
  simp

theorem two_le_length_utf8EncodeChar {c : Char} (h : 0x80 ≤ c.val.toNat) :
    2 ≤ (String.utf8EncodeChar c).length := by
  simp only [String.utf8EncodeChar]
  rw [if_neg (by omega)]
  split
  · simp
  split <;> simp

theorem le_of_utf8EncodeChar {c : Char} {byte : UInt8} {tail : Bytes}
    (h : String.utf8EncodeChar c = byte :: tail) (hbyte : 0x80 ≤ byte) : 0x80 ≤ c.val.toNat := by
  by_contra hlt
  have hval : c.val.toNat = (UInt8.ofNat c.val.toNat).toNat := by
    rw [UInt8.toNat_ofNat']
    omega
  rw [utf8EncodeChar_ascii hval (by omega)] at h
  simp only [List.cons.injEq, ← UInt8.toNat_inj, ← hval] at h
  simp only [UInt8.le_iff_toNat_le, UInt8.reduceToNat] at hbyte
  omega

theorem shortEscape_lt {byte decoded : UInt8} (h : shortEscape byte = some decoded) :
    decoded.toNat < 0x80 := by
  unfold shortEscape at h
  split at h
  · rename_i hself
    rw [← Option.some.inj h]
    rcases hself with rfl | rfl | rfl <;> decide
  all_goals
    split_ifs at h <;> (rw [← Option.some.inj h]; decide)

theorem TextUnit.length_le {unit : Bytes} {c : Char} (h : TextUnit unit c) :
    (String.utf8EncodeChar c).length ≤ unit.length := by
  cases h with
  | plain => exact le_rfl
  | short hshort hc => simp [utf8EncodeChar_ascii hc (shortEscape_lt hshort)]
  | unicode => simpa using (Char.utf8Size_le_four c).trans (by norm_num)
  | pair => simpa using (Char.utf8Size_le_four c).trans (by norm_num)

theorem TextUnit.ne_nil {unit : Bytes} {c : Char} (h : TextUnit unit c) : unit ≠ [] := by
  cases h <;> simp [String.utf8EncodeChar_ne_nil]

/-- The continuation bytes that a lead byte announced. -/
inductive Tails : Continuation → Bytes → Prop
  | done : Tails ⟨0, 0x80, 0xbf⟩ []
  | more {left : ℕ} {min max byte : UInt8} {rest : Bytes} : min ≤ byte → byte ≤ max →
      Tails ⟨left, 0x80, 0xbf⟩ rest → Tails ⟨left + 1, min, max⟩ (byte :: rest)

theorem leadByte_eq (byte : UInt8) :
    leadByte byte =
      if 0xc2 ≤ byte ∧ byte ≤ 0xdf then some ⟨1, 0x80, 0xbf⟩
      else if 0xe0 ≤ byte ∧ byte ≤ 0xef then
        some ⟨2, if byte = 0xe0 then 0xa0 else 0x80, if byte = 0xed then 0x9f else 0xbf⟩
      else if 0xf0 ≤ byte ∧ byte ≤ 0xf4 then
        some ⟨3, if byte = 0xf0 then 0x90 else 0x80, if byte = 0xf4 then 0x8f else 0xbf⟩
      else none := by
  simp only [leadByte, UInt8.le_iff_toNat_le, ← UInt8.toNat_inj, UInt8.reduceToNat]
  split_ifs <;> first | rfl | omega

theorem le_min_of_leadByte {byte : UInt8} {utf8 : Continuation} (h : leadByte byte = some utf8) :
    0x80 ≤ utf8.min := by
  unfold leadByte at h
  split_ifs at h <;> cases h <;> decide

/-- The lead bytes of the scanner with their tails are the sequences of RFC 3629 beyond ASCII. -/
theorem sequence_iff_leadByte {byte : UInt8} {tail : Bytes} (hascii : 0x80 ≤ byte) :
    Utf8.Sequence (byte :: tail) ↔ ∃ utf8, leadByte byte = some utf8 ∧ Tails utf8 tail := by
  simp only [leadByte_eq]
  refine ⟨fun h => ?_, ?_⟩
  · cases h with
    | one h =>
      simp only [UInt8.le_iff_toNat_le, UInt8.reduceToNat] at h hascii
      omega
    | two h h' hb =>
      rw [if_pos ⟨h, h'⟩]
      exact ⟨_, rfl, .more hb.1 hb.2 .done⟩
    | three h h' hb hmin hmax hc =>
      rw [if_neg (by simp only [UInt8.le_iff_toNat_le, UInt8.reduceToNat] at *; omega),
        if_pos ⟨h, h'⟩]
      refine ⟨_, rfl, .more ?_ ?_ (.more hc.1 hc.2 .done)⟩
      · split
        · exact hmin ‹_›
        · exact hb.1
      · split
        · exact hmax ‹_›
        · exact hb.2
    | four h h' hb hmin hmax hc hd =>
      rw [if_neg (by simp only [UInt8.le_iff_toNat_le, UInt8.reduceToNat] at *; omega),
        if_neg (by simp only [UInt8.le_iff_toNat_le, UInt8.reduceToNat] at *; omega),
        if_pos ⟨h, h'⟩]
      refine ⟨_, rfl, .more ?_ ?_ (.more hc.1 hc.2 (.more hd.1 hd.2 .done))⟩
      · split
        · exact hmin ‹_›
        · exact hb.1
      · split
        · exact hmax ‹_›
        · exact hb.2
  · rintro ⟨utf8, hlead, htail⟩
    have hbounds : ∀ {low high b : UInt8} {p q : Prop} [Decidable p] [Decidable q],
        0x80 ≤ low → high ≤ 0xbf → (if p then low else 0x80) ≤ b → b ≤ (if q then high else 0xbf) →
          Utf8.Tail b ∧ (p → low ≤ b) ∧ (q → b ≤ high) := by
      intro low high b p q _ _ hlow hhigh h h'
      simp only [Utf8.Tail, UInt8.le_iff_toNat_le] at *
      split_ifs at h h' <;> simp_all <;> omega
    by_cases h₁ : 0xc2 ≤ byte ∧ byte ≤ 0xdf
    · rw [if_pos h₁] at hlead
      cases hlead
      cases htail with
      | more h h' htail =>
        cases htail
        exact .two h₁.1 h₁.2 ⟨h, h'⟩
    rw [if_neg h₁] at hlead
    by_cases h₂ : 0xe0 ≤ byte ∧ byte ≤ 0xef
    · rw [if_pos h₂] at hlead
      cases hlead
      cases htail with
      | more h h' htail =>
        cases htail with
        | more hc hc' htail =>
          cases htail
          obtain ⟨hb, hmin, hmax⟩ := @hbounds 0xa0 0x9f _ _ _ _ _ (by decide) (by decide) h h'
          exact .three h₂.1 h₂.2 hb hmin hmax ⟨hc, hc'⟩
    rw [if_neg h₂] at hlead
    by_cases h₃ : 0xf0 ≤ byte ∧ byte ≤ 0xf4
    · rw [if_pos h₃] at hlead
      cases hlead
      cases htail with
      | more h h' htail =>
        cases htail with
        | more hc hc' htail =>
          cases htail with
          | more hd hd' htail =>
            cases htail
            obtain ⟨hb, hmin, hmax⟩ :=
              @hbounds 0x90 0x8f _ _ _ _ _ (by decide) (by decide) h h'
            exact .four h₃.1 h₃.2 hb hmin hmax ⟨hc, hc'⟩ ⟨hd, hd'⟩
    rw [if_neg h₃] at hlead
    cases hlead

namespace StringScan

theorem scan_tails {utf8 : Continuation} {tail : Bytes} (h : Tails utf8 tail) (removed : ℕ)
    (rest : Bytes) :
    scan ⟨.plain, utf8, removed⟩ (tail ++ rest) = emit tail (scan (base removed) rest) := by
  induction h with
  | done => simp [base]
  | more hmin hmax _ ih => rw [List.cons_append, scan_tail, if_pos ⟨hmin, hmax⟩, ih, emit_emit]; rfl

theorem tails_of_scan {left removed : ℕ} {min max : UInt8} {bytes : Bytes}
    {out : Bytes × StringScan × Bytes}
    (h : scan ⟨.plain, ⟨left + 1, min, max⟩, removed⟩ bytes = .ok out) :
    ∃ tail rest, Tails ⟨left + 1, min, max⟩ tail ∧ bytes = tail ++ rest := by
  induction left generalizing bytes min max out with
  | zero =>
    cases bytes with
    | nil => simp [scan] at h
    | cons byte bytes =>
      rw [scan_tail] at h
      split at h
      · rename_i hrange
        exact ⟨[byte], bytes, .more hrange.1 hrange.2 .done, rfl⟩
      · simp at h
  | succ left ih =>
    cases bytes with
    | nil => simp [scan] at h
    | cons byte bytes =>
      rw [scan_tail] at h
      split at h
      · rename_i hrange
        obtain ⟨result, hscan, -⟩ := emit_eq_ok_iff.mp h
        obtain ⟨tail, rest, htail, rfl⟩ := ih hscan
        exact ⟨byte :: tail, rest, .more hrange.1 hrange.2 htail, rfl⟩
      · simp at h

/-- The scan reads the encoding of a character that may stand unescaped. -/
theorem scan_plain {c : Char} (hcontrol : 0x20 ≤ c.val.toNat) (hquote : c.val.toNat ≠ 0x22)
    (hslash : c.val.toNat ≠ 0x5c) (removed : ℕ) (rest : Bytes) :
    scan (base removed) (String.utf8EncodeChar c ++ rest) =
      emit (String.utf8EncodeChar c) (scan (base removed) rest) := by
  by_cases hascii : c.val.toNat < 0x80
  · have hbyte : c.val.toNat = (UInt8.ofNat c.val.toNat).toNat := by
      rw [UInt8.toNat_ofNat']
      omega
    generalize UInt8.ofNat c.val.toNat = byte at hbyte
    rw [hbyte] at hcontrol hquote hslash hascii
    rw [utf8EncodeChar_ascii hbyte hascii, List.singleton_append, scan_base]
    rw [if_neg (by simpa [← UInt8.toNat_inj] using hquote),
      if_neg (by simpa [← UInt8.toNat_inj] using hslash),
      if_pos (by simpa [UInt8.lt_iff_toNat_lt] using hascii),
      if_pos (by simpa [UInt8.le_iff_toNat_le] using hcontrol)]
  · have hlength := two_le_length_utf8EncodeChar (c := c) (by omega)
    have hsequence := Utf8.sequence_encode c
    generalize String.utf8EncodeChar c = bytes at *
    obtain ⟨byte, tail, rfl⟩ := List.exists_cons_of_length_pos (show 0 < bytes.length by omega)
    have hbyte : 0x80 ≤ byte := by
      cases hsequence <;> simp_all [UInt8.le_iff_toNat_le] <;> omega
    obtain ⟨utf8, hlead, htail⟩ := (sequence_iff_leadByte hbyte).mp hsequence
    have hne : byte ≠ 0x22 ∧ byte ≠ 0x5c ∧ ¬byte < 0x80 := by
      simp only [ne_eq, ← UInt8.toNat_inj, UInt8.lt_iff_toNat_lt, UInt8.le_iff_toNat_le,
        UInt8.reduceToNat] at hbyte ⊢
      omega
    rw [List.cons_append, scan_base, if_neg hne.1, if_neg hne.2.1, if_neg hne.2.2, hlead]
    simp only [scan_tails htail, emit_emit, List.singleton_append]

theorem scan_digits {high removed : ℕ} {h₁ h₂ h₃ : UInt8} (d₁ : isHexDigit h₁ = true)
    (d₂ : isHexDigit h₂ = true) (d₃ : isHexDigit h₃ = true) (rest : Bytes) :
    scan ⟨.hex 0 4 high, ⟨0, 0x80, 0xbf⟩, removed⟩ (h₁ :: h₂ :: h₃ :: rest) =
      scan ⟨.hex (hexDigit h₁ * 256 + hexDigit h₂ * 16 + hexDigit h₃) 1 high, ⟨0, 0x80, 0xbf⟩,
        removed + 3⟩ rest := by
  have l₁ := hexDigit_lt d₁
  have l₂ := hexDigit_lt d₂
  have l₃ := hexDigit_lt d₃
  rw [scan_hex _ _ _ (by omega) (by omega), if_pos d₁, scan_hex _ _ _ (by omega) (by omega),
    if_pos d₂, scan_hex _ _ _ (by omega) (by omega), if_pos d₃]
  congr 3
  omega

/-- The scan reads one character of the grammar and decodes it. -/
theorem scan_unit {unit : Bytes} {c : Char} (h : TextUnit unit c) (removed : ℕ) (rest : Bytes) :
    scan (base removed) (unit ++ rest) =
      emit (String.utf8EncodeChar c)
        (scan (base (removed + unit.length - (String.utf8EncodeChar c).length)) rest) := by
  cases h with
  | plain hcontrol hquote hslash =>
    rw [scan_plain hcontrol hquote hslash, Nat.add_sub_cancel]
  | @short byte decoded c hshort hc =>
    have hunicode : byte ≠ 0x75 := by
      rintro rfl
      simp [shortEscape] at hshort
    simp only [List.cons_append, List.nil_append]
    rw [scan_base, if_neg (by decide), if_pos rfl, scan_start, if_neg hunicode, hshort,
      utf8EncodeChar_ascii hc (shortEscape_lt hshort)]
    rfl
  | @unicode h₁ h₂ h₃ h₄ c hhex =>
    obtain ⟨d₁, d₂, d₃, d₄, hvalue⟩ := hhex
    have hrange := Utf8.char_range c
    simp only [List.cons_append, List.nil_append]
    rw [scan_base, if_neg (by decide), if_pos rfl, scan_start, if_pos rfl, scan_digits d₁ d₂ d₃,
      scan_hex_last _ _ _ (digits_lt d₁ d₂ d₃), if_pos d₄]
    simp only [digits_eq, hvalue]
    rw [if_neg (by omega), if_neg (by omega), scalar_eq]
    rfl
  | @pair h₁ h₂ h₃ h₄ l₁ l₂ l₃ l₄ high low c hhigh hlow hh hh' hl hl' hc =>
    obtain ⟨d₁, d₂, d₃, d₄, hvalue⟩ := hhigh
    obtain ⟨e₁, e₂, e₃, e₄, hvalue'⟩ := hlow
    have hne : high ≠ 0 := by omega
    simp only [List.cons_append, List.nil_append]
    rw [scan_base, if_neg (by decide), if_pos rfl, scan_start, if_pos rfl, scan_digits d₁ d₂ d₃,
      scan_hex_last _ _ _ (digits_lt d₁ d₂ d₃), if_pos d₄]
    simp only [digits_eq, hvalue]
    rw [if_pos ⟨hh, hh'⟩, scan_slash, if_pos rfl, scan_unicode, if_pos rfl, scan_digits e₁ e₂ e₃,
      scan_hex_low _ _ _ (digits_lt e₁ e₂ e₃) hne, if_pos e₄]
    simp only [digits_eq, hvalue']
    rw [if_pos ⟨hl, hl'⟩, surrogate_eq hh hh' hl hl', ← hc, scalar_eq]
    rfl

/-- A digit that is not the last of its escape, read backwards from a successful scan. -/
theorem digit_of_scan {value left high removed : ℕ} {bytes : Bytes}
    {out : Bytes × StringScan × Bytes} (hvalue : value < 2 ^ 12) (hleft : left ≠ 0)
    (h : scan ⟨.hex value (left + 1) high, ⟨0, 0x80, 0xbf⟩, removed⟩ bytes = .ok out) :
    ∃ byte rest, bytes = byte :: rest ∧ isHexDigit byte = true ∧
      scan ⟨.hex (value * 16 + hexDigit byte) left high, ⟨0, 0x80, 0xbf⟩, removed + 1⟩ rest =
        .ok out := by
  cases bytes with
  | nil => simp [scan] at h
  | cons byte bytes =>
    rw [scan_hex _ _ _ hvalue hleft] at h
    split at h
    · exact ⟨byte, bytes, rfl, ‹_›, h⟩
    · simp at h

theorem digits_of_scan {high removed : ℕ} {bytes : Bytes} {out : Bytes × StringScan × Bytes}
    (h : scan ⟨.hex 0 4 high, ⟨0, 0x80, 0xbf⟩, removed⟩ bytes = .ok out) :
    ∃ h₁ h₂ h₃ h₄ rest, bytes = h₁ :: h₂ :: h₃ :: h₄ :: rest ∧
      isHexDigit h₁ = true ∧ isHexDigit h₂ = true ∧ isHexDigit h₃ = true ∧
      scan ⟨.hex (hexDigit h₁ * 256 + hexDigit h₂ * 16 + hexDigit h₃) 1 high, ⟨0, 0x80, 0xbf⟩,
        removed + 3⟩ (h₄ :: rest) = .ok out := by
  obtain ⟨h₁, _, rfl, d₁, hscan₁⟩ := digit_of_scan (by norm_num) (by norm_num) h
  have l₁ := hexDigit_lt d₁
  obtain ⟨h₂, _, rfl, d₂, hscan₂⟩ := digit_of_scan (by omega) (by norm_num) hscan₁
  have l₂ := hexDigit_lt d₂
  obtain ⟨h₃, bytes, rfl, d₃, hscan₃⟩ := digit_of_scan (by omega) (by norm_num) hscan₂
  cases bytes with
  | nil => simp [scan] at hscan₃
  | cons h₄ rest => exact ⟨h₁, h₂, h₃, h₄, rest, rfl, d₁, d₂, d₃, scan_digits d₁ d₂ d₃ _ ▸ h⟩

/-- What an escape may be, read backwards from a successful scan. -/
theorem unit_of_scan_start {removed : ℕ} {bytes : Bytes} {out : Bytes × StringScan × Bytes}
    (h : scan ⟨.start, ⟨0, 0x80, 0xbf⟩, removed⟩ bytes = .ok out) :
    ∃ unit c rest, TextUnit unit c ∧ 0x5c :: bytes = unit ++ rest := by
  cases bytes with
  | nil => simp [scan] at h
  | cons byte bytes =>
    rw [scan_start] at h
    split at h
    · rename_i hunicode
      subst hunicode
      obtain ⟨h₁, h₂, h₃, h₄, rest, rfl, d₁, d₂, d₃, hlast⟩ := digits_of_scan h
      rw [scan_hex_last _ _ _ (digits_lt d₁ d₂ d₃)] at hlast
      split at hlast
      · rename_i d₄
        simp only [digits_eq] at hlast
        split at hlast
        · -- a high surrogate: a low one has to follow
          rename_i hhigh
          cases rest with
          | nil => simp [scan] at hlast
          | cons slash rest =>
          rw [scan_slash] at hlast
          split at hlast
          · rename_i hslash
            subst hslash
            cases rest with
            | nil => simp [scan] at hlast
            | cons unicode rest =>
            rw [scan_unicode] at hlast
            split at hlast
            · rename_i hunicode
              subst hunicode
              obtain ⟨l₁, l₂, l₃, l₄, rest, rfl, e₁, e₂, e₃, hlow⟩ := digits_of_scan hlast
              rw [scan_hex_low _ _ _ (digits_lt e₁ e₂ e₃) (by omega)] at hlow
              split at hlow
              · rename_i e₄
                simp only [digits_eq] at hlow
                split at hlow
                · rename_i hrange
                  obtain ⟨c, hc⟩ := Utf8.exists_char (v := 0x10000 +
                    (hexValue h₁ h₂ h₃ h₄ - 0xd800) * 0x400 + (hexValue l₁ l₂ l₃ l₄ - 0xdc00))
                    (by omega)
                  exact ⟨_, c, rest, .pair ⟨d₁, d₂, d₃, d₄, rfl⟩ ⟨e₁, e₂, e₃, e₄, rfl⟩ hhigh.1
                    hhigh.2 hrange.1 hrange.2 hc, rfl⟩
                · simp at hlow
              · simp at hlow
            · simp at hlast
          · simp at hlast
        · split at hlast
          · simp at hlast
          · rename_i hhigh hlow
            have hlt : hexValue h₁ h₂ h₃ h₄ < 0x10000 := by
              have := digits_lt d₁ d₂ d₃
              have := hexDigit_lt d₄
              have := digits_eq h₁ h₂ h₃ h₄
              omega
            obtain ⟨c, hc⟩ := Utf8.exists_char (v := hexValue h₁ h₂ h₃ h₄) (by omega)
            exact ⟨_, c, rest, .unicode ⟨d₁, d₂, d₃, d₄, hc.symm⟩, rfl⟩
      · simp at hlast
    · split at h
      · rename_i decoded hshort
        have hlt := shortEscape_lt hshort
        obtain ⟨c, hc⟩ := Utf8.exists_char (v := decoded.toNat) (by omega)
        exact ⟨_, c, bytes, .short hshort hc, rfl⟩
      · simp at h

/-- A successful scan starts with the closing quote or with a character of the grammar. -/
theorem unit_of_scan {removed : ℕ} {bytes : Bytes} {out : Bytes × StringScan × Bytes}
    (h : scan (base removed) bytes = .ok out) :
    (∃ rest, bytes = 0x22 :: rest) ∨ ∃ unit c rest, TextUnit unit c ∧ bytes = unit ++ rest := by
  cases bytes with
  | nil => simp [scan] at h
  | cons byte bytes =>
    rw [scan_base] at h
    by_cases hquote : byte = 0x22
    · exact .inl ⟨bytes, by rw [hquote]⟩
    rw [if_neg hquote] at h
    right
    by_cases hslash : byte = 0x5c
    · rw [if_pos hslash] at h
      rw [hslash]
      exact unit_of_scan_start h
    rw [if_neg hslash] at h
    by_cases hascii : byte < 0x80
    · rw [if_pos hascii] at h
      split at h
      · rename_i hcontrol
        simp only [← UInt8.toNat_inj, UInt8.lt_iff_toNat_lt, UInt8.le_iff_toNat_le,
          UInt8.reduceToNat] at hquote hslash hascii hcontrol
        obtain ⟨c, hc⟩ := Utf8.exists_char (v := byte.toNat) (by omega)
        rw [← hc] at hquote hslash hcontrol
        refine ⟨_, c, bytes, .plain hcontrol hquote hslash, ?_⟩
        rw [utf8EncodeChar_ascii hc hascii]
        rfl
      · simp at h
    · rw [if_neg hascii] at h
      split at h
      · rename_i utf8 hlead
        obtain ⟨result, hscan, -⟩ := emit_eq_ok_iff.mp h
        obtain ⟨left, min, max, rfl⟩ : ∃ left min max, utf8 = ⟨left + 1, min, max⟩ := by
          rw [leadByte_eq] at hlead
          split_ifs at hlead <;> exact ⟨_, _, _, (Option.some.inj hlead).symm⟩
        obtain ⟨tail, rest, htail, rfl⟩ := tails_of_scan hscan
        simp only [UInt8.not_lt] at hascii
        have hsequence := (sequence_iff_leadByte hascii).mpr ⟨_, hlead, htail⟩
        obtain ⟨c, hc⟩ := Utf8.sequence_iff.mp hsequence
        have hchar := le_of_utf8EncodeChar hc.symm hascii
        refine ⟨_, c, rest, .plain (by omega) (by omega) (by omega), ?_⟩
        rw [← hc]
        rfl
      · simp at h

end StringScan

/-! ## The scan accepts the grammar -/

theorem Content.length_le {bytes : Bytes} {chars : List Char} (h : Content bytes chars) :
    (Utf8.encode chars).length ≤ bytes.length := by
  induction h with
  | nil => simp
  | cons hunit _ ih =>
    have := hunit.length_le
    simp only [Utf8.encode_cons, List.length_append]
    omega

namespace StringScan

/-- The scan reads the content of a string and decodes it to the encoding of its characters. -/
theorem scan_content {bytes : Bytes} {chars : List Char} (h : Content bytes chars) (removed : ℕ)
    (rest : Bytes) :
    scan (base removed) (bytes ++ 0x22 :: rest) =
      .ok (Utf8.encode chars,
        base (removed + (bytes.length - (Utf8.encode chars).length)), rest) := by
  induction h generalizing removed with
  | nil =>
    rw [List.nil_append, scan_base, if_pos rfl]
    simp
  | cons hunit hcontent ih =>
    have hunit_le := hunit.length_le
    have hcontent_le := hcontent.length_le
    rw [List.append_assoc, scan_unit hunit, ih, emit_eq_ok_iff]
    refine ⟨_, congrArg Except.ok (Prod.ext rfl (Prod.ext (congrArg base ?_) rfl)), rfl⟩
    simp only [Utf8.encode_cons, List.length_append]
    omega

/-- The byte-wise scan accepts exactly the string literals of the grammar, and decodes them. -/
theorem scan_iff {removed : ℕ} {bytes out rest : Bytes} {final : StringScan} :
    scan (base removed) bytes = .ok (out, final, rest) ↔
      ∃ content chars, Content content chars ∧ bytes = content ++ 0x22 :: rest ∧
        out = Utf8.encode chars ∧ final = base (removed + (content.length - out.length)) := by
  refine ⟨fun h => ?_, ?_⟩
  · suffices hsplit : ∃ content chars rest, Content content chars ∧ bytes = content ++ 0x22 :: rest by
      obtain ⟨content, chars, rest', hcontent, rfl⟩ := hsplit
      rw [scan_content hcontent] at h
      simp only [Except.ok.injEq, Prod.mk.injEq] at h
      obtain ⟨rfl, rfl, rfl⟩ := h
      exact ⟨content, chars, hcontent, rfl, rfl, rfl⟩
    -- on the length: every character of the grammar takes at least one byte
    generalize hlength : bytes.length = n
    induction n using Nat.strong_induction_on generalizing bytes removed out with
    | _ n ih =>
      rcases unit_of_scan h with ⟨tail, rfl⟩ | ⟨unit, c, tail, hunit, rfl⟩
      · exact ⟨[], [], tail, .nil, rfl⟩
      · rw [scan_unit hunit] at h
        obtain ⟨decoded, hscan, -⟩ := emit_eq_ok_iff.mp h
        have hpos := List.length_pos_of_ne_nil hunit.ne_nil
        obtain ⟨content, chars, rest', hcontent, rfl⟩ :=
          ih tail.length (by simp at hlength; omega) hscan rfl
        exact ⟨unit ++ content, c :: chars, rest', .cons hunit hcontent, by simp⟩
  · rintro ⟨content, chars, hcontent, rfl, rfl, rfl⟩
    exact scan_content hcontent removed rest

/-! ## Bulk skips -/

/-- A plain byte between characters leaves the state unchanged and decodes to itself. -/
theorem step_plain {self : StringScan} (hescape : self.escape = .plain) (hleft : self.utf8.left = 0)
    {byte : UInt8} (h : isPlainByte true byte = true) : step self byte = .ok (some (self, [byte])) := by
  obtain ⟨hcontrol, hquote, hslash, hascii⟩ := isPlainByte_iff.mp h
  have hlt : byte < 0x80 := by simpa [UInt8.lt_iff_toNat_lt] using hascii rfl
  have hle : 0x20 ≤ byte := by simpa [UInt8.le_iff_toNat_le] using hcontrol
  obtain ⟨escape, utf8, removed⟩ := self
  simp only at hescape hleft
  subst hescape
  simp [step, content, advance, require, hleft, hquote, hslash, hlt, hle, bind, Except.bind,
    Except.map]

theorem scan_skip (self : StringScan) (chunk : Bytes) :
    scan self chunk = emit (self.skip chunk) (scan self (chunk.drop (self.skip chunk).length)) := by
  unfold skip
  split
  · simp
  · rename_i hbase
    simp only [not_or, ne_eq, not_not] at hbase
    rw [takePlain_eq]
    induction chunk with
    | nil => simp
    | cons byte chunk ih =>
      by_cases hplain : isPlainByte true byte = true
      · rw [List.takeWhile_cons_of_pos hplain, scan, step_plain hbase.1 hbase.2 hplain]
        simp only [List.length_cons, List.drop_succ_cons]
        rw [ih, emit_emit]
        rfl
      · rw [List.takeWhile_cons_of_neg hplain]
        simp

/-! ## Replay of admitted content -/

/-- `String::<Admitted>::decode`: the admitted mode has no failures. -/
def decode (self : StringScan) (byte : UInt8) : StringScan × Bytes :=
  match content false self byte with
  | .ok result => result
  | .error _ => (self, [])

theorem require_false (valid : Bool) : require false valid = .ok () := by
  simp [require]

theorem require_eq_ok_iff {valid : Bool} {u : Unit} :
    require true valid = .ok u ↔ valid = true := by
  cases valid <;> simp [require]

/-- One admitted step decodes what the checked step decodes. Only the escape state matters, since
the admitted mode does not follow UTF-8; a continuation byte is never a backslash. -/
theorem advance_false_of_true {self other next : StringScan} {byte : UInt8} {output : Bytes}
    (h : advance true self byte = .ok (next, output)) (hescape : other.escape = self.escape)
    (hmin : 0x80 ≤ self.utf8.min) :
    0x80 ≤ next.utf8.min ∧
      ∃ other', advance false other byte = .ok (other', output) ∧ other'.escape = next.escape := by
  obtain ⟨escape, utf8, removed⟩ := self
  obtain ⟨escape', utf8', removed'⟩ := other
  simp only at hescape hmin
  subst hescape
  cases escape' with
  | plain =>
    simp only [advance] at h ⊢
    by_cases hleft : utf8.left ≠ 0
    · rw [if_pos ⟨trivial, hleft⟩, Except.bind_eq_ok_iff] at h
      obtain ⟨_, hvalid, hnext⟩ := h
      simp only [require_eq_ok_iff, Bool.and_eq_true, decide_eq_true_eq] at hvalid
      have hslash : byte ≠ 0x5c := by
        rintro rfl
        exact absurd (UInt8.le_trans hmin hvalid.1) (by decide)
      cases hnext
      simp [hslash, require_false, bind, Except.bind]
    · rw [if_neg (by simpa using hleft)] at h
      by_cases hslash : byte = 0x5c
      · rw [if_pos hslash] at h
        cases h
        simp [hslash, hmin]
      rw [if_neg hslash] at h
      by_cases hascii : byte < 0x80
      · rw [if_pos (.inl hascii), Except.bind_eq_ok_iff] at h
        obtain ⟨-, -, hnext⟩ := h
        cases hnext
        simp [hslash, hmin, require_false, bind, Except.bind]
      rw [if_neg (by simpa using hascii)] at h
      cases hlead : leadByte byte with
      | none => simp [hlead, require, bind, Except.bind] at h
      | some continuation =>
        simp only [hlead] at h
        cases h
        exact ⟨le_min_of_leadByte hlead, by simp [hslash, require_false, bind, Except.bind]⟩
  | start =>
    simp only [advance] at h ⊢
    by_cases hunicode : byte = 0x75
    · rw [if_pos hunicode] at h
      cases h
      simp [hunicode, hmin]
    · rw [if_neg hunicode] at h
      cases hshort : shortEscape byte with
      | none => simp [hshort, require, bind, Except.bind] at h
      | some decoded =>
        simp only [hshort] at h
        cases h
        simp [hunicode, hmin]
  | hex value left high =>
    simp only [advance, Except.bind_eq_ok_iff] at h
    obtain ⟨-, -, hnext⟩ := h
    simp only [advance, require_false, bind, Except.bind]
    generalize (value <<< 4) % 2 ^ 16 ||| hexDigit byte = value at *
    split at hnext
    · rename_i hleft
      cases hnext
      simp [hleft, hmin]
    rename_i hleft
    split at hnext
    · rename_i hhigh
      obtain ⟨-, -, hdecoded⟩ := Except.bind_eq_ok_iff.mp hnext
      cases hdecoded
      simp [hleft, hhigh, hmin]
    rename_i hhigh
    split at hnext
    · rename_i hsurrogate
      cases hnext
      simp [hleft, hhigh, hsurrogate, hmin]
    · rename_i hsurrogate
      obtain ⟨-, -, hdecoded⟩ := Except.bind_eq_ok_iff.mp hnext
      cases hdecoded
      simp [hleft, hhigh, hsurrogate, hmin]
  | slash high =>
    simp only [advance, Except.bind_eq_ok_iff] at h
    obtain ⟨-, -, hnext⟩ := h
    cases hnext
    simp [advance, require_false, bind, Except.bind, hmin]
  | unicode high =>
    simp only [advance, Except.bind_eq_ok_iff] at h
    obtain ⟨-, -, hnext⟩ := h
    cases hnext
    simp [advance, require_false, bind, Except.bind, hmin]

theorem decode_of_content {self other next : StringScan} {byte : UInt8} {output : Bytes}
    (h : content true self byte = .ok (next, output)) (hescape : other.escape = self.escape)
    (hmin : 0x80 ≤ self.utf8.min) :
    0x80 ≤ next.utf8.min ∧ (decode other byte).2 = output ∧
      (decode other byte).1.escape = next.escape := by
  obtain ⟨⟨state, _⟩, hadvance, hnext⟩ := Except.bind_eq_ok_iff.mp h
  cases hnext
  obtain ⟨hmin', other', hother, hescape'⟩ := advance_false_of_true hadvance hescape hmin
  have hdecode : decode other byte = (other', output) := by
    simp [decode, content, hother, bind, Except.bind]
  rw [hdecode]
  exact ⟨hmin', rfl, hescape'⟩

/-- Replay content through the admitted mode. -/
def decodeAll (self : StringScan) : Bytes → Bytes
  | [] => []
  | byte :: rest => (decode self byte).2 ++ decodeAll (decode self byte).1 rest

theorem decodeAll_of_scan {self other final : StringScan} {bytes out rest : Bytes}
    (h : scan self bytes = .ok (out, final, rest)) (hescape : other.escape = self.escape)
    (hmin : 0x80 ≤ self.utf8.min) :
    ∃ content, bytes = content ++ 0x22 :: rest ∧ decodeAll other content = out := by
  induction bytes generalizing self other out with
  | nil => simp [scan] at h
  | cons byte bytes ih =>
    by_cases hclose : self.escape = .plain ∧ self.utf8.left = 0 ∧ byte = 0x22
    · rw [scan, step, if_pos hclose] at h
      cases h
      exact ⟨[], by rw [hclose.2.2]; rfl, rfl⟩
    · rw [scan_cons hclose] at h
      split at h
      · simp at h
      · rename_i next output hcontent
        obtain ⟨hmin', houtput, hescape'⟩ := decode_of_content hcontent hescape hmin
        obtain ⟨tail, hscan, hout⟩ := emit_eq_ok_iff.mp h
        obtain ⟨content, rfl, hdecode⟩ := ih hscan hescape' hmin'
        refine ⟨byte :: content, rfl, ?_⟩
        rw [decodeAll, hdecode, houtput]
        exact hout.symm

end StringScan

end Sark.Json
