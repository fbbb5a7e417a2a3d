import Mathlib.Data.List.DropRight
import Mathlib.Data.List.TakeWhile
import Mathlib.Data.UInt
import Mathlib.Tactic

/-!
# Lexical layer of HTTP/1 field values

The byte classes and the cursor operations that the HTTP/1 field-value parsers share: optional
whitespace, tokens, single delimiters and parameter values (`http/src/h1/field/value.rs`), and the
decimal reader used for `Content-Length` (`http/src/field/text`).

A cursor is the list of bytes that are still unread. Every operation comes with the two facts its
callers need:

* a *split* lemma: what a successful call consumed, as a prefix of the input;
* a *run* lemma: how the call behaves on a lexeme followed by a byte that ends it.
-/

namespace Sark

/-- A borrowed byte slice. -/
abbrev Bytes := List UInt8

namespace Http

/-! ## Byte classes -/

/-- Optional whitespace, `b' ' | b'\t'`. -/
def isOws (byte : UInt8) : Bool :=
  byte == 0x20 || byte == 0x09

/-- ASCII letters and digits. -/
def isAsciiAlphanumeric (byte : UInt8) : Bool :=
  (0x30 ≤ byte && byte ≤ 0x39) || (0x41 ≤ byte && byte ≤ 0x5a) || (0x61 ≤ byte && byte ≤ 0x7a)

/-- `field::Error::is_name_byte`: the bytes of a token. The range tests wrap around below the
first byte of the range, as the source's do. -/
def isNameByte (byte : UInt8) : Bool :=
  isAsciiAlphanumeric byte
    || byte == 0x21
    || byte - 0x23 ≤ 0x27 - 0x23
    || byte - 0x2a ≤ 0x2b - 0x2a
    || byte - 0x2d ≤ 0x2e - 0x2d
    || byte - 0x5e ≤ 0x60 - 0x5e
    || byte == 0x7c
    || byte == 0x7e

/-- `u8::to_ascii_lowercase`. -/
def toAsciiLowercase (byte : UInt8) : UInt8 :=
  if 0x41 ≤ byte && byte ≤ 0x5a then byte + 0x20 else byte

/-- `<[u8]>::eq_ignore_ascii_case`. -/
def eqIgnoreAsciiCase (left right : Bytes) : Bool :=
  left.map toAsciiLowercase == right.map toAsciiLowercase

/-- The bytes allowed after a backslash inside a quoted string. -/
def isQuotedPair (byte : UInt8) : Bool :=
  byte == 0x09 || byte == 0x20 || (0x21 ≤ byte && byte ≤ 0x7e) || 0x80 ≤ byte

/-- The plain bytes of a quoted string: everything printable but `"` and `\`. -/
def isQuotedText (byte : UInt8) : Bool :=
  byte == 0x09 || byte == 0x20 || byte == 0x21 || (0x23 ≤ byte && byte ≤ 0x5b)
    || (0x5d ≤ byte && byte ≤ 0x7e) || 0x80 ≤ byte

theorem isNameByte_of_isOws {byte : UInt8} (h : isOws byte = true) : isNameByte byte = false := by
  simp only [isOws, Bool.or_eq_true, beq_iff_eq] at h
  rcases h with rfl | rfl <;> decide

/-! ## Decimal lengths -/

/-- Rejections of the decimal reader. -/
inductive IntError
  | empty
  | invalidByte
  | overflow
  deriving DecidableEq, Repr

/-- One digit of `Ascii::parse_prefix`: `value.checked_mul(10)?.checked_add(digit)` on a 64-bit
`usize`. -/
def pushDigit (value : ℕ) (byte : UInt8) : Option ℕ :=
  if value * 10 < 2 ^ 64 then
    if value * 10 + (byte.toNat - 0x30) < 2 ^ 64 then
      some (value * 10 + (byte.toNat - 0x30))
    else none
  else none

/-- The digit loop of `parse`, returning the value and the number of digits read. -/
def parseDigits (value : ℕ) (count : ℕ) : Bytes → Except IntError (ℕ × ℕ)
  | [] => .ok (value, count)
  | byte :: rest =>
    if 0x30 ≤ byte && byte ≤ 0x39 then
      match pushDigit value byte with
      | none => .error .overflow
      | some value => parseDigits value (count + 1) rest
    else .ok (value, count)

/-- `Ascii::parse_usize`: the whole slice is one decimal number that fits `usize`. -/
def parseUsize (bytes : Bytes) : Except IntError ℕ :=
  if bytes.isEmpty then .error .empty
  else
    match parseDigits 0 0 bytes with
    | .error error => .error error
    | .ok (value, count) =>
      if count = 0 then .error .invalidByte
      else if count ≠ bytes.length then .error .invalidByte
      else .ok value

/-- `field::Error::trim_ows`: strip optional whitespace from both ends. -/
def trimOws (value : Bytes) : Bytes :=
  (value.dropWhile isOws).rdropWhile isOws

/-! ## Cursor operations -/

namespace Value

/-- `field::value::Error`. -/
inductive Error
  | empty
  | invalidByte
  | overflow
  | invalidOrdering
  deriving DecidableEq, Repr

/-- `Parser::skip_ows`. -/
def skipOws (value : Bytes) : Bytes :=
  value.dropWhile isOws

/-- `Parser::take`: `some tail` is `Match::Taken`, `none` is `Match::Other`. -/
def take (byte : UInt8) : Bytes → Option Bytes
  | [] => none
  | first :: tail => if first = byte then some tail else none

/-- `Parser::token`: the longest prefix of name bytes, which must not be empty. -/
def token (value : Bytes) : Except Error (Bytes × Bytes) :=
  let name := value.takeWhile isNameByte
  if name.isEmpty then
    .error (if value.isEmpty then .empty else .invalidByte)
  else .ok (name, value.dropWhile isNameByte)

/-- The byte loop of `Parser::item` after the opening quote, returning what follows the closing
quote. -/
def quoted : Bytes → Except Error Bytes
  | [] => .error .invalidByte
  | byte :: rest =>
    if byte = 0x22 then .ok rest
    else if byte = 0x5c then
      match rest with
      | [] => .error .invalidByte
      | escaped :: rest => if isQuotedPair escaped then quoted rest else .error .invalidByte
    else if isQuotedText byte then quoted rest
    else .error .invalidByte

/-- `Parser::item`: a quoted string or a token. -/
def item : Bytes → Except Error Bytes
  | [] => (token []).map Prod.snd
  | byte :: tail => if byte = 0x22 then quoted tail else (token (byte :: tail)).map Prod.snd

/-! ## Lexemes

The same syntax read declaratively: which byte strings are one lexeme. -/

/-- A run of optional whitespace. -/
def Ows (bytes : Bytes) : Prop :=
  ∀ byte ∈ bytes, isOws byte = true

/-- A nonempty run of name bytes. -/
def Token (bytes : Bytes) : Prop :=
  bytes ≠ [] ∧ ∀ byte ∈ bytes, isNameByte byte = true

/-- The inside of a quoted string together with its closing quote. -/
inductive QuotedTail : Bytes → Prop
  | close : QuotedTail [0x22]
  | text {byte : UInt8} {rest : Bytes} :
      isQuotedText byte = true → QuotedTail rest → QuotedTail (byte :: rest)
  | pair {escaped : UInt8} {rest : Bytes} :
      isQuotedPair escaped = true → QuotedTail rest → QuotedTail (0x5c :: escaped :: rest)

/-- A parameter value: a token or a quoted string. -/
inductive Item : Bytes → Prop
  | token {bytes : Bytes} : Token bytes → Item bytes
  | quoted {rest : Bytes} : QuotedTail rest → Item (0x22 :: rest)

/-- The input `rest` does not begin with a byte of the class `p`. -/
def Stops (p : UInt8 → Bool) (rest : Bytes) : Prop :=
  ∀ byte ∈ rest.head?, p byte = false

@[simp]
theorem stops_nil (p : UInt8 → Bool) : Stops p [] := by
  simp [Stops]

@[simp]
theorem stops_cons (p : UInt8 → Bool) (byte : UInt8) (rest : Bytes) :
    Stops p (byte :: rest) ↔ p byte = false := by
  simp [Stops]

theorem Stops.append_left {p : UInt8 → Bool} {left : Bytes} (rest : Bytes) (hne : left ≠ [])
    (h : Stops p left) : Stops p (left ++ rest) := by
  cases left with
  | nil => exact absurd rfl hne
  | cons byte tail => simpa using h

theorem Token.stops_isOws {bytes : Bytes} (h : Token bytes) : Stops isOws bytes := by
  cases bytes with
  | nil => simp
  | cons byte tail =>
    rw [stops_cons]
    have hname := h.2 byte List.mem_cons_self
    by_contra hows
    rw [Bool.not_eq_false] at hows
    simp [isNameByte_of_isOws hows] at hname

theorem Item.ne_nil {bytes : Bytes} (h : Item bytes) : bytes ≠ [] := by
  cases h with
  | token h => exact h.1
  | quoted h => simp

theorem Item.stops_isOws {bytes : Bytes} (h : Item bytes) : Stops isOws bytes := by
  cases h with
  | token h => exact h.stops_isOws
  | quoted h => rw [stops_cons]; decide

/-- Whitespace ahead of a byte that is neither whitespace nor in `p` still ends `p`. -/
theorem Ows.stops_append {p : UInt8 → Bool} {ows rest : Bytes} (h : Ows ows)
    (hp : ∀ byte, isOws byte = true → p byte = false) (hrest : Stops p rest) :
    Stops p (ows ++ rest) := by
  cases ows with
  | nil => simpa using hrest
  | cons byte tail => simpa using hp byte (h byte List.mem_cons_self)

/-! ## Split and run lemmas -/

theorem skipOws_split (value : Bytes) :
    ∃ ows, Ows ows ∧ value = ows ++ skipOws value := by
  refine ⟨value.takeWhile isOws, ?_, ?_⟩
  · intro byte hbyte
    exact List.mem_takeWhile_imp hbyte
  · exact (List.takeWhile_append_dropWhile).symm

theorem skipOws_append {ows rest : Bytes} (hows : Ows ows) (hrest : Stops isOws rest) :
    skipOws (ows ++ rest) = rest := by
  unfold skipOws
  rw [List.dropWhile_append_of_pos hows]
  cases rest with
  | nil => rfl
  | cons byte tail =>
    rw [stops_cons] at hrest
    rw [List.dropWhile_cons_of_neg (by simp [hrest])]

theorem skipOws_length_le (value : Bytes) : (skipOws value).length ≤ value.length :=
  List.length_dropWhile_le _ _

theorem take_eq_some {byte : UInt8} {value tail : Bytes} (h : take byte value = some tail) :
    value = byte :: tail := by
  cases value with
  | nil => simp [take] at h
  | cons first rest =>
    simp only [take] at h
    split at h
    · rename_i heq
      simp_all
    · simp at h

@[simp]
theorem take_cons_self (byte : UInt8) (tail : Bytes) : take byte (byte :: tail) = some tail := by
  simp [take]

theorem token_split {value name rest : Bytes} (h : token value = .ok (name, rest)) :
    Token name ∧ value = name ++ rest := by
  simp only [token] at h
  split at h
  · simp at h
  · rename_i hne
    simp only [Except.ok.injEq, Prod.mk.injEq] at h
    obtain ⟨rfl, rfl⟩ := h
    refine ⟨⟨by simpa using hne, ?_⟩, (List.takeWhile_append_dropWhile).symm⟩
    intro byte hbyte
    exact List.mem_takeWhile_imp hbyte

theorem token_append {name rest : Bytes} (hname : Token name) (hrest : Stops isNameByte rest) :
    token (name ++ rest) = .ok (name, rest) := by
  have htake : (name ++ rest).takeWhile isNameByte = name := by
    rw [List.takeWhile_append_of_pos hname.2]
    cases rest with
    | nil => simp
    | cons byte tail =>
      rw [stops_cons] at hrest
      simp [hrest]
  have hdrop : (name ++ rest).dropWhile isNameByte = rest := by
    rw [List.dropWhile_append_of_pos hname.2]
    cases rest with
    | nil => rfl
    | cons byte tail =>
      rw [stops_cons] at hrest
      rw [List.dropWhile_cons_of_neg (by simp [hrest])]
  simp [token, htake, hdrop, hname.1]

theorem quoted_split {value rest : Bytes} (h : quoted value = .ok rest) :
    ∃ tail, QuotedTail tail ∧ value = tail ++ rest := by
  fun_induction quoted value with
  | case1 => simp at h
  | case2 => exact ⟨[0x22], .close, by simp_all⟩
  | case3 => simp at h
  | case4 escaped value hpair _ ih =>
    obtain ⟨tail, htail, rfl⟩ := ih h
    exact ⟨0x5c :: escaped :: tail, .pair hpair htail, rfl⟩
  | case5 => simp at h
  | case6 byte value hquote hslash htext ih =>
    obtain ⟨tail, htail, rfl⟩ := ih h
    exact ⟨byte :: tail, .text htext htail, rfl⟩
  | case7 => simp at h

theorem quoted_append {tail : Bytes} (h : QuotedTail tail) (rest : Bytes) :
    quoted (tail ++ rest) = .ok rest := by
  induction h with
  | close => rw [List.singleton_append, quoted.eq_def]; simp
  | @text byte tail htext _ ih =>
    have hquote : byte ≠ 0x22 := by rintro rfl; simp [isQuotedText] at htext
    have hslash : byte ≠ 0x5c := by rintro rfl; simp [isQuotedText] at htext
    rw [List.cons_append, quoted.eq_def]
    simp [hquote, hslash, htext, ih]
  | pair hpair _ ih => simp [quoted, hpair, ih]

theorem item_split {value rest : Bytes} (h : item value = .ok rest) :
    ∃ bytes, Item bytes ∧ value = bytes ++ rest := by
  have of_token : ∀ {value rest : Bytes}, (token value).map Prod.snd = .ok rest →
      ∃ bytes, Item bytes ∧ value = bytes ++ rest := by
    intro value rest h
    cases htoken : token value with
    | error error => simp [htoken, Except.map] at h
    | ok result =>
      obtain ⟨name, tail⟩ := result
      simp only [htoken, Except.map, Except.ok.injEq] at h
      obtain ⟨hname, hvalue⟩ := token_split htoken
      exact ⟨name, .token hname, by rw [hvalue, h]⟩
  cases value with
  | nil => exact of_token h
  | cons byte tail =>
    simp only [item] at h
    split at h
    · rename_i hquote
      obtain ⟨bytes, hbytes, rfl⟩ := quoted_split h
      exact ⟨byte :: bytes, by rw [hquote]; exact .quoted hbytes, rfl⟩
    · exact of_token h

theorem item_append {bytes rest : Bytes} (h : Item bytes) (hrest : Stops isNameByte rest) :
    item (bytes ++ rest) = .ok rest := by
  cases h with
  | token h =>
    have htoken := token_append h hrest
    cases bytes with
    | nil => exact absurd rfl h.1
    | cons byte tail =>
      have hbyte : byte ≠ 0x22 := by
        rintro rfl
        exact absurd (h.2 _ List.mem_cons_self) (by decide)
      rw [List.cons_append] at htoken ⊢
      simp [item, hbyte, htoken, Except.map]
  | quoted h => simp [item, quoted_append h]

end Value

end Http

end Sark
