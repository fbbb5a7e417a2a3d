import Sark.Http.H1.Value

/-!
# Size lines of chunks

The line in front of the data of a chunk (`http/src/h1/chunk/size/`): the size in hexadecimal
digits and the chunk extensions. `Size` reads it byte by byte; it counts the bytes of the line and
refuses the one that makes it longer than its limit.

The abstract side is the grammar of RFC 9112: `SizeLine line size` reads a line, without its CRLF,
as a size and a list of well-formed extensions.

* `Size.parseAll_iff`: the lines that the stages of `Size` read to an end are the lines of the
  grammar.
-/

namespace Sark.Http.Chunk

/-! ## Errors and limits -/

/-- `chunk::Axis`. -/
inductive Axis
  | body
  | wire
  | line
  | trailer
  | fields
  | name
  | size
  deriving DecidableEq, Repr

/-- `chunk::Syntax`: where a byte was not expected. -/
inductive Place
  | size
  | sizeTail
  | nameStart
  | name
  | nameTail
  | valueStart
  | token
  | valueEnd
  | valueTail
  | quoted
  | escape
  | sizeLf
  | dataCr
  | dataLf
  | trailerStart
  | trailerName
  | trailerValue
  | trailerLf
  | trailerEnd
  deriving DecidableEq, Repr

/-- `ban::Field`: the fields that a trailer section may not have. -/
inductive BannedField
  | contentLength
  | transferEncoding
  | host
  | trailer
  | connection
  | keepAlive
  | te
  | upgrade
  | proxyAuthenticate
  | proxyAuthorization
  deriving DecidableEq, Repr

/-- `chunk::Error`. -/
inductive Error
  | unexpected (offset : ℕ) (place : Place) (actual : UInt8)
  | forbidden (offset : ℕ) (field : BannedField)
  | limit (axis : Axis) (actual maximum : ℕ)
  | overflow (axis : Axis) (value added : ℕ)
  deriving DecidableEq, Repr

/-- `chunk::Limit`, of `usize` values. -/
structure Limit where
  bodyBytes : ℕ
  wireBytes : ℕ
  lineBytes : ℕ
  trailerBytes : ℕ
  trailerFields : ℕ
  deriving DecidableEq, Repr

/-! ## Reading a size line -/

/-- `text::hex`. -/
def hex (byte : UInt8) : Option ℕ :=
  if 0x30 ≤ byte ∧ byte ≤ 0x39 then some (byte - 0x30).toNat
  else if 0x61 ≤ byte ∧ byte ≤ 0x66 then some ((byte - 0x61).toNat + 10)
  else if 0x41 ≤ byte ∧ byte ≤ 0x46 then some ((byte - 0x41).toNat + 10)
  else none

/-- `size::Syntax`. -/
inductive Stage
  | start
  | digits
  | afterDigits
  | extensionNameStart
  | extensionName
  | afterExtensionName
  | extensionValueStart
  | extensionToken
  | extensionValueComplete
  | afterExtensionValue
  | extensionQuoted
  | extensionQuotedEscape
  deriving DecidableEq, Repr

/-- `Syntax::can_end`. -/
def Stage.canEnd : Stage → Bool
  | .digits | .extensionName | .extensionToken | .extensionValueComplete => true
  | _ => false

/-- `Syntax::error`. -/
def Stage.error : Stage → Place
  | .start | .digits => .size
  | .afterDigits => .sizeTail
  | .extensionNameStart => .nameStart
  | .extensionName => .name
  | .afterExtensionName => .nameTail
  | .extensionValueStart => .valueStart
  | .extensionToken => .token
  | .extensionValueComplete => .valueEnd
  | .afterExtensionValue => .valueTail
  | .extensionQuoted => .quoted
  | .extensionQuotedEscape => .escape

/-- `Line::try_add`, on the `u32` count of the bytes of a line. -/
def lineTryAdd (line maximum : ℕ) : Except Error ℕ :=
  if 2 ^ 32 ≤ line + 1 then .error (.overflow .line line 1)
  else if maximum < line + 1 then .error (.limit .line (line + 1) maximum)
  else .ok (line + 1)

/-- `Size`. -/
structure Size where
  value : ℕ
  line : ℕ
  stage : Stage
  deriving DecidableEq, Repr

namespace Size

/-- `Size::new`. -/
def new : Size :=
  ⟨0, 0, .start⟩

/-- `Size::digit`. -/
def digit (self : Size) (byte : UInt8) (offset : ℕ) : Except Error Size :=
  match hex byte with
  | some digit =>
    -- `checked_mul`, then the digit fills the four bits that are free.
    if 2 ^ 64 ≤ self.value * 16 then .error (.overflow .size self.value digit)
    else .ok { self with value := self.value * 16 ||| digit, stage := .digits }
  | none =>
    if isOws byte ∧ self.stage = .digits then .ok { self with stage := .afterDigits }
    else if byte = 0x3b ∧ self.stage = .digits then .ok { self with stage := .extensionNameStart }
    else .error (.unexpected offset .size byte)

/-- `Size::tail`. -/
def tail (self : Size) (byte : UInt8) (offset : ℕ) (place : Place) : Except Error Size :=
  if isOws byte then .ok self
  else if byte = 0x3b then .ok { self with stage := .extensionNameStart }
  else .error (.unexpected offset place byte)

/-- `Size::name_start`. -/
def nameStart (self : Size) (byte : UInt8) (offset : ℕ) : Except Error Size :=
  if isOws byte then .ok self
  else if isNameByte byte then .ok { self with stage := .extensionName }
  else .error (.unexpected offset .nameStart byte)

/-- `Size::name_tail`. -/
def nameTail (self : Size) (byte : UInt8) (offset : ℕ) : Except Error Size :=
  if isOws byte then .ok { self with stage := .afterExtensionName }
  else if byte = 0x3d then .ok { self with stage := .extensionValueStart }
  else if byte = 0x3b then .ok { self with stage := .extensionNameStart }
  else .error (.unexpected offset self.stage.error byte)

/-- `Size::value_start`. -/
def valueStart (self : Size) (byte : UInt8) (offset : ℕ) : Except Error Size :=
  if isOws byte then .ok self
  else if isNameByte byte then .ok { self with stage := .extensionToken }
  else if byte = 0x22 then .ok { self with stage := .extensionQuoted }
  else .error (.unexpected offset .valueStart byte)

/-- `Size::value_end`. -/
def valueEnd (self : Size) (byte : UInt8) (offset : ℕ) : Except Error Size :=
  if isOws byte then .ok { self with stage := .afterExtensionValue }
  else if byte = 0x3b then .ok { self with stage := .extensionNameStart }
  else .error (.unexpected offset self.stage.error byte)

/-- `Size::quoted`. -/
def quoted (self : Size) (byte : UInt8) (offset : ℕ) : Except Error Size :=
  if byte = 0x22 then .ok { self with stage := .extensionValueComplete }
  else if byte = 0x5c then .ok { self with stage := .extensionQuotedEscape }
  else if isQuotedText byte then .ok self
  else .error (.unexpected offset .quoted byte)

/-- `Size::escape`. -/
def escape (self : Size) (byte : UInt8) (offset : ℕ) : Except Error Size :=
  if isQuotedPair byte then .ok { self with stage := .extensionQuoted }
  else .error (.unexpected offset .escape byte)

/-- `Size::parse`. -/
def parse (self : Size) (byte : UInt8) (offset : ℕ) : Except Error Size :=
  match self.stage with
  | .start | .digits => self.digit byte offset
  | .afterDigits => self.tail byte offset .sizeTail
  | .extensionNameStart => self.nameStart byte offset
  | .extensionName => if isNameByte byte then .ok self else self.nameTail byte offset
  | .extensionToken => if isNameByte byte then .ok self else self.valueEnd byte offset
  | .afterExtensionName => self.nameTail byte offset
  | .extensionValueStart => self.valueStart byte offset
  | .extensionValueComplete => self.valueEnd byte offset
  | .afterExtensionValue => self.tail byte offset .valueTail
  | .extensionQuoted => self.quoted byte offset
  | .extensionQuotedEscape => self.escape byte offset

/-- `size::Progress`. -/
inductive Progress
  | pending
  | complete
  deriving DecidableEq, Repr

/-- `Size::scan`. -/
def scan (self : Size) (byte : UInt8) (offset limit : ℕ) : Except Error (Size × Progress) := do
  let line ← lineTryAdd self.line limit
  if byte = 0x0d then
    if self.stage.canEnd then .ok ({ self with line }, .complete)
    else .error (.unexpected offset self.stage.error byte)
  else do
    let next ← ({ self with line } : Size).parse byte offset
    .ok (next, .pending)

/-- `Size::finish`. -/
def finish (self : Size) (byte : UInt8) (offset limit : ℕ) : Except Error Size := do
  let line ← lineTryAdd self.line limit
  if byte = 0x0a then .ok { self with line }
  else .error (.unexpected offset .sizeLf byte)

end Size

/-! ## The grammar of a size line -/

/-- The number that hexadecimal digits make behind a number. -/
def hexValue (value : ℕ) (digits : Bytes) : ℕ :=
  digits.foldl (fun value byte => value * 16 + (hex byte).getD 0) value

/-- One extension, from behind its `;`. -/
inductive Extension : Bytes → Prop
  | name {w name : Bytes} : Value.Ows w → Value.Token name → Extension (w ++ name)
  | value {w₁ name w₂ w₃ value : Bytes} : Value.Ows w₁ → Value.Token name → Value.Ows w₂ →
      Value.Ows w₃ → Value.Item value →
      Extension (w₁ ++ (name ++ (w₂ ++ 0x3d :: (w₃ ++ value))))

/-- The extensions of one chunk. -/
inductive Extensions : Bytes → Prop
  | nil : Extensions []
  | cons {w extension rest : Bytes} : Value.Ows w → Extension extension → Extensions rest →
      Extensions (w ++ 0x3b :: (extension ++ rest))

/-- A size line without its CRLF: hexadecimal digits that fit `usize`, and extensions. -/
def SizeLine (line : Bytes) (size : ℕ) : Prop :=
  ∃ digits extensions, line = digits ++ extensions ∧ digits ≠ [] ∧
    (∀ byte ∈ digits, (hex byte).isSome = true) ∧ hexValue 0 digits = size ∧ size < 2 ^ 64 ∧
    Extensions extensions

/-! ## The stages read the grammar -/

theorem hex_lt {byte : UInt8} {digit : ℕ} (h : hex byte = some digit) : digit < 16 := by
  unfold hex at h
  split_ifs at h with h₁ h₂ h₃ <;> obtain rfl := Option.some.inj h
  all_goals
    simp only [UInt8.le_iff_toNat_le, UInt8.toNat_sub] at *
    simp at *
    omega

theorem shift_or {value digit : ℕ} (h : digit < 16) : value * 16 ||| digit = value * 16 + digit := by
  have hshift : value * 16 = value <<< 4 := by rw [Nat.shiftLeft_eq]
  rw [hshift, Nat.shiftLeft_add_eq_or_of_lt (by simpa using h)]

theorem le_hexValue (digits : Bytes) (value : ℕ) : value ≤ hexValue value digits := by
  induction digits generalizing value with
  | nil => exact le_rfl
  | cons byte digits ih =>
    have hnext := ih (value * 16 + (hex byte).getD 0)
    simp only [hexValue, List.foldl_cons] at hnext ⊢
    omega

theorem Stage.canEnd_cases {stage : Stage} (h : stage.canEnd = true) :
    stage = .digits ∨ stage = .extensionName ∨ stage = .extensionToken ∨
      stage = .extensionValueComplete := by
  cases stage <;> simp [canEnd] at h ⊢

namespace Size

/-- A list of bytes, none of which ends the line. -/
def parseAll (self : Size) : Bytes → Option Size
  | [] => some self
  | byte :: bytes =>
    match self.parse byte 0 with
    | .error _ => none
    | .ok next => next.parseAll bytes

theorem parseAll_append (self : Size) (bytes more : Bytes) :
    self.parseAll (bytes ++ more) = (self.parseAll bytes).bind fun next => next.parseAll more := by
  induction bytes generalizing self with
  | nil => rfl
  | cons byte bytes ih =>
    simp only [List.cons_append, parseAll]
    cases self.parse byte 0 with
    | error error => rfl
    | ok next => exact ih next

theorem parseAll_loop {self : Size} {bytes : Bytes}
    (h : ∀ byte ∈ bytes, self.parse byte 0 = .ok self) : self.parseAll bytes = some self := by
  induction bytes with
  | nil => rfl
  | cons byte bytes ih =>
    simp only [parseAll, h byte List.mem_cons_self]
    exact ih fun other hother => h other (List.mem_cons_of_mem _ hother)

theorem parseAll_cons {self next : Size} {byte : UInt8} (h : self.parse byte 0 = .ok next)
    (bytes : Bytes) : self.parseAll (byte :: bytes) = next.parseAll bytes := by
  simp only [parseAll, h]

theorem not_isOws {byte : UInt8} (h : isNameByte byte = true) : isOws byte = false := by
  by_contra hows
  rw [Bool.not_eq_false] at hows
  rw [isNameByte_of_isOws hows] at h
  cases h

variable {self : Size}

theorem parseAll_ows {w : Bytes} (hw : Value.Ows w)
    (hstage : self.stage = .afterDigits ∨ self.stage = .extensionNameStart ∨
      self.stage = .afterExtensionName ∨ self.stage = .extensionValueStart ∨
      self.stage = .afterExtensionValue) : self.parseAll w = some self := by
  refine parseAll_loop fun byte hbyte => ?_
  have hows := hw byte hbyte
  obtain ⟨value, line, stage⟩ := self
  rcases hstage with rfl | rfl | rfl | rfl | rfl <;>
    simp [parse, tail, nameStart, nameTail, valueStart, hows]

/-- A stage that can end goes on behind whitespace and a semicolon. -/
theorem parseAll_semicolon {w : Bytes} (hw : Value.Ows w) (hstage : self.stage.canEnd = true) :
    self.parseAll (w ++ [0x3b]) = some { self with stage := .extensionNameStart } := by
  have hname : isNameByte 0x3b = false := by decide
  have hsemi : isOws 0x3b = false := by decide
  have hhex : hex 0x3b = none := by decide
  obtain ⟨value, line, stage⟩ := self
  cases w with
  | nil =>
    rcases Stage.canEnd_cases hstage with rfl | rfl | rfl | rfl
    all_goals simp [parseAll, parse, digit, nameTail, valueEnd, hname, hsemi, hhex]
  | cons byte w =>
    have hows := hw byte List.mem_cons_self
    have hrest : Value.Ows w := fun other hother => hw other (List.mem_cons_of_mem _ hother)
    have hnot := isNameByte_of_isOws hows
    -- The first byte of the whitespace leaves what could have ended.
    have hfirst : ∃ after : Stage, parse ⟨value, line, stage⟩ byte 0 = .ok ⟨value, line, after⟩ ∧
        (after = .afterDigits ∨ after = .extensionNameStart ∨ after = .afterExtensionName ∨
          after = .extensionValueStart ∨ after = .afterExtensionValue) ∧
        parseAll ⟨value, line, after⟩ [0x3b] = some ⟨value, line, .extensionNameStart⟩ := by
      have hdigit : hex byte = none := by
        simp only [isOws, Bool.or_eq_true, beq_iff_eq] at hows
        rcases hows with rfl | rfl <;> decide
      rcases Stage.canEnd_cases hstage with rfl | rfl | rfl | rfl
      · exact ⟨.afterDigits, by simp [parse, digit, hdigit, hows], by simp,
          by simp [parseAll, parse, tail, hsemi]⟩
      · exact ⟨.afterExtensionName, by simp [parse, nameTail, hnot, hows], by simp,
          by simp [parseAll, parse, nameTail, hsemi]⟩
      · exact ⟨.afterExtensionValue, by simp [parse, valueEnd, hnot, hows], by simp,
          by simp [parseAll, parse, tail, hsemi]⟩
      · exact ⟨.afterExtensionValue, by simp [parse, valueEnd, hows], by simp,
          by simp [parseAll, parse, tail, hsemi]⟩
    obtain ⟨after, hparse, hafter, hend⟩ := hfirst
    rw [List.cons_append, parseAll_cons hparse, parseAll_append, parseAll_ows hrest hafter]
    exact hend

theorem parseAll_token {token : Bytes} (htoken : Value.Token token) :
    (self.stage = .extensionNameStart →
      self.parseAll token = some { self with stage := .extensionName }) ∧
    (self.stage = .extensionValueStart →
      self.parseAll token = some { self with stage := .extensionToken }) := by
  obtain ⟨hne, hname⟩ := htoken
  obtain ⟨value, line, stage⟩ := self
  cases token with
  | nil => exact absurd rfl hne
  | cons byte rest =>
    have hfirst := hname byte List.mem_cons_self
    have hows := not_isOws hfirst
    have hrest : ∀ other ∈ rest, isNameByte other = true :=
      fun other hother => hname other (List.mem_cons_of_mem _ hother)
    constructor
    · rintro rfl
      have hstart : parse ⟨value, line, .extensionNameStart⟩ byte 0 =
          .ok ⟨value, line, .extensionName⟩ := by simp [parse, nameStart, hows, hfirst]
      rw [parseAll_cons hstart]
      exact parseAll_loop fun other hother => by simp [parse, hrest other hother]
    · rintro rfl
      have hstart : parse ⟨value, line, .extensionValueStart⟩ byte 0 =
          .ok ⟨value, line, .extensionToken⟩ := by simp [parse, valueStart, hows, hfirst]
      rw [parseAll_cons hstart]
      exact parseAll_loop fun other hother => by simp [parse, hrest other hother]

theorem parseAll_quotedTail {bytes : Bytes} (h : Value.QuotedTail bytes)
    (hstage : self.stage = .extensionQuoted) :
    self.parseAll bytes = some { self with stage := .extensionValueComplete } := by
  obtain ⟨value, line, stage⟩ := self
  subst hstage
  induction h with
  | close => simp [parseAll, parse, quoted]
  | @text byte rest htext _ ih =>
    have hquote : byte ≠ 0x22 := by rintro rfl; simp [isQuotedText] at htext
    have hslash : byte ≠ 0x5c := by rintro rfl; simp [isQuotedText] at htext
    have hparse : parse ⟨value, line, .extensionQuoted⟩ byte 0 =
        .ok ⟨value, line, .extensionQuoted⟩ := by simp [parse, quoted, hquote, hslash, htext]
    rw [parseAll_cons hparse]
    exact ih
  | @pair escaped rest hpair _ ih =>
    have hslash : parse ⟨value, line, .extensionQuoted⟩ 0x5c 0 =
        .ok ⟨value, line, .extensionQuotedEscape⟩ := by simp [parse, quoted]
    have hescaped : parse ⟨value, line, .extensionQuotedEscape⟩ escaped 0 =
        .ok ⟨value, line, .extensionQuoted⟩ := by simp [parse, escape, hpair]
    rw [parseAll_cons hslash, parseAll_cons hescaped]
    exact ih

theorem parseAll_item (self : Size) {w item : Bytes} (hw : Value.Ows w) (hitem : Value.Item item)
    (hstage : self.stage = .extensionValueStart) :
    ∃ stage : Stage, self.parseAll (w ++ item) = some { self with stage } ∧
      stage.canEnd = true := by
  have hows := parseAll_ows hw (.inr (.inr (.inr (.inl hstage))))
  cases hitem with
  | token htoken =>
    refine ⟨.extensionToken, ?_, rfl⟩
    rw [parseAll_append, hows]
    exact (parseAll_token htoken).2 hstage
  | @quoted rest hrest =>
    have hquote : self.parse 0x22 0 = .ok { self with stage := .extensionQuoted } := by
      have hnot : isOws 0x22 = false := by decide
      have hname : isNameByte 0x22 = false := by decide
      simp [parse, hstage, valueStart, hnot, hname]
    refine ⟨.extensionValueComplete, ?_, rfl⟩
    rw [parseAll_append, hows, Option.bind_some, parseAll_cons hquote]
    exact parseAll_quotedTail hrest rfl

theorem parseAll_extension (self : Size) {bytes : Bytes} (h : Extension bytes)
    (hstage : self.stage = .extensionNameStart) :
    ∃ stage : Stage, self.parseAll bytes = some { self with stage } ∧ stage.canEnd = true := by
  cases h with
  | name hw hname =>
    refine ⟨.extensionName, ?_, rfl⟩
    rw [parseAll_append, parseAll_ows hw (.inr (.inl hstage))]
    exact (parseAll_token hname).1 hstage
  | @value w₁ name w₂ w₃ value hw₁ hname hw₂ hw₃ hvalue =>
    have hequals : ∀ before : Size,
        before.stage = .extensionName ∨ before.stage = .afterExtensionName →
        before.parse 0x3d 0 = .ok { before with stage := .extensionValueStart } := by
      have hnot : isOws 0x3d = false := by decide
      have hname : isNameByte 0x3d = false := by decide
      rintro ⟨value, line, stage⟩ (rfl | rfl) <;> simp [parse, nameTail, hnot, hname]
    -- Whitespace behind the name leaves the name.
    have hbehind : ∃ before : Size, parseAll { self with stage := .extensionName } w₂ =
        some before ∧ (before.stage = .extensionName ∨ before.stage = .afterExtensionName) ∧
        before.value = self.value ∧ before.line = self.line := by
      cases w₂ with
      | nil => exact ⟨_, rfl, .inl rfl, rfl, rfl⟩
      | cons byte w =>
        have hows := hw₂ byte List.mem_cons_self
        have hnot := isNameByte_of_isOws hows
        refine ⟨{ self with stage := .afterExtensionName }, ?_, .inr rfl, rfl, rfl⟩
        have hleave : parse { self with stage := .extensionName } byte 0 =
            .ok { self with stage := .afterExtensionName } := by
          simp [parse, nameTail, hnot, hows]
        rw [parseAll_cons hleave]
        exact parseAll_ows (fun other hother => hw₂ other (List.mem_cons_of_mem _ hother))
          (.inr (.inr (.inl rfl)))
    obtain ⟨before, hbefore, hstages, hvalueEq, hlineEq⟩ := hbehind
    obtain ⟨stage, hitem, hend⟩ := parseAll_item
      { before with stage := .extensionValueStart } hw₃ hvalue rfl
    refine ⟨stage, ?_, hend⟩
    rw [parseAll_append, parseAll_ows hw₁ (.inr (.inl hstage)), Option.bind_some,
      parseAll_append, (parseAll_token hname).1 hstage, Option.bind_some, parseAll_append, hbefore,
      Option.bind_some, parseAll_cons (hequals before hstages), hitem]
    simp [hvalueEq, hlineEq]

theorem parseAll_extensions (self : Size) {bytes : Bytes} (h : Extensions bytes)
    (hstage : self.stage.canEnd = true) :
    ∃ stage : Stage, self.parseAll bytes = some { self with stage } ∧ stage.canEnd = true := by
  induction h generalizing self with
  | nil => exact ⟨self.stage, rfl, hstage⟩
  | @cons w extension rest hw hextension _ ih =>
    obtain ⟨stage, hfirst, hcan⟩ := parseAll_extension
      { self with stage := .extensionNameStart } hextension rfl
    obtain ⟨last, hrest, hend⟩ := ih { self with stage } hcan
    refine ⟨last, ?_, hend⟩
    rw [List.append_cons, parseAll_append, parseAll_semicolon hw hstage, Option.bind_some,
      parseAll_append, hfirst, Option.bind_some, hrest]

/-- Digits that fit `usize` are read from the start of a line, and behind other digits. -/
theorem parseAll_digits (self : Size) {digits : Bytes} (hne : digits ≠ [])
    (hhex : ∀ byte ∈ digits, (hex byte).isSome = true)
    (hfits : hexValue self.value digits < 2 ^ 64)
    (hstage : self.stage = .start ∨ self.stage = .digits) :
    self.parseAll digits = some { self with
      value := hexValue self.value digits, stage := .digits } := by
  induction digits generalizing self with
  | nil => exact absurd rfl hne
  | cons byte digits ih =>
    obtain ⟨digit, hdigit⟩ := Option.isSome_iff_exists.mp (hhex byte List.mem_cons_self)
    have hvalue : hexValue self.value (byte :: digits) =
        hexValue (self.value * 16 + digit) digits := by
      simp only [hexValue, List.foldl_cons, hdigit, Option.getD_some]
    rw [hvalue] at hfits ⊢
    have hle := le_hexValue digits (self.value * 16 + digit)
    have hroom : ¬ 2 ^ 64 ≤ self.value * 16 := by omega
    have hparse : self.parse byte 0 =
        .ok { self with value := self.value * 16 + digit, stage := .digits } := by
      rcases hstage with hstage | hstage <;>
        simp only [parse, hstage, Size.digit, hdigit, if_neg hroom, shift_or (hex_lt hdigit)]
    rw [parseAll_cons hparse]
    cases digits with
    | nil => rfl
    | cons other digits =>
      exact ih { self with value := self.value * 16 + digit, stage := .digits } (by simp)
        (fun other hother => hhex other (List.mem_cons_of_mem _ hother)) hfits (.inr rfl)

/-! ## What the stages read is in the grammar -/

/-- What may follow the `=` of an extension. -/
def ValueRest (bytes : Bytes) : Prop :=
  ∃ w item rest, Value.Ows w ∧ Value.Item item ∧ Extensions rest ∧ bytes = w ++ (item ++ rest)

/-- What may follow the name of an extension. -/
def NameRest (bytes : Bytes) : Prop :=
  Extensions bytes ∨ ∃ w rest, Value.Ows w ∧ ValueRest rest ∧ bytes = w ++ 0x3d :: rest

/-- What may follow each stage behind the digits. -/
def Rest : Stage → Bytes → Prop
  | .start, _ | .digits, _ => True
  | .afterDigits, bytes | .afterExtensionValue, bytes => Extensions bytes ∧ bytes ≠ []
  | .extensionNameStart, bytes =>
    ∃ extension rest, Extension extension ∧ Extensions rest ∧ bytes = extension ++ rest
  | .extensionName, bytes =>
    ∃ more rest, (∀ byte ∈ more, isNameByte byte = true) ∧ NameRest rest ∧ bytes = more ++ rest
  | .afterExtensionName, bytes => NameRest bytes ∧ bytes ≠ []
  | .extensionValueStart, bytes => ValueRest bytes
  | .extensionToken, bytes =>
    ∃ more rest, (∀ byte ∈ more, isNameByte byte = true) ∧ Extensions rest ∧ bytes = more ++ rest
  | .extensionValueComplete, bytes => Extensions bytes
  | .extensionQuoted, bytes =>
    ∃ tail rest, Value.QuotedTail tail ∧ Extensions rest ∧ bytes = tail ++ rest
  | .extensionQuotedEscape, bytes =>
    ∃ escaped tail rest, isQuotedPair escaped = true ∧ Value.QuotedTail tail ∧
      Extensions rest ∧ bytes = escaped :: (tail ++ rest)

theorem ows_cons {byte : UInt8} {w : Bytes} (hbyte : isOws byte = true) (hw : Value.Ows w) :
    Value.Ows (byte :: w) := by
  intro other hother
  rcases List.mem_cons.mp hother with rfl | hother
  · exact hbyte
  · exact hw other hother

theorem ows_nil : Value.Ows [] := by
  intro byte hbyte
  cases hbyte

theorem extensions_ows {byte : UInt8} {bytes : Bytes} (hbyte : isOws byte = true)
    (h : Extensions bytes) (hne : bytes ≠ []) : Extensions (byte :: bytes) := by
  cases h with
  | nil => exact absurd rfl hne
  | cons hw hextension hrest => exact .cons (ows_cons hbyte hw) hextension hrest

theorem extensions_semicolon {bytes : Bytes} (h : Rest .extensionNameStart bytes) :
    Extensions (0x3b :: bytes) := by
  obtain ⟨extension, rest, hextension, hrest, rfl⟩ := h
  exact .cons ows_nil hextension hrest

theorem nameRest_ows {byte : UInt8} {bytes : Bytes} (hbyte : isOws byte = true)
    (h : NameRest bytes) (hne : bytes ≠ []) : NameRest (byte :: bytes) := by
  rcases h with h | ⟨w, rest, hw, hrest, rfl⟩
  · exact .inl (extensions_ows hbyte h hne)
  · exact .inr ⟨byte :: w, rest, ows_cons hbyte hw, hrest, rfl⟩

theorem extension_of_name {name rest : Bytes} (hname : Value.Token name) (h : NameRest rest) :
    Rest .extensionNameStart (name ++ rest) := by
  rcases h with h | ⟨w₂, _, hw₂, ⟨w₃, value, rest, hw₃, hvalue, hrest, rfl⟩, rfl⟩
  · exact ⟨[] ++ name, rest, .name ows_nil hname, h, rfl⟩
  · refine ⟨_, rest, .value ows_nil hname hw₂ hw₃ hvalue, hrest, ?_⟩
    simp only [List.nil_append, List.append_assoc, List.cons_append]

theorem extension_ows {byte : UInt8} {bytes : Bytes} (hbyte : isOws byte = true)
    (h : Rest .extensionNameStart bytes) : Rest .extensionNameStart (byte :: bytes) := by
  obtain ⟨extension, rest, hextension, hrest, rfl⟩ := h
  cases hextension with
  | @name w name hw hname => exact ⟨byte :: w ++ name, rest, .name (ows_cons hbyte hw) hname, hrest, rfl⟩
  | @value w₁ name w₂ w₃ value hw₁ hname hw₂ hw₃ hvalue =>
    exact ⟨byte :: w₁ ++ _, rest, .value (ows_cons hbyte hw₁) hname hw₂ hw₃ hvalue, hrest, rfl⟩

theorem token_cons {byte : UInt8} {more : Bytes} (hbyte : isNameByte byte = true)
    (hmore : ∀ other ∈ more, isNameByte other = true) : Value.Token (byte :: more) := by
  refine ⟨by simp, fun other hother => ?_⟩
  rcases List.mem_cons.mp hother with rfl | hother
  · exact hbyte
  · exact hmore other hother

/-- The stages behind the digits. -/
def IsBehind (stage : Stage) : Prop :=
  stage ≠ .start ∧ stage ≠ .digits

theorem rest_tail {self next : Size} {byte : UInt8} {place : Place} {bytes : Bytes}
    (hself : Rest self.stage = fun bytes => Extensions bytes ∧ bytes ≠ [])
    (h : self.tail byte 0 place = .ok next) (hrest : Rest next.stage bytes) :
    Rest self.stage (byte :: bytes) := by
  unfold tail at h
  rw [hself]
  split_ifs at h with hows hsemi
  · cases h
    rw [hself] at hrest
    exact ⟨extensions_ows hows hrest.1 hrest.2, by simp⟩
  · cases h
    exact ⟨hsemi ▸ extensions_semicolon hrest, by simp⟩

theorem rest_nameTail {self next : Size} {byte : UInt8} {bytes : Bytes}
    (h : self.nameTail byte 0 = .ok next) (hrest : Rest next.stage bytes) :
    NameRest (byte :: bytes) := by
  unfold nameTail at h
  split_ifs at h with hows hequals hsemi
  · cases h
    exact nameRest_ows hows hrest.1 hrest.2
  · cases h
    exact .inr ⟨[], bytes, ows_nil, hrest, by rw [hequals]; rfl⟩
  · cases h
    exact .inl (hsemi ▸ extensions_semicolon hrest)

theorem rest_valueEnd {self next : Size} {byte : UInt8} {bytes : Bytes}
    (h : self.valueEnd byte 0 = .ok next) (hrest : Rest next.stage bytes) :
    Extensions (byte :: bytes) := by
  unfold valueEnd at h
  split_ifs at h with hows hsemi
  · cases h
    exact extensions_ows hows hrest.1 hrest.2
  · cases h
    exact hsemi ▸ extensions_semicolon hrest

theorem rest_valueStart {self next : Size} {byte : UInt8} {bytes : Bytes}
    (hself : self.stage = .extensionValueStart) (h : self.valueStart byte 0 = .ok next)
    (hrest : Rest next.stage bytes) : ValueRest (byte :: bytes) := by
  unfold valueStart at h
  split_ifs at h with hows hname hquote
  · cases h
    rw [hself] at hrest
    obtain ⟨w, item, rest, hw, hitem, hrest, rfl⟩ := hrest
    exact ⟨byte :: w, item, rest, ows_cons hows hw, hitem, hrest, rfl⟩
  · cases h
    obtain ⟨more, rest, hmore, hrest, rfl⟩ := hrest
    exact ⟨[], byte :: more, rest, ows_nil, .token (token_cons hname hmore), hrest, rfl⟩
  · cases h
    obtain ⟨quoted, rest, hquoted, hrest, rfl⟩ := hrest
    exact ⟨[], 0x22 :: quoted, rest, ows_nil, .quoted hquoted, hrest, by rw [hquote]; rfl⟩

theorem rest_nameStart {self next : Size} {byte : UInt8} {bytes : Bytes}
    (hself : self.stage = .extensionNameStart) (h : self.nameStart byte 0 = .ok next)
    (hrest : Rest next.stage bytes) : Rest .extensionNameStart (byte :: bytes) := by
  unfold nameStart at h
  split_ifs at h with hows hname
  · cases h
    exact extension_ows hows (hself ▸ hrest)
  · cases h
    obtain ⟨more, rest, hmore, hrest, rfl⟩ := hrest
    exact extension_of_name (token_cons hname hmore) hrest

theorem rest_quoted {self next : Size} {byte : UInt8} {bytes : Bytes}
    (hself : self.stage = .extensionQuoted) (h : self.quoted byte 0 = .ok next)
    (hrest : Rest next.stage bytes) : Rest .extensionQuoted (byte :: bytes) := by
  unfold quoted at h
  split_ifs at h with hquote hslash htext
  · cases h
    exact ⟨[0x22], bytes, .close, hrest, by rw [hquote]; rfl⟩
  · cases h
    obtain ⟨escaped, tail, rest, hpair, htail, hrest, rfl⟩ := hrest
    exact ⟨0x5c :: escaped :: tail, rest, .pair hpair htail, hrest, by rw [hslash]; rfl⟩
  · cases h
    rw [hself] at hrest
    obtain ⟨tail, rest, htail, hrest, rfl⟩ := hrest
    exact ⟨byte :: tail, rest, .text htext htail, hrest, rfl⟩

/-- What a stage reads goes in front of what may follow the next stage. -/
theorem rest_cons {self next : Size} {byte : UInt8} {bytes : Bytes}
    (hstage : IsBehind self.stage) (h : self.parse byte 0 = .ok next)
    (hrest : Rest next.stage bytes) : Rest self.stage (byte :: bytes) := by
  cases hself : self.stage with
  | start => exact absurd hself hstage.1
  | digits => exact absurd hself hstage.2
  | afterDigits =>
    simp only [parse, hself] at h
    rw [← hself]
    exact rest_tail (by rw [hself]; rfl) h hrest
  | afterExtensionValue =>
    simp only [parse, hself] at h
    rw [← hself]
    exact rest_tail (by rw [hself]; rfl) h hrest
  | extensionNameStart =>
    simp only [parse, hself] at h
    exact rest_nameStart hself h hrest
  | extensionName =>
    simp only [parse, hself] at h
    split_ifs at h with hname
    · cases h
      rw [hself] at hrest
      obtain ⟨more, rest, hmore, hrest, rfl⟩ := hrest
      exact ⟨byte :: more, rest, (token_cons hname hmore).2, hrest, rfl⟩
    · exact ⟨[], byte :: bytes, by simp, rest_nameTail h hrest, rfl⟩
  | afterExtensionName =>
    simp only [parse, hself] at h
    exact ⟨rest_nameTail h hrest, by simp⟩
  | extensionValueStart =>
    simp only [parse, hself] at h
    exact rest_valueStart hself h hrest
  | extensionToken =>
    simp only [parse, hself] at h
    split_ifs at h with hname
    · cases h
      rw [hself] at hrest
      obtain ⟨more, rest, hmore, hrest, rfl⟩ := hrest
      exact ⟨byte :: more, rest, (token_cons hname hmore).2, hrest, rfl⟩
    · exact ⟨[], byte :: bytes, by simp, rest_valueEnd h hrest, rfl⟩
  | extensionValueComplete =>
    simp only [parse, hself] at h
    exact rest_valueEnd h hrest
  | extensionQuoted =>
    simp only [parse, hself] at h
    exact rest_quoted hself h hrest
  | extensionQuotedEscape =>
    simp only [parse, hself, escape] at h
    split_ifs at h with hpair
    cases h
    obtain ⟨tail, rest, htail, hrest, rfl⟩ := hrest
    exact ⟨byte, tail, rest, hpair, htail, hrest, rfl⟩

/-- Behind the digits neither the size nor the line count changes, and no digit follows. -/
theorem behind_of_parse {self next : Size} {byte : UInt8} (hstage : IsBehind self.stage)
    (h : self.parse byte 0 = .ok next) :
    IsBehind next.stage ∧ next.value = self.value := by
  obtain ⟨value, line, stage⟩ := self
  cases stage with
  | start => exact absurd rfl hstage.1
  | digits => exact absurd rfl hstage.2
  | _ =>
    simp only [parse, tail, nameStart, nameTail, valueStart, valueEnd, quoted, escape] at h
    split_ifs at h <;> cases h <;> simp [IsBehind]

theorem rest_of_canEnd {stage : Stage} (h : stage.canEnd = true) : Rest stage [] := by
  rcases Stage.canEnd_cases h with rfl | rfl | rfl | rfl
  · trivial
  · exact ⟨[], [], by simp, .inl .nil, rfl⟩
  · exact ⟨[], [], by simp, .nil, rfl⟩
  · exact .nil

theorem rest_of_parseAll {self last : Size} {bytes : Bytes} (hstage : IsBehind self.stage)
    (h : self.parseAll bytes = some last) (hend : last.stage.canEnd = true) :
    Rest self.stage bytes ∧ last.value = self.value := by
  induction bytes generalizing self with
  | nil =>
    obtain rfl := Option.some.inj h
    exact ⟨rest_of_canEnd hend, rfl⟩
  | cons byte bytes ih =>
    unfold parseAll at h
    cases hparse : self.parse byte 0 with
    | error error => simp [hparse] at h
    | ok next =>
      simp only [hparse] at h
      obtain ⟨hbehind, hvalue⟩ := behind_of_parse hstage hparse
      obtain ⟨hrest, hlast⟩ := ih hbehind h
      exact ⟨rest_cons hstage hparse hrest, hlast.trans hvalue⟩

/-- The digits of a line, read from its start or behind other digits. -/
theorem digits_of_parseAll {self last : Size} {bytes : Bytes}
    (hstage : self.stage = .start ∨ self.stage = .digits) (hvalue : self.value < 2 ^ 64)
    (h : self.parseAll bytes = some last) (hend : last.stage.canEnd = true) :
    ∃ digits extensions, bytes = digits ++ extensions ∧
      (self.stage = .start → digits ≠ []) ∧ (∀ byte ∈ digits, (hex byte).isSome = true) ∧
      hexValue self.value digits = last.value ∧ last.value < 2 ^ 64 ∧
      Extensions extensions := by
  induction bytes generalizing self with
  | nil =>
    obtain rfl := Option.some.inj h
    refine ⟨[], [], rfl, fun hstart => ?_, by simp, rfl, hvalue, .nil⟩
    rw [hstart] at hend
    cases hend
  | cons byte bytes ih =>
    unfold parseAll at h
    cases hparse : self.parse byte 0 with
    | error error => simp [hparse] at h
    | ok next =>
      simp only [hparse] at h
      have hdigit : self.digit byte 0 = .ok next := by
        rcases hstage with hstage | hstage <;> simpa only [parse, hstage] using hparse
      unfold Size.digit at hdigit
      cases hhex : hex byte with
      | some digit =>
        simp only [hhex] at hdigit
        split_ifs at hdigit with hoverflow
        have hlt := hex_lt hhex
        rw [shift_or hlt] at hdigit
        obtain rfl := Except.ok.inj hdigit
        obtain ⟨digits, extensions, rfl, -, hall, hsum, hfits, hextensions⟩ :=
          ih (.inr rfl) (by simp only; omega) h
        refine ⟨byte :: digits, extensions, rfl, by simp, ?_, ?_, hfits, hextensions⟩
        · intro other hother
          rcases List.mem_cons.mp hother with rfl | hother
          · simp [hhex]
          · exact hall other hother
        · rw [← hsum]
          simp only [hexValue, List.foldl_cons, hhex, Option.getD_some]
      | none =>
        simp only [hhex] at hdigit
        split_ifs at hdigit with hows hsemi
        · obtain rfl := Except.ok.inj hdigit
          obtain ⟨hrest, hlast⟩ := rest_of_parseAll (by simp [IsBehind]) h hend
          refine ⟨[], byte :: bytes, rfl, fun hstart => ?_, by simp, hlast.symm,
            hlast ▸ hvalue, extensions_ows hows.1 hrest.1 hrest.2⟩
          rw [hstart] at hows
          cases hows.2
        · obtain rfl := Except.ok.inj hdigit
          obtain ⟨hrest, hlast⟩ := rest_of_parseAll (by simp [IsBehind]) h hend
          refine ⟨[], byte :: bytes, rfl, fun hstart => ?_, by simp, hlast.symm,
            hlast ▸ hvalue, hsemi.1 ▸ extensions_semicolon hrest⟩
          rw [hstart] at hsemi
          cases hsemi.2

theorem parseAll_iff (count : ℕ) {line : Bytes} {size : ℕ} :
    (∃ last, parseAll ⟨0, count, .start⟩ line = some last ∧ last.stage.canEnd = true ∧
      last.value = size) ↔ SizeLine line size := by
  constructor
  · rintro ⟨last, hparse, hend, rfl⟩
    obtain ⟨digits, extensions, rfl, hne, hhex, hvalue, hfits, hextensions⟩ :=
      digits_of_parseAll (.inl rfl) (by simp) hparse hend
    exact ⟨digits, extensions, rfl, hne rfl, hhex, hvalue, hfits, hextensions⟩
  · rintro ⟨digits, extensions, rfl, hne, hhex, rfl, hfits, hextensions⟩
    have hdigits := parseAll_digits ⟨0, count, .start⟩ hne hhex hfits (.inl rfl)
    obtain ⟨stage, hrest, hend⟩ := parseAll_extensions
      ⟨hexValue 0 digits, count, .digits⟩ hextensions rfl
    refine ⟨⟨hexValue 0 digits, count, stage⟩, ?_, hend, rfl⟩
    rw [parseAll_append, hdigits]
    exact hrest

end Size

end Sark.Http.Chunk
