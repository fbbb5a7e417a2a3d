import Sark.Http.Uri.Literal
import Sark.Http.Uri.Path

/-!
# Authorities

The authority of a URI (`http/src/uri/mod.rs`): a host, which is a registered name or a literal in
brackets, and perhaps a port of decimal digits.

* `isReg_iff`, `isFuture_iff`: the registered names and the future literals.
* `Authority.parse_iff`: the authorities that are accepted, with their parts.
-/

namespace Sark.Uri

/-! ## The parser -/

/-- `uri::Error`. -/
inductive Error
  | empty
  | invalidHost
  | invalidPort
  | invalidScheme
  deriving DecidableEq, Repr

/-- `u8::is_ascii_alphanumeric`. -/
abbrev isAlphanumeric (byte : UInt8) : Bool :=
  Http.isAsciiAlphanumeric byte

/-- `uri::is_reg_byte`: letters, digits and `-._~!$&'()*+,;=`. -/
def isRegByte (byte : UInt8) : Bool :=
  isAlphanumeric byte || byte ∈ ([0x2d, 0x2e, 0x5f, 0x7e, 0x21, 0x24, 0x26, 0x27, 0x28, 0x29, 0x2a,
    0x2b, 0x2c, 0x3b, 0x3d] : Bytes)

/-- The loop of `uri::is_reg_span`. -/
def regLoop : Bytes → Bool
  | [] => true
  | byte :: rest =>
    if byte = 0x25 then
      match rest with
      | first :: second :: rest => isHexDigit first && isHexDigit second && regLoop rest
      | _ => false
    else isRegByte byte && regLoop rest

/-- `uri::is_reg_span`. -/
def isReg (value : Bytes) : Bool :=
  !value.isEmpty && regLoop value

/-- `uri::is_future_byte`. -/
def isFutureByte (byte : UInt8) : Bool :=
  isRegByte byte || byte == 0x3a

/-- `uri::is_future_span`: between the first byte and the first dot there are digits, and behind it
are bytes. -/
def isFuture : Bytes → Bool
  | [] => false
  | first :: rest =>
    let version := rest.takeWhile (· ≠ 0x2e)
    (first == 0x76 || first == 0x56) &&
      match rest.dropWhile (· ≠ 0x2e) with
      | [] => false
      | _ :: name =>
        !version.isEmpty && version.all isHexDigit && !name.isEmpty && name.all isFutureByte

/-- `uri::is_digits`. -/
def isDigits (value : Bytes) : Bool :=
  value.all isDigit

/-- `uri::Authority`. -/
structure Authority where
  host : Bytes
  port : Option Bytes
  deriving DecidableEq, Repr

namespace Authority

/-- What follows the host: nothing, or a colon and a port. -/
def parsePort (host : Bytes) : Bytes → Except Error Authority
  | [] => .ok ⟨host, none⟩
  | colon :: port =>
    if colon ≠ 0x3a then .error .invalidPort
    else if isDigits port then .ok ⟨host, some port⟩
    else .error .invalidPort

/-- `Authority::is_ip`. -/
def isIp (value : Bytes) : Bool :=
  isFuture value || (Parser.v6 value).isSome

/-- `Authority::parse`. -/
def parse (value : Bytes) : Except Error Authority :=
  match value with
  | [] => .error .empty
  | first :: body =>
    if first = 0x5b then
      let literal := body.takeWhile (· ≠ 0x5d)
      match body.dropWhile (· ≠ 0x5d) with
      | [] => .error .invalidHost
      | close :: suffix =>
        if literal = [] ∨ isIp literal = false then .error .invalidHost
        else parsePort (first :: literal ++ [close]) suffix
    else
      let host := value.takeWhile (· ≠ 0x3a)
      let rest := value.dropWhile (· ≠ 0x3a)
      -- a second colon belongs to no name
      if 0x3a ∈ rest.tail then .error .invalidHost
      else if isReg host = false then .error .invalidHost
      else parsePort host rest

/-- `Authority::is_port`. -/
def isPort : Bytes → Bool
  | [] => false
  | colon :: port => colon == 0x3a && !port.isEmpty && isDigits port

end Authority

/-- `Scheme::check_span`: a letter, and then letters, digits, `+`, `-` and `.`. -/
def isSchemeByte (byte : UInt8) : Bool :=
  isAlphanumeric byte || byte == 0x2b || byte == 0x2d || byte == 0x2e

/-- `Scheme::validate`. -/
def Scheme.validate : Bytes → Except Error Unit
  | [] => .error .invalidScheme
  | first :: rest =>
    if isAlphabetic first && rest.all isSchemeByte then .ok () else .error .invalidScheme

/-! ## The grammar -/

/-- Bytes of a class and escapes. -/
inductive RegChars : Bytes → Prop
  | nil : RegChars []
  | plain {byte : UInt8} {rest : Bytes} (h : isRegByte byte = true) (hrest : RegChars rest) :
      RegChars (byte :: rest)
  | escape {first second : UInt8} {rest : Bytes} (hfirst : isHexDigit first = true)
      (hsecond : isHexDigit second = true) (hrest : RegChars rest) :
      RegChars (0x25 :: first :: second :: rest)

/-- `reg-name`, which must not be empty. -/
structure RegName (value : Bytes) : Prop where
  ne_nil : value ≠ []
  chars : RegChars value

/-- `IPvFuture`. -/
inductive FutureLiteral : Bytes → Prop
  | mk {first : UInt8} {version name : Bytes} (hfirst : first = 0x76 ∨ first = 0x56)
      (hversion : version ≠ []) (hdigits : ∀ byte ∈ version, isHexDigit byte = true)
      (hname : name ≠ []) (hbytes : ∀ byte ∈ name, isFutureByte byte = true) :
      FutureLiteral (first :: version ++ 0x2e :: name)

/-- What may stand between brackets. -/
def IpLiteral (value : Bytes) : Prop :=
  FutureLiteral value ∨ ∃ groups, Address value groups

/-- `host`. -/
inductive Host : Bytes → Prop
  | name {value : Bytes} (h : RegName value) : Host value
  | literal {value : Bytes} (h : IpLiteral value) : Host (0x5b :: value ++ [0x5d])

/-- `host [ ":" port ]`, with the parts. -/
inductive AuthorityText : Bytes → Authority → Prop
  | alone {host : Bytes} (h : Host host) : AuthorityText host ⟨host, none⟩
  | port {host port : Bytes} (h : Host host) (hport : ∀ byte ∈ port, isDigit byte = true) :
      AuthorityText (host ++ 0x3a :: port) ⟨host, some port⟩

/-- `scheme`. -/
inductive SchemeText : Bytes → Prop
  | mk {first : UInt8} {rest : Bytes} (hfirst : isAlphabetic first = true)
      (hrest : ∀ byte ∈ rest, isSchemeByte byte = true) : SchemeText (first :: rest)

theorem Scheme.validate_iff {value : Bytes} : Scheme.validate value = .ok () ↔ SchemeText value := by
  rcases value with _ | ⟨first, rest⟩
  · refine iff_of_false (by simp [Scheme.validate]) ?_
    rintro ⟨⟩
  · rw [Scheme.validate]
    constructor
    · intro h
      split at h
      · rename_i hvalid
        rw [Bool.and_eq_true, List.all_eq_true] at hvalid
        exact .mk hvalid.1 hvalid.2
      · exact absurd h (by simp)
    · rintro ⟨hfirst, hrest⟩
      rw [if_pos]
      rw [Bool.and_eq_true, List.all_eq_true]
      exact ⟨hfirst, hrest⟩

theorem SchemeText.bytes {value : Bytes} (h : SchemeText value) :
    ∀ byte ∈ value, isSchemeByte byte = true := by
  obtain ⟨hfirst, hrest⟩ := h
  refine List.forall_mem_cons.mpr ⟨?_, hrest⟩
  simp only [isAlphabetic, Bool.or_eq_true, Bool.and_eq_true] at hfirst
  simp only [isSchemeByte, isAlphanumeric, Http.isAsciiAlphanumeric, Bool.or_eq_true,
    Bool.and_eq_true]
  tauto

theorem SchemeText.notMem {value : Bytes} (h : SchemeText value) {byte : UInt8}
    (hbyte : isSchemeByte byte = false) : byte ∉ value := by
  intro hmem
  rw [h.bytes byte hmem] at hbyte
  exact Bool.noConfusion hbyte

/-! ## Names and literals -/

theorem regLoop_iff {value : Bytes} : regLoop value = true ↔ RegChars value := by
  induction hsize : value.length using Nat.strong_induction_on generalizing value with
  | _ size ih =>
    obtain rfl := hsize
    rcases value with _ | ⟨byte, rest⟩
    · exact iff_of_true rfl .nil
    · rw [regLoop.eq_def]
      dsimp only
      by_cases hpercent : byte = 0x25
      · -- a percent sign stands for no byte itself
        subst hpercent
        rw [if_pos rfl]
        have hplain : isRegByte 0x25 = false := by decide
        rcases rest with _ | ⟨first, _ | ⟨second, rest⟩⟩
        · refine iff_of_false (by simp) ?_
          rintro (_ | ⟨h, -⟩)
          rw [hplain] at h
          exact Bool.noConfusion h
        · refine iff_of_false (by simp) ?_
          rintro (_ | ⟨h, -⟩)
          rw [hplain] at h
          exact Bool.noConfusion h
        · simp only [Bool.and_eq_true, ih rest.length (by simp; omega) rfl]
          constructor
          · rintro ⟨⟨hfirst, hsecond⟩, hrest⟩
            exact .escape hfirst hsecond hrest
          · rintro (_ | ⟨h, -⟩ | ⟨hfirst, hsecond, hrest⟩)
            · rw [hplain] at h
              exact Bool.noConfusion h
            · exact ⟨⟨hfirst, hsecond⟩, hrest⟩
      · rw [if_neg hpercent, Bool.and_eq_true, ih rest.length (by simp) rfl]
        constructor
        · rintro ⟨h, hrest⟩
          exact .plain h hrest
        · rintro (_ | ⟨h, hrest⟩ | _)
          · exact ⟨h, hrest⟩
          · exact absurd rfl hpercent

theorem isReg_iff {value : Bytes} : isReg value = true ↔ RegName value := by
  rw [isReg, Bool.and_eq_true, regLoop_iff]
  constructor
  · rintro ⟨hne, hchars⟩
    exact ⟨by simpa using hne, hchars⟩
  · rintro ⟨hne, hchars⟩
    exact ⟨by simpa using hne, hchars⟩

theorem isHexDigit_ne {byte : UInt8} (h : isHexDigit byte = true) :
    byte ≠ 0x2e ∧ byte ≠ 0x3a ∧ byte ≠ 0x5b ∧ byte ≠ 0x5d := by
  refine ⟨?_, ?_, ?_, ?_⟩ <;> rintro rfl <;> exact absurd h (by decide)

theorem isRegByte_ne {byte : UInt8} (h : isRegByte byte = true) :
    byte ≠ 0x3a ∧ byte ≠ 0x5b ∧ byte ≠ 0x5d := by
  refine ⟨?_, ?_, ?_⟩ <;> rintro rfl <;> exact absurd h (by decide)

theorem isFutureByte_ne {byte : UInt8} (h : isFutureByte byte = true) :
    byte ≠ 0x5b ∧ byte ≠ 0x5d := by
  refine ⟨?_, ?_⟩ <;> rintro rfl <;> exact absurd h (by decide)

/-- A byte that an authority is written with. -/
def isAuthorityByte (byte : UInt8) : Bool :=
  isRegByte byte || byte ∈ ([0x25, 0x3a, 0x5b, 0x5d] : Bytes)

theorem isRegByte_of_isHexDigit {byte : UInt8} (h : isHexDigit byte = true) :
    isRegByte byte = true := by
  simp only [isHexDigit, Bool.or_eq_true, Bool.and_eq_true, decide_eq_true_eq,
    UInt8.le_iff_toNat_le] at h
  simp only [isRegByte, isAlphanumeric, Http.isAsciiAlphanumeric, Bool.or_eq_true,
    Bool.and_eq_true, decide_eq_true_eq, UInt8.le_iff_toNat_le]
  simp only [UInt8.reduceToNat] at h ⊢
  omega

theorem isAuthorityByte_of_isRegByte {byte : UInt8} (h : isRegByte byte = true) :
    isAuthorityByte byte = true := by
  rw [isAuthorityByte, h, Bool.true_or]

theorem isAuthorityByte_of_isFutureByte {byte : UInt8} (h : isFutureByte byte = true) :
    isAuthorityByte byte = true := by
  rw [isFutureByte, Bool.or_eq_true, beq_iff_eq] at h
  rcases h with h | rfl
  · exact isAuthorityByte_of_isRegByte h
  · decide

theorem RegChars.bytes {value : Bytes} (h : RegChars value) :
    ∀ byte ∈ value, isAuthorityByte byte = true := by
  induction h with
  | nil => simp
  | plain h hrest ih =>
    exact List.forall_mem_cons.mpr ⟨isAuthorityByte_of_isRegByte h, ih⟩
  | escape hfirst hsecond hrest ih =>
    have hdigit {byte : UInt8} (h : isHexDigit byte = true) : isAuthorityByte byte = true :=
      isAuthorityByte_of_isRegByte (isRegByte_of_isHexDigit h)
    exact List.forall_mem_cons.mpr ⟨by decide, List.forall_mem_cons.mpr
      ⟨hdigit hfirst, List.forall_mem_cons.mpr ⟨hdigit hsecond, ih⟩⟩⟩

theorem RegChars.mem {value : Bytes} (h : RegChars value) {byte : UInt8} (hmem : byte ∈ value) :
    byte ≠ 0x3a ∧ byte ≠ 0x5b ∧ byte ≠ 0x5d := by
  induction h with
  | nil => simp at hmem
  | plain h hrest ih =>
    rcases List.mem_cons.mp hmem with rfl | hmem
    · exact isRegByte_ne h
    · exact ih hmem
  | escape hfirst hsecond hrest ih =>
    simp only [List.mem_cons] at hmem
    rcases hmem with rfl | rfl | rfl | hmem
    · decide
    · exact (isHexDigit_ne hfirst).2
    · exact (isHexDigit_ne hsecond).2
    · exact ih hmem

theorem isFuture_iff {value : Bytes} : isFuture value = true ↔ FutureLiteral value := by
  rcases value with _ | ⟨first, rest⟩
  · refine iff_of_false (by simp [isFuture]) ?_
    generalize htext : ([] : Bytes) = text
    rintro ⟨hfirst, hversion, hdigits, hname, hbytes⟩
    simp at htext
  · rw [isFuture, Bool.and_eq_true, Bool.or_eq_true, beq_iff_eq, beq_iff_eq]
    constructor
    · rintro ⟨hfirst, h⟩
      cases hdrop : rest.dropWhile (· ≠ 0x2e) with
      | nil =>
        rw [hdrop] at h
        exact Bool.noConfusion h
      | cons dot name =>
        obtain ⟨-, hrest⟩ := dropWhile_ne_eq_cons hdrop
        rw [hdrop] at h
        simp only [Bool.and_eq_true, Bool.not_eq_true', List.isEmpty_eq_false_iff,
          List.all_eq_true] at h
        obtain ⟨⟨⟨hversion, hdigits⟩, hname⟩, hbytes⟩ := h
        rw [hrest]
        exact .mk hfirst hversion hdigits hname hbytes
    · generalize htext : first :: rest = text
      rintro ⟨hfirst, hversion, hdigits, hname, hbytes⟩
      rename_i first' version name
      rw [List.cons_append, List.cons.injEq] at htext
      obtain ⟨rfl, rfl⟩ := htext
      have hdot : 0x2e ∉ version := fun hmem => (isHexDigit_ne (hdigits _ hmem)).1 rfl
      refine ⟨hfirst, ?_⟩
      simp only [dropWhile_ne_append hdot, takeWhile_ne_append hdot, Bool.and_eq_true,
        Bool.not_eq_true', List.isEmpty_eq_false_iff, List.all_eq_true]
      exact ⟨⟨⟨hversion, hdigits⟩, hname⟩, hbytes⟩

/-- A byte that an address is written with. -/
def IsAddressByte (byte : UInt8) : Prop :=
  isHexDigit byte = true ∨ byte = 0x2e ∨ byte = 0x3a

theorem isHexDigit_of_hex {byte : UInt8} {digit : ℕ} (h : hex byte = some digit) :
    isHexDigit byte = true := by
  rw [hex] at h
  simp only [isHexDigit, Bool.or_eq_true, Bool.and_eq_true, decide_eq_true_eq]
  split at h
  · exact .inl (.inl ‹_›)
  · split at h
    · exact .inr ‹_›
    · split at h
      · exact .inl (.inr ‹_›)
      · exact absurd h (by simp)

theorem isHexDigit_of_isDigit {byte : UInt8} (h : isDigit byte = true) :
    isHexDigit byte = true := by
  simp only [isDigit, Bool.and_eq_true, decide_eq_true_eq] at h
  simp [isHexDigit, h]

theorem Hextet.bytes {part : Bytes} {group : ℕ} (h : Hextet part group) :
    ∀ byte ∈ part, isHexDigit byte = true := by
  obtain ⟨digits, hdigits, -⟩ := h.digits
  clear h
  induction part generalizing digits with
  | nil => simp
  | cons first part ih =>
    simp only [List.mapM_cons, Option.bind_eq_bind, Option.bind_eq_some_iff] at hdigits
    obtain ⟨digit, hfirst, digits, hpart, -⟩ := hdigits
    exact List.forall_mem_cons.mpr ⟨isHexDigit_of_hex hfirst, ih digits hpart⟩

theorem Quads.bytes {text : Bytes} {octets : List ℕ} (h : Quads text octets) :
    ∀ byte ∈ text, IsAddressByte byte := by
  induction h with
  | last h => exact fun byte hmem => .inl (isHexDigit_of_isDigit (h.plain.digits byte hmem))
  | more h hrest ih =>
    intro byte hmem
    rcases List.mem_append.mp hmem with hmem | hmem
    · exact .inl (isHexDigit_of_isDigit (h.plain.digits byte hmem))
    · rcases List.mem_cons.mp hmem with rfl | hmem
      · exact .inr (.inl rfl)
      · exact ih byte hmem

theorem Groups.bytes {text : Bytes} {groups : List ℕ} (h : Groups text groups) :
    ∀ byte ∈ text, IsAddressByte byte := by
  induction h with
  | last h => exact fun byte hmem => .inl (h.bytes byte hmem)
  | tail h =>
    obtain ⟨a, b, c, d, hquads, -⟩ := h.octets
    exact hquads.bytes
  | more h hrest ih =>
    intro byte hmem
    rcases List.mem_append.mp hmem with hmem | hmem
    · exact .inl (h.bytes byte hmem)
    · rcases List.mem_cons.mp hmem with rfl | hmem
      · exact .inr (.inr rfl)
      · exact ih byte hmem

theorem Address.bytes {text : Bytes} {groups : List ℕ} (h : Address text groups) :
    ∀ byte ∈ text, IsAddressByte byte := by
  cases h with
  | full h hlength => exact h.bytes
  | omitted hleft hright hlength =>
    intro byte hmem
    simp only [List.mem_append, List.mem_cons] at hmem
    rcases hmem with hmem | rfl | rfl | hmem
    · cases hleft with
      | nil => simp at hmem
      | groups h => exact h.groups.bytes byte hmem
    · exact .inr (.inr rfl)
    · exact .inr (.inr rfl)
    · cases hright with
      | nil => simp at hmem
      | groups h => exact h.bytes byte hmem

namespace IpLiteral

variable {value : Bytes}

theorem ne_nil (h : IpLiteral value) : value ≠ [] := by
  rcases h with ⟨hfirst, hversion, hdigits, hname, hbytes⟩ | ⟨groups, h⟩
  · simp
  · rintro rfl
    exact Address.not_nil h

theorem bracket_notMem (h : IpLiteral value) : 0x5d ∉ value := by
  intro hmem
  rcases h with ⟨hfirst, hversion, hdigits, hname, hbytes⟩ | ⟨groups, h⟩
  · simp only [List.cons_append, List.mem_cons, List.mem_append] at hmem
    rcases hmem with rfl | hmem | hmem | hmem
    · exact absurd hfirst (by decide)
    · exact (isHexDigit_ne (hdigits _ hmem)).2.2.2 rfl
    · exact absurd hmem (by decide)
    · exact (isFutureByte_ne (hbytes _ hmem)).2 rfl
  · have hbyte := h.bytes _ hmem
    exact absurd hbyte (by simp only [IsAddressByte]; decide)

theorem bytes (h : IpLiteral value) : ∀ byte ∈ value, isAuthorityByte byte = true := by
  intro byte hmem
  rcases h with ⟨hfirst, hversion, hdigits, hname, hbytes⟩ | ⟨groups, h⟩
  · simp only [List.cons_append, List.mem_cons, List.mem_append] at hmem
    rcases hmem with rfl | hmem | rfl | hmem
    · rcases hfirst with rfl | rfl <;> decide
    · exact isAuthorityByte_of_isRegByte (isRegByte_of_isHexDigit (hdigits _ hmem))
    · decide
    · exact isAuthorityByte_of_isFutureByte (hbytes _ hmem)
  · rcases h.bytes byte hmem with hbyte | rfl | rfl
    · exact isAuthorityByte_of_isRegByte (isRegByte_of_isHexDigit hbyte)
    · decide
    · decide

end IpLiteral

theorem Host.bytes {value : Bytes} (h : Host value) :
    ∀ byte ∈ value, isAuthorityByte byte = true := by
  rcases h with h | h
  · exact h.chars.bytes
  · intro byte hmem
    simp only [List.cons_append, List.mem_cons, List.mem_append, List.not_mem_nil, or_false] at hmem
    rcases hmem with rfl | hmem | rfl
    · decide
    · exact h.bytes byte hmem
    · decide

theorem Host.ne_nil {value : Bytes} (h : Host value) : value ≠ [] := by
  rcases h with h | h
  · exact h.ne_nil
  · simp

theorem isAuthorityByte_of_isDigit {byte : UInt8} (h : isDigit byte = true) :
    isAuthorityByte byte = true :=
  isAuthorityByte_of_isRegByte (isRegByte_of_isHexDigit (isHexDigit_of_isDigit h))

namespace AuthorityText

variable {value : Bytes} {authority : Authority}

theorem bytes (h : AuthorityText value authority) : ∀ byte ∈ value, isAuthorityByte byte = true := by
  rcases h with h | ⟨h, hport⟩
  · exact h.bytes
  · intro byte hmem
    rcases List.mem_append.mp hmem with hmem | hmem
    · exact h.bytes byte hmem
    · rcases List.mem_cons.mp hmem with rfl | hmem
      · decide
      · exact isAuthorityByte_of_isDigit (hport byte hmem)

theorem notMem (h : AuthorityText value authority) {byte : UInt8}
    (hbyte : isAuthorityByte byte = false) : byte ∉ value := by
  intro hmem
  rw [h.bytes byte hmem] at hbyte
  exact Bool.noConfusion hbyte

theorem ne_nil (h : AuthorityText value authority) : value ≠ [] := by
  rcases h with h | ⟨h, hport⟩
  · exact h.ne_nil
  · simp

end AuthorityText

/-! ## Authorities -/

namespace Authority

theorem isIp_iff {value : Bytes} : isIp value = true ↔ IpLiteral value := by
  rw [isIp, Bool.or_eq_true, isFuture_iff, Option.isSome_iff_exists]
  simp only [Parser.v6_iff]
  rfl

theorem parsePort_iff {host rest : Bytes} {authority : Authority} :
    parsePort host rest = .ok authority ↔ rest = [] ∧ authority = ⟨host, none⟩ ∨
      ∃ port, rest = 0x3a :: port ∧ (∀ byte ∈ port, isDigit byte = true) ∧
        authority = ⟨host, some port⟩ := by
  rcases rest with _ | ⟨colon, port⟩
  · rw [parsePort, Except.ok.injEq]
    constructor
    · rintro rfl
      exact .inl ⟨rfl, rfl⟩
    · rintro (⟨-, rfl⟩ | ⟨port, h, -⟩)
      · rfl
      · exact absurd h (by simp)
  · rw [parsePort]
    constructor
    · intro h
      split at h
      · exact absurd h (by simp)
      · split at h
        · exact .inr ⟨port, by rw [not_not.mp ‹¬colon ≠ 0x3a›],
            List.all_eq_true.mp ‹isDigits port = true›, (Except.ok.inj h).symm⟩
        · exact absurd h (by simp)
    · rintro (⟨h, -⟩ | ⟨other, h, hdigits, rfl⟩)
      · exact absurd h (by simp)
      · obtain ⟨rfl, rfl⟩ := List.cons.inj h
        have hport : isDigits port = true := List.all_eq_true.mpr hdigits
        rw [if_neg (not_not.mpr rfl), if_pos hport]

theorem authorityText_iff {value : Bytes} {authority : Authority} :
    AuthorityText value authority ↔ ∃ host rest, value = host ++ rest ∧ Host host ∧
      parsePort host rest = .ok authority := by
  simp only [parsePort_iff]
  constructor
  · rintro (h | ⟨h, hport⟩)
    · exact ⟨_, [], (List.append_nil _).symm, h, .inl ⟨rfl, rfl⟩⟩
    · exact ⟨_, _, rfl, h, .inr ⟨_, rfl, hport, rfl⟩⟩
  · rintro ⟨host, rest, rfl, h, ⟨rfl, rfl⟩ | ⟨port, rfl, hport, rfl⟩⟩
    · rw [List.append_nil]
      exact .alone h
    · exact .port h hport

/-- The texts that are accepted, with their parts. -/
theorem parse_iff {value : Bytes} {authority : Authority} :
    parse value = .ok authority ↔ AuthorityText value authority := by
  rw [authorityText_iff]
  constructor
  · intro h
    rcases value with _ | ⟨first, body⟩
    · exact absurd h (by simp [parse])
    · rw [parse] at h
      split at h
      · -- a literal in brackets
        rename_i hfirst
        cases hdrop : body.dropWhile (· ≠ 0x5d) with
        | nil =>
          simp only [hdrop] at h
          exact absurd h (by simp)
        | cons close suffix =>
          obtain ⟨rfl, hbody⟩ := dropWhile_ne_eq_cons hdrop
          simp only [hdrop] at h
          split at h
          · exact absurd h (by simp)
          · rename_i hliteral
            rw [not_or, Bool.not_eq_false, isIp_iff] at hliteral
            refine ⟨_, suffix, ?_, .literal hliteral.2, ?_⟩
            · rw [hfirst]
              simpa using hbody
            · rw [← h, hfirst]
      · dsimp only at h
        split at h
        · exact absurd h (by simp)
        · split at h
          · exact absurd h (by simp)
          · rename_i hreg
            rw [Bool.not_eq_false, isReg_iff] at hreg
            exact ⟨_, _, List.takeWhile_append_dropWhile.symm, .name hreg, h⟩
  · rintro ⟨host, rest, rfl, hhost, hport⟩
    have hrest : rest = [] ∨ ∃ port, rest = 0x3a :: port ∧ ∀ byte ∈ port, isDigit byte = true := by
      rcases parsePort_iff.mp hport with ⟨h, -⟩ | ⟨port, h, hdigits, -⟩
      · exact .inl h
      · exact .inr ⟨port, h, hdigits⟩
    cases hhost with
    | name h =>
      obtain ⟨first, name, rfl⟩ := List.exists_cons_of_ne_nil h.ne_nil
      have hcolon : 0x3a ∉ first :: name := fun hmem => (h.chars.mem hmem).1 rfl
      have hfirst : first ≠ 0x5b := (h.chars.mem List.mem_cons_self).2.1
      have htake : (first :: name ++ rest).takeWhile (· ≠ 0x3a) = first :: name := by
        rcases hrest with rfl | ⟨port, rfl, -⟩
        · rw [List.append_nil, takeWhile_ne_eq_self hcolon]
        · exact takeWhile_ne_append hcolon
      have hdrop : (first :: name ++ rest).dropWhile (· ≠ 0x3a) = rest := by
        rcases hrest with rfl | ⟨port, rfl, -⟩
        · rw [List.append_nil, dropWhile_ne_eq_nil.mpr hcolon]
        · exact dropWhile_ne_append hcolon
      have hagain : 0x3a ∉ rest.tail := by
        rcases hrest with rfl | ⟨port, rfl, hdigits⟩
        · simp
        · intro hmem
          exact absurd (hdigits _ hmem) (by decide)
      rw [List.cons_append, parse, if_neg hfirst]
      rw [List.cons_append] at htake hdrop
      simp only [htake, hdrop]
      rw [if_neg hagain, if_neg (by simp [isReg_iff.mpr h]), hport]
    | literal h =>
      rename_i literal
      have hbracket := h.bracket_notMem
      have htake : (literal ++ [0x5d] ++ rest).takeWhile (· ≠ 0x5d) = literal := by
        rw [List.append_assoc, List.singleton_append, takeWhile_ne_append hbracket]
      have hdrop : (literal ++ [0x5d] ++ rest).dropWhile (· ≠ 0x5d) = 0x5d :: rest := by
        rw [List.append_assoc, List.singleton_append, dropWhile_ne_append hbracket]
      have hip : ¬(literal = [] ∨ isIp literal = false) := by
        rw [not_or, Bool.not_eq_false, isIp_iff]
        exact ⟨h.ne_nil, h⟩
      rw [List.cons_append, List.cons_append, parse, if_pos rfl]
      simp only [htake, hdrop]
      rw [if_neg hip]
      exact hport

end Authority

end Sark.Uri
