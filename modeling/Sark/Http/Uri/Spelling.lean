import Sark.Http.Uri.Same

/-!
# Spellings of an authority

An authority can be written in several ways (`http/src/uri/mod.rs`, `http/src/uri/pair.rs`): letters
in either case, plain characters with or without their escapes, ports with leading zeros, and the
default port of the scheme or none. All of them are valid if one of them is, and they are the same.

* `Recased`: texts that differ in the case of letters, and what is kept by that.
* `units_append`: the units of a name are those of its parts.
* `Respelled`: one change of a spelling.
* `Authority.respelled`: sameness of valid authorities is an equivalence that knows no spelling.
-/

namespace Sark.Uri

/-! ## Letters of either case -/

/-- Texts that differ in the case of their letters at most. -/
def Recased (left right : Bytes) : Prop :=
  left.map Http.toAsciiLowercase = right.map Http.toAsciiLowercase

theorem lowercase_classes (byte : UInt8) :
    hex (Http.toAsciiLowercase byte) = hex byte ∧
      isHexDigit (Http.toAsciiLowercase byte) = isHexDigit byte ∧
        isRegByte (Http.toAsciiLowercase byte) = isRegByte byte ∧
          (isAlphabetic (Http.toAsciiLowercase byte) = isAlphabetic byte ∧
            (isAlphabetic byte = false → Http.toAsciiLowercase byte = byte)) := by
  have hall : ∀ n < 256, hex (Http.toAsciiLowercase (UInt8.ofNat n)) = hex (UInt8.ofNat n) ∧
      isHexDigit (Http.toAsciiLowercase (UInt8.ofNat n)) = isHexDigit (UInt8.ofNat n) ∧
        isRegByte (Http.toAsciiLowercase (UInt8.ofNat n)) = isRegByte (UInt8.ofNat n) ∧
          (isAlphabetic (Http.toAsciiLowercase (UInt8.ofNat n)) = isAlphabetic (UInt8.ofNat n) ∧
            (isAlphabetic (UInt8.ofNat n) = false →
              Http.toAsciiLowercase (UInt8.ofNat n) = UInt8.ofNat n)) := by
    decide +kernel
  simpa using hall byte.toNat byte.toNat_lt

section Bytes

variable {byte other : UInt8} (h : Http.toAsciiLowercase byte = Http.toAsciiLowercase other)

include h

theorem hex_recased : hex byte = hex other := by
  rw [← (lowercase_classes byte).1, h, (lowercase_classes other).1]

theorem isHexDigit_recased : isHexDigit byte = isHexDigit other := by
  rw [← (lowercase_classes byte).2.1, h, (lowercase_classes other).2.1]

theorem isRegByte_recased : isRegByte byte = isRegByte other := by
  rw [← (lowercase_classes byte).2.2.1, h, (lowercase_classes other).2.2.1]

theorem eq_of_recased (hbyte : isAlphabetic byte = false) : byte = other := by
  have hother : isAlphabetic other = false := by
    rw [← (lowercase_classes other).2.2.2.1, ← h, (lowercase_classes byte).2.2.2.1, hbyte]
  rw [← (lowercase_classes byte).2.2.2.2 hbyte, h, (lowercase_classes other).2.2.2.2 hother]

theorem isFutureByte_recased : isFutureByte byte = true → isFutureByte other = true := by
  rw [isFutureByte, isFutureByte, Bool.or_eq_true, Bool.or_eq_true, isRegByte_recased h,
    beq_iff_eq, beq_iff_eq]
  rintro (hbyte | rfl)
  · exact .inl hbyte
  · exact .inr (eq_of_recased h (by decide)).symm

end Bytes

namespace Recased

variable {left right lead rest : Bytes} {byte : UInt8}

theorem symm (h : Recased left right) : Recased right left :=
  Eq.symm h

theorem length_eq (h : Recased left right) : left.length = right.length := by
  simpa using congrArg List.length h

theorem nil (h : Recased [] right) : right = [] :=
  List.length_eq_zero_iff.mp h.length_eq.symm

theorem ne_nil (h : Recased left right) (hne : left ≠ []) : right ≠ [] := by
  rintro rfl
  exact hne h.symm.nil

theorem cons (h : Recased (byte :: rest) right) : ∃ byte' rest', right = byte' :: rest' ∧
    Http.toAsciiLowercase byte = Http.toAsciiLowercase byte' ∧ Recased rest rest' := by
  rcases right with _ | ⟨byte', rest'⟩
  · exact absurd h.length_eq (by simp)
  · obtain ⟨hbyte, hrest⟩ := List.cons.inj h
    exact ⟨byte', rest', rfl, hbyte, hrest⟩

theorem append (h : Recased (lead ++ rest) right) : ∃ lead' rest', right = lead' ++ rest' ∧
    Recased lead lead' ∧ Recased rest rest' := by
  induction lead generalizing right with
  | nil => exact ⟨[], right, rfl, rfl, h⟩
  | cons byte lead ih =>
    obtain ⟨byte', rest', rfl, hbyte, hrest⟩ := h.cons
    obtain ⟨lead', rest'', rfl, hlead, hrest⟩ := ih hrest
    exact ⟨byte' :: lead', rest'', rfl, congrArg₂ List.cons hbyte hlead, hrest⟩

theorem append_cons (h : Recased (lead ++ byte :: rest) right) (hbyte : isAlphabetic byte = false) :
    ∃ lead' rest', right = lead' ++ byte :: rest' ∧ Recased lead lead' ∧ Recased rest rest' := by
  obtain ⟨lead', behind, rfl, hlead, hbehind⟩ := h.append
  obtain ⟨byte', rest', rfl, hbyte', hrest⟩ := hbehind.cons
  obtain rfl := eq_of_recased hbyte' hbyte
  exact ⟨lead', rest', rfl, hlead, hrest⟩

theorem eq (h : Recased left right) (hleft : ∀ byte ∈ left, isAlphabetic byte = false) :
    left = right := by
  induction left generalizing right with
  | nil => exact h.nil.symm
  | cons byte rest ih =>
    obtain ⟨hbyte, hrest⟩ := List.forall_mem_cons.mp hleft
    obtain ⟨byte', rest', rfl, hbyte', hrest'⟩ := h.cons
    rw [eq_of_recased hbyte' hbyte, ih hrest' hrest]

theorem forall_mem {p : UInt8 → Prop} (h : Recased left right)
    (hp : ∀ byte other, Http.toAsciiLowercase byte = Http.toAsciiLowercase other → p byte →
      p other) (hleft : ∀ byte ∈ left, p byte) : ∀ byte ∈ right, p byte := by
  induction left generalizing right with
  | nil =>
    rw [h.nil]
    simp
  | cons byte rest ih =>
    obtain ⟨hbyte, hrest⟩ := List.forall_mem_cons.mp hleft
    obtain ⟨byte', rest', rfl, hbyte', hrest'⟩ := h.cons
    exact List.forall_mem_cons.mpr ⟨hp _ _ hbyte' hbyte, ih hrest' hrest⟩

theorem mapM_hex (h : Recased left right) : left.mapM hex = right.mapM hex := by
  induction left generalizing right with
  | nil => rw [h.nil]
  | cons byte rest ih =>
    obtain ⟨byte', rest', rfl, hbyte, hrest⟩ := h.cons
    rw [List.mapM_cons, List.mapM_cons, hex_recased hbyte, ih hrest]

end Recased

/-! ### Literals -/

section Literals

variable {text other : Bytes} {groups : List ℕ}

theorem Quads.recased {octets : List ℕ} (h : Quads text octets)
    (hother : Recased text other) : text = other := by
  refine hother.eq ?_
  have hdigit : ∀ byte, isDigit byte = true → isAlphabetic byte = false := by
    intro byte hbyte
    rw [isDigit_iff] at hbyte
    simp only [isAlphabetic, Bool.or_eq_false_iff, Bool.and_eq_false_iff, decide_eq_false_iff_not,
      UInt8.le_iff_toNat_le, UInt8.reduceToNat]
    omega
  clear hother
  induction h with
  | last h => exact fun byte hmem => hdigit byte (h.plain.digits byte hmem)
  | more h hrest ih =>
    refine List.forall_mem_append.mpr ⟨fun byte hmem => hdigit byte (h.plain.digits byte hmem), ?_⟩
    exact List.forall_mem_cons.mpr ⟨by decide, ih⟩

theorem Hextet.recased {group : ℕ} (h : Hextet text group)
    (hother : Recased text other) : Hextet other group where
  ne_nil := hother.ne_nil h.ne_nil
  length_le := hother.length_eq ▸ h.length_le
  digits := hother.mapM_hex ▸ h.digits

theorem Hextets.recased (h : Hextets text groups) (hother : Recased text other) :
    Hextets other groups := by
  induction h generalizing other with
  | last h => exact .last (h.recased hother)
  | more h hrest ih =>
    obtain ⟨part, rest, rfl, hpart, hrest⟩ := hother.append_cons (by decide)
    exact .more (h.recased hpart) (ih hrest)

theorem Groups.recased (h : Groups text groups) (hother : Recased text other) :
    Groups other groups := by
  induction h generalizing other with
  | last h => exact .last (h.recased hother)
  | tail h =>
    obtain ⟨a, b, c, d, hquads, -⟩ := h.octets
    exact hquads.recased hother ▸ .tail h
  | more h hrest ih =>
    obtain ⟨part, rest, rfl, hpart, hrest⟩ := hother.append_cons (by decide)
    exact .more (h.recased hpart) (ih hrest)

theorem Address.recased (h : Address text groups) (hother : Recased text other) :
    Address other groups := by
  cases h with
  | full h hlength => exact .full (h.recased hother) hlength
  | omitted hleft hright hlength =>
    obtain ⟨left, behind, rfl, hleft', hbehind⟩ := hother.append_cons (by decide)
    obtain ⟨colon, right, rfl, hcolon, hright'⟩ := hbehind.cons
    obtain rfl := eq_of_recased hcolon (by decide)
    refine .omitted ?_ ?_ hlength
    · cases hleft with
      | nil => exact hleft'.nil ▸ .nil
      | groups h => exact .groups (h.recased hleft')
    · cases hright with
      | nil => exact hright'.nil ▸ .nil
      | groups h => exact .groups (h.recased hright')

theorem FutureLiteral.recased (h : FutureLiteral text) (hother : Recased text other) :
    FutureLiteral other := by
  obtain ⟨hfirst, hversion, hdigits, hname, hbytes⟩ := h
  obtain ⟨lead, name, rfl, hlead, hname'⟩ := hother.append_cons (by decide)
  obtain ⟨first, version, rfl, hfirst', hversion'⟩ := hlead.cons
  refine .mk ?_ (hversion'.ne_nil hversion) ?_ (hname'.ne_nil hname) ?_
  · have hlower : Http.toAsciiLowercase first = 0x76 := by
      rw [← hfirst']
      rcases hfirst with rfl | rfl <;> rfl
    rw [Http.toAsciiLowercase] at hlower
    split_ifs at hlower
    · exact .inr (add_right_cancel (hlower : first + 0x20 = 0x56 + 0x20))
    · exact .inl hlower
  · exact hversion'.forall_mem (fun _ _ h hbyte => isHexDigit_recased h ▸ hbyte) hdigits
  · exact hname'.forall_mem (fun _ _ h => isFutureByte_recased h) hbytes

theorem IpLiteral.recased (h : IpLiteral text) (hother : Recased text other) : IpLiteral other := by
  rcases h with h | ⟨groups, h⟩
  · exact .inl (h.recased hother)
  · exact .inr ⟨groups, h.recased hother⟩

theorem v6_recased (hother : Recased text other) : Parser.v6 text = Parser.v6 other := by
  refine Option.ext fun groups => ?_
  rw [Parser.v6_iff, Parser.v6_iff]
  exact ⟨fun h => h.recased hother, fun h => h.recased hother.symm⟩

theorem isFuture_recased (hother : Recased text other) : isFuture text = isFuture other := by
  rw [Bool.eq_iff_iff, isFuture_iff, isFuture_iff]
  exact ⟨fun h => h.recased hother, fun h => h.recased hother.symm⟩

end Literals

/-! ## Units -/

section Names

variable {front value other : Bytes}

/-- The unit of an escape: a plain character stands for itself, in lower case. -/
def escapeUnit (decoded : ℕ) : ℕ :=
  if isUnreserved (UInt8.ofNat decoded) then (Http.toAsciiLowercase (UInt8.ofNat decoded)).toNat
  else 0x100 ||| decoded

@[simp]
theorem units_nil : units [] = [] := by
  rw [units.eq_def]
  rfl

theorem units_cons {byte : UInt8} (h : byte ≠ 0x25) (rest : Bytes) :
    units (byte :: rest) = (Http.toAsciiLowercase byte).toNat :: units rest := by
  have hnext : nameNext (byte :: rest) = some ((Http.toAsciiLowercase byte).toNat, rest) := by
    rw [nameNext.eq_def]
    exact if_neg h
  rw [units.eq_def, hnext]

theorem units_escape {first second : UInt8} {high low : ℕ} (hhigh : hex first = some high)
    (hlow : hex second = some low) (rest : Bytes) :
    units (0x25 :: first :: second :: rest) = escapeUnit (high <<< 4 ||| low) :: units rest := by
  have hnext : nameNext (0x25 :: first :: second :: rest) =
      some (escapeUnit (high <<< 4 ||| low), rest) := by
    rw [nameNext.eq_def, escapeUnit]
    simp only [if_true, hhigh, hlow, Option.bind_eq_bind, Option.bind_some]
    split <;> rfl
  rw [units.eq_def, hnext]

theorem exists_hex {byte : UInt8} (h : isHexDigit byte = true) :
    ∃ digit, hex byte = some digit := by
  simp only [isHexDigit, Bool.or_eq_true, Bool.and_eq_true, decide_eq_true_eq] at h
  rw [hex]
  split_ifs
  · exact ⟨_, rfl⟩
  · exact ⟨_, rfl⟩
  · exact ⟨_, rfl⟩
  · tauto

theorem isRegByte_ne_percent {byte : UInt8} (h : isRegByte byte = true) : byte ≠ 0x25 := by
  rintro rfl
  exact absurd h (by decide)

/-- The units of a name are those of its parts. -/
theorem units_append (h : RegChars front) (value : Bytes) :
    units (front ++ value) = units front ++ units value := by
  induction h with
  | nil => rw [units_nil, List.nil_append, List.nil_append]
  | plain h hrest ih =>
    rw [List.cons_append, units_cons (isRegByte_ne_percent h),
      units_cons (isRegByte_ne_percent h), ih, List.cons_append]
  | escape hfirst hsecond hrest ih =>
    obtain ⟨high, hhigh⟩ := exists_hex hfirst
    obtain ⟨low, hlow⟩ := exists_hex hsecond
    rw [List.cons_append, List.cons_append, List.cons_append, units_escape hhigh hlow,
      units_escape hhigh hlow, ih, List.cons_append]

theorem RegChars.append_iff (h : RegChars front) : RegChars (front ++ value) ↔ RegChars value := by
  induction h with
  | nil => rfl
  | plain h hrest ih =>
    rw [List.cons_append, ← ih, ← regLoop_iff, ← regLoop_iff, regLoop.eq_def]
    dsimp only
    rw [if_neg (isRegByte_ne_percent h), h, Bool.true_and]
  | escape hfirst hsecond hrest ih =>
    rw [List.cons_append, List.cons_append, List.cons_append, ← ih, ← regLoop_iff, ← regLoop_iff,
      regLoop.eq_def]
    dsimp only
    rw [if_pos rfl, hfirst, hsecond, Bool.true_and, Bool.true_and]

theorem RegChars.before_escape (h : RegChars (front ++ 0x25 :: value)) : RegChars front := by
  generalize htext : front ++ 0x25 :: value = text at h
  induction h generalizing front with
  | nil => exact absurd htext (by simp)
  | plain h hrest ih =>
    rcases front with _ | ⟨byte, front⟩
    · exact .nil
    · obtain ⟨rfl, hfront⟩ := List.cons.inj htext
      exact .plain h (ih hfront)
  | escape hfirst hsecond hrest ih =>
    -- a digit is no percent sign
    rcases front with _ | ⟨byte, _ | ⟨first, _ | ⟨second, front⟩⟩⟩
    · exact .nil
    · simp only [List.cons_append, List.nil_append, List.cons.injEq] at htext
      obtain ⟨-, rfl, -⟩ := htext
      exact absurd hfirst (by decide)
    · simp only [List.cons_append, List.nil_append, List.cons.injEq] at htext
      obtain ⟨-, -, rfl, -⟩ := htext
      exact absurd hsecond (by decide)
    · simp only [List.cons_append, List.cons.injEq] at htext
      obtain ⟨rfl, rfl, rfl, hfront⟩ := htext
      exact .escape hfirst hsecond (ih hfront)

theorem RegChars.recased (h : RegChars value) (hother : Recased value other) :
    RegChars other ∧ units value = units other := by
  induction h generalizing other with
  | nil =>
    rw [hother.nil]
    exact ⟨.nil, rfl⟩
  | plain h hrest ih =>
    obtain ⟨byte, rest, rfl, hbyte, hrest'⟩ := hother.cons
    obtain ⟨hchars, hunits⟩ := ih hrest'
    have hreg := isRegByte_recased hbyte ▸ h
    refine ⟨.plain hreg hchars, ?_⟩
    rw [units_cons (isRegByte_ne_percent h), units_cons (isRegByte_ne_percent hreg), hbyte, hunits]
  | escape hfirst hsecond hrest ih =>
    obtain ⟨percent, behind, rfl, hpercent, hdigits⟩ := hother.cons
    obtain rfl := eq_of_recased hpercent (by decide)
    obtain ⟨first, behind, rfl, hfirst', hdigits⟩ := Recased.cons hdigits
    obtain ⟨second, rest, rfl, hsecond', hrest'⟩ := Recased.cons hdigits
    obtain ⟨hchars, hunits⟩ := ih hrest'
    obtain ⟨high, hhigh⟩ := exists_hex hfirst
    obtain ⟨low, hlow⟩ := exists_hex hsecond
    refine ⟨.escape (isHexDigit_recased hfirst' ▸ hfirst) (isHexDigit_recased hsecond' ▸ hsecond)
      hchars, ?_⟩
    rw [units_escape hhigh hlow, units_escape (hex_recased hfirst' ▸ hhigh)
      (hex_recased hsecond' ▸ hlow), hunits]

theorem digits_eq (byte : UInt8) :
    (byte.toNat / 16) <<< 4 ||| byte.toNat % 16 = byte.toNat := by
  have hall : ∀ n < 256, (n / 16) <<< 4 ||| n % 16 = n := fun n _ => by
    rw [← Nat.shiftLeft_add_eq_or_of_lt (Nat.mod_lt n (by decide)), Nat.shiftLeft_eq]
    omega
  exact hall byte.toNat byte.toNat_lt

theorem isRegByte_of_isUnreserved {byte : UInt8} (h : isUnreserved byte = true) :
    isRegByte byte = true := by
  rw [isUnreserved, Bool.or_eq_true] at h
  rw [isRegByte, Bool.or_eq_true]
  refine h.imp_right fun h => ?_
  simp only [List.mem_cons, List.not_mem_nil, or_false, decide_eq_true_eq] at h ⊢
  tauto

theorem units_encoded {byte high low : UInt8} (hbyte : isUnreserved byte = true)
    (hhigh : hex high = some (byte.toNat / 16)) (hlow : hex low = some (byte.toNat % 16))
    (back : Bytes) : units (0x25 :: high :: low :: back) = units (byte :: back) := by
  rw [units_escape hhigh hlow, digits_eq, escapeUnit, UInt8.ofNat_toNat, if_pos hbyte,
    units_cons (isRegByte_ne_percent (isRegByte_of_isUnreserved hbyte))]

end Names

/-! ## Hosts -/

section Hosts

variable {host other value : Bytes}

theorem Literal.parse_brackets (value : Bytes) : Literal.parse (0x5b :: value ++ [0x5d]) =
    ((Parser.v6 value).map Literal.v6).or
      (if isFuture value then some (.future value) else none) := by
  have hlength : ¬(0x5b :: value ++ [0x5d]).length < 2 := by
    simp
  have hinner : ((0x5b :: value ++ [0x5d]).drop 1).take ((0x5b :: value ++ [0x5d]).length - 2) =
      value := by
    simp
  rw [Literal.parse, if_neg hlength]
  dsimp only
  rw [hinner]
  cases Parser.v6 value <;> rfl

theorem RegName.head_ne (h : RegName host) : host.head? ≠ some 0x5b := by
  intro hhead
  exact (h.chars.mem (List.mem_of_mem_head? hhead)).2.1 rfl

theorem RegName.hostKey_eq (h : RegName host) : hostKey host = some (.name (units host)) :=
  if_neg h.head_ne

theorem hostKey_brackets (value : Bytes) : hostKey (0x5b :: value ++ [0x5d]) =
    (((Parser.v6 value).map Literal.v6).or
      (if isFuture value then some (.future value) else none)).map Literal.key := by
  rw [hostKey, Literal.parse_brackets]
  exact if_pos rfl

theorem Host.exists_key (h : Host host) : ∃ key, hostKey host = some key := by
  rcases h with h | h
  · exact ⟨_, h.hostKey_eq⟩
  · rw [hostKey_brackets, ← Option.isSome_iff_exists, Option.isSome_map, Option.isSome_or,
      Option.isSome_map, Bool.or_eq_true]
    rcases h with h | ⟨groups, h⟩
    · right
      rw [if_pos (isFuture_iff.mpr h)]
      rfl
    · left
      rw [Parser.v6_iff.mpr h]
      rfl

theorem Host.recased (h : Host host) (hother : Recased host other) :
    Host other ∧ hostKey host = hostKey other := by
  rcases h with h | h
  · obtain ⟨hchars, hunits⟩ := h.chars.recased hother
    have hname : RegName other := ⟨hother.ne_nil h.ne_nil, hchars⟩
    refine ⟨.name hname, ?_⟩
    rw [h.hostKey_eq, hname.hostKey_eq, hunits]
  · obtain ⟨opening, behind, rfl, hclose⟩ := hother.append_cons (by decide)
    obtain ⟨hbody, hend⟩ := hclose
    obtain ⟨bracket, value', rfl, hbracket, hvalue⟩ := hbody.cons
    obtain rfl := eq_of_recased hbracket (by decide)
    obtain rfl := hend.nil
    refine ⟨.literal (h.recased hvalue), ?_⟩
    rw [hostKey_brackets, hostKey_brackets, v6_recased hvalue, isFuture_recased hvalue]
    -- a future literal is kept as it is written, and compared in lower case
    cases Parser.v6 value' with
    | some groups => rfl
    | none =>
      split
      next => exact congrArg (fun text => some (HostKey.future text)) hvalue
      next => rfl

/-- A plain character and its escape stand for each other. -/
theorem Host.encoded {front back : Bytes} {byte high low : UInt8} (hfront : RegChars front)
    (hbyte : isUnreserved byte = true) (hhigh : hex high = some (byte.toNat / 16))
    (hlow : hex low = some (byte.toNat % 16)) :
    (Host (front ++ byte :: back) ↔ Host (front ++ 0x25 :: high :: low :: back)) ∧
      (Host (front ++ byte :: back) →
        hostKey (front ++ byte :: back) = hostKey (front ++ 0x25 :: high :: low :: back)) := by
  have hreg := isRegByte_of_isUnreserved hbyte
  -- no part of a literal is meant
  have hname {first : UInt8} {rest : Bytes} (hfirst : first ≠ 0x5b) :
      Host (front ++ first :: rest) ↔ RegChars (first :: rest) := by
    constructor
    · generalize htext : front ++ first :: rest = text
      rintro (h | h)
      · rw [← htext] at h
        exact hfront.append_iff.mp h.chars
      · rcases front with _ | ⟨bracket, front⟩
        · exact absurd (List.cons.inj htext).1 hfirst
        · obtain rfl : bracket = 0x5b := (List.cons.inj htext).1
          exact absurd rfl (hfront.mem List.mem_cons_self).2.1
    · intro h
      exact .name ⟨by simp, hfront.append_iff.mpr h⟩
  have hplain := @hname byte back (isRegByte_ne hreg).2.1
  have hescape := @hname 0x25 (high :: low :: back) (by decide)
  have hchars : RegChars (byte :: back) ↔ RegChars (0x25 :: high :: low :: back) := by
    have hback : RegChars (byte :: back) ↔ RegChars back :=
      @RegChars.append_iff [byte] back (.plain hreg .nil)
    have hdigits : RegChars (0x25 :: high :: low :: back) ↔ RegChars back :=
      @RegChars.append_iff [0x25, high, low] back
        (.escape (isHexDigit_of_hex hhigh) (isHexDigit_of_hex hlow) .nil)
    rw [hback, hdigits]
  refine ⟨by rw [hplain, hescape, hchars], fun h => ?_⟩
  have hleft : RegName (front ++ byte :: back) :=
    ⟨by simp, hfront.append_iff.mpr (hplain.mp h)⟩
  have hright : RegName (front ++ 0x25 :: high :: low :: back) :=
    ⟨by simp, hfront.append_iff.mpr (hchars.mp (hplain.mp h))⟩
  rw [hleft.hostKey_eq, hright.hostKey_eq, units_append hfront, units_append hfront,
    units_encoded hbyte hhigh hlow]

end Hosts

/-! ## Ports -/

/-- The port that the scheme stands for. -/
def Scheme.defaultPort : Scheme → Option Bytes
  | .http => some [0x38, 0x30]
  | .https => some [0x34, 0x34, 0x33]
  | _ => Option.none

theorem drop_zeros {digits : Bytes} (hne : digits ≠ []) :
    (0x30 :: digits).drop
        (((0x30 :: digits).findIdx? (· ≠ 0x30)).getD ((0x30 :: digits).length - 1)) =
      digits.drop ((digits.findIdx? (· ≠ 0x30)).getD (digits.length - 1)) := by
  have hpos := List.length_pos_iff.mpr hne
  rw [List.findIdx?_cons, if_neg (by simp)]
  cases digits.findIdx? (· ≠ 0x30) with
  | some start => rfl
  | none =>
    have hlast : (0x30 :: digits).length - 1 = digits.length - 1 + 1 := by
      rw [List.length_cons]
      omega
    rw [Option.map_none, Option.getD_none, Option.getD_none, hlast, List.drop_succ_cons]

theorem normalizedPort_zeros {port : Bytes} (hport : port ≠ []) (zeros : ℕ) (scheme : Scheme) :
    normalizedPort (some (List.replicate zeros 0x30 ++ port)) scheme =
      normalizedPort (some port) scheme := by
  induction zeros with
  | zero => rfl
  | succ zeros ih =>
    have hne : List.replicate zeros 0x30 ++ port ≠ [] := by
      simp [hport]
    rw [← ih, List.replicate_succ, List.cons_append, normalizedPort, normalizedPort]
    dsimp only
    rw [if_neg (List.cons_ne_nil _ _), if_neg hne, drop_zeros hne]

theorem normalizedPort_default {scheme : Scheme} {port : Bytes}
    (h : scheme.defaultPort = some port) : normalizedPort (some port) scheme = none := by
  cases scheme with
  | none => exact absurd h (by simp [Scheme.defaultPort])
  | other => exact absurd h (by simp [Scheme.defaultPort])
  | http =>
    obtain rfl := Option.some.inj h
    rfl
  | https =>
    obtain rfl := Option.some.inj h
    rfl

/-! ## Authorities -/

namespace Authority

/-- An authority that a text stands for. -/
def IsValid (self : Authority) : Prop :=
  ∃ value, parse value = .ok self

theorem isValid_iff {self : Authority} : self.IsValid ↔
    Host self.host ∧ ∀ port ∈ self.port, ∀ byte ∈ port, isDigit byte = true := by
  obtain ⟨host, port⟩ := self
  constructor
  · rintro ⟨value, h⟩
    rw [parse_iff] at h
    rcases h with h | ⟨h, hport⟩
    · exact ⟨h, by simp⟩
    · exact ⟨h, by simpa using hport⟩
  · rintro ⟨hhost, hport⟩
    cases port with
    | none => exact ⟨_, parse_iff.mpr (.alone hhost)⟩
    | some port => exact ⟨_, parse_iff.mpr (.port hhost (hport port rfl))⟩

/-- An authority spelled in another way. -/
inductive Respelled (scheme : Scheme) : Authority → Authority → Prop
  | letters {host other : Bytes} {port : Option Bytes} (h : Recased host other) :
      Respelled scheme ⟨host, port⟩ ⟨other, port⟩
  /-- A character, and not a digit of an escape, is escaped. -/
  | encode {front back : Bytes} {byte high low : UInt8} {port : Option Bytes}
      (hfront : RegChars front) (hbyte : isUnreserved byte = true)
      (hhigh : hex high = some (byte.toNat / 16)) (hlow : hex low = some (byte.toNat % 16)) :
      Respelled scheme ⟨front ++ byte :: back, port⟩ ⟨front ++ 0x25 :: high :: low :: back, port⟩
  | decode {front back : Bytes} {byte high low : UInt8} {port : Option Bytes}
      (hbyte : isUnreserved byte = true) (hhigh : hex high = some (byte.toNat / 16))
      (hlow : hex low = some (byte.toNat % 16)) :
      Respelled scheme ⟨front ++ 0x25 :: high :: low :: back, port⟩ ⟨front ++ byte :: back, port⟩
  | addZeros {host port : Bytes} (hport : port ≠ []) (zeros : ℕ) :
      Respelled scheme ⟨host, some port⟩ ⟨host, some (List.replicate zeros 0x30 ++ port)⟩
  | removeZeros {host port : Bytes} (hport : port ≠ []) (zeros : ℕ) :
      Respelled scheme ⟨host, some (List.replicate zeros 0x30 ++ port)⟩ ⟨host, some port⟩
  | addPort {host port : Bytes} {bare : Option Bytes} (hbare : bare = none ∨ bare = some [])
      (hport : scheme.defaultPort = some port) : Respelled scheme ⟨host, bare⟩ ⟨host, some port⟩
  | removePort {host port : Bytes} {bare : Option Bytes} (hbare : bare = none ∨ bare = some [])
      (hport : scheme.defaultPort = some port) : Respelled scheme ⟨host, some port⟩ ⟨host, bare⟩

section Spellings

variable {scheme : Scheme} {left right : Authority}

theorem percent_notMem {value : Bytes} (h : IpLiteral value) : 0x25 ∉ value := by
  rcases h with h | ⟨groups, h⟩
  · obtain ⟨hfirst, -, hdigits, -, hbytes⟩ := h
    simp only [List.cons_append, List.mem_cons, List.mem_append, not_or]
    refine ⟨?_, fun hmem => absurd (hdigits _ hmem) (by decide), by decide,
      fun hmem => absurd (hbytes _ hmem) (by decide)⟩
    rcases hfirst with rfl | rfl <;> decide
  · intro hmem
    rcases h.bytes _ hmem with h | h | h <;> exact absurd h (by decide)

theorem regChars_of_host {front back : Bytes} {first second : UInt8}
    (h : Host (front ++ 0x25 :: first :: second :: back)) : RegChars front := by
  generalize htext : front ++ 0x25 :: first :: second :: back = text at h
  rcases h with h | h
  · subst htext
    exact h.chars.before_escape
  · rename_i value
    have hmem : 0x25 ∈ 0x5b :: value ++ [0x5d] := by
      rw [← htext]
      simp
    exact absurd (by simpa using hmem) (percent_notMem h)

theorem isSame_of_eq (hhost : hostKey left.host = hostKey right.host) (hleft : Host left.host)
    (hport : normalizedPort left.port scheme = normalizedPort right.port scheme) :
    isSame left right scheme = true := by
  obtain ⟨key, hkey⟩ := hleft.exists_key
  exact isSame_iff.mpr ⟨⟨key, hkey, hhost ▸ hkey⟩, hport⟩

/-- A spelling of a valid authority is valid and stands for the same. -/
theorem Respelled.valid (h : Respelled scheme left right) (hvalid : left.IsValid) :
    right.IsValid ∧ isSame left right scheme = true := by
  rw [isValid_iff] at hvalid ⊢
  obtain ⟨hhost, hdigits⟩ := hvalid
  cases h with
  | letters h =>
    obtain ⟨hother, hkey⟩ := hhost.recased h
    exact ⟨⟨hother, hdigits⟩, isSame_of_eq hkey hhost rfl⟩
  | encode hfront hbyte hhigh hlow =>
    obtain ⟨hiff, hkey⟩ := Host.encoded hfront hbyte hhigh hlow
    exact ⟨⟨hiff.mp hhost, hdigits⟩, isSame_of_eq (hkey hhost) hhost rfl⟩
  | decode hbyte hhigh hlow =>
    obtain ⟨hiff, hkey⟩ := Host.encoded (regChars_of_host hhost) hbyte hhigh hlow
    have hother := hiff.mpr hhost
    exact ⟨⟨hother, hdigits⟩, isSame_of_eq (hkey hother).symm hhost rfl⟩
  | addZeros hport zeros =>
    refine ⟨⟨hhost, ?_⟩, isSame_of_eq rfl hhost (normalizedPort_zeros hport zeros scheme).symm⟩
    simp only [Option.mem_some_iff, forall_eq'] at hdigits ⊢
    refine List.forall_mem_append.mpr ⟨fun byte hmem => ?_, hdigits⟩
    rw [List.eq_of_mem_replicate hmem]
    rfl
  | removeZeros hport zeros =>
    refine ⟨⟨hhost, ?_⟩, isSame_of_eq rfl hhost (normalizedPort_zeros hport zeros scheme)⟩
    simp only [Option.mem_some_iff, forall_eq'] at hdigits ⊢
    exact (List.forall_mem_append.mp hdigits).2
  | addPort hbare hport =>
    refine ⟨⟨hhost, ?_⟩, isSame_of_eq rfl hhost ?_⟩
    · simp only [Option.mem_some_iff, forall_eq']
      cases scheme with
      | none => exact absurd hport (by simp [Scheme.defaultPort])
      | other => exact absurd hport (by simp [Scheme.defaultPort])
      | http => exact Option.some.inj hport ▸ by decide +kernel
      | https => exact Option.some.inj hport ▸ by decide +kernel
    · rw [normalizedPort_default hport]
      rcases hbare with rfl | rfl <;> rfl
  | removePort hbare hport =>
    refine ⟨⟨hhost, ?_⟩, isSame_of_eq rfl hhost ?_⟩
    · rcases hbare with rfl | rfl <;> simp
    · rw [normalizedPort_default hport]
      rcases hbare with rfl | rfl <;> rfl

end Spellings

/-- For every scheme, sameness is an equivalence of the valid authorities, and another spelling of
a valid authority is valid and the same. -/
theorem respelled (scheme : Scheme) :
    Equivalence (fun left right : { self : Authority // self.IsValid } =>
      isSame left.1 right.1 scheme = true) ∧
    ∀ left right, IsValid left → Respelled scheme left right →
      IsValid right ∧ isSame left right scheme = true := by
  refine ⟨⟨fun self => ?_, isSame_symm, isSame_trans⟩, fun left right hvalid h => h.valid hvalid⟩
  exact isSame_of_eq rfl (isValid_iff.mp self.2).1 rfl

/-- `EX.com:080` and `ex%2ecom`. -/
theorem respelled_example :
    isSame ⟨[0x45, 0x58, 0x2e, 0x63, 0x6f, 0x6d], some [0x30, 0x38, 0x30]⟩
      ⟨[0x45, 0x58, 0x25, 0x32, 0x65, 0x63, 0x6f, 0x6d], some [0x30, 0x38, 0x30]⟩ .http = true := by
  have hvalid : IsValid ⟨[0x45, 0x58, 0x2e, 0x63, 0x6f, 0x6d], some [0x30, 0x38, 0x30]⟩ :=
    ⟨[0x45, 0x58, 0x2e, 0x63, 0x6f, 0x6d, 0x3a, 0x30, 0x38, 0x30], by decide +kernel⟩
  have hspelled : Respelled .http ⟨[0x45, 0x58, 0x2e, 0x63, 0x6f, 0x6d], some [0x30, 0x38, 0x30]⟩
      ⟨[0x45, 0x58, 0x25, 0x32, 0x65, 0x63, 0x6f, 0x6d], some [0x30, 0x38, 0x30]⟩ :=
    @Respelled.encode _ [0x45, 0x58] [0x63, 0x6f, 0x6d] 0x2e 0x32 0x65 _
      (.plain (by decide) (.plain (by decide) .nil)) (by decide) (by decide) (by decide)
  exact ((respelled .http).2 _ _ hvalid hspelled).2

end Authority

end Sark.Uri
