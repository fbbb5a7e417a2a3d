import Sark.Http.H1.Value
import Sark.Library.Separator

/-!
# IP literals

The address parser of the URI module (`http/src/uri/parser`). An IPv4 address is four decimal octets
without leading zeros; an IPv6 address is eight groups of hexadecimal digits, of which one run may
be left out between two colons and the last two may be written as an IPv4 address.

* `Parser.v4_iff`: the dotted quads, with the octets that they denote.
* `Parser.v6_iff`: the IPv6 addresses, with the groups that they denote.
-/

namespace Sark.Uri

/-- `b'0'..=b'9'`. -/
def isDigit (byte : UInt8) : Bool :=
  0x30 ≤ byte && byte ≤ 0x39

/-- `text::hex`. -/
def hex (byte : UInt8) : Option ℕ :=
  if 0x30 ≤ byte ∧ byte ≤ 0x39 then some (byte.toNat - 0x30)
  else if 0x61 ≤ byte ∧ byte ≤ 0x66 then some (byte.toNat - 0x61 + 10)
  else if 0x41 ≤ byte ∧ byte ≤ 0x46 then some (byte.toNat - 0x41 + 10)
  else none

namespace Parser

/-! ## The parser -/

/-- The loop of `Parser::v4`: three octets are written as they end, the fourth at the end. -/
def v4Loop (octets : List ℕ) (digits octet : ℕ) : Bytes → Option (List ℕ)
  | [] => if octets.length ≠ 3 ∨ digits = 0 then none else some (octets ++ [octet])
  | byte :: rest =>
    if isDigit byte then
      if digits ≠ 0 ∧ octet = 0 then none
      else if 3 < digits + 1 then none
      else if 255 < octet * 10 + (byte.toNat - 0x30) then none
      else v4Loop octets (digits + 1) (octet * 10 + (byte.toNat - 0x30)) rest
    else if byte = 0x2e then
      if digits = 0 then none
      else if octets.length = 3 then none
      else v4Loop (octets ++ [octet]) 0 0 rest
    else none

/-- `Parser::v4`. -/
def v4 (value : Bytes) : Option (List ℕ) :=
  v4Loop [] 0 0 value

/-- `Parser::word`. -/
def word (value : Bytes) : Option ℕ :=
  if value = [] ∨ 4 < value.length then none
  else value.foldlM (fun word byte => (hex byte).map (word <<< 4 ||| ·)) 0

/-- `u16::from_be_bytes` of the octets of an IPv4 address. -/
def pair : List ℕ → Option (ℕ × ℕ)
  | [a, b, c, d] => some (a * 256 + b, c * 256 + d)
  | _ => none

/-- The loop of `Parser::v6`: the groups that were written, and where the omitted ones belong. -/
def v6Loop (words : List ℕ) (gap : Option ℕ) (value : Bytes) : Option (List ℕ × Option ℕ) :=
  if value = [] then some (words, gap)
  else if words.length = 8 then none
  else
    let part := value.takeWhile (· ≠ 0x3a)
    if 0x2e ∈ part then
      if value.dropWhile (· ≠ 0x3a) ≠ [] then none
      else if words.length + 1 = 8 then none
      else ((v4 part).bind pair).map fun tail => (words ++ [tail.1, tail.2], gap)
    else
      match word part with
      | none => none
      | some found =>
        match _ : value.dropWhile (· ≠ 0x3a) with
        | [] => some (words ++ [found], gap)
        | _ :: rest =>
          if rest.head? = some 0x3a then
            if gap.isSome then none
            else v6Loop (words ++ [found]) (some (words.length + 1)) rest.tail
          else if rest = [] then none
          else v6Loop (words ++ [found]) gap rest
termination_by value.length
decreasing_by
  all_goals
    have hbehind := List.length_dropWhile_le (· ≠ 0x3a) value
    simp only [*, List.length_cons, List.length_tail] at hbehind ⊢
    omega

/-- `raw::expand`: the groups behind the gap move to the end. -/
def expand (words : List ℕ) (gap : ℕ) : List ℕ :=
  words.take gap ++ List.replicate (8 - words.length) 0 ++ words.drop gap

/-- `Parser::v6` up to the end of its loop: a colon in front must be one of two. -/
def v6Words (value : Bytes) : Option (List ℕ × Option ℕ) :=
  if [0x3a, 0x3a] <+: value then v6Loop [] (some 0) (value.drop 2)
  else if [0x3a] <+: value then none
  else v6Loop [] none value

/-- `Parser::v6`. -/
def v6 (value : Bytes) : Option (List ℕ) :=
  match v6Words value with
  | none => none
  | some (words, some gap) => if 8 ≤ words.length then none else some (expand words gap)
  | some (words, none) => if words.length ≠ 8 then none else some words

end Parser

/-! ## The grammar -/

/-- The number that decimal digits denote. -/
def decimal (digits : Bytes) : ℕ :=
  digits.foldl (fun value byte => value * 10 + (byte.toNat - 0x30)) 0

/-- Decimal digits without a leading zero. -/
structure Plain (part : Bytes) : Prop where
  digits : ∀ byte ∈ part, isDigit byte = true
  leading : ∀ rest, part = 0x30 :: rest → rest = []

/-- `dec-octet`: a decimal number up to 255 without a leading zero. -/
structure DecOctet (part : Bytes) (octet : ℕ) : Prop where
  ne_nil : part ≠ []
  plain : Plain part
  octet_eq : octet = decimal part
  octet_le : octet ≤ 255

/-- Decimal octets between dots. -/
inductive Quads : Bytes → List ℕ → Prop
  | last {part : Bytes} {octet : ℕ} (h : DecOctet part octet) : Quads part [octet]
  | more {part rest : Bytes} {octet : ℕ} {octets : List ℕ} (h : DecOctet part octet)
      (hrest : Quads rest octets) : Quads (part ++ 0x2e :: rest) (octet :: octets)

/-! ### Decimal octets -/

theorem decimal_append (lead more : Bytes) :
    decimal (lead ++ more) = decimal lead * 10 ^ more.length + decimal more := by
  have hfold (value : ℕ) : more.foldl (fun value byte => value * 10 + (byte.toNat - 0x30)) value =
      value * 10 ^ more.length + decimal more := by
    unfold decimal
    induction more generalizing value with
    | nil => simp
    | cons byte more ih =>
      rw [List.foldl_cons, List.foldl_cons, ih, ih (0 * 10 + _), List.length_cons, pow_succ]
      ring
  rw [decimal, List.foldl_append, hfold]
  rfl

theorem decimal_concat (digits : Bytes) (byte : UInt8) :
    decimal (digits ++ [byte]) = decimal digits * 10 + (byte.toNat - 0x30) := by
  rw [decimal, List.foldl_append]
  rfl

theorem isDigit_iff {byte : UInt8} : isDigit byte = true ↔ 48 ≤ byte.toNat ∧ byte.toNat ≤ 57 := by
  simp [isDigit, UInt8.le_iff_toNat_le]

namespace Plain

theorem of_append {lead more : Bytes} (h : Plain (lead ++ more)) : Plain lead where
  digits byte hbyte := h.digits byte (List.mem_append_left _ hbyte)
  leading rest hlead := by
    subst hlead
    exact (List.append_eq_nil_iff.mp (h.leading _ rfl)).1

theorem pow_le_decimal {byte : UInt8} {rest : Bytes} (h : Plain (byte :: rest))
    (hrest : rest ≠ []) : 10 ^ rest.length ≤ decimal (byte :: rest) := by
  have hdigit := isDigit_iff.mp (h.digits byte (by simp))
  have hne : byte.toNat ≠ 48 := by
    intro hzero
    have hbyte : byte = 0x30 := UInt8.toNat_inj.mp hzero
    exact hrest (h.leading rest (by rw [hbyte]))
  rw [show byte :: rest = [byte] ++ rest from rfl, decimal_append]
  have hone : 1 ≤ decimal [byte] := by
    simp only [decimal, List.foldl_cons, List.foldl_nil]
    omega
  nlinarith [Nat.one_le_pow rest.length 10 (by norm_num)]

theorem length_le {part : Bytes} (h : Plain part) (hvalue : decimal part ≤ 255) :
    part.length ≤ 3 := by
  cases part with
  | nil => simp
  | cons byte rest =>
    by_contra hlength
    rw [List.length_cons] at hlength
    have hpow := h.pow_le_decimal (by rintro rfl; simp at hlength)
    have := Nat.pow_le_pow_right (show 0 < 10 by norm_num) (show 3 ≤ rest.length by omega)
    omega

theorem decimal_eq_zero_iff {part : Bytes} (h : Plain part) (hne : part ≠ []) :
    decimal part = 0 ↔ part = [0x30] := by
  obtain ⟨byte, rest, rfl⟩ := List.exists_cons_of_ne_nil hne
  constructor
  · intro hzero
    have hrest : rest = [] := by
      by_contra hrest
      have := h.pow_le_decimal hrest
      have := Nat.one_le_pow rest.length 10 (by norm_num)
      omega
    subst hrest
    have hdigit := isDigit_iff.mp (h.digits byte (by simp))
    simp only [decimal, List.foldl_cons, List.foldl_nil] at hzero
    rw [show byte = 0x30 from UInt8.toNat_inj.mp (by simp; omega)]
  · rintro heq
    rw [heq]
    rfl

theorem concat_iff {part : Bytes} (h : Plain part) {byte : UInt8} (hbyte : isDigit byte = true) :
    Plain (part ++ [byte]) ↔ ¬(part.length ≠ 0 ∧ decimal part = 0) := by
  by_cases hnil : part = []
  · subst hnil
    simp only [List.nil_append, List.length_nil, ne_eq, not_true_eq_false, false_and,
      not_false_eq_true, iff_true]
    exact ⟨by simpa using hbyte, by simp⟩
  · rw [h.decimal_eq_zero_iff hnil]
    simp only [ne_eq, List.length_eq_zero_iff, hnil, not_false_eq_true, true_and]
    constructor
    · rintro hplain rfl
      exact absurd (hplain.leading [byte] rfl) (by simp)
    · intro hzero
      refine ⟨?_, fun rest heq => ?_⟩
      · simpa [or_imp, forall_and, hbyte] using h.digits
      · obtain ⟨first, tail, rfl⟩ := List.exists_cons_of_ne_nil hnil
        obtain ⟨rfl, -⟩ := List.cons.inj heq
        exact absurd (by rw [h.leading tail rfl]) hzero

end Plain

/-! ### Dotted quads -/

theorem Plain.dot_notMem {part : Bytes} (h : Plain part) : 0x2e ∉ part := by
  intro hmem
  exact absurd (h.digits _ hmem) (by decide)

theorem plain_nil : Plain [] :=
  ⟨by simp, by simp⟩

theorem Quads.length_pos {text : Bytes} {octets : List ℕ} (h : Quads text octets) :
    0 < octets.length := by
  cases h with
  | last => simp
  | more => simp

theorem Quads.first {done rest : Bytes} {byte : UInt8} {octets : List ℕ} (hdone : 0x2e ∉ done)
    (hbyte : byte ≠ 0x2e) (h : Quads (done ++ byte :: rest) octets) :
    ∃ more octet, DecOctet (done ++ byte :: more) octet := by
  generalize htext : done ++ byte :: rest = text at h
  cases h with
  | last h => exact ⟨rest, _, htext ▸ h⟩
  | @more part rest' octet octets h hrest =>
    rcases List.append_eq_append_iff.mp htext with ⟨tail, rfl, htail⟩ | ⟨tail, rfl, htail⟩
    · -- the octet ends behind the byte
      cases tail with
      | nil => exact absurd (List.cons.inj htail).1 hbyte
      | cons first tail =>
        obtain ⟨rfl, -⟩ := List.cons.inj htail
        exact ⟨tail, octet, h⟩
    · -- it cannot end before it
      cases tail with
      | nil => exact absurd (List.cons.inj htail).1.symm hbyte
      | cons first tail =>
        obtain ⟨rfl, -⟩ := List.cons.inj htail
        exact absurd (by simp) hdone

theorem quads_iff_of_plain {done : Bytes} (hdone : Plain done) {octets : List ℕ} :
    Quads done octets ↔ ∃ octet, DecOctet done octet ∧ octets = [octet] := by
  constructor
  · intro h
    cases h with
    | last h => exact ⟨_, h, rfl⟩
    | more h hrest => exact absurd (by simp) hdone.dot_notMem
  · rintro ⟨octet, h, rfl⟩
    exact .last h

theorem quads_dot_iff {done rest : Bytes} (hdone : 0x2e ∉ done) {octets : List ℕ} :
    Quads (done ++ 0x2e :: rest) octets ↔
      ∃ octet octets', DecOctet done octet ∧ Quads rest octets' ∧ octets = octet :: octets' := by
  constructor
  · intro h
    generalize htext : done ++ 0x2e :: rest = text at h
    cases h with
    | last h =>
      subst htext
      exact absurd (by simp) h.plain.dot_notMem
    | more h hrest =>
      obtain ⟨rfl, rfl⟩ := eq_of_append_cons_eq hdone h.plain.dot_notMem htext
      exact ⟨_, _, h, hrest, rfl⟩
  · rintro ⟨octet, octets', h, hrest, rfl⟩
    exact .more h hrest

namespace Parser

/-- The rest of an address, behind the digits of the octet that is being read. -/
theorem v4Loop_iff {octets result : List ℕ} {done text : Bytes} (hdone : Plain done)
    (hvalue : decimal done ≤ 255) (hoctets : octets.length ≤ 3) :
    v4Loop octets done.length (decimal done) text = some result ↔
      ∃ found, Quads (done ++ text) found ∧ result = octets ++ found ∧ result.length = 4 := by
  induction text generalizing octets done with
  | nil =>
    rw [v4Loop, List.append_nil, Option.ite_none_left_eq_some]
    simp only [quads_iff_of_plain hdone, not_or, not_not, List.length_eq_zero_iff,
      Option.some.injEq]
    constructor
    · rintro ⟨⟨hthree, hne⟩, rfl⟩
      exact ⟨[decimal done], ⟨_, ⟨hne, hdone, rfl, hvalue⟩, rfl⟩, rfl, by simp [hthree]⟩
    · rintro ⟨_, ⟨octet, h, rfl⟩, rfl, hlength⟩
      rw [h.octet_eq, and_comm]
      refine ⟨rfl, ?_, h.ne_nil⟩
      simpa using hlength
  | cons byte rest ih =>
    rw [v4Loop]
    split
    next hdigit =>
      have hdot : byte ≠ 0x2e := by
        rintro rfl
        contradiction
      rw [show done ++ byte :: rest = (done ++ [byte]) ++ rest by simp]
      -- the digit is taken exactly if it may follow the others
      by_cases hnext : Plain (done ++ [byte]) ∧ decimal (done ++ [byte]) ≤ 255
      · have hlength := hnext.1.length_le hnext.2
        rw [List.length_append, List.length_singleton] at hlength
        have hconcat := decimal_concat done byte
        have := ih hnext.1 hnext.2 hoctets
        rw [List.length_append, List.length_singleton, hconcat] at this
        rw [if_neg ((hdone.concat_iff hdigit).mp hnext.1), if_neg (by omega), if_neg (by omega)]
        exact this
      · refine iff_of_false ?_ ?_
        · rw [hdone.concat_iff hdigit, decimal_concat] at hnext
          split_ifs with hzero hfour hlarge
          · simp
          · simp
          · simp
          · exact absurd ⟨hzero, not_lt.mp hlarge⟩ hnext
        · rintro ⟨found, hquads, -, -⟩
          rw [List.append_assoc, List.singleton_append] at hquads
          obtain ⟨more, octet, h⟩ := hquads.first hdone.dot_notMem hdot
          rw [show done ++ byte :: more = (done ++ [byte]) ++ more by simp] at h
          refine hnext ⟨h.plain.of_append, ?_⟩
          have := h.octet_le
          rw [h.octet_eq, decimal_append] at this
          nlinarith [Nat.one_le_pow more.length 10 (by norm_num)]
    next hdigit =>
      split
      next hdot =>
        subst hdot
        simp only [quads_dot_iff hdone.dot_notMem]
        by_cases hnil : done = []
        · rw [if_pos (by simp [hnil])]
          refine iff_of_false (by simp) ?_
          rintro ⟨found, ⟨octet, octets', h, -⟩, -⟩
          exact h.ne_nil hnil
        · rw [if_neg (by simpa using hnil)]
          have hoctet : DecOctet done (decimal done) := ⟨hnil, hdone, rfl, hvalue⟩
          by_cases hthree : octets.length = 3
          · rw [if_pos hthree]
            refine iff_of_false (by simp) ?_
            rintro ⟨_, ⟨octet, octets', -, hrest, rfl⟩, rfl, hlength⟩
            have := hrest.length_pos
            simp only [List.length_append, List.length_cons] at hlength
            omega
          · rw [if_neg hthree]
            have hrest := @ih (octets ++ [decimal done]) [] plain_nil (Nat.zero_le _)
              (by rw [List.length_append, List.length_singleton]; omega)
            rw [show decimal [] = 0 from rfl, List.length_nil, List.nil_append] at hrest
            rw [hrest]
            constructor
            · rintro ⟨found, hquads, rfl, hlength⟩
              exact ⟨_, ⟨_, found, hoctet, hquads, rfl⟩, by simp, hlength⟩
            · rintro ⟨_, ⟨octet, octets', h, hquads, rfl⟩, rfl, hlength⟩
              obtain rfl := h.octet_eq
              exact ⟨octets', hquads, by simp, hlength⟩
      next hdot =>
        refine iff_of_false (by simp) ?_
        rintro ⟨found, hquads, -, -⟩
        obtain ⟨more, octet, h⟩ := hquads.first hdone.dot_notMem hdot
        exact hdigit (h.plain.digits byte (by simp))

/-- An address of four octets is parsed as what it denotes, and nothing else is parsed. -/
theorem v4_iff {value : Bytes} {octets : List ℕ} :
    v4 value = some octets ↔ Quads value octets ∧ octets.length = 4 := by
  have h := @v4Loop_iff [] octets [] value plain_nil (Nat.zero_le _) (Nat.zero_le _)
  rw [show decimal [] = 0 from rfl, List.length_nil, List.nil_append] at h
  rw [v4, h]
  constructor
  · rintro ⟨found, hquads, rfl, hlength⟩
    exact ⟨hquads, hlength⟩
  · rintro ⟨hquads, hlength⟩
    exact ⟨octets, hquads, rfl, hlength⟩

end Parser

/-! ## IPv6 addresses -/

/-- `h16`: one to four hexadecimal digits. -/
structure Hextet (part : Bytes) (group : ℕ) : Prop where
  ne_nil : part ≠ []
  length_le : part.length ≤ 4
  digits : ∃ digits, part.mapM hex = some digits ∧
    group = digits.foldl (fun value digit => value * 16 + digit) 0

/-- The two groups that an IPv4 address stands for. -/
structure Tail (part : Bytes) (high low : ℕ) : Prop where
  octets : ∃ a b c d, Quads part [a, b, c, d] ∧ high = a * 256 + b ∧ low = c * 256 + d

/-- Groups between colons. -/
inductive Hextets : Bytes → List ℕ → Prop
  | last {part : Bytes} {group : ℕ} (h : Hextet part group) : Hextets part [group]
  | more {part rest : Bytes} {group : ℕ} {groups : List ℕ} (h : Hextet part group)
      (hrest : Hextets rest groups) : Hextets (part ++ 0x3a :: rest) (group :: groups)

/-- Groups between colons, of which the last two may be written as an IPv4 address. -/
inductive Groups : Bytes → List ℕ → Prop
  | last {part : Bytes} {group : ℕ} (h : Hextet part group) : Groups part [group]
  | tail {part : Bytes} {high low : ℕ} (h : Tail part high low) : Groups part [high, low]
  | more {part rest : Bytes} {group : ℕ} {groups : List ℕ} (h : Hextet part group)
      (hrest : Groups rest groups) : Groups (part ++ 0x3a :: rest) (group :: groups)

/-- Groups in front of the omitted ones, or nothing. -/
inductive Left : Bytes → List ℕ → Prop
  | nil : Left [] []
  | groups {text : Bytes} {groups : List ℕ} (h : Hextets text groups) : Left text groups

/-- Groups behind the omitted ones, or nothing. -/
inductive Right : Bytes → List ℕ → Prop
  | nil : Right [] []
  | groups {text : Bytes} {groups : List ℕ} (h : Groups text groups) : Right text groups

/-- `IPv6address` and the eight groups that it denotes: all of them are written, or a run of at
least one is omitted between two colons. -/
inductive Address : Bytes → List ℕ → Prop
  | full {text : Bytes} {groups : List ℕ} (h : Groups text groups) (hlength : groups.length = 8) :
      Address text groups
  | omitted {left right : Bytes} {before behind : List ℕ} (hleft : Left left before)
      (hright : Right right behind) (hlength : before.length + behind.length ≤ 7) :
      Address (left ++ 0x3a :: 0x3a :: right)
        (before ++ List.replicate (8 - before.length - behind.length) 0 ++ behind)

/-- The number that the groups of an address are the digits of. -/
def denoted (base : ℕ) (digits : List ℕ) : ℕ :=
  digits.foldl (fun value digit => value * base + digit) 0

/-! ### Groups of digits -/

theorem hex_lt {byte : UInt8} {digit : ℕ} (h : hex byte = some digit) : digit < 16 := by
  simp only [hex, UInt8.le_iff_toNat_le, UInt8.reduceToNat] at h
  split_ifs at h <;> simp only [Option.some.injEq] at h <;> omega

theorem hex_ne {byte : UInt8} {digit : ℕ} (h : hex byte = some digit) :
    byte ≠ 0x2e ∧ byte ≠ 0x3a := by
  constructor <;> rintro rfl <;> simp [hex] at h

theorem foldlM_hex (part : Bytes) (value : ℕ) :
    part.foldlM (fun word byte => (hex byte).map (word <<< 4 ||| ·)) value =
      (part.mapM hex).map fun digits =>
        digits.foldl (fun value digit => value * 16 + digit) value := by
  induction part generalizing value with
  | nil => simp
  | cons byte part ih =>
    rw [List.foldlM_cons, List.mapM_cons]
    cases h : hex byte with
    | none => rfl
    | some digit =>
      have hshift : value <<< 4 ||| digit = value * 16 + digit := by
        rw [← Nat.shiftLeft_add_eq_or_of_lt (hex_lt h), Nat.shiftLeft_eq]
      simp only [Option.map_some, Option.bind_eq_bind, Option.bind_some, hshift, ih]
      cases part.mapM hex with
      | none => rfl
      | some digits => rfl

theorem Hextet.mem {part : Bytes} {group : ℕ} (h : Hextet part group) {byte : UInt8}
    (hbyte : byte ∈ part) : byte ≠ 0x2e ∧ byte ≠ 0x3a := by
  obtain ⟨digits, hdigits, -⟩ := h.digits
  clear h
  induction part generalizing digits with
  | nil => simp at hbyte
  | cons first part ih =>
    simp only [List.mapM_cons, Option.bind_eq_bind, Option.bind_eq_some_iff] at hdigits
    obtain ⟨digit, hfirst, digits, hpart, -⟩ := hdigits
    rcases List.mem_cons.mp hbyte with rfl | hbyte
    · exact hex_ne hfirst
    · exact ih hbyte digits hpart

theorem Hextet.dot_notMem {part : Bytes} {group : ℕ} (h : Hextet part group) : 0x2e ∉ part :=
  fun hmem => (h.mem hmem).1 rfl

theorem Hextet.colon_notMem {part : Bytes} {group : ℕ} (h : Hextet part group) : 0x3a ∉ part :=
  fun hmem => (h.mem hmem).2 rfl

theorem Quads.colon_notMem {text : Bytes} {octets : List ℕ} (h : Quads text octets) :
    0x3a ∉ text := by
  have hdigits {part : Bytes} (hplain : Plain part) : 0x3a ∉ part := fun hmem =>
    absurd (hplain.digits _ hmem) (by decide)
  induction h with
  | last h => exact hdigits h.plain
  | more h hrest ih =>
    simp only [List.mem_append, List.mem_cons, not_or]
    exact ⟨hdigits h.plain, by decide, ih⟩

theorem Tail.colon_notMem {part : Bytes} {high low : ℕ} (h : Tail part high low) :
    0x3a ∉ part := by
  obtain ⟨a, b, c, d, hquads, -⟩ := h.octets
  exact hquads.colon_notMem

theorem Tail.dot_mem {part : Bytes} {high low : ℕ} (h : Tail part high low) : 0x2e ∈ part := by
  obtain ⟨a, b, c, d, hquads, -⟩ := h.octets
  cases hquads with
  | more h hrest => simp

namespace Parser

theorem word_iff {part : Bytes} {group : ℕ} : word part = some group ↔ Hextet part group := by
  rw [word, Option.ite_none_left_eq_some, foldlM_hex, Option.map_eq_some_iff, not_or, not_lt]
  constructor
  · rintro ⟨⟨hne, hlength⟩, digits, hdigits, rfl⟩
    exact ⟨hne, hlength, digits, hdigits, rfl⟩
  · rintro ⟨hne, hlength, digits, hdigits, rfl⟩
    exact ⟨⟨hne, hlength⟩, digits, hdigits, rfl⟩

theorem tail_iff {part : Bytes} {high low : ℕ} :
    (v4 part).bind pair = some (high, low) ↔ Tail part high low := by
  rw [Option.bind_eq_some_iff]
  constructor
  · rintro ⟨octets, hoctets, hpair⟩
    rw [v4_iff] at hoctets
    obtain ⟨hquads, hlength⟩ := hoctets
    obtain ⟨a, b, c, d, rfl⟩ := List.length_eq_four.mp hlength
    simp only [pair, Option.some.injEq, Prod.mk.injEq] at hpair
    exact ⟨a, b, c, d, hquads, hpair.1.symm, hpair.2.symm⟩
  · rintro ⟨a, b, c, d, hquads, rfl, rfl⟩
    exact ⟨[a, b, c, d], v4_iff.mpr ⟨hquads, rfl⟩, rfl⟩

/-! ### The loop -/

theorem v6Loop_last {words : List ℕ} {gap : Option ℕ} {part : Bytes} (hne : part ≠ [])
    (hcolon : 0x3a ∉ part) :
    v6Loop words gap part =
      if words.length = 8 then none
      else if 0x2e ∈ part then
        if words.length + 1 = 8 then none
        else ((v4 part).bind pair).map fun tail => (words ++ [tail.1, tail.2], gap)
      else (word part).map fun found => (words ++ [found], gap) := by
  have hall : ∀ byte ∈ part, decide (byte ≠ 0x3a) = true := by
    rintro byte hbyte
    simpa using ne_of_mem_of_not_mem hbyte hcolon
  have htake : part.takeWhile (· ≠ 0x3a) = part := List.takeWhile_eq_self_iff.mpr hall
  have hdrop : part.dropWhile (· ≠ 0x3a) = [] := List.dropWhile_eq_nil_iff.mpr hall
  rw [v6Loop, if_neg hne]
  simp only [htake]
  congr 1
  split
  next => rw [if_neg (not_not.mpr hdrop)]
  next =>
    cases word part with
    | none => rfl
    | some found =>
      dsimp only
      split
      next => rfl
      next hmore => exact absurd (hdrop.symm.trans hmore) (by simp)

theorem v6Loop_more {words : List ℕ} {gap : Option ℕ} {part rest : Bytes} (hcolon : 0x3a ∉ part) :
    v6Loop words gap (part ++ 0x3a :: rest) =
      if words.length = 8 then none
      else if 0x2e ∈ part then none
      else (word part).bind fun found =>
        if rest.head? = some 0x3a then
          if gap.isSome then none else v6Loop (words ++ [found]) (some (words.length + 1)) rest.tail
        else if rest = [] then none
        else v6Loop (words ++ [found]) gap rest := by
  have hall : ∀ byte ∈ part, decide (byte ≠ 0x3a) = true := by
    rintro byte hbyte
    simpa using ne_of_mem_of_not_mem hbyte hcolon
  have htake : (part ++ 0x3a :: rest).takeWhile (· ≠ 0x3a) = part := by
    rw [List.takeWhile_append_of_pos hall, List.takeWhile_cons_of_neg (by simp), List.append_nil]
  have hdrop : (part ++ 0x3a :: rest).dropWhile (· ≠ 0x3a) = 0x3a :: rest := by
    rw [List.dropWhile_append_of_pos hall, List.dropWhile_cons_of_neg (by simp)]
  rw [v6Loop, if_neg (by simp)]
  simp only [htake]
  congr 1
  split
  next => rw [if_pos (by rw [hdrop]; simp)]
  next =>
    cases word part with
    | none => rfl
    | some found =>
      rw [Option.bind_some]
      dsimp only
      split
      next hnil => exact absurd (hdrop.symm.trans hnil) (by simp)
      next hmore =>
        obtain ⟨-, rfl⟩ := List.cons.inj (hdrop.symm.trans hmore)
        rfl

end Parser

/-- The groups that are read after `count` others, and the place of the omitted ones. -/
inductive Rest : ℕ → Option ℕ → Bytes → List ℕ → Option ℕ → Prop
  | nil {count : ℕ} {gap : Option ℕ} : Rest count gap [] [] gap
  | last {count : ℕ} {gap : Option ℕ} {part : Bytes} {group : ℕ} (h : Hextet part group) :
      Rest count gap part [group] gap
  | tail {count : ℕ} {gap : Option ℕ} {part : Bytes} {high low : ℕ} (h : Tail part high low) :
      Rest count gap part [high, low] gap
  | more {count : ℕ} {gap gap' : Option ℕ} {part rest : Bytes} {group : ℕ} {groups : List ℕ}
      (h : Hextet part group) (hne : rest ≠ []) (hcolon : rest.head? ≠ some 0x3a)
      (hrest : Rest (count + 1) gap rest groups gap') :
      Rest count gap (part ++ 0x3a :: rest) (group :: groups) gap'
  | skip {count : ℕ} {gap' : Option ℕ} {part rest : Bytes} {group : ℕ} {groups : List ℕ}
      (h : Hextet part group) (hrest : Rest (count + 1) (some (count + 1)) rest groups gap') :
      Rest count none (part ++ 0x3a :: 0x3a :: rest) (group :: groups) gap'

namespace Rest

/-- The loop reads what the grammar has, as long as eight groups hold it. -/
theorem v6Loop {words groups : List ℕ} {gap gap' : Option ℕ} {text : Bytes}
    (h : Rest words.length gap text groups gap') (hlength : words.length + groups.length ≤ 8) :
    Parser.v6Loop words gap text = some (words ++ groups, gap') := by
  generalize hcount : words.length = count at h
  induction h generalizing words with
  | nil => rw [Parser.v6Loop, if_pos rfl, List.append_nil]
  | last h =>
    rw [List.length_singleton] at hlength
    rw [Parser.v6Loop_last h.ne_nil h.colon_notMem, if_neg (by omega), if_neg h.dot_notMem,
      Parser.word_iff.mpr h]
    rfl
  | tail h =>
    simp only [List.length_cons, List.length_nil] at hlength
    rw [Parser.v6Loop_last (List.ne_nil_of_mem h.dot_mem) h.colon_notMem, if_neg (by omega),
      if_pos h.dot_mem, if_neg (by omega), Parser.tail_iff.mpr h]
    rfl
  | more h hne hcolon hrest ih =>
    rename_i group groups
    rw [List.length_cons] at hlength
    rw [Parser.v6Loop_more h.colon_notMem, if_neg (by omega), if_neg h.dot_notMem,
      Parser.word_iff.mpr h, Option.bind_some, if_neg hcolon, if_neg hne,
      ih (by rw [List.length_append, List.length_singleton]; omega) (by simp [hcount])]
    simp
  | skip h hrest ih =>
    rename_i group groups
    rw [List.length_cons] at hlength
    rw [Parser.v6Loop_more h.colon_notMem, if_neg (by omega), if_neg h.dot_notMem,
      Parser.word_iff.mpr h, Option.bind_some, if_pos List.head?_cons,
      if_neg (by simp), List.tail_cons, hcount,
      ih (by rw [List.length_append, List.length_singleton]; omega) (by simp [hcount])]
    simp

/-- What the loop reads is of the grammar, and eight groups hold it. -/
theorem of_v6Loop {words words' : List ℕ} {gap gap' : Option ℕ} {text : Bytes}
    (hwords : words.length ≤ 8) (h : Parser.v6Loop words gap text = some (words', gap')) :
    ∃ groups, words' = words ++ groups ∧ words'.length ≤ 8 ∧
      Rest words.length gap text groups gap' := by
  -- over the length of the text, since the loop drops a whole part at each turn
  induction hsize : text.length using Nat.strong_induction_on generalizing words gap text with
  | _ size ih =>
  by_cases hnil : text = []
  · subst hnil
    rw [Parser.v6Loop, if_pos rfl, Option.some.injEq, Prod.mk.injEq] at h
    obtain ⟨rfl, rfl⟩ := h
    exact ⟨[], by simp, hwords, .nil⟩
  by_cases hmem : 0x3a ∈ text
  · obtain ⟨part, rest, rfl, hcolon⟩ := List.eq_append_cons_of_mem hmem
    rw [Parser.v6Loop_more hcolon, Option.ite_none_left_eq_some, Option.ite_none_left_eq_some,
      Option.bind_eq_some_iff] at h
    obtain ⟨hfull, -, found, hword, h⟩ := h
    have hextet := Parser.word_iff.mp hword
    have hlength : (words ++ [found]).length = words.length + 1 := by simp
    simp only [List.length_append, List.length_cons] at hsize
    split at h
    next hhead =>
      obtain ⟨first, more, rfl⟩ := List.exists_cons_of_ne_nil
        (show rest ≠ [] by rintro rfl; simp at hhead)
      obtain rfl : first = 0x3a := by simpa using hhead
      rw [Option.ite_none_left_eq_some, List.tail_cons] at h
      obtain ⟨hgap, h⟩ := h
      obtain rfl : gap = none := by simpa using hgap
      rw [List.length_cons] at hsize
      obtain ⟨groups, rfl, hle, hrest⟩ := ih more.length (by omega) (by omega) h rfl
      rw [hlength] at hrest
      exact ⟨found :: groups, by simp, hle, .skip hextet hrest⟩
    next hhead =>
      rw [Option.ite_none_left_eq_some] at h
      obtain ⟨groups, rfl, hle, hrest⟩ := ih rest.length (by omega) (by omega) h.2 rfl
      rw [hlength] at hrest
      exact ⟨found :: groups, by simp, hle, .more hextet h.1 hhead hrest⟩
  · rw [Parser.v6Loop_last hnil hmem, Option.ite_none_left_eq_some] at h
    obtain ⟨hfull, h⟩ := h
    split at h
    next =>
      rw [Option.ite_none_left_eq_some, Option.map_eq_some_iff] at h
      obtain ⟨hroom, ⟨high, low⟩, htail, heq⟩ := h
      obtain ⟨rfl, rfl⟩ := Prod.mk.inj heq
      refine ⟨[high, low], rfl, ?_, .tail (Parser.tail_iff.mp htail)⟩
      simp only [List.length_append, List.length_cons, List.length_nil]
      omega
    next =>
      rw [Option.map_eq_some_iff] at h
      obtain ⟨found, hword, heq⟩ := h
      obtain ⟨rfl, rfl⟩ := Prod.mk.inj heq
      refine ⟨[found], rfl, ?_, .last (Parser.word_iff.mp hword)⟩
      rw [List.length_append, List.length_singleton]
      omega

end Rest

/-! ### The omitted groups -/

theorem Hextet.head {part : Bytes} {group : ℕ} (h : Hextet part group) (rest : Bytes) :
    part ++ rest ≠ [] ∧ (part ++ rest).head? ≠ some 0x3a := by
  obtain ⟨byte, more, rfl⟩ := List.exists_cons_of_ne_nil h.ne_nil
  refine ⟨by simp, ?_⟩
  simpa using (h.mem List.mem_cons_self).2

theorem Tail.head {part : Bytes} {high low : ℕ} (h : Tail part high low) :
    part ≠ [] ∧ part.head? ≠ some 0x3a := by
  have hne : part ≠ [] := List.ne_nil_of_mem h.dot_mem
  refine ⟨hne, fun hhead => h.colon_notMem ?_⟩
  exact List.mem_of_mem_head? hhead

theorem Groups.head {text : Bytes} {groups : List ℕ} (h : Groups text groups) :
    text ≠ [] ∧ text.head? ≠ some 0x3a := by
  cases h with
  | last h => simpa using h.head []
  | tail h => exact h.head
  | more h hrest => exact h.head _

theorem Hextets.head {text : Bytes} {groups : List ℕ} (h : Hextets text groups) (rest : Bytes) :
    text ++ rest ≠ [] ∧ (text ++ rest).head? ≠ some 0x3a := by
  cases h with
  | last h => exact h.head _
  | more h hrest =>
    rw [List.append_assoc]
    exact h.head _

namespace Rest

theorem nil_iff {count : ℕ} {gap gap' : Option ℕ} {groups : List ℕ} :
    Rest count gap [] groups gap' ↔ groups = [] ∧ gap' = gap := by
  constructor
  · intro h
    generalize htext : ([] : Bytes) = text at h
    cases h with
    | nil => exact ⟨rfl, rfl⟩
    | last h => exact absurd htext.symm h.ne_nil
    | tail h => exact absurd htext.symm h.head.1
    | more => simp at htext
    | skip => simp at htext
  · rintro ⟨rfl, rfl⟩
    exact .nil

theorem some_iff {count place : ℕ} {gap' : Option ℕ} {text : Bytes} {groups : List ℕ} :
    Rest count (some place) text groups gap' ↔ gap' = some place ∧ Right text groups := by
  constructor
  · intro h
    generalize hgap : some place = gap at h
    induction h with
    | nil => exact ⟨rfl, .nil⟩
    | last h => exact ⟨rfl, .groups (.last h)⟩
    | tail h => exact ⟨rfl, .groups (.tail h)⟩
    | more h hne hcolon hrest ih =>
      obtain ⟨rfl, hright⟩ := ih hgap
      cases hright with
      | nil => exact absurd rfl hne
      | groups hgroups => exact ⟨rfl, .groups (.more h hgroups)⟩
    | skip => cases hgap
  · rintro ⟨rfl, hright⟩
    cases hright with
    | nil => exact .nil
    | groups h =>
      induction h generalizing count with
      | last h => exact .last h
      | tail h => exact .tail h
      | more h hrest ih => exact .more h hrest.head.1 hrest.head.2 ih

/-- From the first part on, either every group is written or the omitted ones stand behind some. -/
theorem none_iff {count : ℕ} {gap' : Option ℕ} {text : Bytes} {groups : List ℕ} (hne : text ≠ []) :
    Rest count none text groups gap' ↔ (gap' = none ∧ Groups text groups) ∨
      ∃ left right before behind, text = left ++ 0x3a :: 0x3a :: right ∧ Hextets left before ∧
        Right right behind ∧ groups = before ++ behind ∧ gap' = some (count + before.length) := by
  constructor
  · intro h
    generalize hgap : (none : Option ℕ) = gap at h
    induction h with
    | nil => exact absurd rfl hne
    | last h => exact .inl ⟨rfl, .last h⟩
    | tail h => exact .inl ⟨rfl, .tail h⟩
    | more h hrest hcolon _ ih =>
      rename_i part rest group groups _
      rcases ih hrest hgap with ⟨rfl, hgroups⟩ |
        ⟨left, right, before, behind, rfl, hleft, hright, rfl, rfl⟩
      · exact .inl ⟨rfl, .more h hgroups⟩
      · refine .inr ⟨part ++ 0x3a :: left, right, group :: before, behind, by simp, .more h hleft,
          hright, rfl, ?_⟩
        rw [List.length_cons, Nat.add_assoc, Nat.add_comm 1]
    | skip h hrest =>
      obtain ⟨rfl, hright⟩ := some_iff.mp hrest
      exact .inr ⟨_, _, [_], _, rfl, .last h, hright, rfl, rfl⟩
  · rintro (⟨rfl, h⟩ | ⟨left, right, before, behind, rfl, hleft, hright, rfl, rfl⟩)
    · clear hne
      induction h generalizing count with
      | last h => exact .last h
      | tail h => exact .tail h
      | more h hrest ih => exact .more h hrest.head.1 hrest.head.2 ih
    · clear hne
      induction hleft generalizing count with
      | last h => exact .skip h (some_iff.mpr ⟨rfl, hright⟩)
      | more h hrest ih =>
        rename_i part rest group groups
        have hmore := hrest.head (0x3a :: 0x3a :: right)
        have hplace : count + (group :: groups).length = count + 1 + groups.length := by
          rw [List.length_cons]
          omega
        rw [hplace, List.append_assoc, List.cons_append, List.cons_append]
        exact .more h hmore.1 hmore.2 ih

end Rest

/-! ### Addresses -/

theorem Hextets.groups {text : Bytes} {groups : List ℕ} (h : Hextets text groups) :
    Groups text groups := by
  induction h with
  | last h => exact .last h
  | more h hrest ih => exact .more h ih

namespace Address

theorem not_nil {groups : List ℕ} : ¬Address [] groups := by
  intro h
  generalize htext : ([] : Bytes) = text at h
  cases h with
  | full h hlength => exact h.head.1 htext.symm
  | omitted hleft hright hlength => simp at htext

theorem colon_iff {text : Bytes} {groups : List ℕ} :
    Address (0x3a :: text) groups ↔ ∃ right behind, text = 0x3a :: right ∧ Right right behind ∧
      behind.length ≤ 7 ∧ groups = List.replicate (8 - behind.length) 0 ++ behind := by
  constructor
  · intro h
    generalize htext : 0x3a :: text = whole at h
    cases h with
    | full h hlength =>
      subst htext
      exact absurd rfl h.head.2
    | omitted hleft hright hlength =>
      cases hleft with
      | nil =>
        rw [List.length_nil, Nat.zero_add] at hlength
        refine ⟨_, _, (List.cons.inj htext).2, hright, hlength, ?_⟩
        rw [List.length_nil, Nat.sub_zero, List.nil_append]
      | groups h => exact absurd (by rw [← htext]; rfl) (h.head _).2
  · rintro ⟨right, behind, rfl, hright, hlength, rfl⟩
    have := omitted .nil hright (by rwa [List.length_nil, Nat.zero_add])
    rwa [List.length_nil, Nat.sub_zero, List.nil_append, List.nil_append] at this

end Address

namespace Parser

theorem v6Loop_iff {words : List ℕ} {gap gap' : Option ℕ} {text : Bytes} :
    v6Loop [] gap text = some (words, gap') ↔
      words.length ≤ 8 ∧ Rest 0 gap text words gap' := by
  constructor
  · intro h
    obtain ⟨groups, rfl, hlength, hrest⟩ := Rest.of_v6Loop (by simp) h
    exact ⟨hlength, hrest⟩
  · rintro ⟨hlength, hrest⟩
    have hloop := @Rest.v6Loop [] words gap gap' text hrest (by simpa using hlength)
    rwa [List.nil_append] at hloop

theorem expand_append (before behind : List ℕ) :
    expand (before ++ behind) before.length =
      before ++ List.replicate (8 - before.length - behind.length) 0 ++ behind := by
  rw [expand, List.take_left, List.drop_left, List.length_append, Nat.sub_add_eq]

theorem v6_eq_some_iff {value : Bytes} {groups : List ℕ} :
    v6 value = some groups ↔
      (∃ words gap, v6Words value = some (words, some gap) ∧ words.length < 8 ∧
        groups = expand words gap) ∨
      v6Words value = some (groups, none) ∧ groups.length = 8 := by
  rw [v6]
  rcases v6Words value with _ | ⟨words, _ | gap⟩
  · simp
  · simp only [Option.ite_none_left_eq_some, not_not, Option.some.injEq, Prod.mk.injEq,
      reduceCtorEq, and_false, false_and, exists_const, and_true, false_or]
    constructor
    · rintro ⟨hlength, rfl⟩
      exact ⟨rfl, hlength⟩
    · rintro ⟨rfl, hlength⟩
      exact ⟨hlength, rfl⟩
  · simp only [Option.ite_none_left_eq_some, not_le, Option.some.injEq]
    simp [eq_comm]

/-- An address is parsed as the groups that it denotes, and nothing else is parsed. -/
theorem v6_iff {value : Bytes} {groups : List ℕ} :
    v6 value = some groups ↔ Address value groups := by
  rw [v6_eq_some_iff]
  by_cases hcolon : [0x3a] <+: value
  · obtain ⟨rest, rfl⟩ := hcolon
    rw [List.singleton_append, Address.colon_iff]
    by_cases hagain : [0x3a] <+: rest
    · obtain ⟨right, rfl⟩ := hagain
      have hwords : v6Words (0x3a :: 0x3a :: right) = v6Loop [] (some 0) right := by
        simp [v6Words]
      simp only [List.singleton_append, hwords, v6Loop_iff, Rest.some_iff, reduceCtorEq, false_and,
        and_false, or_false]
      constructor
      · rintro ⟨words, gap, ⟨-, hgap, hright⟩, hlength, rfl⟩
        obtain rfl := Option.some.inj hgap
        refine ⟨right, words, rfl, hright, by omega, ?_⟩
        simpa using expand_append [] words
      · rintro ⟨_, behind, heq, hright, hlength, rfl⟩
        obtain ⟨-, rfl⟩ := List.cons.inj heq
        refine ⟨behind, 0, ⟨by omega, rfl, hright⟩, by omega, ?_⟩
        simpa using (expand_append [] behind).symm
    · have hwords : v6Words (0x3a :: rest) = none := by
        rw [v6Words, if_neg (by simpa using hagain), if_pos (by simp)]
      refine iff_of_false (by simp [hwords]) ?_
      rintro ⟨right, behind, rfl, -⟩
      exact hagain ⟨right, rfl⟩
  · have hwords : v6Words value = v6Loop [] none value := by
      have hagain : ¬[0x3a, 0x3a] <+: value := fun h =>
        hcolon (List.IsPrefix.trans ⟨[0x3a], rfl⟩ h)
      rw [v6Words, if_neg hagain, if_neg hcolon]
    simp only [hwords, v6Loop_iff]
    by_cases hnil : value = []
    · subst hnil
      simp only [Rest.nil_iff]
      refine iff_of_false ?_ Address.not_nil
      rintro (⟨words, gap, ⟨-, -, hgap⟩, -⟩ | ⟨⟨-, rfl, -⟩, hlength⟩)
      · exact absurd hgap (by simp)
      · simp at hlength
    · simp only [Rest.none_iff hnil, reduceCtorEq, Option.some.injEq, false_and, false_or, true_and,
        exists_false, and_false, or_false, Nat.zero_add]
      constructor
      · rintro (⟨words, gap, ⟨-, left, right, before, behind, rfl, hleft, hright, rfl, rfl⟩,
          hlength, rfl⟩ | ⟨⟨-, h⟩, hlength⟩)
        · rw [List.length_append] at hlength
          rw [expand_append]
          exact .omitted (.groups hleft) hright (by omega)
        · exact .full h hlength
      · intro h
        cases h with
        | full h hlength => exact .inr ⟨⟨by omega, h⟩, hlength⟩
        | @omitted left right before behind hleft hright hlength =>
          cases hleft with
          | nil => exact absurd ⟨_, rfl⟩ hcolon
          | groups hleft =>
            refine .inl ⟨before ++ behind, before.length, ⟨?_, left, right, before, behind, rfl,
              hleft, hright, rfl, rfl⟩, ?_, (expand_append before behind).symm⟩
            · rw [List.length_append]
              omega
            · rw [List.length_append]
              omega

end Parser

/-! ## Literals -/

/-- The 128 bits that an IPv6 literal denotes. -/
def DenotesV6 (value : Bytes) (address : ℕ) : Prop :=
  ∃ groups, Address value groups ∧ address = denoted 65536 groups

/-- The 32 bits that an IPv4 literal denotes. -/
def DenotesV4 (value : Bytes) (address : ℕ) : Prop :=
  ∃ octets, Quads value octets ∧ octets.length = 4 ∧ address = denoted 256 octets

/-- The parsers accept the literals of the grammar and nothing else, and what they return is the
address that the literal denotes. -/
theorem Parser.literals (value : Bytes) (address : ℕ) :
    ((v6 value).map (denoted 65536) = some address ↔ DenotesV6 value address) ∧
    ((v4 value).map (denoted 256) = some address ↔ DenotesV4 value address) := by
  refine ⟨?_, ?_⟩
  · simp only [Option.map_eq_some_iff, v6_iff, DenotesV6, @eq_comm _ address]
  · simp only [Option.map_eq_some_iff, v4_iff, DenotesV4, and_assoc, @eq_comm _ address]

end Sark.Uri
