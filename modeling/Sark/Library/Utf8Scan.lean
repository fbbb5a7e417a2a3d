import Sark.Library.Utf8Repair

/-!
# Validation of UTF-8

Validation from left to right, with the place and the kind of the first error: an invalid sequence,
or one that the end of the input breaks off and that more input may still complete.

* `validate_eq_ok_iff`: what is accepted.
* `validateFrom_append`: what is known of a byte string when more follows.
* `front_take`: how far the front of a byte string reaches.
-/

namespace Utf8

/-- Where a byte string stops being valid, and the length of the invalid sequence if the end of the
input is not the reason. -/
structure ScanError where
  validUpTo : ℕ
  errorLen : Option ℕ
  deriving DecidableEq, Repr

/-- What stands at the front of a byte string. -/
inductive Front
  | sequence (width : ℕ)
  | invalid (length : ℕ)
  | short
  deriving DecidableEq, Repr

/-- A continuation byte. -/
def isTail (byte : UInt8) : Bool :=
  0x80 ≤ byte && byte ≤ 0xbf

/-- The bytes that may follow the first one of three. -/
def isSecondOfThree (first second : UInt8) : Bool :=
  isTail second && (first != 0xe0 || 0xa0 ≤ second) && (first != 0xed || second ≤ 0x9f)

/-- The bytes that may follow the first one of four. -/
def isSecondOfFour (first second : UInt8) : Bool :=
  isTail second && (first != 0xf0 || 0x90 ≤ second) && (first != 0xf4 || second ≤ 0x8f)

/-- The rest of a sequence behind `read` bytes: continuation bytes up to its width. -/
def frontTails (width : ℕ) : ℕ → List UInt8 → Front
  | read, [] => if read = width then .sequence width else .short
  | read, byte :: rest =>
    if read = width then .sequence width
    else if isTail byte then frontTails width (read + 1) rest
    else .invalid read

/-- The front of a nonempty byte string. -/
def front (first : UInt8) (rest : List UInt8) : Front :=
  if first ≤ 0x7f then .sequence 1
  else if 0xc2 ≤ first ∧ first ≤ 0xdf then frontTails 2 1 rest
  else if 0xe0 ≤ first ∧ first ≤ 0xef then
    match rest with
    | [] => .short
    | second :: rest => if isSecondOfThree first second then frontTails 3 2 rest else .invalid 1
  else if 0xf0 ≤ first ∧ first ≤ 0xf4 then
    match rest with
    | [] => .short
    | second :: rest => if isSecondOfFour first second then frontTails 4 2 rest else .invalid 1
  else .invalid 1

/-- Validation from a place on. -/
def validateFrom (place : ℕ) : List UInt8 → Except ScanError Unit
  | [] => .ok ()
  | first :: rest =>
    match front first rest with
    | .sequence width => validateFrom (place + width) (rest.drop (width - 1))
    | .invalid length => .error ⟨place, some length⟩
    | .short => .error ⟨place, none⟩
  termination_by bytes => bytes.length
  decreasing_by
    rw [List.length_drop, List.length_cons]
    omega

/-- Validation of a byte string. -/
def validate (bytes : List UInt8) : Except ScanError Unit :=
  validateFrom 0 bytes

theorem isTail_iff {byte : UInt8} : isTail byte = true ↔ Tail byte := by
  rw [isTail, Bool.and_eq_true, decide_eq_true_eq, decide_eq_true_eq, Tail]

theorem isSecondOfThree_iff {first second : UInt8} : isSecondOfThree first second = true ↔
    Tail second ∧ (first = 0xe0 → 0xa0 ≤ second) ∧ (first = 0xed → second ≤ 0x9f) := by
  simp only [isSecondOfThree, Bool.and_eq_true, isTail_iff, Bool.or_eq_true, bne_iff_ne,
    decide_eq_true_eq, ← imp_iff_not_or, ne_eq, and_assoc]

theorem isSecondOfFour_iff {first second : UInt8} : isSecondOfFour first second = true ↔
    Tail second ∧ (first = 0xf0 → 0x90 ≤ second) ∧ (first = 0xf4 → second ≤ 0x8f) := by
  simp only [isSecondOfFour, Bool.and_eq_true, isTail_iff, Bool.or_eq_true, bne_iff_ne,
    decide_eq_true_eq, ← imp_iff_not_or, ne_eq, and_assoc]

/-! ## The front -/

section Front

variable {width read n : ℕ} {first : UInt8} {rest tails more seq : List UInt8}

/-- The rest of a sequence is there, is broken off by another byte, or by the end. -/
theorem frontTails_eq (hread : read ≤ width) :
    (frontTails width read rest = .sequence width ∧
      ∃ tails more, rest = tails ++ more ∧ read + tails.length = width ∧
        ∀ byte ∈ tails, Tail byte) ∨
    (∃ n tails byte more, frontTails width read rest = .invalid n ∧
      rest = tails ++ byte :: more ∧ read + tails.length < width ∧ ¬Tail byte) ∨
    (frontTails width read rest = .short ∧ read + rest.length < width ∧
      ∀ byte ∈ rest, Tail byte) := by
  induction rest generalizing read with
  | nil =>
    rw [frontTails]
    split
    next heq => exact .inl ⟨rfl, [], [], rfl, heq, by simp⟩
    next hne => exact .inr (.inr ⟨rfl, by simpa using lt_of_le_of_ne hread hne, by simp⟩)
  | cons byte rest ih =>
    rw [frontTails]
    split
    next heq => exact .inl ⟨rfl, [], byte :: rest, rfl, heq, by simp⟩
    next hne =>
      split
      next htail =>
        rw [isTail_iff] at htail
        have hlt := lt_of_le_of_ne hread hne
        rcases ih hlt with ⟨hfront, tails, more, rfl, hwidth, hall⟩ |
          ⟨n, tails, later, more, hfront, rfl, hwidth, hlater⟩ | ⟨hfront, hwidth, hall⟩
        · refine .inl ⟨hfront, byte :: tails, more, rfl, ?_, ?_⟩
          · rw [List.length_cons]
            omega
          · exact List.forall_mem_cons.mpr ⟨htail, hall⟩
        · refine .inr (.inl ⟨n, byte :: tails, later, more, hfront, rfl, ?_, hlater⟩)
          rw [List.length_cons]
          omega
        · refine .inr (.inr ⟨hfront, ?_, List.forall_mem_cons.mpr ⟨htail, hall⟩⟩)
          rw [List.length_cons]
          omega
      next htail =>
        rw [isTail_iff] at htail
        exact .inr (.inl ⟨read, [], byte, rest, rfl, rfl, lt_of_le_of_ne hread hne, htail⟩)

/-- The rest of a sequence is decided when it is there, or broken off by another byte. -/
theorem frontTails_append (h : frontTails width read rest ≠ .short) (more : List UInt8) :
    frontTails width read (rest ++ more) = frontTails width read rest := by
  induction rest generalizing read with
  | nil =>
    rw [frontTails] at h ⊢
    split_ifs at h ⊢ with heq
    · cases more with
      | nil => rw [List.nil_append, frontTails, if_pos heq]
      | cons byte more => rw [List.nil_append, frontTails, if_pos heq]
    · exact absurd rfl h
  | cons byte rest ih =>
    rw [List.cons_append, frontTails, frontTails]
    rw [frontTails] at h
    split_ifs at h ⊢
    · rfl
    · exact ih h
    · rfl

theorem frontTails_take (hread : read ≤ width) (rest : List UInt8) :
    frontTails width read (rest.take (width - read)) = frontTails width read rest := by
  induction rest generalizing read with
  | nil => rw [List.take_nil]
  | cons byte rest ih =>
    by_cases heq : read = width
    · rw [heq, Nat.sub_self, List.take_zero, frontTails, frontTails, if_pos rfl, if_pos rfl]
    · have hsub : width - read = (width - (read + 1)) + 1 := by omega
      rw [hsub, List.take_succ_cons, frontTails, frontTails, if_neg heq, if_neg heq,
        ih (by omega)]

end Front

/-! ## The first byte -/

/-- The number of leading ones, which is the width of a sequence of more than one byte. -/
def leadWidth (first : UInt8) : ℕ :=
  if first ≤ 0x7f then 1
  else if 0xc2 ≤ first ∧ first ≤ 0xdf then 2
  else if 0xe0 ≤ first ∧ first ≤ 0xef then 3
  else if 0xf0 ≤ first ∧ first ≤ 0xf4 then 4
  else 1

section Lead

variable {first : UInt8} {rest tails more : List UInt8} {n : ℕ}

theorem front_append (h : front first rest ≠ .short) (more : List UInt8) :
    front first (rest ++ more) = front first rest := by
  rw [front.eq_def] at h
  rw [front.eq_def first (rest ++ more), front.eq_def first rest]
  split_ifs at h ⊢
  · rfl
  · exact frontTails_append h more
  · rcases rest with _ | ⟨second, rest⟩
    · exact absurd rfl h
    · simp only [List.cons_append] at h ⊢
      split_ifs at h ⊢
      · exact frontTails_append h more
      · rfl
  · rcases rest with _ | ⟨second, rest⟩
    · exact absurd rfl h
    · simp only [List.cons_append] at h ⊢
      split_ifs at h ⊢
      · exact frontTails_append h more
      · rfl
  · rfl

/-- The front is decided by as many bytes as the first one tells. -/
theorem front_take (first : UInt8) (rest : List UInt8) :
    front first (rest.take (leadWidth first - 1)) = front first rest := by
  rw [front.eq_def first (rest.take _), front.eq_def first rest, leadWidth]
  split_ifs
  · rfl
  · exact frontTails_take (by norm_num) rest
  · rcases rest with _ | ⟨second, rest⟩
    · rfl
    · simp only [Nat.add_one_sub_one, List.take_succ_cons]
      rw [show List.take 1 rest = rest.take (3 - 2) from rfl, frontTails_take (by norm_num)]
  · rcases rest with _ | ⟨second, rest⟩
    · rfl
    · simp only [Nat.add_one_sub_one, List.take_succ_cons]
      rw [show List.take 2 rest = rest.take (4 - 2) from rfl, frontTails_take (by norm_num)]
  · rfl

theorem frontTails_sequence {width read : ℕ} (hall : ∀ byte ∈ tails, Tail byte)
    (hwidth : read + tails.length = width) (more : List UInt8) :
    frontTails width read (tails ++ more) = .sequence width := by
  induction tails generalizing read with
  | nil =>
    rw [List.length_nil, Nat.add_zero] at hwidth
    cases more with
    | nil => rw [List.nil_append, frontTails, if_pos hwidth]
    | cons byte more => rw [List.nil_append, frontTails, if_pos hwidth]
  | cons byte tails ih =>
    obtain ⟨hbyte, hall⟩ := List.forall_mem_cons.mp hall
    rw [List.length_cons] at hwidth
    rw [List.cons_append, frontTails, if_neg (by omega), if_pos (isTail_iff.mpr hbyte)]
    exact ih hall (by omega)

theorem front_sequence (h : Sequence (first :: tails)) (more : List UInt8) :
    front first (tails ++ more) = .sequence (tails.length + 1) := by
  rw [front.eq_def]
  cases h with
  | one ha => rw [if_pos ha]; rfl
  | @two _ b ha ha' hb =>
    have hone : ¬first ≤ 0x7f := by
      simp only [UInt8.le_iff_toNat_le, UInt8.reduceToNat] at ha ⊢
      omega
    rw [if_neg hone, if_pos ⟨ha, ha'⟩]
    exact @frontTails_sequence [b] 2 1 (by simpa using hb) rfl more
  | @three _ b c ha ha' hb hb₁ hb₂ hc =>
    have hone : ¬first ≤ 0x7f := by
      simp only [UInt8.le_iff_toNat_le, UInt8.reduceToNat] at ha ⊢
      omega
    have htwo : ¬(0xc2 ≤ first ∧ first ≤ 0xdf) := by
      simp only [UInt8.le_iff_toNat_le, UInt8.reduceToNat] at ha ⊢
      omega
    rw [if_neg hone, if_neg htwo, if_pos ⟨ha, ha'⟩, List.cons_append]
    simp only
    rw [if_pos (isSecondOfThree_iff.mpr ⟨hb, hb₁, hb₂⟩)]
    exact @frontTails_sequence [c] 3 2 (by simpa using hc) rfl more
  | @four _ b c d ha ha' hb hb₁ hb₂ hc hd =>
    have hone : ¬first ≤ 0x7f := by
      simp only [UInt8.le_iff_toNat_le, UInt8.reduceToNat] at ha ⊢
      omega
    have htwo : ¬(0xc2 ≤ first ∧ first ≤ 0xdf) := by
      simp only [UInt8.le_iff_toNat_le, UInt8.reduceToNat] at ha ⊢
      omega
    have hthree : ¬(0xe0 ≤ first ∧ first ≤ 0xef) := by
      simp only [UInt8.le_iff_toNat_le, UInt8.reduceToNat] at ha ⊢
      omega
    rw [if_neg hone, if_neg htwo, if_neg hthree, if_pos ⟨ha, ha'⟩, List.cons_append]
    simp only
    rw [if_pos (isSecondOfFour_iff.mpr ⟨hb, hb₁, hb₂⟩)]
    exact @frontTails_sequence [c, d] 4 2 (by simpa using ⟨hc, hd⟩) rfl more

theorem exists_of_frontTails {width read : ℕ} (hread : read ≤ width)
    (h : frontTails width read rest = .sequence n) : n = width ∧ ∃ tails more,
      rest = tails ++ more ∧ read + tails.length = width ∧ ∀ byte ∈ tails, Tail byte := by
  rcases @frontTails_eq width read rest hread with ⟨hfront, hsplit⟩ |
    ⟨m, tails, byte, more, hfront, -⟩ | ⟨hfront, -⟩
  · rw [hfront, Front.sequence.injEq] at h
    exact ⟨h.symm, hsplit⟩
  · rw [hfront] at h
    exact absurd h (by simp)
  · rw [hfront] at h
    exact absurd h (by simp)

/-- What is found is a sequence, as long as its first byte tells. -/
theorem exists_of_front (h : front first rest = .sequence n) : n = leadWidth first ∧
    ∃ tails more, rest = tails ++ more ∧ n = tails.length + 1 ∧ Sequence (first :: tails) := by
  rw [front.eq_def] at h
  rw [leadWidth]
  split_ifs at h ⊢ with hone htwo hthree hfour
  · obtain rfl : 1 = n := by simpa using h
    exact ⟨rfl, [], rest, rfl, rfl, .one hone⟩
  · obtain ⟨rfl, tails, more, rfl, hlength, hall⟩ := exists_of_frontTails (by norm_num) h
    obtain ⟨b, rfl⟩ := List.length_eq_one_iff.mp (show tails.length = 1 by omega)
    exact ⟨rfl, [b], more, rfl, rfl, .two htwo.1 htwo.2 (hall b (by simp))⟩
  · rcases rest with _ | ⟨second, rest⟩
    · exact absurd h (by simp)
    · simp only at h
      split_ifs at h with hsecond
      obtain ⟨rfl, tails, more, rfl, hlength, hall⟩ := exists_of_frontTails (by norm_num) h
      obtain ⟨c, rfl⟩ := List.length_eq_one_iff.mp (show tails.length = 1 by omega)
      obtain ⟨htail, hlow, hhigh⟩ := isSecondOfThree_iff.mp hsecond
      exact ⟨rfl, [second, c], more, rfl, rfl,
        .three hthree.1 hthree.2 htail hlow hhigh (hall c (by simp))⟩
  · rcases rest with _ | ⟨second, rest⟩
    · exact absurd h (by simp)
    · simp only at h
      split_ifs at h with hsecond
      obtain ⟨rfl, tails, more, rfl, hlength, hall⟩ := exists_of_frontTails (by norm_num) h
      obtain ⟨c, d, rfl⟩ := List.length_eq_two.mp (show tails.length = 2 by omega)
      obtain ⟨htail, hlow, hhigh⟩ := isSecondOfFour_iff.mp hsecond
      exact ⟨rfl, [second, c, d], more, rfl, rfl,
        .four hfour.1 hfour.2 htail hlow hhigh (hall c (by simp)) (hall d (by simp))⟩

theorem lt_of_frontTails_short {width read : ℕ} (hread : read ≤ width)
    (h : frontTails width read rest = .short) : read + rest.length < width := by
  rcases @frontTails_eq width read rest hread with ⟨hfront, -⟩ | ⟨m, tails, byte, more, hfront, -⟩ |
    ⟨-, hlength, -⟩
  · rw [hfront] at h
    exact absurd h (by simp)
  · rw [hfront] at h
    exact absurd h (by simp)
  · exact hlength

theorem lt_of_front_short (h : front first rest = .short) :
    rest.length + 1 < leadWidth first ∧ 0xc2 ≤ first ∧ first ≤ 0xf4 := by
  have hle {a b c : UInt8} (hab : a ≤ b) (hbc : b ≤ c) : a ≤ c := UInt8.le_trans hab hbc
  rw [front.eq_def] at h
  rw [leadWidth]
  split_ifs at h ⊢ with hone htwo hthree hfour
  · have hlt := lt_of_frontTails_short (by norm_num) h
    exact ⟨by omega, htwo.1, hle htwo.2 (by decide)⟩
  · refine ⟨?_, hle (by decide) hthree.1, hle hthree.2 (by decide)⟩
    rcases rest with _ | ⟨second, rest⟩
    · simp
    · simp only at h
      split_ifs at h with hsecond
      have hlt := lt_of_frontTails_short (by norm_num) h
      rw [List.length_cons]
      omega
  · refine ⟨?_, hle (by decide) hfour.1, hfour.2⟩
    rcases rest with _ | ⟨second, rest⟩
    · simp
    · simp only at h
      split_ifs at h with hsecond
      have hlt := lt_of_frontTails_short (by norm_num) h
      rw [List.length_cons]
      omega

end Lead

/-! ## Validation -/

section Validation

variable {place base : ℕ} {bytes more : List UInt8} {e : ScanError}

theorem Valid.exists_sequence {first : UInt8} {rest : List UInt8} (h : Valid (first :: rest)) :
    ∃ tails more, rest = tails ++ more ∧ Sequence (first :: tails) ∧ Valid more := by
  obtain ⟨chars, hchars⟩ := h
  cases chars with
  | nil => exact absurd hchars (by simp)
  | cons c chars =>
    have hseq := sequence_encode c
    obtain ⟨byte, tails, hbytes⟩ := List.exists_cons_of_ne_nil hseq.ne_nil
    rw [encode_cons, hbytes, List.cons_append, List.cons.injEq] at hchars
    obtain ⟨rfl, hrest⟩ := hchars
    rw [hbytes] at hseq
    exact ⟨tails, encode chars, hrest, hseq, chars, rfl⟩

theorem validateFrom_eq_ok_iff (place : ℕ) (bytes : List UInt8) :
    validateFrom place bytes = .ok () ↔ Valid bytes := by
  fun_induction validateFrom place bytes with
  | case1 place => exact ⟨fun _ => ⟨[], rfl⟩, fun _ => rfl⟩
  | case2 place first rest width h ih =>
    rw [ih]
    obtain ⟨-, tails, more, rfl, rfl, hseq⟩ := exists_of_front h
    rw [Nat.add_sub_cancel, List.drop_left]
    refine ⟨fun hmore => hseq.valid.append hmore, fun hvalid => ?_⟩
    obtain ⟨tails', more', hsplit, hseq', hmore⟩ := hvalid.exists_sequence
    -- one byte string begins with one sequence only
    have hprefix : first :: tails <+: first :: (tails ++ more) := ⟨more, by simp⟩
    have heq := hseq.eq_of_prefix hseq' hprefix ⟨more', by simp [hsplit]⟩
    obtain rfl : tails = tails' := (List.cons.inj heq).2
    rwa [List.append_cancel_left hsplit]
  | case3 place first rest length h =>
    refine iff_of_false (by simp) fun hvalid => ?_
    obtain ⟨tails, more, rfl, hseq, -⟩ := hvalid.exists_sequence
    rw [front_sequence hseq] at h
    exact absurd h (by simp)
  | case4 place first rest h =>
    refine iff_of_false (by simp) fun hvalid => ?_
    obtain ⟨tails, more, rfl, hseq, -⟩ := hvalid.exists_sequence
    rw [front_sequence hseq] at h
    exact absurd h (by simp)

theorem validateFrom_add (place base : ℕ) (bytes : List UInt8) :
    validateFrom (base + place) bytes =
      (validateFrom place bytes).mapError fun e => ⟨base + e.validUpTo, e.errorLen⟩ := by
  fun_induction validateFrom place bytes with
  | case1 place => rw [validateFrom]; rfl
  | case2 place first rest width h ih =>
    rw [validateFrom, h]
    simp only
    rw [Nat.add_assoc, ih]
  | case3 place first rest length h =>
    rw [validateFrom, h]
    rfl
  | case4 place first rest h =>
    rw [validateFrom, h]
    rfl

/-- What is accepted is accepted in front of more, which is validated from there on. -/
theorem validateFrom_append (h : validateFrom place bytes = .ok ()) (more : List UInt8) :
    validateFrom place (bytes ++ more) = validateFrom (place + bytes.length) more := by
  fun_induction validateFrom place bytes with
  | case1 place => rfl
  | case2 place first rest width hfront ih =>
    obtain ⟨-, tails, behind, rfl, rfl, hseq⟩ := exists_of_front hfront
    rw [Nat.add_sub_cancel, List.drop_left] at h ih
    have hfront' := front_sequence hseq (behind ++ more)
    rw [List.cons_append, validateFrom, List.append_assoc, hfront']
    simp only
    rw [Nat.add_sub_cancel, List.drop_left, ih h]
    congr 1
    simp only [List.length_cons, List.length_append]
    omega
  | case3 place first rest length hfront => exact absurd h (by simp)
  | case4 place first rest hfront => exact absurd h (by simp)

theorem validateFrom_append_invalid (h : validateFrom place bytes = .error e)
    (he : e.errorLen.isSome) (more : List UInt8) :
    validateFrom place (bytes ++ more) = .error e := by
  fun_induction validateFrom place bytes with
  | case1 place => exact absurd h (by simp)
  | case2 place first rest width hfront ih =>
    obtain ⟨-, tails, behind, rfl, rfl, hseq⟩ := exists_of_front hfront
    rw [Nat.add_sub_cancel, List.drop_left] at h ih
    have hfront' := front_sequence hseq (behind ++ more)
    rw [List.cons_append, validateFrom, List.append_assoc, hfront']
    simp only
    rw [Nat.add_sub_cancel, List.drop_left, ih h]
  | case3 place first rest length hfront =>
    have hfront' := front_append (by rw [hfront]; simp) more
    rw [hfront] at hfront'
    rw [List.cons_append, validateFrom, hfront']
    exact h
  | case4 place first rest hfront =>
    obtain rfl := Except.error.inj h
    exact absurd he (by simp)

/-- What is broken off begins where the validation stops, and is validated from there on when more
follows. -/
theorem exists_of_validateFrom_short (h : validateFrom place bytes = .error e)
    (he : e.errorLen = none) : ∃ lead first rest, bytes = lead ++ first :: rest ∧
      e.validUpTo = place + lead.length ∧ front first rest = .short ∧
      ∀ more, validateFrom place (bytes ++ more) =
        validateFrom e.validUpTo (first :: rest ++ more) := by
  fun_induction validateFrom place bytes with
  | case1 place => exact absurd h (by simp)
  | case2 place first rest width hfront ih =>
    obtain ⟨-, tails, behind, rfl, rfl, hseq⟩ := exists_of_front hfront
    rw [Nat.add_sub_cancel, List.drop_left] at h ih
    obtain ⟨lead, byte, later, rfl, hplace, hshort, hmore⟩ := ih h
    refine ⟨first :: tails ++ lead, byte, later, by simp, ?_, hshort, fun more => ?_⟩
    · rw [hplace, List.length_append, List.length_cons]
      omega
    · have hfront' := front_sequence hseq (lead ++ byte :: later ++ more)
      rw [List.cons_append, validateFrom, List.append_assoc tails, hfront']
      simp only
      rw [Nat.add_sub_cancel, List.drop_left, hmore]
  | case3 place first rest length hfront =>
    obtain rfl := Except.error.inj h
    exact absurd he (by simp)
  | case4 place first rest hfront =>
    obtain rfl := Except.error.inj h
    exact ⟨[], first, rest, rfl, rfl, hfront, fun more => rfl⟩

end Validation

end Utf8
