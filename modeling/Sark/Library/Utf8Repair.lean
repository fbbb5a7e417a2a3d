import Sark.Library.Utf8

/-!
# Repair of UTF-8

A byte string is repaired when every byte outside of a well-formed sequence is replaced by a mark.
Well-formed sequences do not overlap, so that a byte string is repaired from left to right: in front
stands a sequence, which is kept, or a byte that none begins with, which is replaced.

* `repair_sequence`, `repair_cons`: the two cases.
* `repair_encode`: what is well formed is left as it is.
* `valid_repair`: what is repaired is well formed.
-/

namespace Utf8

/-- The byte at a place belongs to a well-formed sequence. -/
def Covered (bytes : List UInt8) (i : ℕ) : Prop :=
  ∃ lead seq rest, bytes = lead ++ seq ++ rest ∧ Sequence seq ∧
    lead.length ≤ i ∧ i < lead.length + seq.length

open Classical in
/-- Every byte that belongs to no well-formed sequence is replaced. -/
noncomputable def repair (mark : UInt8) (bytes : List UInt8) : List UInt8 :=
  bytes.mapIdx fun i byte => if Covered bytes i then byte else mark

/-- The length of the sequences that a byte begins. -/
def width (byte : UInt8) : ℕ :=
  if byte ≤ 0x7f then 1 else if byte ≤ 0xdf then 2 else if byte ≤ 0xef then 3 else 4

section Sequences

variable {byte : UInt8} {seq other rest bytes : List UInt8}

theorem Sequence.ne_nil (h : Sequence seq) : seq ≠ [] := by
  cases h <;> simp

theorem Sequence.length_eq (h : Sequence (byte :: rest)) : (byte :: rest).length = width byte := by
  rw [width]
  cases h with
  | one ha => rw [if_pos ha]; rfl
  | two ha ha' hb =>
    rw [if_neg, if_pos ha']
    · rfl
    · simp only [UInt8.le_iff_toNat_le, UInt8.reduceToNat] at ha ⊢
      omega
  | three ha ha' hb hb₁ hb₂ hc =>
    rw [if_neg, if_neg, if_pos ha']
    · rfl
    all_goals
      simp only [UInt8.le_iff_toNat_le, UInt8.reduceToNat] at ha ⊢
      omega
  | four ha ha' hb hb₁ hb₂ hc hd =>
    rw [if_neg, if_neg, if_neg]
    · rfl
    all_goals
      simp only [UInt8.le_iff_toNat_le, UInt8.reduceToNat] at ha ⊢
      omega

theorem Sequence.not_tail (h : Sequence (byte :: rest)) : ¬Tail byte := by
  intro htail
  rw [Tail.iff_toNat] at htail
  cases h <;> (simp only [UInt8.le_iff_toNat_le, UInt8.reduceToNat] at *; omega)

theorem Sequence.tails (h : Sequence (byte :: rest)) : ∀ later ∈ rest, Tail later := by
  cases h with
  | one ha => simp
  | two ha ha' hb => simpa using hb
  | three ha ha' hb hb₁ hb₂ hc => simpa using ⟨hb, hc⟩
  | four ha ha' hb hb₁ hb₂ hc hd => simpa using ⟨hb, hc, hd⟩

theorem Sequence.eq_of_prefix (h : Sequence seq) (h' : Sequence other) (hseq : seq <+: bytes)
    (hother : other <+: bytes) : seq = other := by
  obtain ⟨byte, tail, rfl⟩ := List.exists_cons_of_ne_nil h.ne_nil
  obtain ⟨byte', tail', rfl⟩ := List.exists_cons_of_ne_nil h'.ne_nil
  obtain ⟨rest, rfl⟩ := hseq
  obtain ⟨rest', hrest⟩ := hother
  rw [List.cons_append, List.cons_append, List.cons.injEq] at hrest
  obtain ⟨rfl, hrest⟩ := hrest
  have hlength : (byte' :: tail').length = (byte' :: tail).length := by
    rw [h.length_eq, h'.length_eq]
  rw [(List.append_inj hrest (by simpa using hlength)).1]

/-- A valid byte string that is as long as its first byte tells is one sequence. -/
theorem Valid.sequence (h : Valid (byte :: rest)) (hwidth : (byte :: rest).length = width byte) :
    Sequence (byte :: rest) := by
  obtain ⟨chars, hchars⟩ := h
  cases chars with
  | nil => exact absurd hchars (by simp)
  | cons c chars =>
    have hseq := sequence_encode c
    obtain ⟨first, tail, hfirst⟩ := List.exists_cons_of_ne_nil hseq.ne_nil
    rw [encode_cons, hfirst] at hchars
    rw [hfirst] at hseq
    obtain rfl : byte = first := (List.cons.inj hchars).1
    have hnil : encode chars = [] := by
      rw [hchars, List.length_append, hseq.length_eq] at hwidth
      exact List.length_eq_zero_iff.mp (by omega)
    rw [hchars, hnil, List.append_nil]
    exact hseq

theorem Sequence.valid (h : Sequence seq) : Valid seq := by
  obtain ⟨c, rfl⟩ := sequence_iff.mp h
  exact ⟨[c], by simp⟩

theorem Valid.append (h : Valid seq) (h' : Valid rest) : Valid (seq ++ rest) := by
  obtain ⟨chars, rfl⟩ := h
  obtain ⟨chars', rfl⟩ := h'
  exact ⟨chars ++ chars', by simp [encode]⟩

end Sequences

/-! ## Validation -/

theorem validateUTF8_iff {bytes : List UInt8} :
    (ByteArray.mk bytes.toArray).validateUTF8 = true ↔ Valid bytes := by
  have hbytes (bytes : List UInt8) : ByteArray.mk bytes.toArray = bytes.toByteArray := by
    ext1
    simp
  rw [ByteArray.validateUTF8_eq_true_iff, hbytes]
  constructor
  · rintro ⟨chars, hchars⟩
    refine ⟨chars, ?_⟩
    have := congrArg (fun b => b.data.toList) hchars
    simpa [List.utf8Encode, encode] using this
  · rintro ⟨chars, rfl⟩
    exact ⟨chars, rfl⟩

/-! ## From left to right -/

section Repair

variable {mark byte : UInt8} {seq lead rest bytes : List UInt8}

/-- No sequence lies across the boundary between `lead` and `rest`. -/
def Cut (lead rest : List UInt8) : Prop :=
  ∀ before seq after, lead ++ rest = before ++ seq ++ after → Sequence seq →
    before.length < lead.length → before.length + seq.length ≤ lead.length

theorem Cut.covered_left (h : Cut lead rest) {i : ℕ} (hi : i < lead.length) :
    Covered (lead ++ rest) i ↔ Covered lead i := by
  constructor
  · rintro ⟨before, seq, after, hsplit, hseq, hle, hlt⟩
    have hend := h before seq after hsplit hseq (by omega)
    have htake := congrArg (List.take lead.length) hsplit
    rw [List.take_left, List.take_append, List.take_of_length_le (by simpa using hend)] at htake
    exact ⟨before, seq, _, htake, hseq, hle, hlt⟩
  · rintro ⟨before, seq, after, rfl, hseq, hle, hlt⟩
    exact ⟨before, seq, after ++ rest, by simp, hseq, hle, hlt⟩

theorem Cut.covered_right (h : Cut lead rest) (i : ℕ) :
    Covered (lead ++ rest) (i + lead.length) ↔ Covered rest i := by
  constructor
  · rintro ⟨before, seq, after, hsplit, hseq, hle, hlt⟩
    have hbefore : lead.length ≤ before.length := by
      by_contra hshort
      have := h before seq after hsplit hseq (by omega)
      omega
    refine ⟨before.drop lead.length, seq, after, ?_, hseq, ?_, ?_⟩
    · have hdrop := congrArg (List.drop lead.length) hsplit
      rw [List.drop_left, List.append_assoc, List.drop_append_of_le_length hbefore] at hdrop
      rw [hdrop, List.append_assoc]
    all_goals
      rw [List.length_drop]
      omega
  · rintro ⟨before, seq, after, rfl, hseq, hle, hlt⟩
    refine ⟨lead ++ before, seq, after, by simp, hseq, ?_, ?_⟩
    all_goals
      rw [List.length_append]
      omega

@[simp]
theorem length_repair : (repair mark bytes).length = bytes.length := by
  simp [repair]

@[simp]
theorem repair_nil : repair mark [] = [] :=
  rfl

theorem getElem?_repair {i : ℕ} (hi : i < bytes.length) :
    (Covered bytes i → (repair mark bytes)[i]? = bytes[i]?) ∧
      (¬Covered bytes i → (repair mark bytes)[i]? = some mark) := by
  simp only [repair, List.getElem?_mapIdx, List.getElem?_eq_getElem hi, Option.map_some]
  exact ⟨fun h => by rw [if_pos h], fun h => by rw [if_neg h]⟩

theorem Cut.repair_append (h : Cut lead rest) :
    repair mark (lead ++ rest) = repair mark lead ++ repair mark rest := by
  rw [repair, repair, repair, List.mapIdx_append]
  congr 1
  · refine List.mapIdx_eq_mapIdx_iff.mpr fun i hi => ?_
    rw [propext (h.covered_left hi)]
  · refine List.mapIdx_eq_mapIdx_iff.mpr fun i hi => ?_
    rw [propext (h.covered_right i)]

theorem cut_sequence (h : Sequence seq) : Cut seq rest := by
  intro before other after hsplit hother hlt
  rcases before with _ | ⟨first, before⟩
  · have heq := h.eq_of_prefix hother (List.prefix_append seq rest)
      ⟨after, by simpa using hsplit.symm⟩
    simp [heq]
  · -- another sequence would begin with a continuation byte of this one
    obtain ⟨byte, tail, rfl⟩ := List.exists_cons_of_ne_nil h.ne_nil
    obtain ⟨byte', tail', rfl⟩ := List.exists_cons_of_ne_nil hother.ne_nil
    simp only [List.cons_append, List.append_assoc, List.cons.injEq] at hsplit
    have hmem : byte' ∈ tail := by
      have hget := congrArg (·[before.length]?) hsplit.2
      simp only [List.length_cons, Nat.add_lt_add_iff_right] at hlt
      rw [List.getElem?_append_left hlt, List.getElem?_append_right le_rfl, Nat.sub_self] at hget
      exact List.mem_of_getElem? hget
    exact absurd (h.tails byte' hmem) hother.not_tail

/-- A sequence in front is kept. -/
theorem repair_sequence (h : Sequence seq) :
    repair mark (seq ++ rest) = seq ++ repair mark rest := by
  rw [(cut_sequence h).repair_append]
  congr 1
  refine List.ext_getElem (by simp) fun i hi hi' => ?_
  simp only [repair, List.getElem_mapIdx]
  rw [if_pos ⟨[], seq, [], by simp, h, by simp, by simpa using hi'⟩]

/-- A byte in front that begins no sequence is replaced. -/
theorem repair_cons (h : ∀ seq, Sequence seq → ¬seq <+: byte :: rest) :
    repair mark (byte :: rest) = mark :: repair mark rest := by
  have hcut : Cut [byte] rest := by
    intro before seq after hsplit hseq hlt
    obtain rfl : before = [] := by simpa using hlt
    exact absurd ⟨after, hsplit.symm⟩ (h seq hseq)
  have hfirst : ¬Covered [byte] 0 := by
    rintro ⟨before, seq, after, hsplit, hseq, hle, -⟩
    obtain rfl : before = [] := by simpa using hle
    refine h seq hseq ⟨after ++ rest, ?_⟩
    rw [List.nil_append] at hsplit
    rw [← List.append_assoc, ← hsplit, List.singleton_append]
  have happend := @Cut.repair_append mark [byte] rest hcut
  rw [List.singleton_append] at happend
  rw [happend]
  simp [repair, hfirst]

theorem repair_tail (h : Tail byte) : repair mark (byte :: rest) = mark :: repair mark rest := by
  refine repair_cons ?_
  rintro seq hseq ⟨after, hprefix⟩
  obtain ⟨first, tail, rfl⟩ := List.exists_cons_of_ne_nil hseq.ne_nil
  obtain rfl : first = byte := (List.cons.inj hprefix).1
  exact hseq.not_tail h

theorem repair_tails {tails : List UInt8} (h : ∀ later ∈ tails, Tail later) :
    repair mark (tails ++ rest) = List.replicate tails.length mark ++ repair mark rest := by
  induction tails with
  | nil => rfl
  | cons byte tails ih =>
    rw [List.forall_mem_cons] at h
    rw [List.cons_append, repair_tail h.1, ih h.2, List.length_cons, List.replicate_succ,
      List.cons_append]

/-- The first byte of a sequence that is broken off is replaced with the continuation bytes behind
it. -/
theorem repair_short {tails : List UInt8} (h : ∀ later ∈ tails, Tail later)
    (hshort : tails.length + 1 < width byte) (hrest : ∀ later ∈ rest.head?, ¬Tail later) :
    repair mark (byte :: tails ++ rest) =
      List.replicate (tails.length + 1) mark ++ repair mark rest := by
  rw [List.cons_append, repair_cons, repair_tails h, List.replicate_succ, List.cons_append]
  rintro seq hseq ⟨after, hprefix⟩
  obtain ⟨first, more, rfl⟩ := List.exists_cons_of_ne_nil hseq.ne_nil
  rw [List.cons_append, List.cons.injEq] at hprefix
  obtain ⟨rfl, hprefix⟩ := hprefix
  have hlength := hseq.length_eq
  rw [List.length_cons] at hlength
  -- the sequence goes on behind the continuation bytes
  have hget := congrArg (·[tails.length]?) hprefix
  rw [List.getElem?_append_left (by omega), List.getElem?_append_right le_rfl, Nat.sub_self,
    ← List.head?_eq_getElem?, List.getElem?_eq_getElem (by omega)] at hget
  exact hrest _ hget.symm (hseq.tails _ (List.getElem_mem _))

/-- The bytes of a sequence that is as long as its first byte tells, but not valid, are replaced. -/
theorem repair_invalid {tails : List UInt8} (h : ∀ later ∈ tails, Tail later)
    (hlength : tails.length + 1 = width byte) (hinvalid : ¬Valid (byte :: tails)) :
    repair mark (byte :: tails ++ rest) =
      List.replicate (tails.length + 1) mark ++ repair mark rest := by
  rw [List.cons_append, repair_cons, repair_tails h, List.replicate_succ, List.cons_append]
  rintro seq hseq ⟨after, hprefix⟩
  obtain ⟨first, more, rfl⟩ := List.exists_cons_of_ne_nil hseq.ne_nil
  rw [List.cons_append, List.cons.injEq] at hprefix
  obtain ⟨rfl, hprefix⟩ := hprefix
  have hmore := hseq.length_eq
  rw [List.length_cons] at hmore
  obtain rfl := (List.append_inj hprefix (by omega)).1
  exact hinvalid hseq.valid

/-- What is well formed is left as it is. -/
theorem repair_encode (chars : List Char) : repair mark (encode chars) = encode chars := by
  induction chars with
  | nil => rfl
  | cons c chars ih => rw [encode_cons, repair_sequence (sequence_encode c), ih]

/-- What is repaired with a mark of one byte is well formed. -/
theorem valid_repair (hmark : mark ≤ 0x7f) : Valid (repair mark bytes) := by
  induction hlength : bytes.length using Nat.strong_induction_on generalizing bytes with
  | _ n ih =>
    subst hlength
    rcases bytes with _ | ⟨byte, bytes⟩
    · exact ⟨[], rfl⟩
    · by_cases h : ∃ seq, Sequence seq ∧ seq <+: byte :: bytes
      · obtain ⟨seq, hseq, rest, hrest⟩ := h
        rw [← hrest, repair_sequence hseq]
        refine hseq.valid.append (ih rest.length ?_ rfl)
        have := List.length_pos_iff.mpr hseq.ne_nil
        rw [← hrest, List.length_append]
        omega
      · rw [not_exists] at h
        rw [repair_cons fun seq hseq hprefix => h seq ⟨hseq, hprefix⟩]
        exact (Sequence.valid (.one hmark)).append (ih bytes.length (by simp) rfl)

end Repair

end Utf8
