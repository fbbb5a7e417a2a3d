import Sark.Http.H1.Chunk.Trailer
import Sark.Library.BitMask
import Sark.Library.Chunks

/-!
# Scans of field names and values

The scanners of `http/src/field/scan`. They look at lanes of sixteen bytes, and at groups of four
lanes: a multiplication packs the flags of eight bytes into eight bits, the masks of the lanes are
shifted into one word, and its trailing zeros name the first byte that is not of the class. What is
left at the end is scanned byte by byte.

* `mask_eq`, `packed_eq`: a mask has one bit for each byte.
* `nameSimd_eq`, `valueSimd_eq`: the blocks find what the loop over bytes finds.
* `scanners_eq_tails`: both scanners, for all bytes and places.
-/

namespace Sark.Http.Field

open BitMask (ofBits ofBits_append ofBits_eq_zero_iff ofBits_lt findIdx?_ofBits)
open Chunk (isText)
open Chunks (asChunks asChunks_append length_of_mem_asChunks mem_of_mem_asChunks mem_of_mem_rest)
open Swar (trailingZeros)

/-! ## The scanners -/

/-- `scan::Outcome`, with `Partial` named `unfinished`. -/
inductive Outcome (α : Type)
  | found (value : α)
  | invalid (offset : ℕ) (actual : UInt8)
  | unfinished
  deriving DecidableEq, Repr

/-- `LANE`. -/
def laneLen : ℕ :=
  16

/-- The flags of eight bytes, each 0 or 0x80, as eight bits. -/
def packFlags (chunk : Bytes) : ℕ :=
  ((Swar.ofBytes chunk * 0x0002040810204081) % 2 ^ 64) >>> 56 % 2 ^ 16

/-- `mask`: the bits of the bytes of a lane that are not of a class. -/
def mask (isClass : UInt8 → Bool) (lane : Bytes) : ℕ :=
  let flags := lane.map fun byte => (if isClass byte then 0 else 1 : UInt8) <<< 7
  (asChunks 8 flags).1.zipIdx.foldl
    (fun bits chunk => bits ||| (packFlags chunk.1 <<< (chunk.2 * 8)) % 2 ^ 16) 0

/-- `packed`. -/
def packed (masks : List ℕ) : ℕ :=
  masks.zipIdx.foldl (fun bits mask => bits ||| (mask.1 <<< (mask.2 * laneLen)) % 2 ^ 64) 0

/-- `in_lane`. -/
def inLane (lane : Bytes) (bits : ℕ) : ℕ × UInt8 :=
  let offset := trailingZeros bits &&& (laneLen - 1)
  (offset, lane.getD offset 0)

/-- `first`. -/
def first (group : List Bytes) (found : ℕ) : ℕ × UInt8 :=
  let ordinal := trailingZeros found
  (ordinal, (group.getD (ordinal / laneLen) []).getD (ordinal % laneLen) 0)

/-- `name_at`. -/
def nameAt (pos : ℕ) (byte : UInt8) : Outcome (ℕ × UInt8) :=
  if byte = 0x3a || byte = 0x0d then .found (pos, byte) else .invalid pos byte

/-- `value_at`. -/
def valueAt (bytes : Bytes) (offset pos : ℕ) (byte : UInt8) : Outcome ℕ :=
  if byte ≠ 0x0d then .invalid pos byte
  else
    match bytes[offset + 1]? with
    | none => .unfinished
    | some next => if next = 0x0a then .found pos else .invalid (pos + 1) next

/-- `name_tail`. -/
def nameTail : Bytes → ℕ → Outcome (ℕ × UInt8)
  | [], _ => .unfinished
  | byte :: rest, pos =>
    if byte = 0x3a || byte = 0x0d then .found (pos, byte)
    else if !isNameByte byte then .invalid pos byte
    else nameTail rest (pos + 1)

/-- The loop of `value_tail`. -/
def valueLoop (bytes : Bytes) (index : ℕ) : ℕ → Bytes → Outcome ℕ
  | _, [] => .unfinished
  | offset, byte :: rest =>
    if byte = 0x0d then valueAt bytes offset (index + offset) byte
    else if !isText byte then .invalid (index + offset) byte
    else valueLoop bytes index (offset + 1) rest

/-- `value_tail`. -/
def valueTail (bytes : Bytes) (index : ℕ) : Outcome ℕ :=
  valueLoop bytes index 0 bytes

/-- What a function returns, early as an error or at its end. -/
def returned {α : Type} : Except α α → α
  | .error result => result
  | .ok result => result

/-- A turn of the loop over groups of `name_simd`. -/
def nameGroup (index : ℕ) (group : List Bytes) : Except (Outcome (ℕ × UInt8)) ℕ :=
  let found := packed (group.map (mask isNameByte))
  if found = 0 then .ok (index + 4 * laneLen)
  else .error (nameAt (index + (first group found).1) (first group found).2)

/-- A turn of the loop over lanes of `name_simd`. -/
def nameLane (index : ℕ) (lane : Bytes) : Except (Outcome (ℕ × UInt8)) ℕ :=
  let bits := mask isNameByte lane
  if bits ≠ 0 then .error (nameAt (index + (inLane lane bits).1) (inLane lane bits).2)
  else .ok (index + laneLen)

/-- `name_simd`. -/
def nameSimd (bytes : Bytes) (index : ℕ) : Outcome (ℕ × UInt8) :=
  let lanes := asChunks laneLen bytes
  let groups := asChunks 4 lanes.1
  returned do
    let index ← groups.1.foldlM nameGroup index
    let index ← groups.2.foldlM nameLane index
    .ok (if lanes.2 = [] then .unfinished else nameTail lanes.2 index)

/-- A turn of the loop over groups of `value_simd`, on the index and the bytes consumed. -/
def valueGroup (bytes : Bytes) (state : ℕ × ℕ) (group : List Bytes) :
    Except (Outcome ℕ) (ℕ × ℕ) :=
  let found := packed (group.map (mask isText))
  if found = 0 then .ok (state.1 + 4 * laneLen, state.2 + 4 * laneLen)
  else
    let hit := first group found
    .error (valueAt bytes (state.2 + hit.1) (state.1 + hit.1) hit.2)

/-- A turn of the loop over lanes of `value_simd`. -/
def valueLane (bytes : Bytes) (state : ℕ × ℕ) (lane : Bytes) : Except (Outcome ℕ) (ℕ × ℕ) :=
  let bits := mask isText lane
  if bits ≠ 0 then
    let hit := inLane lane bits
    .error (valueAt bytes (state.2 + hit.1) (state.1 + hit.1) hit.2)
  else .ok (state.1 + laneLen, state.2 + laneLen)

/-- `value_simd`. -/
def valueSimd (bytes : Bytes) (index : ℕ) : Outcome ℕ :=
  if bytes.length < laneLen then valueTail bytes index
  else
    let lane := bytes.take laneLen
    let rest := bytes.drop laneLen
    let bits := mask isText lane
    if bits ≠ 0 then
      let hit := inLane lane bits
      valueAt bytes hit.1 (index + hit.1) hit.2
    else
      let lanes := asChunks laneLen rest
      let groups := asChunks 4 lanes.1
      returned do
        let state ← groups.1.foldlM (valueGroup bytes) (index + laneLen, laneLen)
        let state ← groups.2.foldlM (valueLane bytes) state
        .ok (if lanes.2 = [] then .unfinished else valueTail lanes.2 state.1)

/-- `Bytes::name`. -/
def scanName (bytes : Bytes) (start : ℕ) : Outcome (ℕ × UInt8) :=
  if bytes.length < start then .unfinished
  else
    let rest := bytes.drop start
    let lead := rest.take (min rest.length laneLen)
    let behind := rest.drop (min rest.length laneLen)
    let outcome := nameTail lead start
    if outcome ≠ .unfinished then outcome
    else if behind = [] then .unfinished
    else if behind.length < laneLen then nameTail behind (start + lead.length)
    else nameSimd behind (start + lead.length)

/-- `Bytes::value`. -/
def scanValue (bytes : Bytes) (start : ℕ) : Outcome ℕ :=
  if bytes.length < start then .unfinished else valueSimd (bytes.drop start) start

/-! ## The first byte outside of a class -/

/-- The loop over single bytes of `Error::name` and `Error::value`: the position of the first byte
that is not of a class, and the byte. -/
def firstOutside (isClass : UInt8 → Bool) : Bytes → ℕ → Option (ℕ × UInt8)
  | [], _ => none
  | byte :: rest, index =>
    if !isClass byte then some (index, byte) else firstOutside isClass rest (index + 1)

section Outside

variable {isClass : UInt8 → Bool} {bytes more : Bytes} {index : ℕ}

theorem firstOutside_append (isClass : UInt8 → Bool) (bytes more : Bytes) (index : ℕ) :
    firstOutside isClass (bytes ++ more) index =
      (firstOutside isClass bytes index).or (firstOutside isClass more (index + bytes.length)) := by
  induction bytes generalizing index with
  | nil => rfl
  | cons byte bytes ih =>
    rw [List.cons_append, firstOutside, firstOutside, List.length_cons]
    split_ifs
    · rfl
    · rw [ih, Nat.add_right_comm, Nat.add_assoc]

theorem firstOutside_eq (isClass : UInt8 → Bool) (bytes : Bytes) (index : ℕ) :
    firstOutside isClass bytes index =
      (bytes.findIdx? fun byte => !isClass byte).map fun i => (index + i, bytes.getD i 0) := by
  induction bytes generalizing index with
  | nil => rfl
  | cons byte bytes ih =>
    rw [firstOutside, List.findIdx?_cons]
    split_ifs
    · rfl
    · rw [ih, Option.map_map]
      congr 1
      funext i
      simp only [Function.comp_apply, List.getD_cons_succ, Prod.mk.injEq, and_true]
      omega

theorem le_of_firstOutside {hit : ℕ × UInt8} (h : firstOutside isClass bytes index = some hit) :
    index ≤ hit.1 := by
  rw [firstOutside_eq, Option.map_eq_some_iff] at h
  obtain ⟨i, -, rfl⟩ := h
  exact Nat.le_add_right _ _

theorem nameTail_eq (bytes : Bytes) (index : ℕ) : nameTail bytes index =
    (firstOutside isNameByte bytes index).elim .unfinished fun hit => nameAt hit.1 hit.2 := by
  induction bytes generalizing index with
  | nil => rfl
  | cons byte bytes ih =>
    rw [nameTail, firstOutside]
    by_cases hmark : byte = 0x3a ∨ byte = 0x0d
    · -- neither the colon nor CR is a name byte
      have houtside : isNameByte byte = false := by
        rcases hmark with rfl | rfl <;> decide
      rw [if_pos (by simpa using hmark), houtside]
      simp only [Bool.not_false, if_true, Option.elim_some]
      rw [nameAt, if_pos (by simpa using hmark)]
    · rw [if_neg (by simpa using hmark), ih]
      split_ifs
      · rw [Option.elim_some, nameAt, if_neg (by simpa using hmark)]
      · rfl

theorem valueLoop_eq (whole : Bytes) (index offset : ℕ) (bytes : Bytes) :
    valueLoop whole index offset bytes =
      (firstOutside isText bytes (index + offset)).elim .unfinished fun hit =>
        valueAt whole (hit.1 - index) hit.1 hit.2 := by
  induction bytes generalizing offset with
  | nil => rfl
  | cons byte bytes ih =>
    rw [valueLoop, firstOutside]
    by_cases hmark : byte = 0x0d
    · have houtside : isText byte = false := by
        rw [hmark]
        decide
      rw [if_pos hmark, houtside]
      simp
    · rw [if_neg hmark, ih]
      split_ifs
      · rw [Option.elim_some, valueAt, if_pos hmark]
      · rfl

theorem valueTail_eq (bytes : Bytes) (index : ℕ) : valueTail bytes index =
    (firstOutside isText bytes index).elim .unfinished fun hit =>
      valueAt bytes (hit.1 - index) hit.1 hit.2 :=
  valueLoop_eq bytes index 0 bytes

end Outside

/-! ## Masks -/

/-- The flag of a byte in its highest bit. -/
def flagged (outside : Bool) : UInt8 :=
  (if outside then 1 else 0 : UInt8) <<< 7

/-- No carry crosses a byte: the product holds the eight flags in its highest byte. -/
theorem packFlags_eq : ∀ a b c d e f g h : Bool,
    packFlags ([a, b, c, d, e, f, g, h].map flagged) = ofBits [a, b, c, d, e, f, g, h] := by
  decide +kernel

section Masks

variable {isClass : UInt8 → Bool} {lane : Bytes} {group : List Bytes} {index : ℕ}

theorem packFlags_of_length {outside : List Bool} (h : outside.length = 8) :
    packFlags (outside.map flagged) = ofBits outside := by
  match outside, h with
  | [a, b, c, d, e, f, g, h], _ => exact packFlags_eq a b c d e f g h

/-- The bits of the bytes that are not of a class. -/
def outsideBits (isClass : UInt8 → Bool) (bytes : Bytes) : List Bool :=
  bytes.map fun byte => !isClass byte

theorem asChunks_eight {flags : List UInt8} (h : flags.length = 16) :
    (asChunks 8 flags).1 = [flags.take 8, flags.drop 8] := by
  have hdrop : (flags.drop 8).length ≤ 8 := by
    rw [List.length_drop, h]
  rw [asChunks, h]
  show [(flags.drop (0 * 8)).take 8, (flags.drop (1 * 8)).take 8] = _
  rw [Nat.zero_mul, Nat.one_mul, List.drop_zero, List.take_of_length_le hdrop]

theorem packFlags_lt {outside : List Bool} (h : outside.length = 8) :
    packFlags (outside.map flagged) < 2 ^ 8 := by
  rw [packFlags_of_length h, ← h]
  exact ofBits_lt outside

theorem packFlags_append {low high : List Bool} (hlow : low.length = 8) (hhigh : high.length = 8) :
    packFlags (low.map flagged) ||| packFlags (high.map flagged) <<< 8 = ofBits (low ++ high) := by
  rw [packFlags_of_length hlow, packFlags_of_length hhigh, ofBits_append, hlow]

theorem shifted_bytes {low high : ℕ} (hlow : low < 2 ^ 8) (hhigh : high < 2 ^ 8) :
    0 ||| (low <<< (0 * 8)) % 2 ^ 16 ||| (high <<< ((0 + 1) * 8)) % 2 ^ 16 =
      low ||| high <<< 8 := by
  have hshift : high <<< 8 < 2 ^ 16 := by
    rw [Nat.shiftLeft_eq]
    omega
  rw [Nat.zero_or, Nat.zero_mul, Nat.shiftLeft_zero, Nat.zero_add, Nat.one_mul,
    Nat.mod_eq_of_lt hshift, Nat.mod_eq_of_lt (by omega)]

/-- A mask has one bit for each byte of the lane. -/
theorem mask_eq (h : lane.length = laneLen) :
    mask isClass lane = ofBits (outsideBits isClass lane) := by
  rw [laneLen] at h
  have hflags : (lane.map fun byte => (if isClass byte then 0 else 1 : UInt8) <<< 7) =
      (outsideBits isClass lane).map flagged := by
    rw [outsideBits, List.map_map]
    refine List.map_congr_left fun byte _ => ?_
    rw [Function.comp_apply, flagged]
    cases isClass byte <;> rfl
  have hlength : (outsideBits isClass lane).length = 16 := by
    rw [outsideBits, List.length_map, h]
  rw [mask]
  simp only [hflags]
  generalize outsideBits isClass lane = outside at *
  have hlow : (outside.take 8).length = 8 := by
    rw [List.length_take, hlength]
    rfl
  have hhigh : (outside.drop 8).length = 8 := by
    rw [List.length_drop, hlength]
  have hlt := packFlags_lt hlow
  have hlt' := packFlags_lt hhigh
  have happend := packFlags_append hlow hhigh
  rw [List.take_append_drop] at happend
  rw [asChunks_eight (by rw [List.length_map, hlength]), ← List.map_take, ← List.map_drop,
    ← happend]
  rw [List.zipIdx_cons, List.zipIdx_cons, List.zipIdx_nil, List.foldl_cons, List.foldl_cons,
    List.foldl_nil]
  exact shifted_bytes hlt hlt'

/-- The masks of four lanes are one mask. -/
theorem packed_eq (h : group.length = 4) (hlanes : ∀ lane ∈ group, lane.length = laneLen) :
    packed (group.map (mask isClass)) = ofBits (outsideBits isClass group.flatten) := by
  match group, h with
  | [a, b, c, d], _ =>
    simp only [List.forall_mem_cons] at hlanes
    obtain ⟨ha, hb, hc, hd, -⟩ := hlanes
    have hlt (lane : Bytes) (hlane : lane.length = laneLen) :
        ofBits (outsideBits isClass lane) < 2 ^ 16 := by
      have := ofBits_lt (outsideBits isClass lane)
      rwa [outsideBits, List.length_map, hlane] at this
    have hlength (lane : Bytes) (hlane : lane.length = laneLen) :
        (outsideBits isClass lane).length = 16 := by
      rw [outsideBits, List.length_map, hlane, laneLen]
    simp only [List.map_cons, List.map_nil, mask_eq ha, mask_eq hb, mask_eq hc, mask_eq hd, packed,
      List.zipIdx_cons, List.zipIdx_nil, List.foldl_cons, List.foldl_nil, Nat.zero_mul, laneLen,
      Nat.zero_add, Nat.one_mul, Nat.reduceAdd, Nat.reduceMul, Nat.shiftLeft_zero, Nat.zero_or]
    have hsplit : outsideBits isClass [a, b, c, d].flatten = outsideBits isClass a ++
        (outsideBits isClass b ++ (outsideBits isClass c ++ outsideBits isClass d)) := by
      simp [outsideBits]
    have := hlt a ha
    have := hlt b hb
    have := hlt c hc
    have := hlt d hd
    rw [hsplit, ofBits_append, ofBits_append, ofBits_append, hlength a ha, hlength b hb,
      hlength c hc, Nat.mod_eq_of_lt, Nat.mod_eq_of_lt, Nat.mod_eq_of_lt, Nat.mod_eq_of_lt]
    · simp only [Nat.shiftLeft_or_distrib, ← Nat.shiftLeft_add, Nat.reduceAdd, Nat.lor_assoc]
    all_goals omega

theorem firstOutside_eq_none {bytes : Bytes} (h : ofBits (outsideBits isClass bytes) = 0)
    (index : ℕ) : firstOutside isClass bytes index = none := by
  rw [ofBits_eq_zero_iff, outsideBits] at h
  rw [firstOutside_eq, Option.map_eq_none_iff, List.findIdx?_eq_none_iff]
  exact fun byte hmem => h _ (List.mem_map_of_mem hmem)

theorem firstOutside_eq_some {bytes : Bytes} (h : ofBits (outsideBits isClass bytes) ≠ 0)
    (index : ℕ) :
    trailingZeros (ofBits (outsideBits isClass bytes)) < bytes.length ∧
      firstOutside isClass bytes index =
        some (index + trailingZeros (ofBits (outsideBits isClass bytes)),
          bytes.getD (trailingZeros (ofBits (outsideBits isClass bytes))) 0) := by
  have hfind := findIdx?_ofBits h
  rw [outsideBits, List.findIdx?_map] at hfind
  refine ⟨?_, ?_⟩
  · exact (List.findIdx?_eq_some_iff_findIdx_eq.mp hfind).1
  · rw [firstOutside_eq]
    simp only [Function.comp_def, id] at hfind
    rw [hfind]
    rfl

theorem getD_flatten (hlanes : ∀ lane ∈ group, lane.length = laneLen) (i : ℕ) :
    (group.getD (i / laneLen) []).getD (i % laneLen) 0 = group.flatten.getD i 0 := by
  induction group generalizing i with
  | nil => rfl
  | cons lane group ih =>
    obtain ⟨hlane, hgroup⟩ := List.forall_mem_cons.mp hlanes
    rw [List.flatten_cons]
    rw [laneLen] at hlane ih ⊢
    rcases Nat.lt_or_ge i 16 with h | h
    · rw [Nat.div_eq_of_lt h, Nat.mod_eq_of_lt h, List.getD_cons_zero,
        List.getD_append _ _ _ _ (by omega)]
    · obtain ⟨later, rfl⟩ := Nat.exists_eq_add_of_le' h
      rw [Nat.add_div_right _ (by norm_num), Nat.add_mod_right, List.getD_cons_succ, ih hgroup,
        List.getD_append_right _ _ _ _ (by omega), hlane, Nat.add_sub_cancel]

theorem firstOutside_group (h : group.length = 4) (hlanes : ∀ lane ∈ group, lane.length = laneLen)
    (index : ℕ) : firstOutside isClass group.flatten index =
      if packed (group.map (mask isClass)) = 0 then none
      else some (index + (first group (packed (group.map (mask isClass)))).1,
        (first group (packed (group.map (mask isClass)))).2) := by
  rw [packed_eq h hlanes]
  split_ifs with hzero
  · exact firstOutside_eq_none hzero index
  · rw [(firstOutside_eq_some hzero index).2, first, getD_flatten hlanes]

theorem firstOutside_lane (h : lane.length = laneLen) (index : ℕ) :
    firstOutside isClass lane index =
      if mask isClass lane = 0 then none
      else some (index + (inLane lane (mask isClass lane)).1,
        (inLane lane (mask isClass lane)).2) := by
  rw [mask_eq h]
  split_ifs with hzero
  · exact firstOutside_eq_none hzero index
  · obtain ⟨hlt, hfirst⟩ := firstOutside_eq_some hzero index
    rw [h, laneLen] at hlt
    have hoffset : trailingZeros (ofBits (outsideBits isClass lane)) &&& (laneLen - 1) =
        trailingZeros (ofBits (outsideBits isClass lane)) := by
      rw [laneLen, show 16 - 1 = 2 ^ 4 - 1 by rfl, Nat.and_two_pow_sub_one_eq_mod,
        Nat.mod_eq_of_lt hlt]
    rw [hfirst, inLane, hoffset]

end Masks

/-! ## Loops -/

section Loops

variable {σ ρ β : Type} {isClass : UInt8 → Bool} {step : σ → β → Except ρ σ} {state : ℕ → σ}
  {result : ℕ × UInt8 → ρ} {start : ℕ} {blocks : List β}

/-- A loop that looks for the first byte outside of a class in one block after the other, returns
early with it, and counts the bytes that it has passed. -/
theorem foldlM_blocks (flat : β → Bytes)
    (hstep : ∀ n, ∀ block ∈ blocks, step (state n) block =
      (firstOutside isClass (flat block) (start + n)).elim (.ok (state (n + (flat block).length)))
        fun hit => .error (result hit)) (n : ℕ) :
    blocks.foldlM step (state n) =
      (firstOutside isClass (blocks.flatMap flat) (start + n)).elim
        (.ok (state (n + (blocks.flatMap flat).length))) fun hit => .error (result hit) := by
  induction blocks generalizing n with
  | nil => rfl
  | cons block blocks ih =>
    rw [List.foldlM_cons, hstep n block List.mem_cons_self, List.flatMap_cons, firstOutside_append]
    rcases firstOutside isClass (flat block) (start + n) with _ | hit
    · rw [Option.elim_none, Option.none_or, List.length_append, Nat.add_assoc, ← Nat.add_assoc n]
      exact ih (fun n block hmem => hstep n block (List.mem_cons_of_mem _ hmem)) _
    · rfl

end Loops

section Names

variable {bytes : Bytes} {index : ℕ}

/-- The lanes of a byte string have sixteen bytes each, and four of them are a group. -/
theorem groups_spec (bytes : Bytes) :
    (∀ group ∈ (asChunks 4 (asChunks laneLen bytes).1).1,
      group.length = 4 ∧ ∀ lane ∈ group, lane.length = laneLen) ∧
    (∀ lane ∈ (asChunks 4 (asChunks laneLen bytes).1).2, lane.length = laneLen) ∧
    (asChunks 4 (asChunks laneLen bytes).1).1.flatMap List.flatten ++
      ((asChunks 4 (asChunks laneLen bytes).1).2.flatMap id ++ (asChunks laneLen bytes).2) =
        bytes := by
  refine ⟨fun group hgroup => ⟨length_of_mem_asChunks hgroup, fun lane hlane => ?_⟩,
    fun lane hlane => ?_, ?_⟩
  · exact length_of_mem_asChunks (mem_of_mem_asChunks hgroup hlane)
  · exact length_of_mem_asChunks (mem_of_mem_rest hlane)
  · have houter := asChunks_append 4 (asChunks laneLen bytes).1
    have hinner := asChunks_append laneLen bytes
    rw [← houter, List.flatten_append] at hinner
    rw [← List.append_assoc, List.flatMap_id, List.flatMap_def, ← List.flatten_flatten]
    exact hinner

/-- The loops over the groups and over the lanes of a byte string, one after the other. -/
theorem blocks_loop {σ ρ : Type} {isClass : UInt8 → Bool} {stepGroup : σ → List Bytes → Except ρ σ}
    {stepLane : σ → Bytes → Except ρ σ} {result : ℕ × UInt8 → ρ} {stop : ρ} {start : ℕ}
    (bytes : Bytes) (state : ℕ → σ) (n : ℕ) (finish : Bytes → σ → ρ)
    (hgroup : ∀ n group, group.length = 4 → (∀ lane ∈ group, lane.length = laneLen) →
      stepGroup (state n) group = (firstOutside isClass group.flatten (start + n)).elim
        (.ok (state (n + group.flatten.length))) fun hit => .error (result hit))
    (hlane : ∀ n lane, lane.length = laneLen →
      stepLane (state n) lane = (firstOutside isClass lane (start + n)).elim
        (.ok (state (n + lane.length))) fun hit => .error (result hit))
    (hfinish : ∀ k, finish (bytes.drop k) (state (n + k)) =
      (firstOutside isClass (bytes.drop k) (start + (n + k))).elim stop result) :
    returned (do
      let next ← (asChunks 4 (asChunks laneLen bytes).1).1.foldlM stepGroup (state n)
      let next ← (asChunks 4 (asChunks laneLen bytes).1).2.foldlM stepLane next
      .ok (finish (asChunks laneLen bytes).2 next)) =
      (firstOutside isClass bytes (start + n)).elim stop result := by
  obtain ⟨hgroups, hlanes, hsplit⟩ := groups_spec bytes
  generalize (asChunks 4 (asChunks laneLen bytes).1).1 = groups at *
  generalize (asChunks 4 (asChunks laneLen bytes).1).2 = lanes at *
  generalize (asChunks laneLen bytes).2 = tail at *
  have hdrop : bytes.drop ((groups.flatMap List.flatten).length + (lanes.flatMap id).length) =
      tail := by
    rw [← hsplit, ← List.drop_drop, List.drop_left, List.drop_left]
  have hlast := hfinish ((groups.flatMap List.flatten).length + (lanes.flatMap id).length)
  rw [hdrop] at hlast
  rw [foldlM_blocks List.flatten fun n group hmem => hgroup n group (hgroups group hmem).1
    (hgroups group hmem).2, ← hsplit, firstOutside_append]
  rcases firstOutside isClass (groups.flatMap List.flatten) (start + n) with _ | hit
  · rw [Option.elim_none, Option.none_or]
    show returned (lanes.foldlM stepLane (state (n + (groups.flatMap List.flatten).length)) >>=
      fun next => .ok (finish tail next)) = _
    rw [foldlM_blocks id fun n lane hmem => hlane n lane (hlanes lane hmem),
      firstOutside_append, Nat.add_assoc start]
    rcases firstOutside isClass (lanes.flatMap id)
      (start + (n + (groups.flatMap List.flatten).length)) with _ | hit
    · rw [Option.elim_none, Option.none_or]
      simp only [Nat.add_assoc] at hlast ⊢
      exact hlast
    · rfl
  · rfl

theorem length_group {group : List Bytes} (h : group.length = 4)
    (hlanes : ∀ lane ∈ group, lane.length = laneLen) : group.flatten.length = 4 * laneLen := by
  rw [List.length_flatten, List.map_congr_left hlanes, List.map_const', List.sum_replicate, h,
    smul_eq_mul]

/-- The block-wise scan of names finds what the scan byte by byte finds. -/
theorem nameSimd_eq (bytes : Bytes) (index : ℕ) : nameSimd bytes index = nameTail bytes index := by
  rw [nameTail_eq]
  refine blocks_loop bytes (fun n => index + n) 0
    (fun tail index => if tail = [] then .unfinished else nameTail tail index) ?_ ?_ ?_
  · intro n group hfour hall
    rw [firstOutside_group hfour hall, length_group hfour hall, nameGroup]
    split_ifs
    · rfl
    · rfl
  · intro n lane hlane
    rw [firstOutside_lane hlane, hlane, nameLane]
    by_cases hbits : mask isNameByte lane = 0
    · rw [if_pos hbits, if_neg (not_not.mpr hbits)]
      rfl
    · rw [if_neg hbits, if_pos hbits]
      rfl
  · intro k
    split_ifs with hnil
    · rw [hnil]
      rfl
    · exact nameTail_eq _ _

theorem valueAt_drop (k : ℕ) {offset : ℕ} (pos : ℕ) (byte : UInt8) :
    valueAt (bytes.drop k) offset pos byte = valueAt bytes (k + offset) pos byte := by
  rw [valueAt, valueAt, List.getElem?_drop, Nat.add_assoc]

theorem valueTail_drop (k : ℕ) : valueTail (bytes.drop k) (index + k) =
    (firstOutside isText (bytes.drop k) (index + k)).elim .unfinished fun hit =>
      valueAt bytes (hit.1 - index) hit.1 hit.2 := by
  rw [valueTail_eq]
  rcases hfirst : firstOutside isText (bytes.drop k) (index + k) with _ | hit
  · rfl
  · have hle := le_of_firstOutside hfirst
    rw [Option.elim_some, Option.elim_some, valueAt_drop]
    congr 1
    omega

/-- The block-wise scan of values finds what the scan byte by byte finds. -/
theorem valueSimd_eq (bytes : Bytes) (index : ℕ) :
    valueSimd bytes index = valueTail bytes index := by
  rw [valueSimd]
  by_cases hshort : bytes.length < laneLen
  · rw [if_pos hshort]
  rw [if_neg hshort, valueTail_eq]
  have hlane : (bytes.take laneLen).length = laneLen := by
    rw [List.length_take]
    omega
  have hfirst := @firstOutside_lane isText _ hlane index
  have hsplit := firstOutside_append isText (bytes.take laneLen) (bytes.drop laneLen) index
  rw [List.take_append_drop, hfirst, hlane] at hsplit
  simp only
  by_cases hbits : mask isText (bytes.take laneLen) = 0
  · rw [if_pos hbits, Option.none_or] at hsplit
    rw [if_neg (not_not.mpr hbits), hsplit]
    refine blocks_loop (bytes.drop laneLen) (fun n => (index + n, n)) laneLen
      (fun tail state => if tail = [] then .unfinished else valueTail tail state.1) ?_ ?_ ?_
    · intro n group hfour hall
      rw [firstOutside_group hfour hall, length_group hfour hall, valueGroup]
      simp only
      split_ifs
      · rfl
      · rw [Option.elim_some, Nat.add_assoc index, Nat.add_sub_cancel_left]
    · intro n lane hlane
      rw [firstOutside_lane hlane, hlane, valueLane]
      simp only
      by_cases hbits : mask isText lane = 0
      · rw [if_pos hbits, if_neg (not_not.mpr hbits)]
        rfl
      · rw [if_neg hbits, if_pos hbits, Option.elim_some, Nat.add_assoc index,
          Nat.add_sub_cancel_left]
    · intro k
      rw [List.drop_drop]
      split_ifs with hnil
      · rw [hnil]
        rfl
      · exact valueTail_drop _
  · rw [if_neg hbits, Option.some_or] at hsplit
    rw [if_pos hbits, hsplit, Option.elim_some, Nat.add_sub_cancel_left]

end Names

/-! ## Both scanners -/

section Scans

variable {bytes : Bytes} {start : ℕ}

theorem nameAt_ne_unfinished (pos : ℕ) (byte : UInt8) : nameAt pos byte ≠ .unfinished := by
  rw [nameAt]
  split_ifs
  · exact fun h => nomatch h
  · exact fun h => nomatch h

theorem nameTail_append (lead behind : Bytes) (index : ℕ) :
    nameTail (lead ++ behind) index =
      if nameTail lead index ≠ .unfinished then nameTail lead index
      else nameTail behind (index + lead.length) := by
  rw [nameTail_eq, nameTail_eq lead, nameTail_eq behind, firstOutside_append]
  rcases firstOutside isNameByte lead index with _ | hit
  · rw [Option.none_or, Option.elim_none, if_neg (not_not.mpr rfl)]
  · rw [Option.some_or, Option.elim_some, if_pos (nameAt_ne_unfinished _ _)]

theorem scanName_eq_tail (bytes : Bytes) (start : ℕ) :
    scanName bytes start = nameTail (bytes.drop start) start := by
  rw [scanName]
  by_cases hlong : bytes.length < start
  · rw [if_pos hlong, List.drop_of_length_le hlong.le]
    rfl
  rw [if_neg hlong]
  simp only
  generalize bytes.drop start = rest
  conv_rhs => rw [← List.take_append_drop (min rest.length laneLen) rest, nameTail_append]
  split_ifs with hdone hnil
  · rfl
  · rw [hnil]
    rfl
  · rfl
  · exact nameSimd_eq _ _

theorem scanValue_eq_tail (bytes : Bytes) (start : ℕ) :
    scanValue bytes start = valueTail (bytes.drop start) start := by
  rw [scanValue]
  split_ifs with hlong
  · rw [List.drop_of_length_le hlong.le]
    rfl
  · exact valueSimd_eq _ _

/-- The scanners return what the loops over single bytes return, for every byte string and every
place: they stop at the first byte from there on that is not of their class. -/
theorem scanners_eq_tails (bytes : Bytes) (start : ℕ) :
    scanName bytes start = nameTail (bytes.drop start) start ∧
      scanName bytes start = (firstOutside isNameByte (bytes.drop start) start).elim .unfinished
        (fun hit => nameAt hit.1 hit.2) ∧
      scanValue bytes start = valueTail (bytes.drop start) start ∧
      scanValue bytes start = (firstOutside isText (bytes.drop start) start).elim .unfinished
        (fun hit => valueAt bytes hit.1 hit.1 hit.2) := by
  refine ⟨scanName_eq_tail bytes start, ?_, scanValue_eq_tail bytes start, ?_⟩
  · rw [scanName_eq_tail, nameTail_eq]
  · rw [scanValue_eq_tail, valueTail_eq]
    rcases hfirst : firstOutside isText (bytes.drop start) start with _ | hit
    · rfl
    · have hle := le_of_firstOutside hfirst
      rw [Option.elim_some, Option.elim_some, valueAt_drop, Nat.add_sub_cancel' hle]

end Scans

end Sark.Http.Field
