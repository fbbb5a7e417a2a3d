import Sark.Ws.Frame

/-!
# Outgoing fragmentation

A message is sent as frames of a limited payload (`frame::Frames`). The plan of the first frame is
admitted, and the header widths of a full frame and of the last one are kept, so that the number of
frames and their lengths are known before any of them is produced.

* `Frames.advance_of_short`, `Frames.advance_of_long`: what is produced next.
* `Frames.Splits`: what the frames of a payload are, and `Frames.splits` that they are so.
* `Frames.fragmentation`: all of it, for the frames that are admitted.
-/

namespace Sark.Ws

/-- The length of the last payload when `len` bytes are sent in payloads of `chunk` bytes. -/
def lastLength (len chunk : ℕ) : ℕ :=
  if len ≤ chunk then len else (len - 1) % chunk + 1

/-- `frame::Frames`, with the header widths that it retains. -/
structure Frames where
  data : Bytes
  chunk : ℕ
  opcode : UInt8
  head : ℕ
  last : ℕ
  done : Bool
  chunk_pos : 0 < chunk
  head_eq : done = false → chunk < data.length → head = headWidth chunk
  last_eq : done = false → last = headWidth (lastLength data.length chunk)

/-- `frame::Masked`: a payload with a plan that fits it. -/
structure Masked where
  plan : Plan
  payload : Bytes
  length_eq : payload.length = plan.payloadLen
  masked_eq : plan.masked = true

/-- `Masked::bind`. -/
def Masked.bind (self : Masked) (mask : Key) : Frame :=
  ⟨self.plan, self.payload, some mask, self.length_eq, self.masked_eq.symm⟩

/-- `Key::copy`: every byte with the byte of the mask at its place. -/
def Key.copy (key : Key) (data : Bytes) : Bytes :=
  data.mapIdx fun i byte => byte ^^^ key.bytes.getD (i % 4) 0

/-- `Frame::write_into`: the header and the payload, masked if there is a mask. -/
def Frame.written (self : Frame) : Bytes :=
  self.header ++ self.mask.elim self.payload (Key.copy · self.payload)

theorem Frame.length_written (self : Frame) : self.written.length = self.plan.wireLen := by
  have hpayload : (self.mask.elim self.payload (Key.copy · self.payload)).length =
      self.payload.length := by
    cases self.mask with
    | none => rfl
    | some key => exact List.length_mapIdx
  rw [written, List.length_append, hpayload, self.header_eq, length_headerBytes, self.isSome_eq,
    self.length_eq, self.plan.wireLen_eq, self.plan.head_eq]

/-! ## Lengths of payloads -/

section Lengths

variable {len chunk : ℕ}

theorem lastLength_of_le (h : len ≤ chunk) : lastLength len chunk = len :=
  if_pos h

theorem lastLength_sub (hchunk : 0 < chunk) (h : chunk < len) :
    lastLength (len - chunk) chunk = lastLength len chunk := by
  rw [lastLength, lastLength, if_neg (not_le.mpr h)]
  have hsplit : len - 1 = len - chunk - 1 + chunk := by omega
  split
  next hle => rw [hsplit, Nat.add_mod_right, Nat.mod_eq_of_lt (by omega)]; omega
  next hlt => rw [hsplit, Nat.add_mod_right]

end Lengths

namespace Frames

/-- `Frames::new`. -/
def new (opcode : UInt8) (data : Bytes) (chunk : ℕ) (hchunk : 0 < chunk) :
    Except Frame.PlanError Frames :=
  let full := min data.length chunk
  let last := if data.length ≤ chunk then full else (data.length - 1) % chunk + 1
  match hplan : Plan.new opcode (decide (data.length ≤ chunk)) full true with
  | .error error => .error error
  | .ok plan =>
    .ok {
      data
      chunk
      opcode
      head := plan.head
      last := if last = full then plan.head else headWidth last
      done := false
      chunk_pos := hchunk
      head_eq := fun _ hlong => by
        rw [plan.head_eq, (Plan.of_new hplan).2.2.2.1]
        exact congrArg headWidth (min_eq_right hlong.le)
      last_eq := fun _ => by
        have hfull := (Plan.of_new hplan).2.2.2.1
        have hlast : last = lastLength data.length chunk := by
          rw [lastLength]
          dsimp only [last, full]
          split
          next hle => rw [min_eq_left hle]
          next => rfl
        split
        next heq => rw [plan.head_eq, hfull, ← heq, hlast]
        next => rw [hlast] }

/-- `Frames::lengths`: the number of frames, and the wire lengths of a full one and of the last. -/
def lengths (self : Frames) : ℕ × ℕ × ℕ :=
  let full := min self.data.length self.chunk
  let wire := full + self.head + 4
  if self.data.length ≤ self.chunk then (1, wire, wire)
  else
    (1 + (self.data.length - 1) / self.chunk, wire,
      (self.data.length - 1) % self.chunk + 1 + self.last + 4)

theorem lt_of_isEmpty_drop {data : Bytes} {chunk : ℕ}
    (h : (data.drop (min data.length chunk)).isEmpty = false) : chunk < data.length := by
  have htail : data.drop (min data.length chunk) ≠ [] := by simpa using h
  have hlength := List.length_pos_iff.mpr htail
  rw [List.length_drop] at hlength
  omega

theorem le_of_isEmpty_drop {data : Bytes} {chunk : ℕ}
    (h : (data.drop (min data.length chunk)).isEmpty = true) : data.length ≤ chunk := by
  have hlength := congrArg List.length (List.isEmpty_iff.mp h)
  rw [List.length_drop, List.length_nil] at hlength
  omega

theorem length_masked (len head : ℕ) : len + head + 4 = head + maskWidth true + len := by
  rw [maskWidth, if_pos rfl]
  omega

/-- `Iterator::next`, for frames that are not done. -/
def advance (self : Frames) (h : self.done = false) : Masked × Frames :=
  let payload := self.data.take (min self.data.length self.chunk)
  let tail := self.data.drop (min self.data.length self.chunk)
  let fin := tail.isEmpty
  let head := if fin then self.last else self.head
  have hlong : fin = false → self.chunk < self.data.length := lt_of_isEmpty_drop
  have hshort : fin = true → self.data.length ≤ self.chunk := le_of_isEmpty_drop
  have hhead : head = headWidth payload.length := by
    dsimp only [head, payload]
    rw [List.length_take, min_eq_left (min_le_left _ _)]
    split
    next hfin => rw [self.last_eq h, lastLength_of_le (hshort hfin), min_eq_left (hshort hfin)]
    next hfin =>
      have hlt := hlong (by simpa using hfin)
      rw [self.head_eq h hlt, min_eq_right hlt.le]
  ({ plan := ⟨self.opcode, fin, payload.length, true, payload.length + head + 4, head, hhead,
      length_masked _ _⟩
     payload
     length_eq := rfl
     masked_eq := rfl },
    { self with
      data := tail
      opcode := 0
      done := fin
      head_eq := fun hfin _ => self.head_eq h (hlong hfin)
      last_eq := fun hfin => by
        have hlt := hlong hfin
        rw [self.last_eq h, List.length_drop, min_eq_right hlt.le,
          lastLength_sub self.chunk_pos hlt] })

/-- The frames that are produced. -/
def collect (self : Frames) : List Masked :=
  if h : self.done = false then
    (self.advance h).1 :: collect (self.advance h).2
  else []
  termination_by if self.done then 0 else self.data.length + 1
  decreasing_by
    have hpos := self.chunk_pos
    rw [h, if_neg Bool.false_ne_true]
    by_cases hfin : (self.advance h).2.done = true
    · rw [if_pos hfin]
      exact Nat.succ_pos _
    · rw [if_neg hfin]
      -- what is left is not empty, so a payload was taken
      have htail : self.data.drop (min self.data.length self.chunk) ≠ [] := by
        simpa [advance] using hfin
      have hlength := List.length_pos_iff.mpr htail
      have hdata : (self.advance h).2.data.length =
          self.data.length - min self.data.length self.chunk :=
        List.length_drop
      rw [List.length_drop] at hlength
      omega

/-! ## What is produced -/

section Produced

variable {self : Frames}

theorem advance_of_short (h : self.done = false) (hshort : self.data.length ≤ self.chunk) :
    (self.advance h).1.payload = self.data ∧ (self.advance h).1.plan.opcode = self.opcode ∧
      (self.advance h).1.plan.fin = true ∧
        (self.advance h).1.plan.wireLen = self.data.length + self.last + 4 ∧
          (self.advance h).2.done = true := by
  have hfin : (self.data.drop (min self.data.length self.chunk)).isEmpty = true := by
    rw [min_eq_left hshort, List.drop_length]
    rfl
  have hpayload : self.data.take (min self.data.length self.chunk) = self.data := by
    rw [min_eq_left hshort, List.take_length]
  refine ⟨hpayload, rfl, hfin, ?_, hfin⟩
  dsimp only [advance]
  rw [hpayload, hfin, if_pos rfl]

theorem advance_of_long (h : self.done = false) (hlong : self.chunk < self.data.length) :
    (self.advance h).1.payload = self.data.take self.chunk ∧
      (self.advance h).1.plan.opcode = self.opcode ∧ (self.advance h).1.plan.fin = false ∧
        (self.advance h).1.plan.wireLen = self.chunk + self.head + 4 ∧
          (self.advance h).2.data = self.data.drop self.chunk ∧
            (self.advance h).2.opcode = 0 ∧ (self.advance h).2.done = false ∧
              (self.advance h).2.chunk = self.chunk ∧ (self.advance h).2.head = self.head ∧
                (self.advance h).2.last = self.last := by
  have hfin : (self.data.drop (min self.data.length self.chunk)).isEmpty = false := by
    rw [min_eq_right hlong.le, List.isEmpty_eq_false_iff, Ne, List.drop_eq_nil_iff]
    omega
  refine ⟨?_, rfl, hfin, ?_, ?_, rfl, hfin, rfl, rfl, rfl⟩
  · exact congrArg self.data.take (min_eq_right hlong.le)
  · dsimp only [advance]
    rw [hfin, if_neg Bool.false_ne_true, List.length_take, min_eq_left (min_le_left _ _),
      min_eq_right hlong.le]
  · exact congrArg self.data.drop (min_eq_right hlong.le)

/-- The frames of a payload: full ones in front and the last one, with the opcode in front. -/
structure Splits (chunk : ℕ) (opcode : UInt8) (data : Bytes) (full last : ℕ)
    (frames : List Masked) : Prop where
  payloads : (frames.map Masked.payload).flatten = data
  first : ∃ frame rest, frames = frame :: rest ∧ frame.plan.opcode = opcode ∧
    ∀ later ∈ rest, later.plan.opcode = 0
  final : ∃ lead frame, frames = lead ++ [frame] ∧
    (frame.plan.fin = true ∧ frame.plan.wireLen = last) ∧
      ∀ earlier ∈ lead, earlier.plan.fin = false ∧ earlier.plan.wireLen = full
  within : ∀ frame ∈ frames, frame.payload.length ≤ chunk
  count : frames.length = 1 + (data.length - 1) / chunk

theorem splits (h : self.done = false) : Splits self.chunk self.opcode self.data
    (self.chunk + self.head + 4) (lastLength self.data.length self.chunk + self.last + 4)
    self.collect := by
  have hpos := self.chunk_pos
  induction hsize : self.data.length using Nat.strong_induction_on generalizing self with
  | _ size ih =>
    subst hsize
    rw [collect, dif_pos h]
    rcases le_or_gt self.data.length self.chunk with hshort | hlong
    · -- one frame is left
      obtain ⟨hpayload, hopcode, hfin, hwire, hdone⟩ := advance_of_short h hshort
      have hrest : (self.advance h).2.collect = [] := by
        rw [collect, dif_neg (by rw [hdone]; decide)]
      rw [hrest]
      refine ⟨?_, ⟨_, [], rfl, hopcode, by simp⟩, ⟨[], _, rfl, ⟨hfin, ?_⟩, by simp⟩, ?_, ?_⟩
      · simp [hpayload]
      · rw [hwire, lastLength_of_le hshort]
      · simpa [hpayload] using hshort
      · rw [Nat.div_eq_of_lt (by omega)]
        rfl
    · obtain ⟨hpayload, hopcode, hfin, hwire, hdata, hopcode', hdone, hchunk, hhead, hlast⟩ :=
        advance_of_long h hlong
      have hlength : (self.advance h).2.data.length = self.data.length - self.chunk := by
        rw [hdata, List.length_drop]
      obtain ⟨hpayloads, ⟨frame, rest, hfirst, hzero, hlater⟩, ⟨lead, final, hlead, hfinal, hfull⟩,
        hwithin, hcount⟩ := ih _ (by omega) hdone (hchunk.symm ▸ hpos) rfl
      rw [hchunk, hhead, hlast, hlength, lastLength_sub hpos hlong] at *
      refine ⟨?_, ⟨_, _, rfl, hopcode, ?_⟩, ⟨(self.advance h).1 :: lead, final, ?_, hfinal, ?_⟩,
        ?_, ?_⟩
      · rw [List.map_cons, List.flatten_cons, hpayloads, hpayload, hdata, List.take_append_drop]
      · rw [hfirst]
        exact List.forall_mem_cons.mpr ⟨hzero.trans hopcode', hlater⟩
      · rw [hlead, List.cons_append]
      · exact List.forall_mem_cons.mpr ⟨⟨hfin, hwire⟩, hfull⟩
      · refine List.forall_mem_cons.mpr ⟨?_, hwithin⟩
        rw [hpayload, List.length_take]
        exact min_le_left _ _
      · have hsplit : self.data.length - 1 = self.data.length - self.chunk - 1 + self.chunk := by
          omega
        rw [List.length_cons, hcount, hsplit, Nat.add_div_right _ hpos]
        omega

/-- The bytes that are written for all frames: as many full frames as there are in front of the
last one. -/
theorem Splits.length_written {chunk full last : ℕ} {opcode : UInt8} {data : Bytes}
    {frames : List Masked} (h : Splits chunk opcode data full last frames) (mask : ℕ → Key) :
    ((frames.mapIdx fun i frame => (frame.bind (mask i)).written).flatten).length =
      full * (frames.length - 1) + last := by
  obtain ⟨lead, final, rfl, ⟨-, hfinal⟩, hfull⟩ := h.final
  have hwritten : ∀ (frames : List Masked) (mask : ℕ → Key),
      ((frames.mapIdx fun i frame => (frame.bind (mask i)).written).flatten).length =
        (frames.map fun frame => frame.plan.wireLen).sum := by
    intro frames
    induction frames with
    | nil => exact fun _ => rfl
    | cons frame rest ih =>
      intro mask
      rw [List.mapIdx_cons, List.flatten_cons, List.length_append, Frame.length_written,
        List.map_cons, List.sum_cons]
      exact congrArg _ (ih fun i => mask (i + 1))
  have hlead : (lead.map fun frame => frame.plan.wireLen) = List.replicate lead.length full := by
    refine List.eq_replicate_iff.mpr ⟨List.length_map _, ?_⟩
    intro wire hwire
    obtain ⟨frame, hframe, rfl⟩ := List.mem_map.mp hwire
    exact (hfull frame hframe).2
  rw [hwritten, List.map_append, List.sum_append, hlead, List.sum_replicate, List.map_singleton,
    List.sum_singleton, hfinal, List.length_append, List.length_singleton, Nat.add_sub_cancel,
    smul_eq_mul, mul_comm]

end Produced

/-! ## Fragmentation -/

section Fragmentation

variable {opcode : UInt8} {data : Bytes} {chunk : ℕ} {hchunk : 0 < chunk} {frames : Frames}

theorem of_new (h : new opcode data chunk hchunk = .ok frames) : frames.data = data ∧
    frames.chunk = chunk ∧ frames.opcode = opcode ∧ frames.done = false ∧
      frames.head = headWidth (min data.length chunk) := by
  rw [new] at h
  split at h
  next => exact absurd h (by simp)
  next plan hplan =>
    obtain rfl := Except.ok.inj h
    refine ⟨rfl, rfl, rfl, rfl, ?_⟩
    exact plan.head_eq.trans (congrArg headWidth (Plan.of_new hplan).2.2.2.1)

theorem exists_new_iff : (∃ frames, new opcode data chunk hchunk = .ok frames) ↔
    ∃ plan, Plan.new opcode (decide (data.length ≤ chunk)) (min data.length chunk) true =
      .ok plan := by
  constructor
  · rintro ⟨frames, h⟩
    rw [new] at h
    split at h
    next => exact absurd h (by simp)
    next plan hplan => exact ⟨plan, hplan⟩
  · rintro ⟨plan, hplan⟩
    rw [new]
    split
    next error herror => exact absurd (herror.symm.trans hplan) (by simp)
    next => exact ⟨_, rfl⟩

theorem lengths_eq (h : frames.done = false) (hhead : frames.head =
    headWidth (min frames.data.length frames.chunk)) : frames.lengths =
      (1 + (frames.data.length - 1) / frames.chunk,
        min frames.data.length frames.chunk + frames.head + 4,
          lastLength frames.data.length frames.chunk + frames.last + 4) := by
  have hpos := frames.chunk_pos
  rw [lengths]
  split
  next hshort =>
    rw [Nat.div_eq_of_lt (by omega), lastLength_of_le hshort, frames.last_eq h,
      lastLength_of_le hshort, hhead, min_eq_left hshort]
  next hlong => rw [lastLength, if_neg hlong]

theorem splits_lengths (h : frames.done = false) (hhead : frames.head =
    headWidth (min frames.data.length frames.chunk)) :
    Splits frames.chunk frames.opcode frames.data frames.lengths.2.1 frames.lengths.2.2
      frames.collect := by
  have hsplits := splits h
  rw [lengths_eq h hhead]
  rcases le_or_gt frames.data.length frames.chunk with hshort | hlong
  · -- no frame is in front of the last one
    have hpos := frames.chunk_pos
    obtain ⟨lead, final, hlead, hfinal, -⟩ := hsplits.final
    have hnil : lead = [] := by
      have hcount := hsplits.count
      rw [hlead, Nat.div_eq_of_lt (by omega), List.length_append, List.length_singleton] at hcount
      exact List.length_eq_zero_iff.mp (by omega)
    subst hnil
    exact { hsplits with final := ⟨[], final, hlead, hfinal, fun _ hmem => by simp at hmem⟩ }
  · rw [min_eq_right hlong.le]
    exact hsplits

/-- A message is refused as its first frame is. Otherwise the payloads of its frames are the
payload, none of them is longer than the limit, the opcode is on the first frame and the end on the
last, and the number of frames and what is written for them are as they were said to be. -/
theorem fragmentation (opcode : UInt8) (data : Bytes) (chunk : ℕ) (hchunk : 0 < chunk) :
    (data.length ≤ isizeMax → ((∃ frames, new opcode data chunk hchunk = .ok frames) ↔
      Admitted opcode (decide (data.length ≤ chunk)) (min data.length chunk))) ∧
    ∀ frames, new opcode data chunk hchunk = .ok frames →
      (frames.collect.map Masked.payload).flatten = data ∧
      (∃ first rest, frames.collect = first :: rest ∧ first.plan.opcode = opcode ∧
        ∀ later ∈ rest, later.plan.opcode = 0) ∧
      (∃ lead final, frames.collect = lead ++ [final] ∧ final.plan.fin = true ∧
        (∀ earlier ∈ lead, earlier.plan.fin = false) ∧
        ∀ mask : Key, (final.bind mask).written.length = frames.lengths.2.2 ∧
          ∀ earlier ∈ lead, (earlier.bind mask).written.length = frames.lengths.2.1) ∧
      (∀ frame ∈ frames.collect, frame.payload.length ≤ chunk) ∧
      frames.collect.length = frames.lengths.1 ∧
      (∀ mask : ℕ → Key,
        ((frames.collect.mapIdx fun i frame => (frame.bind (mask i)).written).flatten).length =
          frames.lengths.2.1 * (frames.lengths.1 - 1) + frames.lengths.2.2) ∧
      (data = [] → ∃ frame, frames.collect = [frame]) := by
  constructor
  · intro hlen
    rw [exists_new_iff]
    constructor
    · rintro ⟨plan, hplan⟩
      exact (Plan.of_new hplan).1
    · intro hadmitted
      rw [Plan.new_of_admitted hadmitted]
      exact Plan.exists_measured ((min_le_left _ _).trans hlen)
  · intro frames h
    obtain ⟨rfl, rfl, rfl, hdone, hhead⟩ := of_new h
    have hsplits := splits_lengths hdone hhead
    have hcount : frames.collect.length = frames.lengths.1 := by
      rw [hsplits.count, lengths_eq hdone hhead]
    refine ⟨hsplits.payloads, hsplits.first, ?_, hsplits.within, hcount, ?_, ?_⟩
    · obtain ⟨lead, final, hlead, ⟨hfin, hlast⟩, hearlier⟩ := hsplits.final
      refine ⟨lead, final, hlead, hfin, fun frame hframe => (hearlier frame hframe).1, ?_⟩
      intro mask
      refine ⟨(Frame.length_written _).trans hlast, fun frame hframe => ?_⟩
      exact (Frame.length_written _).trans (hearlier frame hframe).2
    · intro mask
      rw [← hcount]
      exact hsplits.length_written mask
    · intro hdata
      have hone := hsplits.count
      rw [hdata, List.length_nil, Nat.zero_sub, Nat.zero_div] at hone
      exact List.length_eq_one_iff.mp hone

/-- Seven bytes in payloads of three. -/
theorem fragmentation_three : ∃ frames, new 2 [1, 2, 3, 4, 5, 6, 7] 3 (by decide) = .ok frames ∧
    frames.lengths = (3, 9, 7) ∧ frames.collect.length = 3 ∧
      (frames.collect.map Masked.payload).flatten = [1, 2, 3, 4, 5, 6, 7] := by
  have hruns := (fragmentation 2 [1, 2, 3, 4, 5, 6, 7] 3 (by decide)).2
  have hnew : new 2 [1, 2, 3, 4, 5, 6, 7] 3 (by decide) =
      .ok ⟨[1, 2, 3, 4, 5, 6, 7], 3, 2, 2, 2, false, by decide, by decide, by decide⟩ := rfl
  obtain ⟨hpayloads, -, -, -, hcount, -⟩ := hruns _ hnew
  exact ⟨_, hnew, rfl, hcount, hpayloads⟩

end Fragmentation

end Frames

end Sark.Ws
