import Sark.H2.Hpack.Encoder

/-!
# The capacity of header blocks

The room that a connection reserves for a header block (`h2/src/conn/outputs/limits.rs`), and the
encoding of a list into it (`h2/src/conn/outputs/headers.rs`).

* `Capacity.wire_eq_ok`: the room for a list is that of its frames.
* `block_fits`: a block of an admitted list always has room.
-/

open Sark.H2.Frame

namespace Sark.H2.Outputs

open Directory (Listed)
open Hpack.Encode

namespace Capacity

/-- `Capacity::BLOCK_SLACK`. -/
def blockSlack : ℕ :=
  12

/-- `Capacity::MIN_FRAME`. -/
def minFrame : ℕ :=
  16384

/-- What `Capacity::wire` refuses a list with. -/
inductive ConfigError
  | hpackBlockOverflow (list : ℕ)
  | hpackWireOverflow (list : ℕ)
  deriving DecidableEq, Repr

/-- `Capacity::wire`: the limit of a list, and the bytes of its frames. -/
def wire (list : ℕ) : Except ConfigError (ℕ × ℕ) :=
  let wire := list + blockSlack
  if 2 ^ 64 ≤ wire then .error (.hpackBlockOverflow list)
  else
    let heads := (Nat.max wire 1 ⌈/⌉ minFrame) * headerLen
    if 2 ^ 64 ≤ heads ∨ 2 ^ 64 ≤ wire + heads ∨ wire + heads = 0 then
      .error (.hpackWireOverflow list)
    else .ok (list, wire + heads)

/-- `Wire::owner`. -/
def owner (bytes : ℕ) : ℕ :=
  bytes / 2 + bytes % 2

/-- `Capacity::slots`, for the logical capacity of the output. -/
def slots (logical bytes : ℕ) : ℕ :=
  logical / owner bytes + 1

theorem wire_eq_ok {list limit bytes : ℕ} (h : wire list = .ok (limit, bytes)) :
    limit = list ∧ bytes = wireLength .default (list + blockSlack) ∧
      list + blockSlack < 2 ^ 64 ∧ bytes < 2 ^ 64 ∧ 0 < bytes := by
  rw [wire] at h
  dsimp only at h
  split_ifs at h with hblock hwire
  obtain ⟨rfl, rfl⟩ := Prod.mk.inj (Except.ok.inj h)
  refine ⟨rfl, ?_, ?_, ?_, ?_⟩
  · rw [wireLength, frames, Nat.mul_comm headerLen]
    rfl
  all_goals omega

theorem slots_lt {logical bytes : ℕ} (hlogical : logical < 2 ^ 64) (hbytes : 2 < bytes) :
    slots logical bytes < 2 ^ 64 := by
  have howner : 2 ≤ owner bytes := by
    rw [owner]
    omega
  have hdiv : logical / owner bytes ≤ logical / 2 := Nat.div_le_div_left howner (by norm_num)
  rw [slots]
  omega

end Capacity

theorem wireLength_antitone {max other : Limit} (h : other.value ≤ max.value) (n : ℕ) :
    wireLength max n ≤ wireLength other n := by
  have hpos : 0 < other.value := Nat.lt_of_lt_of_le (by norm_num) other.ge
  refine Nat.add_le_add_left (Nat.mul_le_mul_left _ ?_) n
  rw [frames, ceilDiv_le_iff_le_mul (hpos.trans_le h)]
  exact (le_smul_ceilDiv hpos).trans (Nat.mul_le_mul_right _ h)

theorem Payloads.length_reserved_le {max : Limit} (payloads : Payloads max)
    (htight : payloads.Tight) :
    (reserved payloads.all).length ≤ wireLength max payloads.block.length := by
  have hframes : payloads.full.length < frames max payloads.block.length := by
    refine lt_frames ?_
    by_cases hfull : payloads.full = []
    · rw [hfull, List.length_nil, Nat.zero_mul]
      exact lt_of_lt_of_le Nat.one_pos (le_max_right _ _)
    · have hlast := List.length_pos_of_ne_nil (htight hfull)
      refine lt_of_lt_of_le ?_ (le_max_left _ _)
      rw [payloads.length_block]
      omega
  have hheaders := Nat.mul_le_mul_left headerLen (Nat.succ_le_of_lt hframes)
  rw [length_reserved, payloads.flatten_all, wireLength, Payloads.all, List.length_append,
    List.length_singleton]
  exact Nat.add_le_add_left hheaders _

/-- The limit of a list in `Encoder::prepare`: the smaller of the configured limit and that of the
peer. -/
def listLimit (list : ℕ) (peer : Option ℕ) : ℕ :=
  match peer with
  | some limit => min list limit
  | none => list

theorem listLimit_le (list : ℕ) (peer : Option ℕ) : listLimit list peer ≤ list := by
  cases peer with
  | none => exact le_rfl
  | some limit => exact Nat.min_le_left _ _

/-- Whatever the tables and the pending size updates of an encoder are, the block of a list takes at
most the configured limit and the slack, its frames fit the reserved room, and a slot with that room
takes them; a list within the limit is not refused for its size, and no sum of the capacity
wraps. -/
theorem block_fits {D E σ ε : Type} [Directory D] [Directory E] [Span σ ε] [LawfulSpan σ]
    {encoder : Encoder D E} (hencoder : encoder.Reachable) {list limit bytes : ℕ}
    (hwire : Capacity.wire list = .ok (limit, bytes)) (max : Limit) (peer : Option ℕ)
    (connect : Bool) (items : List Item) {span : σ} (hspan : Span.bytes span = [])
    (hcapacity : bytes ≤ Span.capacity span) :
    let sink := (Sink.new encoder (listLimit limit peer) connect).emit items
    (written sink.out).length ≤ list + Capacity.blockSlack ∧
      wireLength max (written sink.out).length ≤ bytes ∧
      (∃ (wire : Wire σ ε) (block : Block σ), Wire.new span max = .ok wire ∧
        (wire.writes sink.out).finish = .ok block ∧ (Span.bytes block.bytes).length ≤ bytes) ∧
      (listSize items ≤ listLimit limit peer → ∀ error ∈ sink.error, error.isList = false) ∧
      list + Capacity.blockSlack < 2 ^ 64 ∧ bytes < 2 ^ 64 ∧
      ∀ logical < 2 ^ 64, Capacity.slots logical bytes < 2 ^ 64 := by
  obtain ⟨rfl, hbytes, hlist, hlt, -⟩ := Capacity.wire_eq_ok hwire
  dsimp only
  have hle := listLimit_le limit peer
  have hlength := (Sink.length_emit_le hencoder.admitted (listLimit limit peer) connect items).trans
    (Nat.add_le_add_right hle 12)
  have hframes : wireLength max
      (written ((Sink.new encoder (listLimit limit peer) connect).emit items).out).length ≤
        bytes := by
    rw [hbytes]
    exact (wireLength_antitone max.ge _).trans (wireLength_mono _ hlength)
  refine ⟨hlength, hframes, ?_, fun hsize => ?_, hlist, hlt, fun logical hlogical => ?_⟩
  · obtain ⟨wire, block, hnew, hfinish⟩ :=
      Wire.finish_of_wireLength_le hspan (hframes.trans hcapacity)
    obtain ⟨payloads, htight, hblock, -, hreserved, -⟩ := Wire.finish_laid hspan hnew hfinish
    refine ⟨wire, block, hnew, hfinish, ?_⟩
    rw [hreserved]
    refine (payloads.length_reserved_le htight).trans ?_
    rw [hblock]
    exact hframes
  · refine Sink.emit_fits ?_ (fun _ => ?_) (fun error herror => by cases herror)
    · show listLimit limit peer < 2 ^ 64
      rw [Capacity.blockSlack] at hlist
      omega
    · show 0 + listSize items ≤ listLimit limit peer
      rwa [Nat.zero_add]
  · refine Capacity.slots_lt hlogical ?_
    rw [hbytes, wireLength, Capacity.blockSlack]
    omega

/-- A field in a block whose list may have a hundred bytes. -/
theorem block_fits_field :
    ∃ (encoder : Encoder Listed Listed) (wire : Wire Slot Unit) (block : Block Slot),
      let sink := (Sink.new encoder (listLimit 100 none) false).emit
        [.entry ⟨[0x78], [0x79], .allowed⟩]
      Wire.new ⟨[], 121⟩ .default = .ok wire ∧ (wire.writes sink.out).finish = .ok block ∧
        (Span.bytes block.bytes).length ≤ 121 ∧ ∀ error ∈ sink.error, error.isList = false := by
  let layout : Compress.Layout := ⟨4096, 0, 0, 4064, 128⟩
  let seed : Compress.Seed := ⟨List.length, fun name value => name + value.length⟩
  have hlayout : layout.Planned 1 := by constructor <;> decide +kernel
  obtain ⟨encoder, hencoder⟩ : ∃ encoder : Encoder Listed Listed,
      Encoder.tryWith layout 4096 100 seed ⟨⟨[]⟩, ⟨[]⟩⟩ ⟨⟨[]⟩, ⟨[]⟩⟩ = some encoder := ⟨_, rfl⟩
  have hwire : Capacity.wire 100 = .ok (100, 121) := by decide +kernel
  have hspan : Span.bytes (⟨[], 121⟩ : Slot) = [] := rfl
  obtain ⟨-, -, ⟨wire, block, hnew, hfinish, hlength⟩, hlist, -⟩ :=
    block_fits (.tryWith hlayout hencoder) hwire .default none false
      [.entry ⟨[0x78], [0x79], .allowed⟩] hspan le_rfl
  exact ⟨encoder, wire, block, hnew, hfinish, hlength, hlist (by decide)⟩

end Sark.H2.Outputs
