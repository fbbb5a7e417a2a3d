import Sark.Http.H1.Value

/-!
# Spans

Borrowed bytes in one or two segments (`record::Span`). What is read from a span is what is read
from its segments, one behind the other.

* `Span.get_eq`, `Span.slice_bytes`: a byte, and a part of a span.
-/

namespace Sark.Http.Record

/-- `record::Span`. -/
structure Span where
  first : Bytes
  second : Bytes
  deriving DecidableEq, Repr

namespace Span

/-- `Span::from_slice`. -/
def fromSlice (bytes : Bytes) : Span :=
  ⟨bytes, []⟩

/-- `Span::len`. -/
def length (self : Span) : ℕ :=
  self.first.length + self.second.length

/-- `Span::iter`. -/
def bytes (self : Span) : Bytes :=
  self.first ++ self.second

/-- `Span::get`. -/
def get (self : Span) (index : ℕ) : Option UInt8 :=
  if index < self.first.length then self.first[index]?
  else self.second[index - self.first.length]?

/-- `<[T]>::get` of a range. -/
def range (bytes : Bytes) (start stop : ℕ) : Option Bytes :=
  if start ≤ stop ∧ stop ≤ bytes.length then some ((bytes.drop start).take (stop - start)) else none

/-- `Span::slice`. -/
def slice (self : Span) (start stop : ℕ) : Option Span :=
  let split := self.first.length
  if stop ≤ split then (range self.first start stop).map fromSlice
  else if split ≤ start then
    (range self.second (start - split) (stop - split)).map fromSlice
  else do
    let lead ← range self.first start split
    let rest ← range self.second 0 (stop - split)
    return ⟨lead, rest⟩

section Reads

variable (self : Span)

@[simp]
theorem length_bytes : self.bytes.length = self.length :=
  List.length_append

theorem get_eq (index : ℕ) : self.get index = self.bytes[index]? := by
  rw [get, bytes]
  split
  next h => rw [List.getElem?_append_left h]
  next h => rw [List.getElem?_append_right (not_lt.mp h)]

/-- A part of a span is a part of its bytes. -/
theorem slice_bytes (start stop : ℕ) :
    (self.slice start stop).map bytes = range self.bytes start stop := by
  have hlength : self.bytes.length = self.first.length + self.second.length := self.length_bytes
  have hwhole : range self.bytes start stop =
      if start ≤ stop ∧ stop ≤ self.first.length + self.second.length then
        some ((self.bytes.drop start).take (stop - start))
      else none := by
    rw [range, hlength]
  rw [slice, hwhole]
  split
  next hfirst =>
    -- all of it is in the first segment
    rw [range]
    by_cases hle : start ≤ stop
    · rw [if_pos ⟨hle, hfirst⟩, if_pos ⟨hle, by omega⟩, bytes, List.drop_append_of_le_length
        (hle.trans hfirst), List.take_append_of_le_length (by rw [List.length_drop]; omega)]
      simp [fromSlice, bytes]
    · rw [if_neg (fun h => hle h.1), if_neg (fun h => hle h.1)]
      rfl
  next hfirst =>
    split
    next hsecond =>
      -- all of it is in the second segment
      rw [range]
      by_cases hrange : start ≤ stop ∧ stop ≤ self.first.length + self.second.length
      · have hpart : start - self.first.length ≤ stop - self.first.length ∧
            stop - self.first.length ≤ self.second.length := by
          omega
        have hwidth : stop - self.first.length - (start - self.first.length) = stop - start := by
          omega
        rw [if_pos hpart, if_pos hrange, bytes, List.drop_append, List.drop_eq_nil_of_le hsecond,
          hwidth]
        simp [fromSlice, bytes]
      · rw [if_neg (by omega), if_neg hrange]
        rfl
    next hsecond =>
      rw [range, range, if_pos ⟨by omega, le_rfl⟩]
      by_cases hstop : stop ≤ self.first.length + self.second.length
      · rw [if_pos ⟨Nat.zero_le _, by omega⟩, if_pos ⟨by omega, hstop⟩, bytes,
          List.drop_append_of_le_length (by omega), List.take_append]
        have hlead : stop - start - (self.first.drop start).length = stop - self.first.length := by
          rw [List.length_drop]
          omega
        rw [hlead]
        simp only [bytes, Option.bind_eq_bind, Option.bind_some, Option.pure_def, Option.map_some,
          Option.some.injEq, List.drop_zero, Nat.sub_zero]
        congr 1
        rw [List.take_of_length_le (by rw [List.length_drop]),
          List.take_of_length_le (by rw [List.length_drop]; omega)]
      · rw [if_neg (fun h => hstop (by omega)), if_neg (fun h => hstop h.2)]
        rfl

end Reads

end Span

end Sark.Http.Record
