import Sark.Http.H1.Value
import Sark.Library.Fallible
import Sark.Library.Separator

/-!
# Query entries

The iterator over the entries of a query (`core/src/route/field/query.rs`). The query is a range of
the raw request bytes. A step of the iterator looks for the first `=` or `&` of what is left, and a
second time for the `&` behind a `=`; an entry retains where its name and its value begin in the raw
bytes.

* `Entries.collect_eq_located`: the entries are the non-empty pieces between the separators, each at
  its own place.
* `located_within`, `located_pairwise`: the ranges lie inside the query, one behind the other.
* `Entries.collect_addressed`: the names, the values and the ranges that address them.
-/

namespace Sark.Query

/-! ## Forward search -/

/-- `scan::Match`: the end of a match inside the bytes that were searched. -/
structure Match where
  bytes : Bytes
  stop : ℕ
  stop_pos : 0 < stop
  stop_le : stop ≤ bytes.length

namespace Match

/-- The search that `Match::find` and `Match::find2` share: `memchr` and `memchr2` return the first
position of a byte that is looked for. -/
def findBy (matches' : UInt8 → Bool) (bytes : Bytes) : Option Match :=
  if h : bytes.findIdx matches' < bytes.length then
    some ⟨bytes, bytes.findIdx matches' + 1, by omega, by omega⟩
  else none

/-- `Match::find`. -/
def find (byte : UInt8) (bytes : Bytes) : Option Match :=
  findBy (· == byte) bytes

/-- `Match::find2`. -/
def find2 (first second : UInt8) (bytes : Bytes) : Option Match :=
  findBy (fun byte => byte == first || byte == second) bytes

/-- `Match::start`. -/
def start (self : Match) : ℕ :=
  self.stop - 1

/-- `Match::byte`. -/
def byte (self : Match) : UInt8 :=
  self.bytes.get ⟨self.start, by have := self.stop_pos; have := self.stop_le; rw [start]; omega⟩

/-- `Match::prefix`. -/
def before (self : Match) : Bytes :=
  self.bytes.take self.start

/-- `Match::suffix`. -/
def suffix (self : Match) : Bytes :=
  self.bytes.drop self.stop

end Match

/-! ## Spans -/

/-- `u32::MAX`. -/
def u32Max : ℕ :=
  2 ^ 32 - 1

/-- `span::Error`, as far as `Span::checked` raises it. -/
inductive SpanError
  | overflow (start len : ℕ)
  | bounds (start len : ℕ)
  deriving DecidableEq, Repr

/-- `span::Span`: a range that fits compact offsets. -/
structure Span where
  start : ℕ
  len : ℕ
  start_lt : start < u32Max
  end_le : start + len ≤ u32Max

namespace Span

/-- `Span::checked`. -/
def checked (start len : ℕ) : Except SpanError Span :=
  if 2 ^ 64 ≤ start + len then .error (.overflow start len)
  else if h : u32Max ≤ start ∨ u32Max < start + len then .error (.bounds start len)
  else .ok ⟨start, len, by omega, by omega⟩

/-- `Span::get`. -/
def get (self : Span) (input : Bytes) : Option Bytes :=
  if self.start + self.len ≤ input.length then some ((input.drop self.start).take self.len)
  else none

end Span

/-! ## The iterator -/

/-- `path::Error`. -/
inductive PathError
  | order (start stop capacity : ℕ)
  | bounds (start stop capacity : ℕ)
  deriving DecidableEq, Repr

/-- `path::Target::get`. -/
def targetGet (raw : Bytes) (start stop : ℕ) : Except PathError Bytes :=
  if stop < start then .error (.order start stop raw.length)
  else if stop ≤ raw.length then .ok ((raw.take stop).drop start)
  else .error (.bounds start stop raw.length)

/-- `field::SliceValue`. -/
structure SliceValue where
  value : Bytes
  span : Span

/-- `SliceValue::try_slice`, with the error inside `field::Error::Span`. -/
def SliceValue.trySlice (value : Bytes) (start : ℕ) : Except SpanError SliceValue := do
  let span ← Span.checked start value.length
  .ok ⟨value, span⟩

/-- `query::Entry`. -/
@[ext]
structure Entry where
  name : Bytes
  value : Bytes
  start : ℕ
  offset : ℕ
  deriving DecidableEq, Repr

namespace Entry

/-- `Entry::name_range`. -/
def nameRange (self : Entry) : ℕ × ℕ :=
  (self.start, self.start + self.name.length)

/-- The range that `Entry::try_span` packs. -/
def valueRange (self : Entry) : ℕ × ℕ :=
  (self.offset, self.offset + self.value.length)

/-- `Entry::try_span`. -/
def trySpan (self : Entry) : Except SpanError Span :=
  Span.checked self.offset self.value.length

/-- `Entry::try_value`. -/
def tryValue (self : Entry) : Except SpanError SliceValue :=
  SliceValue.trySlice self.value self.offset

end Entry

/-- `b'='`. -/
def equals : UInt8 := 0x3d

/-- `b'&'`. -/
def ampersand : UInt8 := 0x26

/-- What a turn of the loop of `Entries::next` finds: the name, the value, what is left behind them
and the offset of the value. -/
structure Cut where
  name : Bytes
  value : Bytes
  rest : Bytes
  offset : ℕ
  deriving DecidableEq, Repr

/-- `query::Entries`. -/
structure Entries where
  rest : Bytes
  start : ℕ
  deriving DecidableEq, Repr

namespace Entries

/-- `Entries::try_new`. -/
def tryNew (raw : Bytes) (start stop : ℕ) : Except PathError Entries := do
  let rest ← targetGet raw start stop
  .ok ⟨rest, start⟩

/-- The part of the loop of `Entries::next` that divides what is left. -/
def cut (self : Entries) : Cut :=
  match Match.find2 equals ampersand self.rest with
  | some found =>
    if found.byte = equals then
      match Match.find ampersand found.suffix with
      | none => ⟨found.before, found.suffix, [], self.start + found.stop⟩
      | some stop => ⟨found.before, stop.before, stop.suffix, self.start + found.stop⟩
    else ⟨found.before, [], found.suffix, self.start + found.before.length⟩
  | none => ⟨self.rest, [], [], self.start + self.rest.length⟩

/-- The iterator behind what a turn of the loop divides off. -/
def advanced (self : Entries) : Entries where
  rest := self.cut.rest
  start := self.start + (self.rest.length - self.cut.rest.length)

end Entries

/-! ## What a turn finds -/

namespace Match

variable {p : UInt8 → Bool} {bytes : Bytes} {found : Match}

theorem findBy_eq_none_iff : findBy p bytes = none ↔ ∀ byte ∈ bytes, p byte = false := by
  rw [findBy, dite_eq_right_iff]
  simp only [reduceCtorEq, imp_false, List.findIdx_lt_length, not_exists, not_and,
    Bool.not_eq_true]

theorem findBy_eq_some (h : findBy p bytes = some found) :
    bytes = found.before ++ found.byte :: found.suffix ∧ found.stop = found.before.length + 1 ∧
      p found.byte = true ∧ ∀ byte ∈ found.before, p byte = false := by
  rw [findBy] at h
  split_ifs at h with hlt
  obtain rfl := Option.some.inj h
  simp only [before, byte, suffix, start, Nat.add_sub_cancel, List.get_eq_getElem]
  refine ⟨?_, ?_, List.findIdx_getElem, ?_⟩
  · rw [List.getElem_cons_drop, List.take_append_drop]
  · rw [List.length_take, Nat.min_eq_left hlt.le]
  · intro byte hmem
    obtain ⟨i, hi, rfl⟩ := List.getElem_of_mem hmem
    rw [List.length_take] at hi
    rw [List.getElem_take]
    exact List.not_of_lt_findIdx (lt_of_lt_of_le hi (Nat.min_le_left _ _))

end Match

/-- What stands between the separators, divided at its first `=`. -/
def divide (piece : Bytes) : Bytes × Bytes :=
  (piece.takeWhile (· ≠ equals), (piece.dropWhile (· ≠ equals)).drop 1)

/-- The entry of a piece at a place. -/
def Entry.ofPiece (at' : ℕ) (piece : Bytes) : Entry where
  name := (divide piece).1
  value := (divide piece).2
  start := at'
  offset := at' + (divide piece).1.length + if equals ∈ piece then 1 else 0

/-- The entries of the pieces of a query that begins at a place. -/
def located (at' : ℕ) : List Bytes → List Entry
  | [] => []
  | piece :: pieces =>
    if piece = [] then located (at' + 1) pieces
    else Entry.ofPiece at' piece :: located (at' + piece.length + 1) pieces

section Pieces

variable {piece name value : Bytes} {at' : ℕ}

theorem divide_append (h : equals ∉ name) : divide (name ++ equals :: value) = (name, value) := by
  rw [divide, takeWhile_ne_append h, dropWhile_ne_append h]
  rfl

theorem divide_eq_self (h : equals ∉ piece) : divide piece = (piece, []) := by
  rw [divide, takeWhile_ne_eq_self h, dropWhile_ne_eq_nil.mpr h]
  rfl

theorem ofPiece_append (h : equals ∉ name) : Entry.ofPiece at' (name ++ equals :: value) =
    ⟨name, value, at', at' + name.length + 1⟩ := by
  rw [Entry.ofPiece, divide_append h, if_pos (by simp)]

theorem ofPiece_eq_self (h : equals ∉ piece) :
    Entry.ofPiece at' piece = ⟨piece, [], at', at' + piece.length⟩ := by
  rw [Entry.ofPiece, divide_eq_self h, if_neg h, Nat.add_zero]

/-- A piece with a `=` is its name, the `=` and its value; one without is its name. -/
theorem eq_of_divide (piece : Bytes) :
    equals ∉ piece ∧ divide piece = (piece, []) ∨
      ∃ name value, piece = name ++ equals :: value ∧ equals ∉ name ∧
        divide piece = (name, value) := by
  by_cases h : equals ∈ piece
  · rcases hdrop : piece.dropWhile (· ≠ equals) with _ | ⟨item, value⟩
    · exact absurd h (dropWhile_ne_eq_nil.mp hdrop)
    · have hpiece := (dropWhile_ne_eq_cons hdrop).2
      refine .inr ⟨_, value, hpiece, notMem_takeWhile_ne, ?_⟩
      rw [divide, hdrop]
      rfl
  · exact .inl ⟨h, divide_eq_self h⟩

end Pieces

namespace Entries

variable {self : Entries}

/-- A turn divides a piece off, and the separator behind it. -/
theorem cut_cases (self : Entries) : ∃ piece, ampersand ∉ piece ∧
    self.cut.name = (divide piece).1 ∧ self.cut.value = (divide piece).2 ∧
    self.cut.offset = (Entry.ofPiece self.start piece).offset ∧
    (self.rest = piece ∧ self.cut.rest = [] ∨
      self.rest = piece ++ ampersand :: self.cut.rest) := by
  have hne : equals ≠ ampersand := by decide
  rw [cut]
  rcases hfound : Match.find2 equals ampersand self.rest with _ | found
  · -- neither byte is found
    have hnone := Match.findBy_eq_none_iff.mp hfound
    have hequals : equals ∉ self.rest := fun hmem => by simpa using hnone equals hmem
    have hamp : ampersand ∉ self.rest := fun hmem => by simpa using hnone ampersand hmem
    refine ⟨self.rest, hamp, ?_⟩
    rw [divide_eq_self hequals, ofPiece_eq_self hequals]
    exact ⟨rfl, rfl, rfl, .inl ⟨rfl, rfl⟩⟩
  · obtain ⟨hrest, hstop, hbyte, hbefore⟩ := Match.findBy_eq_some hfound
    have hequals : equals ∉ found.before := fun hmem => by simpa using hbefore equals hmem
    have hamp : ampersand ∉ found.before := fun hmem => by simpa using hbefore ampersand hmem
    simp only
    by_cases hfirst : found.byte = equals
    · rw [if_pos hfirst]
      rw [hfirst] at hrest
      rcases hnext : Match.find ampersand found.suffix with _ | stop
      · -- the value goes to the end
        have hnone := Match.findBy_eq_none_iff.mp hnext
        have hvalue : ampersand ∉ found.suffix := fun hmem => by simpa using hnone ampersand hmem
        refine ⟨found.before ++ equals :: found.suffix, ?_, ?_⟩
        · simp only [List.mem_append, List.mem_cons, not_or]
          exact ⟨hamp, hne.symm, hvalue⟩
        · rw [divide_append hequals, ofPiece_append hequals, hstop]
          exact ⟨rfl, rfl, by simp only; omega, .inl ⟨hrest, rfl⟩⟩
      · obtain ⟨hsuffix, -, hbyte', hbefore'⟩ := Match.findBy_eq_some hnext
        have hvalue : ampersand ∉ stop.before := fun hmem => by simpa using hbefore' _ hmem
        have hlast : stop.byte = ampersand := by simpa using hbyte'
        refine ⟨found.before ++ equals :: stop.before, ?_, ?_⟩
        · simp only [List.mem_append, List.mem_cons, not_or]
          exact ⟨hamp, hne.symm, hvalue⟩
        · rw [divide_append hequals, ofPiece_append hequals, hstop]
          refine ⟨rfl, rfl, by simp only; omega, .inr ?_⟩
          rw [hsuffix, hlast] at hrest
          simpa using hrest
    · rw [if_neg hfirst]
      have hlast : found.byte = ampersand := by
        simpa [hfirst] using hbyte
      refine ⟨found.before, hamp, ?_⟩
      rw [divide_eq_self hequals, ofPiece_eq_self hequals]
      rw [hlast] at hrest
      exact ⟨rfl, rfl, rfl, .inr hrest⟩

theorem length_cut_lt (h : self.rest ≠ []) : self.cut.rest.length < self.rest.length := by
  obtain ⟨piece, -, -, -, -, ⟨hrest, hleft⟩ | hrest⟩ := self.cut_cases
  · rw [hleft]
    exact List.length_pos_iff.mpr h
  · have hlength := congrArg List.length hrest
    rw [List.length_append, List.length_cons] at hlength
    omega

/-- `Entries::next`: the entry, and the iterator behind it. -/
def next (self : Entries) : Option Entry × Entries :=
  if self.rest = [] then (none, self)
  -- an empty piece is passed over
  else if self.start = self.cut.offset then self.advanced.next
  else (some ⟨self.cut.name, self.cut.value, self.start, self.cut.offset⟩, self.advanced)
  termination_by self.rest.length
  decreasing_by exact length_cut_lt ‹_›

/-! ## All entries -/

/-- The pieces that an iterator still has in front of it, with their places. -/
def ahead (self : Entries) : List Entry :=
  located self.start (self.rest.splitOn ampersand)

theorem ahead_of_rest_eq_nil (h : self.rest = []) : self.ahead = [] := by
  rw [ahead, h]
  rfl

/-- A turn moves the iterator behind one piece. -/
theorem ahead_eq (self : Entries) :
    self.ahead = if self.start = self.cut.offset then self.advanced.ahead
      else ⟨self.cut.name, self.cut.value, self.start, self.cut.offset⟩ :: self.advanced.ahead := by
  obtain ⟨piece, hpiece, hname, hvalue, hoffset, hrest⟩ := self.cut_cases
  have hempty : self.start = self.cut.offset ↔ piece = [] := by
    rw [hoffset]
    rcases eq_of_divide piece with ⟨hequals, -⟩ | ⟨name, value, rfl, hequals, -⟩
    · rw [ofPiece_eq_self hequals, ← List.length_eq_zero_iff]
      simp only
      omega
    · rw [ofPiece_append hequals]
      simp only [List.append_eq_nil_iff, reduceCtorEq, and_false, iff_false]
      omega
  have hentry : (⟨self.cut.name, self.cut.value, self.start, self.cut.offset⟩ : Entry) =
      Entry.ofPiece self.start piece := by
    ext1
    · exact hname
    · exact hvalue
    · rfl
    · exact hoffset
  have hahead : self.ahead = located self.start [piece] ++ self.advanced.ahead := by
    rcases hrest with ⟨hrest, hleft⟩ | hrest
    · rw [@ahead_of_rest_eq_nil self.advanced hleft, List.append_nil, ahead, hrest,
        List.splitOn_eq_singleton hpiece]
    · have hlength := congrArg List.length hrest
      rw [List.length_append, List.length_cons] at hlength
      have hstart : self.advanced.start = self.start + piece.length + 1 := by
        show self.start + (self.rest.length - self.cut.rest.length) = _
        omega
      rw [ahead, ahead, hstart, hrest, List.splitOn_append_cons_self,
        List.splitOn_eq_singleton hpiece, List.singleton_append, located]
      by_cases hnil : piece = []
      · rw [if_pos hnil, hnil]
        rfl
      · rw [if_neg hnil, located, if_neg hnil]
        rfl
  rw [hahead, if_congr hempty rfl rfl, located, hentry]
  split_ifs <;> rfl

theorem next_spec (self : Entries) :
    self.next.2.rest.length ≤ self.rest.length ∧
      match self.next.1 with
      | none => self.next.2.rest = [] ∧ self.ahead = []
      | some entry => self.next.2.rest.length < self.rest.length ∧
          self.ahead = entry :: self.next.2.ahead := by
  fun_induction next self with
  | case1 self h => exact ⟨le_rfl, h, ahead_of_rest_eq_nil h⟩
  | case2 self h hskip ih =>
    have hlt : self.advanced.rest.length < self.rest.length := length_cut_lt h
    rw [self.ahead_eq, if_pos hskip]
    refine ⟨ih.1.trans hlt.le, ?_⟩
    generalize self.advanced.next = result at *
    rcases result with ⟨_ | entry, later⟩
    · exact ih.2
    · exact ⟨lt_of_le_of_lt ih.1 hlt, ih.2.2⟩
  | case3 self h hskip =>
    have hlt : self.advanced.rest.length < self.rest.length := length_cut_lt h
    refine ⟨hlt.le, hlt, ?_⟩
    rw [self.ahead_eq, if_neg hskip]

theorem length_next_lt {entry : Entry} {later : Entries} (h : self.next = (some entry, later)) :
    later.rest.length < self.rest.length := by
  have hspec := self.next_spec.2
  rw [h] at hspec
  exact hspec.1

/-- What the calls return until one returns nothing. -/
def collect (self : Entries) : List Entry :=
  match _h : self.next with
  | (none, _) => []
  | (some entry, later) => entry :: later.collect
  termination_by self.rest.length
  decreasing_by exact length_next_lt ‹_›

theorem collect_eq_ahead (self : Entries) : self.collect = self.ahead := by
  fun_induction collect self with
  | case1 self later h =>
    have hspec := self.next_spec.2
    rw [h] at hspec
    exact hspec.2.symm
  | case2 self entry later h ih =>
    have hspec := self.next_spec.2
    rw [h] at hspec
    rw [hspec.2, ih]

end Entries

/-! ## Places -/

section Places

variable {at' : ℕ} {pieces : List Bytes} {entry : Entry}

theorem map_located (at' : ℕ) (pieces : List Bytes) :
    (located at' pieces).map (fun entry => (entry.name, entry.value)) =
      (pieces.filter (· ≠ [])).map divide := by
  induction pieces generalizing at' with
  | nil => rfl
  | cons piece pieces ih =>
    rw [located]
    by_cases h : piece = []
    · rw [if_pos h, ih, List.filter_cons_of_neg (by simpa using h)]
    · rw [if_neg h, List.map_cons, ih, List.filter_cons_of_pos (by simpa using h), List.map_cons]
      rfl

theorem ofPiece_ranges (at' : ℕ) (piece : Bytes) :
    (Entry.ofPiece at' piece).nameRange.1 = at' ∧
      (Entry.ofPiece at' piece).nameRange.2 ≤ (Entry.ofPiece at' piece).valueRange.1 ∧
      (Entry.ofPiece at' piece).valueRange.2 = at' + piece.length := by
  rcases eq_of_divide piece with ⟨hequals, -⟩ | ⟨name, value, rfl, hequals, -⟩
  · rw [ofPiece_eq_self hequals]
    simp [Entry.nameRange, Entry.valueRange]
  · rw [ofPiece_append hequals]
    simp only [Entry.nameRange, Entry.valueRange, List.length_append, List.length_cons, true_and]
    omega

/-- An entry is that of a piece, at the place where the pieces in front of it end. -/
theorem exists_of_mem_located (h : entry ∈ located at' pieces) : ∃ before piece after,
    pieces = before ++ piece :: after ∧ piece ≠ [] ∧
      entry = Entry.ofPiece (at' + (joined ampersand before).length) piece := by
  induction pieces generalizing at' with
  | nil => exact absurd h List.not_mem_nil
  | cons piece pieces ih =>
    rw [located] at h
    by_cases hnil : piece = []
    · rw [if_pos hnil] at h
      obtain ⟨before, found, after, rfl, hne, rfl⟩ := ih h
      refine ⟨piece :: before, found, after, rfl, hne, ?_⟩
      rw [joined_cons, hnil, List.cons_append, List.length_cons, List.nil_append]
      congr 1
      omega
    · rw [if_neg hnil, List.mem_cons] at h
      rcases h with rfl | h
      · exact ⟨[], piece, pieces, rfl, hnil, rfl⟩
      · obtain ⟨before, found, after, rfl, hne, rfl⟩ := ih h
        refine ⟨piece :: before, found, after, rfl, hne, ?_⟩
        rw [joined_cons, List.length_append, List.length_cons]
        congr 1
        omega

theorem le_of_mem_located (h : entry ∈ located at' pieces) : at' ≤ entry.nameRange.1 := by
  obtain ⟨before, piece, after, -, -, rfl⟩ := exists_of_mem_located h
  exact Nat.le_add_right _ _

/-- The entries stand one behind the other. -/
theorem located_pairwise (at' : ℕ) (pieces : List Bytes) :
    (located at' pieces).Pairwise fun entry later => entry.valueRange.2 < later.nameRange.1 := by
  induction pieces generalizing at' with
  | nil => exact .nil
  | cons piece pieces ih =>
    rw [located]
    split_ifs
    · exact ih _
    · refine .cons (fun later hlater => ?_) (ih _)
      rw [(ofPiece_ranges at' piece).2.2]
      exact le_of_mem_located hlater

theorem drop_joined {query : Bytes} {before after : List Bytes} {piece : Bytes}
    (h : query.splitOn ampersand = before ++ piece :: after) :
    query.drop (joined ampersand before).length = piece ++ joined ampersand after := by
  have hjoined := @joined_splitOn _ _ ampersand query
  rw [h, joined_append, joined_cons] at hjoined
  calc query.drop (joined ampersand before).length
      = (ampersand :: query).drop ((joined ampersand before).length + 1) := rfl
    _ = ((joined ampersand before ++ ([ampersand] ++
          (piece ++ joined ampersand after))).drop (joined ampersand before).length).drop 1 := by
        rw [← hjoined, List.drop_drop]
        simp
    _ = piece ++ joined ampersand after := by
        rw [List.drop_left]
        rfl

/-- The ranges of an entry lie inside the query and address its name and its value. -/
structure Entry.Addressed (raw : Bytes) (start stop : ℕ) (entry : Entry) : Prop where
  start_le : start ≤ entry.nameRange.1
  name_le : entry.nameRange.2 ≤ entry.valueRange.1
  le_stop : entry.valueRange.2 ≤ stop
  name_eq : (raw.take entry.nameRange.2).drop entry.nameRange.1 = entry.name
  value_eq : (raw.take entry.valueRange.2).drop entry.valueRange.1 = entry.value

end Places

section Raw

variable {raw piece more : Bytes} {at' : ℕ}

theorem ofPiece_addressed {start stop : ℕ} (hdrop : raw.drop at' = piece ++ more)
    (hstart : start ≤ at') (hstop : at' + piece.length ≤ stop) :
    (Entry.ofPiece at' piece).Addressed raw start stop := by
  obtain ⟨hname, hle, hvalue⟩ := ofPiece_ranges at' piece
  refine ⟨hname ▸ hstart, hle, hvalue ▸ hstop, ?_, ?_⟩
  · rw [List.drop_take]
    rcases eq_of_divide piece with ⟨hequals, -⟩ | ⟨name, value, rfl, hequals, -⟩
    · rw [ofPiece_eq_self hequals]
      simp only [Entry.nameRange, Nat.add_sub_cancel_left]
      rw [hdrop, List.take_left]
    · rw [ofPiece_append hequals]
      simp only [Entry.nameRange, Nat.add_sub_cancel_left]
      rw [hdrop, List.append_assoc, List.take_left]
  · rw [List.drop_take]
    rcases eq_of_divide piece with ⟨hequals, -⟩ | ⟨name, value, rfl, hequals, -⟩
    · rw [ofPiece_eq_self hequals]
      simp [Entry.valueRange]
    · rw [ofPiece_append hequals]
      simp only [Entry.valueRange, Nat.add_sub_cancel_left]
      -- the value stands behind the name and the `=`
      have hbehind : raw.drop (at' + name.length + 1) = value ++ more := by
        rw [Nat.add_assoc, ← List.drop_drop, hdrop, List.append_assoc, ← List.drop_drop,
          List.drop_left]
        rfl
      rw [hbehind, List.take_left]

end Raw

namespace Entry

variable {raw : Bytes} {start stop : ℕ} {entry : Entry}

theorem Addressed.get_span (h : entry.Addressed raw start stop) (hstop : stop ≤ raw.length)
    {span : Span} (hspan : entry.trySpan = .ok span) : span.get raw = some entry.value := by
  have hle := h.le_stop
  have hvalue := h.value_eq
  rw [trySpan, Span.checked] at hspan
  split_ifs at hspan
  obtain rfl := Except.ok.inj hspan
  simp only [valueRange] at hle hvalue
  rw [Span.get, if_pos (by simp only; omega)]
  rw [List.drop_take, Nat.add_sub_cancel_left] at hvalue
  rw [hvalue]

theorem Addressed.exists_span (h : entry.Addressed raw start stop) (hstop : stop < u32Max) :
    ∃ span, entry.trySpan = .ok span ∧ entry.tryValue = .ok ⟨entry.value, span⟩ := by
  have hle := h.le_stop
  simp only [valueRange] at hle
  have hmax : u32Max < 2 ^ 64 := by decide
  have hspan : entry.trySpan = .ok ⟨entry.offset, entry.value.length, by omega, by omega⟩ := by
    rw [trySpan, Span.checked, if_neg (by omega), dif_neg (by omega)]
  exact ⟨_, hspan, by rw [tryValue, SliceValue.trySlice, ← trySpan, hspan]; rfl⟩

end Entry

/-! ## The entries of a query -/

/-- The entries of a query are its non-empty pieces, each divided at its first `=`, in order; the
ranges of an entry address the bytes of its name and of its value inside the query. -/
theorem entries_of_range (raw : Bytes) {start stop : ℕ} (hle : start ≤ stop)
    (hstop : stop ≤ raw.length) :
    ∃ entries, Entries.tryNew raw start stop = .ok entries ∧
      entries.collect = located start (((raw.take stop).drop start).splitOn ampersand) ∧
      entries.collect.map (fun entry => (entry.name, entry.value)) =
        ((((raw.take stop).drop start).splitOn ampersand).filter (· ≠ [])).map divide ∧
      (entries.collect.Pairwise fun entry later => entry.valueRange.2 < later.nameRange.1) ∧
      ∀ entry ∈ entries.collect, entry.Addressed raw start stop ∧
        (∀ span, entry.trySpan = .ok span → span.get raw = some entry.value) ∧
        (stop < u32Max → ∃ span, entry.trySpan = .ok span ∧
          entry.tryValue = .ok ⟨entry.value, span⟩) := by
  refine ⟨⟨(raw.take stop).drop start, start⟩, ?_, ?_⟩
  · rw [Entries.tryNew, targetGet, if_neg (by omega), if_pos hstop]
    rfl
  rw [Entries.collect_eq_ahead, Entries.ahead]
  refine ⟨rfl, map_located _ _, located_pairwise _ _, fun entry hmem => ?_⟩
  obtain ⟨before, piece, after, hsplit, hne, rfl⟩ := exists_of_mem_located hmem
  have hdrop := drop_joined hsplit
  rw [List.drop_drop, List.drop_take] at hdrop
  have hlength := congrArg List.length hdrop
  rw [List.length_take, List.length_append, List.length_drop] at hlength
  have hpos := List.length_pos_iff.mpr hne
  have hraw := List.take_append_drop (stop - (start + (joined ampersand before).length))
    (raw.drop (start + (joined ampersand before).length))
  rw [hdrop, List.append_assoc] at hraw
  have haddressed : (Entry.ofPiece (start + (joined ampersand before).length) piece).Addressed raw
      start stop := ofPiece_addressed hraw.symm (by omega) (by omega)
  exact ⟨haddressed, fun span => haddressed.get_span hstop, haddressed.exists_span⟩

/-- `a=1&&b&=c=d` inside of `?a=1&&b&=c=d#`. -/
theorem entries_of_sample :
    ∃ entries, Entries.tryNew
        [0x3f, 0x61, 0x3d, 0x31, 0x26, 0x26, 0x62, 0x26, 0x3d, 0x63, 0x3d, 0x64, 0x23] 1 12 =
        .ok entries ∧
      entries.collect.map (fun entry => (entry.name, entry.value)) =
        [([0x61], [0x31]), ([0x62], []), ([], [0x63, 0x3d, 0x64])] := by
  obtain ⟨entries, hnew, -, hmap, -⟩ := @entries_of_range
    [0x3f, 0x61, 0x3d, 0x31, 0x26, 0x26, 0x62, 0x26, 0x3d, 0x63, 0x3d, 0x64, 0x23] 1 12
    (by decide) (by decide)
  exact ⟨entries, hnew, hmap.trans (by decide)⟩

end Sark.Query
