import Sark.Http.H1.Value
import Sark.Library.Fallible
import Sark.Library.Gregorian
import Sark.Library.Splice

/-!
# HTTP dates

The date stamps of `http/src/field/date.rs`. Days are converted with the arithmetic of eras of 400
years on signed 64-bit integers; every operation is checked here, as are the reads from the tables
and the slots of the text that the source takes for granted.

* `civil_eq`: the conversion never overflows and gives the Gregorian date of a day.
* `fromUnix_eq`: a stamp is the text of the instant that a calendar clock shows.
* `fromUnix_injective`: two different instants never have the same stamp.
-/

open Gregorian (Instant Weekday dateAt dateAt_eq dateAt_valid instantAt instantAt_eq
  instantAt_injective marchStart ofMarch weekdayAt weekdayAt_mod)

namespace Sark.Date

/-- What the source excludes: an overflow, an index outside of its table, a slot outside of the
text. -/
inductive Fault
  | overflow
  | index
  | slot
  deriving DecidableEq, Repr

/-! ## Checked arithmetic -/

/-- An `i64` result. -/
def i64 (value : ℤ) : Except Fault ℤ :=
  if -2 ^ 63 ≤ value ∧ value < 2 ^ 63 then .ok value else .error .overflow

/-- `+` on `i64`. -/
def add (x y : ℤ) : Except Fault ℤ :=
  i64 (x + y)

/-- `-` on `i64`. -/
def sub (x y : ℤ) : Except Fault ℤ :=
  i64 (x - y)

/-- `*` on `i64`. -/
def mul (x y : ℤ) : Except Fault ℤ :=
  i64 (x * y)

/-- `/` on `i64`, which rounds towards zero. -/
def div (x y : ℤ) : Except Fault ℤ :=
  i64 (x.tdiv y)

/-- `as i64` of a `u64`. -/
def asI64 (value : UInt64) : ℤ :=
  (value.toNat : ℤ).bmod (2 ^ 64)

/-- `as u8` of an `i64`. -/
def asU8 (value : ℤ) : ℕ :=
  (value % 2 ^ 8).toNat

/-- `as usize` of an `i64`. -/
def asUsize (value : ℤ) : ℕ :=
  (value % 2 ^ 64).toNat

/-- `- 1` on `usize`. -/
def decrement (value : ℕ) : Except Fault ℕ :=
  if value = 0 then .error .overflow else .ok (value - 1)

/-- The first half of `civil`: the year that begins in March, and the day of that year. -/
def civilYear (day : ℤ) : Except Fault (ℤ × ℤ) := do
  let shifted ← add day 719468
  let era ← div shifted 146097
  let eraDay ← sub shifted (← mul era 146097)
  let eraYear ← div (← sub (← add (← sub eraDay (← div eraDay 1460)) (← div eraDay 36524))
    (← div eraDay 146096)) 365
  let year ← add eraYear (← mul era 400)
  let yearDay ← sub eraDay (← sub (← add (← mul 365 eraYear) (← div eraYear 4))
    (← div eraYear 100))
  .ok (year, yearDay)

/-- The second half of `civil`: the calendar year, the month and the day of the month. -/
def civilMonth (year yearDay : ℤ) : Except Fault (ℤ × ℕ × ℕ) := do
  let index ← div (← add (← mul 5 yearDay) 2) 153
  let date ← add (← sub yearDay (← div (← add (← mul 153 index) 2) 5)) 1
  let month ← i64 (if index < 10 then index + 3 else index - 9)
  let year ← i64 (if month ≤ 2 then year + 1 else year)
  .ok (year, asU8 month, asU8 date)

/-- `civil`: the year, the month and the day of the month. -/
def civil (day : ℤ) : Except Fault (ℤ × ℕ × ℕ) := do
  let split ← civilYear day
  civilMonth split.1 split.2

/-! ## Stamps -/

/-- ASCII text. -/
def ascii (text : List Char) : Bytes :=
  text.map fun char => UInt8.ofNat char.toNat

/-- `DAYS`. -/
def days : List Bytes :=
  [ascii ['T', 'h', 'u'], ascii ['F', 'r', 'i'], ascii ['S', 'a', 't'], ascii ['S', 'u', 'n'],
    ascii ['M', 'o', 'n'], ascii ['T', 'u', 'e'], ascii ['W', 'e', 'd']]

/-- `MONTHS`. -/
def months : List Bytes :=
  [ascii ['J', 'a', 'n'], ascii ['F', 'e', 'b'], ascii ['M', 'a', 'r'], ascii ['A', 'p', 'r'],
    ascii ['M', 'a', 'y'], ascii ['J', 'u', 'n'], ascii ['J', 'u', 'l'], ascii ['A', 'u', 'g'],
    ascii ['S', 'e', 'p'], ascii ['O', 'c', 't'], ascii ['N', 'o', 'v'], ascii ['D', 'e', 'c']]

/-- `digits`, the table `DIGITS`. -/
def digits : List Bytes :=
  (List.range 100).map fun value =>
    [0x30 + UInt8.ofNat (value / 10), 0x30 + UInt8.ofNat (value % 10)]

/-- `Stamp`: a date of the length of an IMF-fixdate. -/
@[ext]
structure Stamp where
  bytes : Bytes
  length_eq : bytes.length = 29

/-- A read from a table. -/
def fetch (table : List Bytes) (index : ℕ) : Except Fault Bytes :=
  match table[index]? with
  | some value => .ok value
  | none => .error .index

/-- `write`. -/
def write (stamp : Stamp) (start : ℕ) (value : Bytes) : Except Fault Stamp :=
  if h : start + value.length ≤ 29 then
    .ok ⟨splice start value stamp.bytes, by
      rw [length_splice (by rw [stamp.length_eq]; exact h), stamp.length_eq]⟩
  else .error .slot

/-- `pair`. -/
def pair (stamp : Stamp) (start value : ℕ) : Except Fault Stamp := do
  let pair ← fetch digits value
  write stamp start pair

/-- The text that `Stamp::from_unix` begins with. -/
def template : Stamp where
  bytes := ascii ['T', 'h', 'u', ',', ' ', '0', '1', ' ', 'J', 'a', 'n', ' ', '1', '9', '7', '0',
    ' ', '0', '0', ':', '0', '0', ':', '0', '0', ' ', 'G', 'M', 'T']
  length_eq := rfl

/-- The part of `Stamp::from_unix` behind the check of the year. -/
def format (seconds days' : UInt64) (year : ℤ) (month date : ℕ) : Except Fault Stamp := do
  let daytime := seconds % 86400
  let hour := (daytime / 3600).toNat
  let minute := (daytime % 3600 / 60).toNat
  let second := (daytime % 60).toNat
  let bytes ← write template 0 (← fetch days (days' % 7).toNat)
  let bytes ← pair bytes 5 date
  let month ← fetch months (← decrement month)
  let bytes ← write bytes 8 month
  let bytes ← pair bytes 12 (asUsize year / 100)
  let bytes ← pair bytes 14 (asUsize year % 100)
  let bytes ← pair bytes 17 hour
  let bytes ← pair bytes 20 minute
  pair bytes 23 second

/-- `Stamp::from_unix`. -/
def fromUnix (unix : UInt64) : Except Fault (Option Stamp) := do
  let days := unix / 86400
  let day := asI64 days
  let (year, month, date) ← civil day
  if 9999 < year then .ok none
  else
    let stamp ← format unix days year month date
    .ok (some stamp)

/-! ## No overflow -/

section Arithmetic

variable {x y : ℤ} {n : ℕ}

theorem i64_eq (h : x = n) (hn : n < 2 ^ 63) : i64 x = .ok n := by
  rw [h, i64, if_pos (by omega)]

theorem add_eq (h : x + y = n) (hn : n < 2 ^ 63) : add x y = .ok n :=
  i64_eq h hn

theorem sub_eq (h : x - y = n) (hn : n < 2 ^ 63) : sub x y = .ok n :=
  i64_eq h hn

theorem mul_eq (h : x * y = n) (hn : n < 2 ^ 63) : mul x y = .ok n :=
  i64_eq h hn

theorem div_eq {m d : ℕ} (hy : y = d) (hm : m < 2 ^ 63) : div m y = .ok ((m / d : ℕ) : ℤ) := by
  rw [hy, div, ← Int.ofNat_tdiv]
  exact i64_eq rfl (lt_of_le_of_lt (Nat.div_le_self m d) hm)

theorem ok_bind {α β : Type} (a : α) (f : α → Except Fault β) : (.ok a >>= f) = f a :=
  rfl

end Arithmetic

theorem exists_era_split {eraDay : ℕ} (h : eraDay < 146097) : ∃ a b c r, a ≤ 3 ∧ b ≤ 24 ∧ c ≤ 3 ∧
    eraDay = 36524 * a + 1461 * b + 365 * c + r ∧
      (r < 365 ∨ r = 365 ∧ c = 3 ∧ (b < 24 ∨ a = 3)) := by
  -- the last day of an era belongs to its fourth century, and so on for shorter spans
  obtain ⟨a, later, ha, hlater, heq, hlast⟩ : ∃ a later, a ≤ 3 ∧ later < 36525 ∧
      eraDay = 36524 * a + later ∧ (later < 36524 ∨ a = 3) := by
    rcases Nat.lt_or_ge (eraDay / 36524) 4 with hlt | hge
    · exact ⟨eraDay / 36524, eraDay % 36524, by omega, by omega, by omega, .inl (by omega)⟩
    · exact ⟨3, 36524, by omega, by omega, by omega, .inr rfl⟩
  obtain ⟨b, rest, hb, hrest, heq'⟩ : ∃ b rest, b ≤ 24 ∧ rest < 1461 ∧
      later = 1461 * b + rest :=
    ⟨later / 1461, later % 1461, by omega, by omega, by omega⟩
  rcases Nat.lt_or_ge (rest / 365) 4 with hlt | hge
  · exact ⟨a, b, rest / 365, rest % 365, ha, hb, by omega, by omega, .inl (by omega)⟩
  · refine ⟨a, b, 3, 365, ha, hb, le_rfl, by omega, .inr ⟨rfl, rfl, ?_⟩⟩
    rcases hlast with hlater' | ha'
    · exact .inl (by omega)
    · exact .inr ha'

/-- The year of an era, as the source computes it. -/
def eraYear (eraDay : ℕ) : ℕ :=
  (eraDay - eraDay / 1460 + eraDay / 36524 - eraDay / 146096) / 365

theorem eraYear_eq {a b c r : ℕ} (ha : a ≤ 3) (hb : b ≤ 24) (hc : c ≤ 3)
    (hr : r < 365 ∨ r = 365 ∧ c = 3 ∧ (b < 24 ∨ a = 3)) :
    eraYear (36524 * a + 1461 * b + 365 * c + r) = 100 * a + 4 * b + c := by
  by_cases hlast : a = 3 ∧ b = 24 ∧ c = 3 ∧ r = 365
  · obtain ⟨rfl, rfl, rfl, rfl⟩ := hlast
    decide
  obtain ⟨n, hn⟩ : ∃ n, n = 36524 * a + 1461 * b + 365 * c + r := ⟨_, rfl⟩
  obtain ⟨m, hm⟩ : ∃ m, m = 24 * a + b + 365 * c + r := ⟨_, rfl⟩
  have hcentury : n / 36524 = a := by omega
  have hera : n / 146096 = 0 := by omega
  have hfour : n / 1460 = 25 * a + b + m / 1460 := by omega
  rw [eraYear, ← hn, hcentury, hera, hfour]
  rcases Nat.lt_or_ge m 1460 with hlt | hge
  · rw [Nat.div_eq_of_lt hlt]
    have hr' : r < 365 := by omega
    rw [show n - (25 * a + b + 0) + a - 0 = r + 365 * (100 * a + 4 * b + c) by omega,
      Nat.add_mul_div_left _ _ (by norm_num), Nat.div_eq_of_lt hr', Nat.zero_add]
  · have hone : m / 1460 = 1 := by omega
    have hr' : r - 1 < 365 := by omega
    have hpos : 1 ≤ r := by omega
    rw [hone, show n - (25 * a + b + 1) + a - 0 = (r - 1) + 365 * (100 * a + 4 * b + c) by omega,
      Nat.add_mul_div_left _ _ (by norm_num), Nat.div_eq_of_lt hr', Nat.zero_add]

/-- The day of the year, as the source computes it. -/
def yearDay (eraDay : ℕ) : ℕ :=
  eraDay - (365 * eraYear eraDay + eraYear eraDay / 4 - eraYear eraDay / 100)

theorem eraYear_spec {eraDay : ℕ} (h : eraDay < 146097) :
    eraYear eraDay < 400 ∧
      365 * eraYear eraDay + eraYear eraDay / 4 - eraYear eraDay / 100 ≤ eraDay ∧
      yearDay eraDay < if Gregorian.Leap (eraYear eraDay + 1) then 366 else 365 := by
  obtain ⟨a, b, c, r, ha, hb, hc, rfl, hr⟩ := exists_era_split h
  have hyear : eraYear (36524 * a + 1461 * b + 365 * c + r) = 100 * a + 4 * b + c :=
    eraYear_eq ha hb hc hr
  have hstart : 365 * (100 * a + 4 * b + c) + (100 * a + 4 * b + c) / 4 -
      (100 * a + 4 * b + c) / 100 = 36524 * a + 1461 * b + 365 * c := by
    rw [show (100 * a + 4 * b + c) / 4 = 25 * a + b by omega,
      show (100 * a + 4 * b + c) / 100 = a by omega]
    omega
  rw [yearDay, hyear, hstart]
  refine ⟨by omega, by omega, ?_⟩
  rcases hr with hr | ⟨rfl, rfl, hlast⟩
  · split_ifs <;> omega
  · -- only a leap year has this day
    rw [if_pos]
    · omega
    · refine ⟨by omega, ?_⟩
      rcases hlast with hb | rfl
      · exact .inl (by omega)
      · rcases Nat.lt_or_ge b 24 with hb' | hb'
        · exact .inl (by omega)
        · exact .inr (by omega)

theorem marchStart_era {year : ℕ} (h : year < 400) (era : ℕ) :
    marchStart (year + era * 400) =
      era * 146097 + (365 * year + year / 4 - year / 100) := by
  have hle : year / 100 ≤ 365 * year := by omega
  rw [marchStart, show (year + era * 400) / 4 = year / 4 + 100 * era by omega,
    show (year + era * 400) / 100 = year / 100 + 4 * era by omega,
    show (year + era * 400) / 400 = era by omega]
  omega

theorem leap_era (year era : ℕ) :
    Gregorian.Leap (year + era * 400) ↔ Gregorian.Leap year := by
  rw [Gregorian.Leap, Gregorian.Leap, show (year + era * 400) % 4 = year % 4 by omega,
    show (year + era * 400) % 100 = year % 100 by omega,
    show (year + era * 400) % 400 = year % 400 by omega]

theorem dateAt_era {day era eraDay : ℕ} (hday : day + 719468 = era * 146097 + eraDay)
    (h : eraDay < 146097) :
    dateAt day = ofMarch (eraYear eraDay + era * 400) (yearDay eraDay) := by
  obtain ⟨hyear, hstart, hlt⟩ := eraYear_spec h
  refine dateAt_eq ?_ ?_
  · rw [marchStart_era hyear, hday, yearDay]
    omega
  · rw [show eraYear eraDay + era * 400 + 1 = eraYear eraDay + 1 + era * 400 by omega]
    simpa only [leap_era] using hlt

theorem civilYear_eq {day era day' : ℕ} (hday : day + 719468 = era * 146097 + day')
    (h : day' < 146097) (hsmall : day < 2 ^ 62) :
    civilYear day = .ok ((eraYear day' + era * 400 : ℕ), (yearDay day' : ℕ)) := by
  obtain ⟨hyear, hstart, -⟩ := eraYear_spec h
  -- every intermediate value has a name, so that nothing is computed
  obtain ⟨shifted, hshifted⟩ : ∃ n, n = day + 719468 := ⟨_, rfl⟩
  have hera : era = shifted / 146097 := by omega
  obtain ⟨eras, heras⟩ : ∃ n, n = era * 146097 := ⟨_, rfl⟩
  obtain ⟨four, hfour⟩ : ∃ n, n = day' / 1460 := ⟨_, rfl⟩
  obtain ⟨hundred, hhundred⟩ : ∃ n, n = day' / 36524 := ⟨_, rfl⟩
  obtain ⟨last, hlast⟩ : ∃ n, n = day' / 146096 := ⟨_, rfl⟩
  obtain ⟨less, hless⟩ : ∃ n, n = day' - four := ⟨_, rfl⟩
  obtain ⟨more, hmore⟩ : ∃ n, n = less + hundred := ⟨_, rfl⟩
  obtain ⟨whole, hwhole⟩ : ∃ n, n = more - last := ⟨_, rfl⟩
  have hyear' : whole / 365 = eraYear day' := by
    rw [eraYear, hwhole, hmore, hless, hfour, hhundred, hlast]
  have hday' : yearDay day' = day' - (365 * eraYear day' + eraYear day' / 4 -
    eraYear day' / 100) := rfl
  generalize eraYear day' = year at *
  generalize yearDay day' = ofYear at *
  obtain ⟨years, hyears⟩ : ∃ n, n = era * 400 := ⟨_, rfl⟩
  obtain ⟨march, hmarch⟩ : ∃ n, n = year + years := ⟨_, rfl⟩
  obtain ⟨plain, hplain⟩ : ∃ n, n = 365 * year := ⟨_, rfl⟩
  obtain ⟨upper, hupper⟩ : ∃ n, n = plain + year / 4 := ⟨_, rfl⟩
  obtain ⟨start, hstart'⟩ : ∃ n, n = upper - year / 100 := ⟨_, rfl⟩
  rw [civilYear,
    add_eq (n := shifted) (by omega) (by omega), ok_bind,
    div_eq (y := 146097) (m := shifted) (d := 146097) rfl (by omega), ok_bind, ← hera,
    mul_eq (n := eras) (by omega) (by omega), ok_bind,
    sub_eq (n := day') (by omega) (by omega), ok_bind,
    div_eq (y := 1460) (m := day') (d := 1460) rfl (by omega), ok_bind, ← hfour,
    sub_eq (n := less) (by omega) (by omega), ok_bind,
    div_eq (y := 36524) (m := day') (d := 36524) rfl (by omega), ok_bind, ← hhundred,
    add_eq (n := more) (by omega) (by omega), ok_bind,
    div_eq (y := 146096) (m := day') (d := 146096) rfl (by omega), ok_bind, ← hlast,
    sub_eq (n := whole) (by omega) (by omega), ok_bind,
    div_eq (y := 365) (m := whole) (d := 365) rfl (by omega), ok_bind, hyear',
    mul_eq (n := years) (by omega) (by omega), ok_bind,
    add_eq (n := march) (by omega) (by omega), ok_bind,
    mul_eq (n := plain) (by omega) (by omega), ok_bind,
    div_eq (y := 4) (m := year) (d := 4) rfl (by omega), ok_bind,
    add_eq (n := upper) (by omega) (by omega), ok_bind,
    div_eq (y := 100) (m := year) (d := 100) rfl (by omega), ok_bind,
    sub_eq (n := start) (by omega) (by omega), ok_bind,
    sub_eq (n := ofYear) (by omega) (by omega), ok_bind, hmarch, hyears]

theorem asU8_natCast {n : ℕ} (h : n < 256) : asU8 n = n := by
  rw [asU8]
  omega

theorem civilMonth_eq {year ofYear : ℕ} (hyear : year < 2 ^ 62) (hday : ofYear < 366) :
    civilMonth year ofYear =
      .ok ((ofMarch year ofYear).year, (ofMarch year ofYear).month, (ofMarch year ofYear).day) := by
  simp only [ofMarch]
  obtain ⟨five, hfive⟩ : ∃ n, n = 5 * ofYear := ⟨_, rfl⟩
  obtain ⟨plus, hplus⟩ : ∃ n, n = five + 2 := ⟨_, rfl⟩
  rw [← hfive, ← hplus]
  obtain ⟨index, hindex⟩ : ∃ n, n = plus / 153 := ⟨_, rfl⟩
  rw [← hindex]
  obtain ⟨months, hmonths⟩ : ∃ n, n = 153 * index := ⟨_, rfl⟩
  obtain ⟨round, hround⟩ : ∃ n, n = months + 2 := ⟨_, rfl⟩
  rw [← hmonths, ← hround]
  obtain ⟨behind, hbehind⟩ : ∃ n, n = ofYear - round / 5 := ⟨_, rfl⟩
  rw [← hbehind]
  obtain ⟨date, hdate⟩ : ∃ n, n = behind + 1 := ⟨_, rfl⟩
  obtain ⟨month, hmonth⟩ : ∃ n, n = if index < 10 then index + 3 else index - 9 := ⟨_, rfl⟩
  obtain ⟨final, hfinal⟩ : ∃ n, n = if index < 10 then year else year + 1 := ⟨_, rfl⟩
  have hmonth' : i64 (if (index : ℤ) < 10 then (index : ℤ) + 3 else (index : ℤ) - 9) =
      .ok (month : ℤ) := by
    refine i64_eq ?_ ?_ <;> rw [hmonth] <;> split_ifs <;> omega
  have hfinal' : i64 (if (month : ℤ) ≤ 2 then (year : ℤ) + 1 else (year : ℤ)) =
      .ok (final : ℤ) := by
    refine i64_eq ?_ ?_ <;> rw [hfinal] <;> split_ifs at hmonth ⊢ <;> omega
  have hmonthLt : month < 256 := by
    split_ifs at hmonth <;> omega
  rw [civilMonth,
    mul_eq (n := five) (by omega) (by omega), ok_bind,
    add_eq (n := plus) (by omega) (by omega), ok_bind,
    div_eq (y := 153) (m := plus) (d := 153) rfl (by omega), ok_bind, ← hindex,
    mul_eq (n := months) (by omega) (by omega), ok_bind,
    add_eq (n := round) (by omega) (by omega), ok_bind,
    div_eq (y := 5) (m := round) (d := 5) rfl (by omega), ok_bind,
    sub_eq (n := behind) (by omega) (by omega), ok_bind,
    add_eq (n := date) (by omega) (by omega), ok_bind,
    hmonth', ok_bind, hfinal', ok_bind, asU8_natCast hmonthLt, asU8_natCast (by omega), ← hmonth,
    ← hfinal, ← hdate]

/-- The conversion never overflows, and it gives the date of the day. -/
theorem civil_eq {day : ℕ} (h : day < 2 ^ 61) :
    civil day = .ok ((dateAt day).year, (dateAt day).month, (dateAt day).day) := by
  obtain ⟨era, ofEra, hsplit, hlt⟩ : ∃ era ofEra, day + 719468 = era * 146097 + ofEra ∧
      ofEra < 146097 :=
    ⟨(day + 719468) / 146097, (day + 719468) % 146097, by omega, by omega⟩
  obtain ⟨hyear, -, hday⟩ := eraYear_spec hlt
  rw [civil, civilYear_eq hsplit hlt (by omega), ok_bind, dateAt_era hsplit hlt]
  refine civilMonth_eq (by omega) ?_
  split_ifs at hday <;> omega

/-! ## The text of an instant -/

/-- The abbreviation of a day of the week. -/
def weekdayName : Weekday → Bytes
  | .monday => ascii ['M', 'o', 'n']
  | .tuesday => ascii ['T', 'u', 'e']
  | .wednesday => ascii ['W', 'e', 'd']
  | .thursday => ascii ['T', 'h', 'u']
  | .friday => ascii ['F', 'r', 'i']
  | .saturday => ascii ['S', 'a', 't']
  | .sunday => ascii ['S', 'u', 'n']

/-- The abbreviation of a month. -/
def monthName : ℕ → Bytes
  | 1 => ascii ['J', 'a', 'n']
  | 2 => ascii ['F', 'e', 'b']
  | 3 => ascii ['M', 'a', 'r']
  | 4 => ascii ['A', 'p', 'r']
  | 5 => ascii ['M', 'a', 'y']
  | 6 => ascii ['J', 'u', 'n']
  | 7 => ascii ['J', 'u', 'l']
  | 8 => ascii ['A', 'u', 'g']
  | 9 => ascii ['S', 'e', 'p']
  | 10 => ascii ['O', 'c', 't']
  | 11 => ascii ['N', 'o', 'v']
  | _ => ascii ['D', 'e', 'c']

/-- A number below one hundred in two digits. -/
def two (value : ℕ) : Bytes :=
  [0x30 + UInt8.ofNat (value / 10), 0x30 + UInt8.ofNat (value % 10)]

/-- The IMF-fixdate of an instant: `Sun, 06 Nov 1994 08:49:37 GMT`. -/
def imfFixdate (instant : Instant) : Bytes :=
  weekdayName instant.weekday ++ ascii [',', ' '] ++ two instant.date.day ++ ascii [' '] ++
    monthName instant.date.month ++ ascii [' '] ++ two (instant.date.year / 100) ++
    two (instant.date.year % 100) ++ ascii [' '] ++ two instant.hour ++ ascii [':'] ++
    two instant.minute ++ ascii [':'] ++ two instant.second ++ ascii [' ', 'G', 'M', 'T']

section Text

variable {value other : ℕ}

theorem fetch_digits (h : value < 100) : fetch digits value = .ok (two value) := by
  rw [fetch, digits, List.getElem?_map, List.getElem?_range h]
  rfl

theorem fetch_days (day : ℕ) : fetch days (day % 7) = .ok (weekdayName (weekdayAt day)) := by
  rw [← weekdayAt_mod]
  have h : day % 7 < 7 := Nat.mod_lt _ (by norm_num)
  generalize day % 7 = index at *
  interval_cases index <;> rfl

theorem fetch_months (h : 1 ≤ value) (h' : value ≤ 12) :
    fetch months (value - 1) = .ok (monthName value) := by
  interval_cases value <;> rfl

theorem length_weekdayName (weekday : Weekday) : (weekdayName weekday).length = 3 := by
  cases weekday <;> rfl

theorem length_monthName (h : 1 ≤ value) (h' : value ≤ 12) : (monthName value).length = 3 := by
  interval_cases value <;> rfl

theorem digit_injective {digit digit' : ℕ} (h : digit < 10) (h' : digit' < 10)
    (heq : (0x30 + UInt8.ofNat digit : UInt8) = 0x30 + UInt8.ofNat digit') : digit = digit' := by
  have hnat := congrArg UInt8.toNat heq
  simp only [UInt8.toNat_add, UInt8.toNat_ofNat', UInt8.reduceToNat] at hnat
  omega

theorem two_injective (h : value < 100) (h' : other < 100) (heq : two value = two other) :
    value = other := by
  rw [two, two, List.cons.injEq, List.cons.injEq] at heq
  have htens := digit_injective (by omega) (by omega) heq.1
  have hones := digit_injective (by omega) (by omega) heq.2.1
  omega

theorem monthName_injective (h : 1 ≤ value ∧ value ≤ 12) (h' : 1 ≤ other ∧ other ≤ 12)
    (heq : monthName value = monthName other) : value = other := by
  have hall : ∀ value < 13, ∀ other < 13, 1 ≤ value → 1 ≤ other →
      monthName value = monthName other → value = other := by
    decide
  exact hall value (by omega) other (by omega) h.1 h'.1 heq

end Text

theorem exists_write (stamp : Stamp) (start : ℕ) (value : Bytes) (h : start + value.length ≤ 29) :
    ∃ next, write stamp start value = .ok next ∧
      next.bytes = splice start value stamp.bytes := by
  rw [write, dif_pos h]
  exact ⟨_, rfl, rfl⟩

theorem exists_pair (stamp : Stamp) (start : ℕ) {value : ℕ} (hvalue : value < 100) (h : start + 2 ≤ 29) :
    ∃ next, pair stamp start value = .ok next ∧
      next.bytes = splice start (two value) stamp.bytes := by
  rw [pair, fetch_digits hvalue, ok_bind]
  exact exists_write stamp _ _ h

/-- Every slot lies inside of the text, and every read inside of its table. -/
theorem format_eq {seconds days : UInt64} {year month date : ℕ} (hyear : year ≤ 9999)
    (hmonth : 1 ≤ month ∧ month ≤ 12) (hdate : date < 100) :
    ∃ stamp, format seconds days year month date = .ok stamp ∧ stamp.bytes =
      imfFixdate ⟨weekdayAt days.toNat, ⟨year, month, date⟩, seconds.toNat % 86400 / 3600,
        seconds.toNat % 86400 % 3600 / 60, seconds.toNat % 86400 % 60⟩ := by
  obtain ⟨a, b, c, hname⟩ := List.length_eq_three.mp (length_weekdayName (weekdayAt days.toNat))
  obtain ⟨d, e, f, hname'⟩ := List.length_eq_three.mp (length_monthName hmonth.1 hmonth.2)
  have hdecrement : decrement month = .ok (month - 1) := by
    rw [decrement, if_neg (by omega)]
  have hyear' : asUsize (year : ℤ) = year := by
    rw [asUsize]
    omega
  have hdays : (days % 7).toNat = days.toNat % 7 := by
    simp
  have hhour : (seconds % 86400 / 3600).toNat = seconds.toNat % 86400 / 3600 := by
    simp
  have hminute : (seconds % 86400 % 3600 / 60).toNat = seconds.toNat % 86400 % 3600 / 60 := by
    simp
  have hsecond : (seconds % 86400 % 60).toNat = seconds.toNat % 86400 % 60 := by
    simp
  rw [format]
  simp only [hdays, hhour, hminute, hsecond, hyear', fetch_days, hdecrement,
    fetch_months hmonth.1 hmonth.2, ok_bind]
  have hcentury : year / 100 < 100 := by omega
  have hofCentury : year % 100 < 100 := by omega
  have hhour' : seconds.toNat % 86400 / 3600 < 100 := by omega
  have hminute' : seconds.toNat % 86400 % 3600 / 60 < 100 := by omega
  have hsecond' : seconds.toNat % 86400 % 60 < 100 := by omega
  obtain ⟨stamp₁, h₁, hbytes₁⟩ := exists_write template 0 (weekdayName (weekdayAt days.toNat))
    (by simp [hname])
  obtain ⟨stamp₂, h₂, hbytes₂⟩ := exists_pair stamp₁ 5 hdate (by decide)
  obtain ⟨stamp₃, h₃, hbytes₃⟩ := exists_write stamp₂ 8 (monthName month) (by simp [hname'])
  obtain ⟨stamp₄, h₄, hbytes₄⟩ := exists_pair stamp₃ 12 hcentury (by decide)
  obtain ⟨stamp₅, h₅, hbytes₅⟩ := exists_pair stamp₄ 14 hofCentury (by decide)
  obtain ⟨stamp₆, h₆, hbytes₆⟩ := exists_pair stamp₅ 17 hhour' (by decide)
  obtain ⟨stamp₇, h₇, hbytes₇⟩ := exists_pair stamp₆ 20 hminute' (by decide)
  obtain ⟨stamp₈, h₈, hbytes₈⟩ := exists_pair stamp₇ 23 hsecond' (by decide)
  refine ⟨stamp₈, ?_, ?_⟩
  · rw [h₁, ok_bind, h₂, ok_bind, h₃, ok_bind, h₄, ok_bind, h₅, ok_bind, h₆, ok_bind, h₇, ok_bind,
      h₈]
  · rw [hbytes₈, hbytes₇, hbytes₆, hbytes₅, hbytes₄, hbytes₃, hbytes₂, hbytes₁, imfFixdate, hname,
      hname']
    simp [splice, template, ascii, two]

theorem bmod_eq {n : ℕ} (h : n < 2 ^ 63) : (n : ℤ).bmod (2 ^ 64) = n :=
  Int.bmod_eq_of_le_mul_two (by push_cast; omega) (by push_cast; omega)

theorem toNat_days (unix : UInt64) : (unix / 86400).toNat = unix.toNat / 86400 := by
  simp

theorem days_lt (unix : UInt64) : unix.toNat / 86400 < 2 ^ 61 := by
  have hlt := unix.toNat_lt
  omega

theorem asI64_days (unix : UInt64) : asI64 (unix / 86400) = ((unix.toNat / 86400 : ℕ) : ℤ) :=
  have hsmall : (unix / 86400).toNat < 2 ^ 63 := by
    rw [toNat_days]
    exact (days_lt unix).trans (by norm_num)
  (bmod_eq hsmall).trans (congrArg _ (toNat_days unix))

theorem fromUnix_cases (unix : UInt64) :
    if 9999 < (instantAt unix.toNat).date.year then fromUnix unix = .ok none
    else ∃ stamp, fromUnix unix = .ok (some stamp) ∧
      stamp.bytes = imfFixdate (instantAt unix.toNat) := by
  have hvalid := dateAt_valid (unix.toNat / 86400)
  rw [instantAt_eq]
  simp only
  rw [fromUnix, asI64_days, civil_eq (days_lt unix), ok_bind]
  simp only
  by_cases hyear : 9999 < (dateAt (unix.toNat / 86400)).year
  · rw [if_pos hyear, if_pos (by omega)]
  · rw [if_neg hyear, if_neg (by omega)]
    have hday : (dateAt (unix.toNat / 86400)).day < 100 :=
      lt_of_le_of_lt hvalid.day_le (by decide)
    obtain ⟨stamp, hstamp, hbytes⟩ := @format_eq unix (unix / 86400) _ _ _
      (Nat.le_of_not_lt hyear) ⟨hvalid.one_le_month, hvalid.month_le⟩ hday
    rw [hstamp]
    rw [toNat_days] at hbytes
    exact ⟨stamp, rfl, hbytes⟩

theorem instantAt_lt (seconds : ℕ) : (instantAt seconds).hour < 100 ∧
    (instantAt seconds).minute < 100 ∧ (instantAt seconds).second < 100 := by
  rw [instantAt_eq]
  simp only
  omega

/-- Different instants have different texts. -/
theorem imfFixdate_injective {seconds later : ℕ}
    (hyear : (instantAt seconds).date.year ≤ 9999) (hyear' : (instantAt later).date.year ≤ 9999)
    (h : imfFixdate (instantAt seconds) = imfFixdate (instantAt later)) : seconds = later := by
  have hvalid : (instantAt seconds).date.Valid := by
    rw [instantAt_eq]
    exact dateAt_valid _
  have hvalid' : (instantAt later).date.Valid := by
    rw [instantAt_eq]
    exact dateAt_valid _
  obtain ⟨hhour, hminute, hsecond⟩ := instantAt_lt seconds
  obtain ⟨hhour', hminute', hsecond'⟩ := instantAt_lt later
  obtain ⟨a, b, c, hname⟩ := List.length_eq_three.mp
    (length_weekdayName (instantAt seconds).weekday)
  obtain ⟨a', b', c', hname'⟩ := List.length_eq_three.mp
    (length_weekdayName (instantAt later).weekday)
  obtain ⟨d, e, f, hmonth⟩ := List.length_eq_three.mp
    (length_monthName hvalid.one_le_month hvalid.month_le)
  obtain ⟨d', e', f', hmonth'⟩ := List.length_eq_three.mp
    (length_monthName hvalid'.one_le_month hvalid'.month_le)
  have hday : (instantAt seconds).date.day < 100 := lt_of_le_of_lt hvalid.day_le (by decide)
  have hday' : (instantAt later).date.day < 100 := lt_of_le_of_lt hvalid'.day_le (by decide)
  obtain ⟨hdayEq, hmonthEq, hcenturyEq, hofCenturyEq, hhourEq, hminuteEq, hsecondEq⟩ :
      two (instantAt seconds).date.day = two (instantAt later).date.day ∧
      monthName (instantAt seconds).date.month = monthName (instantAt later).date.month ∧
      two ((instantAt seconds).date.year / 100) = two ((instantAt later).date.year / 100) ∧
      two ((instantAt seconds).date.year % 100) = two ((instantAt later).date.year % 100) ∧
      two (instantAt seconds).hour = two (instantAt later).hour ∧
      two (instantAt seconds).minute = two (instantAt later).minute ∧
      two (instantAt seconds).second = two (instantAt later).second := by
    rw [imfFixdate, imfFixdate, hname, hname', hmonth, hmonth'] at h
    rw [hmonth, hmonth']
    simp only [ascii, two, List.map_cons, List.map_nil, List.cons_append, List.nil_append,
      List.cons.injEq] at h ⊢
    tauto
  have hmonthEq := monthName_injective ⟨hvalid.one_le_month, hvalid.month_le⟩
    ⟨hvalid'.one_le_month, hvalid'.month_le⟩ hmonthEq
  have hdayEq := two_injective hday hday' hdayEq
  have hcenturyEq := two_injective (by omega) (by omega) hcenturyEq
  have hofCenturyEq := two_injective (by omega) (by omega) hofCenturyEq
  refine instantAt_injective ?_ (two_injective hhour hhour' hhourEq)
    (two_injective hminute hminute' hminuteEq) (two_injective hsecond hsecond' hsecondEq)
  ext1
  · omega
  · exact hmonthEq
  · exact hdayEq

/-- A second count has no stamp exactly when its year exceeds 9999, else the one of the instant that
a calendar clock shows; nothing overflows, no index lies outside of its table, and no other second
count has the same stamp. -/
theorem fromUnix_calendar (unix : UInt64) :
    (fromUnix unix = .ok none ↔ 9999 < (instantAt unix.toNat).date.year) ∧
      ((instantAt unix.toNat).date.year ≤ 9999 → ∃ stamp, fromUnix unix = .ok (some stamp) ∧
        stamp.bytes = imfFixdate (instantAt unix.toNat)) ∧
      ∀ other stamp, fromUnix unix = .ok (some stamp) → fromUnix other = .ok (some stamp) →
        unix = other := by
  have hcases := fromUnix_cases unix
  by_cases hyear : 9999 < (instantAt unix.toNat).date.year
  · rw [if_pos hyear] at hcases
    refine ⟨iff_of_true hcases hyear, fun h => absurd hyear (by omega), fun other stamp h => ?_⟩
    rw [hcases] at h
    exact absurd h (by simp)
  · rw [if_neg hyear] at hcases
    obtain ⟨stamp, hstamp, hbytes⟩ := hcases
    refine ⟨iff_of_false (by rw [hstamp]; simp) hyear, fun _ => ⟨stamp, hstamp, hbytes⟩, ?_⟩
    intro other same hsame hother
    obtain rfl : stamp = same := by
      rw [hstamp] at hsame
      simpa using hsame
    have hcases := fromUnix_cases other
    split_ifs at hcases with hyear'
    · rw [hcases] at hother
      exact absurd hother (by simp)
    · obtain ⟨stamp', hstamp', hbytes'⟩ := hcases
      obtain rfl : stamp = stamp' := by
        rw [hother] at hstamp'
        simpa using hstamp'
      exact UInt64.toNat_inj.mp (imfFixdate_injective (by omega) (by omega)
        (hbytes.symm.trans hbytes'))

example : (fromUnix 784111777).map (Option.map Stamp.bytes) =
    .ok (some (ascii ['S', 'u', 'n', ',', ' ', '0', '6', ' ', 'N', 'o', 'v', ' ', '1', '9', '9',
      '4', ' ', '0', '8', ':', '4', '9', ':', '3', '7', ' ', 'G', 'M', 'T'])) := by
  decide +kernel

end Sark.Date
