import Mathlib.Tactic

/-!
# The proleptic Gregorian calendar

Dates and clock readings as a person counts them: a clock ticks from second to second, a day follows
a day, and a leap year has a 29th of February. An instant is what the clock shows after a number of
ticks from the beginning of 1970, a Thursday.

* `dateAt_eq`: the date of a day, from the year that begins in March and the day of that year.
* `instantAt_eq`: what the clock shows, from the day and the second of the day.
* `instantAt_injective`: two different instants show different dates or times.
-/

namespace Gregorian

/-! ## Days -/

/-- Every fourth year is a leap year, of the full centuries every fourth one. -/
def Leap (year : ℕ) : Prop :=
  year % 4 = 0 ∧ (year % 100 ≠ 0 ∨ year % 400 = 0)

instance (year : ℕ) : Decidable (Leap year) := by
  unfold Leap
  infer_instance

/-- The number of days of a month, of February with or without the leap day. -/
def monthLength (leap : Bool) (month : ℕ) : ℕ :=
  if month = 2 then if leap then 29 else 28
  else if month = 4 ∨ month = 6 ∨ month = 9 ∨ month = 11 then 30
  else 31

/-- A date. Months and days are counted from one. -/
@[ext]
structure Date where
  year : ℕ
  month : ℕ
  day : ℕ
  deriving DecidableEq, Repr

/-- The date of the next day, in a year with or without the leap day. -/
def Date.nextIn (leap : Bool) (date : Date) : Date :=
  if date.day < monthLength leap date.month then { date with day := date.day + 1 }
  else if date.month < 12 then ⟨date.year, date.month + 1, 1⟩
  else ⟨date.year + 1, 1, 1⟩

/-- The date of the next day. -/
def Date.next (date : Date) : Date :=
  date.nextIn (Leap date.year)

/-- The date of a day, counted from the first of January 1970. -/
def dateAt : ℕ → Date
  | 0 => ⟨1970, 1, 1⟩
  | day + 1 => (dateAt day).next

/-- The days of the week. -/
inductive Weekday
  | monday
  | tuesday
  | wednesday
  | thursday
  | friday
  | saturday
  | sunday
  deriving DecidableEq, Repr

/-- The next day of the week. -/
def Weekday.next : Weekday → Weekday
  | monday => tuesday
  | tuesday => wednesday
  | wednesday => thursday
  | thursday => friday
  | friday => saturday
  | saturday => sunday
  | sunday => monday

/-- The day of the week of a day, counted from the first of January 1970. -/
def weekdayAt : ℕ → Weekday
  | 0 => .thursday
  | day + 1 => (weekdayAt day).next

theorem weekdayAt_add_seven (day : ℕ) : weekdayAt (day + 7) = weekdayAt day := by
  show (weekdayAt day).next.next.next.next.next.next.next = weekdayAt day
  generalize weekdayAt day = weekday
  cases weekday <;> rfl

theorem weekdayAt_mod (day : ℕ) : weekdayAt (day % 7) = weekdayAt day := by
  induction day using Nat.strong_induction_on with
  | _ day ih =>
    rcases Nat.lt_or_ge day 7 with h | h
    · rw [Nat.mod_eq_of_lt h]
    · obtain ⟨before, rfl⟩ := Nat.exists_eq_add_of_le' h
      rw [Nat.add_mod_right, weekdayAt_add_seven, ih before (by omega)]

/-! ## Seconds -/

/-- What a calendar clock shows. -/
@[ext]
structure Instant where
  weekday : Weekday
  date : Date
  hour : ℕ
  minute : ℕ
  second : ℕ
  deriving DecidableEq, Repr

/-- The clock ticks. -/
def Instant.tick (instant : Instant) : Instant :=
  if instant.second < 59 then { instant with second := instant.second + 1 }
  else if instant.minute < 59 then { instant with minute := instant.minute + 1, second := 0 }
  else if instant.hour < 23 then { instant with hour := instant.hour + 1, minute := 0, second := 0 }
  else ⟨instant.weekday.next, instant.date.next, 0, 0, 0⟩

/-- What the clock shows after a number of ticks from the beginning of 1970. -/
def instantAt : ℕ → Instant
  | 0 => ⟨.thursday, ⟨1970, 1, 1⟩, 0, 0, 0⟩
  | seconds + 1 => (instantAt seconds).tick

/-- What the clock shows, from the day and the second of the day. -/
theorem instantAt_eq (seconds : ℕ) : instantAt seconds =
    ⟨weekdayAt (seconds / 86400), dateAt (seconds / 86400), seconds % 86400 / 3600,
      seconds % 86400 % 3600 / 60, seconds % 86400 % 60⟩ := by
  induction seconds with
  | zero => rfl
  | succ seconds ih =>
    rw [instantAt, ih, Instant.tick]
    simp only
    by_cases hsecond : seconds % 86400 % 60 < 59
    · rw [if_pos hsecond]
      rw [show (seconds + 1) / 86400 = seconds / 86400 by omega]
      ext1 <;> simp only <;> omega
    rw [if_neg hsecond]
    by_cases hminute : seconds % 86400 % 3600 / 60 < 59
    · rw [if_pos hminute]
      rw [show (seconds + 1) / 86400 = seconds / 86400 by omega]
      ext1 <;> simp only <;> omega
    rw [if_neg hminute]
    by_cases hhour : seconds % 86400 / 3600 < 23
    · rw [if_pos hhour]
      rw [show (seconds + 1) / 86400 = seconds / 86400 by omega]
      ext1 <;> simp only <;> omega
    · rw [if_neg hhour]
      rw [show (seconds + 1) / 86400 = seconds / 86400 + 1 by omega, weekdayAt, dateAt]
      ext1 <;> simp only <;> omega

/-! ## Order -/

/-- The fields of a date are in range. -/
structure Date.Valid (date : Date) : Prop where
  one_le_month : 1 ≤ date.month
  month_le : date.month ≤ 12
  one_le_day : 1 ≤ date.day
  day_le : date.day ≤ 31

theorem monthLength_le (leap : Bool) (month : ℕ) : monthLength leap month ≤ 31 := by
  rw [monthLength]
  split_ifs <;> omega

theorem Date.Valid.next {date : Date} (h : date.Valid) : date.next.Valid := by
  have hlength := monthLength_le (Leap date.year) date.month
  have hmonth := h.one_le_month
  rw [Date.next, Date.nextIn]
  split_ifs
  · exact ⟨h.one_le_month, h.month_le, by simp, by simp only; omega⟩
  · exact ⟨by simp, by simp only; omega, le_rfl, by simp⟩
  · exact ⟨le_rfl, by simp, le_rfl, by simp⟩

theorem dateAt_valid (day : ℕ) : (dateAt day).Valid := by
  induction day with
  | zero => exact ⟨le_rfl, by decide, le_rfl, by decide⟩
  | succ day ih => exact ih.next

/-- A number that grows from date to date. -/
def Date.rank (date : Date) : ℕ :=
  (date.year * 12 + date.month) * 31 + date.day

theorem Date.Valid.rank_next {date : Date} (h : date.Valid) : date.rank < date.next.rank := by
  have hmonth := h.month_le
  have hone := h.one_le_month
  have hday := h.day_le
  rw [Date.rank, Date.rank, Date.next, Date.nextIn]
  split_ifs <;> simp only <;> omega

theorem dateAt_rank_strictMono : StrictMono fun day => (dateAt day).rank :=
  strictMono_nat_of_lt_succ fun day => (dateAt_valid day).rank_next

theorem dateAt_injective : Function.Injective dateAt := by
  intro day later h
  exact dateAt_rank_strictMono.injective (congrArg Date.rank h)

/-- Two different instants differ in their dates or in their times. -/
theorem instantAt_injective {seconds later : ℕ}
    (hdate : (instantAt seconds).date = (instantAt later).date)
    (hhour : (instantAt seconds).hour = (instantAt later).hour)
    (hminute : (instantAt seconds).minute = (instantAt later).minute)
    (hsecond : (instantAt seconds).second = (instantAt later).second) : seconds = later := by
  rw [instantAt_eq, instantAt_eq] at hdate hhour hminute hsecond
  simp only at hdate hhour hminute hsecond
  have hday := dateAt_injective hdate
  omega

/-! ## Years that begin in March -/

/-- The number of days from the first of March of the year 0 to that of another year. -/
def marchStart (year : ℕ) : ℕ :=
  365 * year + year / 4 - year / 100 + year / 400

theorem marchStart_succ (year : ℕ) :
    marchStart (year + 1) = marchStart year + if Leap (year + 1) then 366 else 365 := by
  have hle : year / 100 ≤ 365 * year := by omega
  have hle' : (year + 1) / 100 ≤ 365 * (year + 1) := by omega
  rw [marchStart, marchStart]
  by_cases hfour : (year + 1) % 4 = 0
  · have hquarter : (year + 1) / 4 = year / 4 + 1 := by omega
    by_cases hhundred : (year + 1) % 100 = 0
    · have hcentury : (year + 1) / 100 = year / 100 + 1 := by omega
      by_cases hera : (year + 1) % 400 = 0
      · rw [if_pos ⟨hfour, .inr hera⟩, hquarter, hcentury,
          show (year + 1) / 400 = year / 400 + 1 by omega]
        omega
      · rw [if_neg fun h => h.2.elim (absurd hhundred) hera, hquarter, hcentury,
          show (year + 1) / 400 = year / 400 by omega]
        omega
    · rw [if_pos ⟨hfour, .inl hhundred⟩, hquarter,
        show (year + 1) / 100 = year / 100 by omega, show (year + 1) / 400 = year / 400 by omega]
      omega
  · rw [if_neg fun h => hfour h.1, show (year + 1) / 4 = year / 4 by omega,
      show (year + 1) / 100 = year / 100 by omega, show (year + 1) / 400 = year / 400 by omega]
    omega

/-- The date of a day of a year that begins in March. From March on, five months have 153 days. -/
def ofMarch (year day : ℕ) : Date where
  year := if (5 * day + 2) / 153 < 10 then year else year + 1
  month := if (5 * day + 2) / 153 < 10 then (5 * day + 2) / 153 + 3 else (5 * day + 2) / 153 - 9
  day := day - (153 * ((5 * day + 2) / 153) + 2) / 5 + 1

theorem ofMarch_eq (year day : ℕ) :
    ofMarch year day = { ofMarch 0 day with year := year + (ofMarch 0 day).year } := by
  ext1 <;> simp only [ofMarch]
  split_ifs <;> omega

theorem ofMarch_zero_succ : ∀ leap : Bool, ∀ day < 365, day + 1 < (if leap then 366 else 365) →
    (ofMarch 0 day).nextIn leap = ofMarch 0 (day + 1) := by
  decide +kernel

theorem Date.nextIn_eq {date : Date} (h : date.month ≠ 2) (leap other : Bool) :
    date.nextIn leap = date.nextIn other := by
  rw [Date.nextIn, Date.nextIn, monthLength, monthLength, if_neg h, if_neg h]

theorem nextIn_addYear (date : Date) (leap : Bool) (year : ℕ) :
    ({ date with year := year + date.year } : Date).nextIn leap =
      { date.nextIn leap with year := year + (date.nextIn leap).year } := by
  rw [Date.nextIn, Date.nextIn]
  split_ifs <;> rfl

theorem year_ofMarch {year day : ℕ} (h : (ofMarch year day).month = 2) :
    (ofMarch year day).year = year + 1 := by
  simp only [ofMarch] at h ⊢
  split_ifs at h ⊢ <;> omega

theorem next_ofMarch (year day : ℕ) :
    (ofMarch year day).next = (ofMarch year day).nextIn (Leap (year + 1)) := by
  rw [Date.next]
  by_cases h : (ofMarch year day).month = 2
  · rw [year_ofMarch h]
  · exact Date.nextIn_eq h _ _

theorem next_ofMarch_of_lt {year day : ℕ}
    (h : day + 1 < if Leap (year + 1) then 366 else 365) :
    (ofMarch year day).next = ofMarch year (day + 1) := by
  have hday : day < 365 := by
    split_ifs at h <;> omega
  rw [next_ofMarch, ofMarch_eq, ofMarch_eq year (day + 1), nextIn_addYear,
    ofMarch_zero_succ _ day hday (by simpa using h)]

theorem next_ofMarch_last {year day : ℕ}
    (h : day + 1 = if Leap (year + 1) then 366 else 365) :
    (ofMarch year day).next = ofMarch (year + 1) 0 := by
  rw [next_ofMarch]
  by_cases hleap : Leap (year + 1)
  · rw [if_pos hleap] at h
    obtain rfl : day = 365 := by omega
    simp [hleap, Date.nextIn, ofMarch, monthLength]
  · rw [if_neg hleap] at h
    obtain rfl : day = 364 := by omega
    simp [hleap, Date.nextIn, ofMarch, monthLength]

/-- The years that begin in March and their days give the date of every day. The first of January
1970 comes 719468 days after the first of March of the year 0. -/
theorem dateAt_eq {day year yearDay : ℕ} (h : day + 719468 = marchStart year + yearDay)
    (hlt : yearDay < if Leap (year + 1) then 366 else 365) :
    dateAt day = ofMarch year yearDay := by
  induction day generalizing year yearDay with
  | zero =>
    have hyear : year = 1969 := by
      have hle : year / 100 ≤ 365 * year := by omega
      rw [marchStart] at h
      split_ifs at hlt <;> omega
    subst hyear
    obtain rfl : yearDay = 306 := by
      have : marchStart 1969 = 719162 := by decide
      omega
    decide
  | succ day ih =>
    rw [dateAt]
    rcases yearDay with _ | yearDay
    · -- the day before is the last one of the year before
      rcases year with _ | year
      · have : marchStart 0 = 0 := rfl
        omega
      · have hstart := marchStart_succ year
        have hlast : 0 < if Leap (year + 1) then 366 else 365 := by
          split_ifs <;> omega
        rw [@ih year ((if Leap (year + 1) then 366 else 365) - 1) (by omega) (by omega)]
        exact next_ofMarch_last (by omega)
    · rw [@ih year yearDay (by omega) (by omega)]
      exact next_ofMarch_of_lt hlt

end Gregorian
