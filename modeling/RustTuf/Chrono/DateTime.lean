import RustTuf.Rust.Str

/-! `chrono::DateTime<Utc>`: a proleptic Gregorian date and a time of day, each a
structure that carries its own validity. Years are left unbounded; chrono bounds them
far outside the four-digit years RFC 3339 can spell, and nothing here reaches that
bound. A time of day is a second of the day and a fraction in nanoseconds, where a
fraction of a second or more marks a leap second. Subtracting a UTC offset of less
than a day moves the date by at most one day, as `NaiveTime::overflowing_add_offset`
does. -/

namespace RustTuf.Chrono

/-- Gregorian leap years. -/
def isLeapYear (y : Int) : Bool := y % 4 == 0 && (y % 100 != 0 || y % 400 == 0)

/-- The number of days in month `m` of year `y`. -/
def daysInMonth (y : Int) : Nat → Nat
  | 2 => if isLeapYear y then 29 else 28
  | 4 | 6 | 9 | 11 => 30
  | _ => 31

theorem le_daysInMonth (y : Int) (m : Nat) : 28 ≤ daysInMonth y m := by
  unfold daysInMonth; split <;> (try split) <;> omega

theorem daysInMonth_le (y : Int) (m : Nat) : daysInMonth y m ≤ 31 := by
  unfold daysInMonth; split <;> (try split) <;> omega

/-- `NaiveDate`: a valid calendar date. -/
structure NaiveDate where
  year : Int
  month : Nat
  day : Nat
  month_valid : 1 ≤ month ∧ month ≤ 12
  day_valid : 1 ≤ day ∧ day ≤ daysInMonth year month
  deriving DecidableEq

namespace NaiveDate

/-- `NaiveDate::from_ymd_opt`. -/
def fromYmd? (year : Int) (month day : Nat) : Option NaiveDate :=
  if h : (1 ≤ month ∧ month ≤ 12) ∧ (1 ≤ day ∧ day ≤ daysInMonth year month) then
    some ⟨year, month, day, h.1, h.2⟩
  else none

theorem fromYmd?_self (d : NaiveDate) : fromYmd? d.year d.month d.day = some d := by
  simp [fromYmd?, d.month_valid, d.day_valid]

/-- The next day. -/
def succ (d : NaiveDate) : NaiveDate :=
  if h : d.day < daysInMonth d.year d.month then
    ⟨d.year, d.month, d.day + 1, d.month_valid, by omega⟩
  else if h' : d.month < 12 then
    ⟨d.year, d.month + 1, 1, by omega, ⟨le_rfl, by have := le_daysInMonth d.year (d.month + 1); omega⟩⟩
  else ⟨d.year + 1, 1, 1, by omega, ⟨le_rfl, by have := le_daysInMonth (d.year + 1) 1; omega⟩⟩

/-- The previous day. -/
def pred (d : NaiveDate) : NaiveDate :=
  if h : 1 < d.day then ⟨d.year, d.month, d.day - 1, d.month_valid, by have := d.day_valid; omega⟩
  else if h' : 1 < d.month then
    ⟨d.year, d.month - 1, daysInMonth d.year (d.month - 1), by have := d.month_valid; omega,
      ⟨by have := le_daysInMonth d.year (d.month - 1); omega, le_rfl⟩⟩
  else ⟨d.year - 1, 12, 31, by omega, ⟨by omega, by simp [daysInMonth]⟩⟩

theorem fromYmd?_year {year : Int} {month day : Nat} {d : NaiveDate}
    (h : fromYmd? year month day = some d) : d.year = year := by
  unfold fromYmd? at h
  split at h
  · cases h
    rfl
  · cases h

/-- The next day is in the same year or the next. -/
theorem year_succ (d : NaiveDate) : d.year ≤ d.succ.year ∧ d.succ.year ≤ d.year + 1 := by
  unfold succ
  split_ifs <;> simp only <;> omega

/-- The previous day is in the same year or the one before. -/
theorem year_pred (d : NaiveDate) : d.year - 1 ≤ d.pred.year ∧ d.pred.year ≤ d.year := by
  unfold pred
  split_ifs <;> simp only <;> omega

end NaiveDate

/-- `NaiveTime`: the second of the day and its fraction in nanoseconds, a fraction of a
second or more being a leap second. -/
structure NaiveTime where
  secs : Nat
  frac : Nat
  secs_lt : secs < 86400
  frac_lt : frac < 2000000000
  deriving DecidableEq

namespace NaiveTime

/-- `NaiveTime::from_hms_nano_opt`: a leap second only at the end of a minute. -/
def fromHmsNano? (hour min sec nano : Nat) : Option NaiveTime :=
  if h : hour < 24 ∧ min < 60 ∧ sec < 60 ∧ nano < 2000000000 ∧ (1000000000 ≤ nano → sec = 59) then
    some ⟨hour * 3600 + min * 60 + sec, nano, by omega, h.2.2.2.1⟩
  else none

def hour (t : NaiveTime) : Nat := t.secs / 3600
def minute (t : NaiveTime) : Nat := t.secs / 60 % 60
def second (t : NaiveTime) : Nat := t.secs % 60
def nanosecond (t : NaiveTime) : Nat := t.frac

theorem hour_lt (t : NaiveTime) : t.hour < 24 := by have := t.secs_lt; simp only [hour]; omega
theorem minute_lt (t : NaiveTime) : t.minute < 60 := by simp only [minute]; omega
theorem second_lt (t : NaiveTime) : t.second < 60 := by simp only [second]; omega

theorem hms_eq (t : NaiveTime) : t.hour * 3600 + t.minute * 60 + t.second = t.secs := by
  simp only [hour, minute, second]; omega

end NaiveTime

/-- `DateTime<Utc>`, held as its UTC date and time of day. -/
structure DateTime where
  date : NaiveDate
  time : NaiveTime
  deriving DecidableEq

namespace DateTime

def year (t : DateTime) : Int := t.date.year
def month (t : DateTime) : Nat := t.date.month
def day (t : DateTime) : Nat := t.date.day
def hour (t : DateTime) : Nat := t.time.hour
def minute (t : DateTime) : Nat := t.time.minute
def second (t : DateTime) : Nat := t.time.second
def nanosecond (t : DateTime) : Nat := t.time.nanosecond

/-- `with_nanosecond(0)`: the instant with its sub-second part, a leap second's extra
second included, dropped. -/
def truncSubsec (t : DateTime) : DateTime :=
  ⟨t.date, ⟨t.time.secs, 0, t.time.secs_lt, by omega⟩⟩

@[simp] theorem truncSubsec_year (t : DateTime) : t.truncSubsec.year = t.year := rfl
@[simp] theorem truncSubsec_month (t : DateTime) : t.truncSubsec.month = t.month := rfl
@[simp] theorem truncSubsec_day (t : DateTime) : t.truncSubsec.day = t.day := rfl
@[simp] theorem truncSubsec_hour (t : DateTime) : t.truncSubsec.hour = t.hour := rfl
@[simp] theorem truncSubsec_minute (t : DateTime) : t.truncSubsec.minute = t.minute := rfl
@[simp] theorem truncSubsec_second (t : DateTime) : t.truncSubsec.second = t.second := rfl

theorem truncSubsec_eq_self {t : DateTime} (h : t.nanosecond = 0) : t.truncSubsec = t := by
  obtain ⟨d, ⟨s, f, hs, hf⟩⟩ := t
  simp only [nanosecond, NaiveTime.nanosecond] at h
  subst h; rfl

/-- The UTC instant of a local date and time at an offset east of UTC of less than a
day: `NaiveDateTime::checked_sub_offset`. -/
def subOffset (date : NaiveDate) (time : NaiveTime) (offset : Int) (h : offset.natAbs < 86400) :
    DateTime :=
  have := time.secs_lt
  if h₁ : (time.secs : Int) - offset < 0 then
    ⟨date.pred, ⟨(time.secs - offset + 86400).toNat, time.frac, by omega, time.frac_lt⟩⟩
  else if h₂ : 86400 ≤ (time.secs : Int) - offset then
    ⟨date.succ, ⟨(time.secs - offset - 86400).toNat, time.frac, by omega, time.frac_lt⟩⟩
  else ⟨date, ⟨(time.secs - offset).toNat, time.frac, by omega, time.frac_lt⟩⟩

theorem subOffset_zero (date : NaiveDate) (time : NaiveTime) : subOffset date time 0 (by decide) = ⟨date, time⟩ := by
  have := time.secs_lt
  simp only [subOffset, Int.sub_zero]
  rw [dif_neg (by omega), dif_neg (by omega)]
  simp

/-- An offset of less than a day moves the date by at most a day, so the year by at
most one. -/
theorem year_subOffset (date : NaiveDate) (time : NaiveTime) (offset : Int)
    (h : offset.natAbs < 86400) :
    date.year - 1 ≤ (subOffset date time offset h).year ∧
      (subOffset date time offset h).year ≤ date.year + 1 := by
  have hp := date.year_pred
  have hs := date.year_succ
  unfold subOffset
  split_ifs <;> simp only [year] <;> omega

end DateTime

end RustTuf.Chrono
