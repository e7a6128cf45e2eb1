import Mathlib.Data.Int.Init
import Mathlib.Tactic.Common
import Mathlib.Tactic.IntervalCases

/-!
# The calendar and the count of seconds

Dates of the Gregorian calendar, extended to all years, and moments of such
dates in UTC.  Both carry the proof that their fields are in range.

A date is numbered by counting years from March, so that the leap day is the
last one of its year: `yearDays` is the number of days before a March, and
`monthDays` the number of days between a March and a later month.  The number
of a date is the one of its March, its month and its day (`days_eq`), and the
order of dates is the order of their numbers (`Date.before_iff`).  From this
the same follows for moments and seconds (`Moment.before_iff`).
-/

namespace Calendar

def IsLeap (year : Int) : Prop :=
  year % 4 = 0 ∧ (year % 100 ≠ 0 ∨ year % 400 = 0)

instance (year : Int) : Decidable (IsLeap year) :=
  inferInstanceAs (Decidable (_ ∧ _))

def daysInMonth (year month : Int) : Int :=
  if month = 2 then (if IsLeap year then 29 else 28)
  else if month = 4 ∨ month = 6 ∨ month = 9 ∨ month = 11 then 30
  else 31

/-- A date of the calendar. -/
structure Date where
  year : Int
  month : Int
  day : Int
  one_le_month : 1 ≤ month
  month_le : month ≤ 12
  one_le_day : 1 ≤ day
  day_le : day ≤ daysInMonth year month

/-- The days from the beginning of 1970 to a date. -/
def daysFromCivil (year month day : Int) : Int :=
  let y := if month ≤ 2 then year - 1 else year
  let dayOfYear :=
    (153 * (if 2 < month then month - 3 else month + 9) + 2) / 5 + day - 1
  let dayOfEra :=
    y % 400 * 365 + y % 400 / 4 - y % 400 / 100 + dayOfYear
  y / 400 * 146097 + dayOfEra - 719468

/-! ### Years from March -/

/-- The days before March of a year. -/
def yearDays (y : Int) : Int :=
  365 * y + y / 4 - y / 100 + y / 400

/-- The days between March and the `m`-th month after it. -/
def monthDays (m : Int) : Int :=
  (153 * m + 2) / 5

theorem yearDays_succ (y : Int) :
    yearDays (y + 1) =
      yearDays y + if IsLeap (y + 1) then 366 else 365 := by
  unfold yearDays IsLeap
  split_ifs <;> omega

theorem yearDays_mono {y y' : Int} (h : y ≤ y') :
    yearDays y ≤ yearDays y' := by
  unfold yearDays
  omega

theorem monthDays_mono {m m' : Int} (h : m ≤ m') :
    monthDays m ≤ monthDays m' := by
  unfold monthDays
  omega

namespace Date

/-- The year that the date's March is in. -/
def marchYear (d : Date) : Int :=
  if d.month ≤ 2 then d.year - 1 else d.year

/-- The months since the date's March. -/
def marchMonth (d : Date) : Int :=
  if 2 < d.month then d.month - 3 else d.month + 9

def days (d : Date) : Int :=
  daysFromCivil d.year d.month d.day

/-- The number of a date by year, month and day from March. -/
theorem days_eq (d : Date) :
    d.days =
      yearDays d.marchYear + monthDays d.marchMonth + d.day - 719469 := by
  simp only [days, daysFromCivil, yearDays, monthDays, marchYear,
    marchMonth]
  generalize (if d.month ≤ 2 then d.year - 1 else d.year) = y
  omega

theorem marchMonth_nonneg (d : Date) : 0 ≤ d.marchMonth := by
  have := d.one_le_month
  unfold marchMonth
  split_ifs <;> omega

/-- A date lies before the next month of its year, which ends with
February. -/
theorem day_le_monthDays (d : Date) (h : d.month ≠ 2) :
    monthDays d.marchMonth + d.day ≤ monthDays (d.marchMonth + 1) := by
  obtain ⟨year, month, day, hone, htwelve, _, hday⟩ := d
  simp only at h
  simp only [marchMonth, monthDays]
  unfold daysInMonth at hday
  interval_cases month <;> simp at h hday ⊢ <;> omega

/-- A date lies before the March after its own. -/
theorem day_le_yearDays (d : Date) :
    yearDays d.marchYear + monthDays d.marchMonth + d.day ≤
      yearDays (d.marchYear + 1) := by
  rw [yearDays_succ]
  by_cases hfeb : d.month = 2
  · have hday := d.day_le
    have hyear : d.marchYear + 1 = d.year := by
      rw [marchYear, if_pos (by omega)]
      omega
    have hmonth : d.marchMonth = 11 := by
      rw [marchMonth, if_neg (by omega)]
      omega
    rw [daysInMonth, if_pos hfeb] at hday
    rw [hyear, hmonth]
    unfold monthDays
    split_ifs at hday ⊢ <;> omega
  · have hnext := d.day_le_monthDays hfeb
    have hlast : monthDays (d.marchMonth + 1) ≤ monthDays 11 := by
      refine monthDays_mono ?_
      have hone := d.one_le_month
      have htwelve := d.month_le
      unfold marchMonth
      split_ifs <;> omega
    have hvalue : monthDays 11 = 337 := by decide
    split_ifs <;> omega

/-! ### The order of dates -/

/-- The order of the calendar. -/
def Before (a b : Date) : Prop :=
  a.year < b.year ∨
    a.year = b.year ∧
      (a.month < b.month ∨ a.month = b.month ∧ a.day < b.day)

/-- The same order, by years from March. -/
theorem Before.march {a b : Date} (h : a.Before b) :
    a.marchYear < b.marchYear ∨
      a.marchYear = b.marchYear ∧
        (a.marchMonth < b.marchMonth ∨
          a.marchMonth = b.marchMonth ∧ a.day < b.day) := by
  have ha := a.one_le_month
  have ha' := a.month_le
  have hb := b.one_le_month
  have hb' := b.month_le
  unfold Before at h
  unfold marchYear marchMonth
  split_ifs <;> omega

theorem Before.days_lt {a b : Date} (h : a.Before b) :
    a.days < b.days := by
  have hyear := a.day_le_yearDays
  have hday := b.one_le_day
  have hmonth : 0 ≤ monthDays b.marchMonth :=
    monthDays_mono b.marchMonth_nonneg
  rw [days_eq, days_eq]
  rcases h.march with hlt | ⟨heq, hlt | ⟨heq', hlt⟩⟩
  · have hnext : yearDays (a.marchYear + 1) ≤ yearDays b.marchYear :=
      yearDays_mono (by omega)
    omega
  · have hfeb : a.month ≠ 2 := by
      intro hfeb
      have hb := b.one_le_month
      have hb' := b.month_le
      unfold marchMonth at hlt
      split_ifs at hlt <;> omega
    have hnext := a.day_le_monthDays hfeb
    have hle : monthDays (a.marchMonth + 1) ≤ monthDays b.marchMonth :=
      monthDays_mono (by omega)
    rw [heq]
    omega
  · rw [heq, heq']
    omega

/-- Different dates are in order one way or the other. -/
theorem before_trichotomy (a b : Date) :
    a.Before b ∨ b.Before a ∨
      (a.year = b.year ∧ a.month = b.month ∧ a.day = b.day) := by
  unfold Before
  omega

/-- **Dates are in the order of their numbers.** -/
theorem before_iff (a b : Date) :
    a.Before b ↔ a.days < b.days := by
  refine ⟨Before.days_lt, fun hlt => ?_⟩
  rcases before_trichotomy a b with h | h | ⟨hyear, hmonth, hday⟩
  · exact h
  · have hgt := h.days_lt
    omega
  · rw [days, days, hyear, hmonth, hday] at hlt
    omega

/-- Only one date has a number. -/
theorem eq_of_days_eq {a b : Date} (h : a.days = b.days) :
    a.year = b.year ∧ a.month = b.month ∧ a.day = b.day := by
  rcases before_trichotomy a b with hab | hba | hsame
  · have hlt := hab.days_lt
    omega
  · have hlt := hba.days_lt
    omega
  · exact hsame

/-- The first day of a year. -/
def firstDay (year : Int) : Date where
  year := year
  month := 1
  day := 1
  one_le_month := by decide
  month_le := by decide
  one_le_day := by decide
  day_le := by
    unfold daysInMonth
    split_ifs <;> omega

/-- A date of some years lies between the first days around them. -/
theorem days_of_years
    (d : Date) {first last : Int} (hfirst : first ≤ d.year)
    (hlast : d.year ≤ last) :
    (firstDay first).days ≤ d.days ∧ d.days < (firstDay (last + 1)).days := by
  constructor
  · rw [← not_lt, ← before_iff]
    have hmonth := d.one_le_month
    have hday := d.one_le_day
    unfold Before firstDay
    simp only
    omega
  · exact (before_iff _ _).mp (Or.inl (by
      change d.year < last + 1
      omega))

end Date

/-! ### Moments -/

/-- A second of a date, in UTC. -/
structure Moment extends Date where
  hour : Int
  minute : Int
  second : Int
  hour_nonneg : 0 ≤ hour
  hour_lt : hour < 24
  minute_nonneg : 0 ≤ minute
  minute_lt : minute < 60
  second_nonneg : 0 ≤ second
  second_lt : second < 60

namespace Moment

/-- The seconds from the beginning of 1970. -/
def seconds (t : Moment) : Int :=
  ((t.days * 24 + t.hour) * 60 + t.minute) * 60 + t.second

/-- The order of the calendar and the clock. -/
def Earlier (a b : Moment) : Prop :=
  a.toDate.Before b.toDate ∨
    (a.year = b.year ∧ a.month = b.month ∧ a.day = b.day) ∧
      (a.hour < b.hour ∨
        a.hour = b.hour ∧
          (a.minute < b.minute ∨
            a.minute = b.minute ∧ a.second < b.second))

/-- **Moments are in the order of their seconds.** -/
theorem earlier_iff (a b : Moment) :
    a.Earlier b ↔ a.seconds < b.seconds := by
  obtain ⟨da, ha, ma, sa, ha0, ha1, ma0, ma1, sa0, sa1⟩ := a
  obtain ⟨db, hb, mb, sb, hb0, hb1, mb0, mb1, sb0, sb1⟩ := b
  have hsame : (da.year = db.year ∧ da.month = db.month ∧
      da.day = db.day) ↔ da.days = db.days := by
    constructor
    · rintro ⟨hyear, hmonth, hday⟩
      rw [Date.days, Date.days, hyear, hmonth, hday]
    · exact Date.eq_of_days_eq
  simp only [Earlier, seconds]
  rw [Date.before_iff, hsame]
  constructor
  · rintro (h | ⟨h, h' | ⟨h', h'' | ⟨h'', h'''⟩⟩⟩) <;> omega
  · intro h
    by_cases hd : da.days < db.days
    · exact Or.inl hd
    · refine Or.inr ⟨by omega, ?_⟩
      omega

end Moment

/-- The leap day of 2000 and the day after it. -/
example : daysFromCivil 2000 2 29 + 1 = daysFromCivil 2000 3 1 := by
  decide

end Calendar
