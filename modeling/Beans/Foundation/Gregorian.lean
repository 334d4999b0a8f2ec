import Mathlib

/-!
# The proleptic Gregorian calendar

Dates are numbered by counting days.  The number of a date is the number of
days in the years before it, in the months before it and in the month itself,
so the calendar's own rule for the length of a month makes the number of the
next date the next number, and the numbers are in the order of the dates.
-/

namespace Beans
namespace Gregorian

/-- The years with a 29th of February. -/
def Leap (y : ℤ) : Prop :=
  y % 4 = 0 ∧ (y % 100 ≠ 0 ∨ y % 400 = 0)

instance (y : ℤ) : Decidable (Leap y) :=
  inferInstanceAs (Decidable (_ ∧ _))

def monthLength (y m : ℤ) : ℤ :=
  if m = 2 then if Leap y then 29 else 28
  else if m = 4 ∨ m = 6 ∨ m = 9 ∨ m = 11 then 30
  else 31

def yearLength (y : ℤ) : ℤ :=
  if Leap y then 366 else 365

/-- A date of the calendar. -/
@[ext]
structure Date where
  year : ℤ
  month : ℤ
  day : ℤ
  one_le_month : 1 ≤ month
  month_le : month ≤ 12
  one_le_day : 1 ≤ day
  day_le : day ≤ monthLength year month

/-- The order of dates: by year, then by month, then by day. -/
def Date.Before (a b : Date) : Prop :=
  a.year < b.year ∨
    (a.year = b.year ∧
      (a.month < b.month ∨ (a.month = b.month ∧ a.day < b.day)))

/-- Days from 0001-01-01 to the first day of a year. -/
def daysBeforeYear (y : ℤ) : ℤ :=
  365 * (y - 1) + (y - 1) / 4 - (y - 1) / 100 + (y - 1) / 400

/-- Days from the first day of a year to the first day of a month. -/
def daysBeforeMonth (y m : ℤ) : ℤ :=
  if m ≤ 2 then 31 * (m - 1)
  else (153 * (m - 3) + 2) / 5 + 59 + if Leap y then 1 else 0

def monthStart (y m : ℤ) : ℤ :=
  daysBeforeYear y + daysBeforeMonth y m

/-- Days from 1970-01-01, which is day 719162 counted from 0001-01-01. -/
def dayNumber (y m d : ℤ) : ℤ :=
  monthStart y m + d - 1 - 719162

def Date.number (a : Date) : ℤ :=
  dayNumber a.year a.month a.day

theorem monthLength_pos (y m : ℤ) : 28 ≤ monthLength y m := by
  unfold monthLength
  split_ifs <;> decide

theorem monthLength_le (y m : ℤ) : monthLength y m ≤ 31 := by
  unfold monthLength
  split_ifs <;> decide

theorem daysBeforeMonth_succ (y m : ℤ) (h₁ : 1 ≤ m) (h₂ : m ≤ 11) :
    daysBeforeMonth y (m + 1) = daysBeforeMonth y m + monthLength y m := by
  unfold daysBeforeMonth monthLength
  by_cases hl : Leap y <;> interval_cases m <;> simp [hl]

theorem daysBeforeMonth_december (y : ℤ) :
    daysBeforeMonth y 12 + monthLength y 12 = yearLength y := by
  unfold daysBeforeMonth monthLength yearLength
  by_cases hl : Leap y <;> simp [hl]

theorem daysBeforeYear_succ (y : ℤ) :
    daysBeforeYear (y + 1) = daysBeforeYear y + yearLength y := by
  unfold daysBeforeYear yearLength Leap
  split_ifs <;> omega

theorem yearLength_pos (y : ℤ) : 0 < yearLength y := by
  unfold yearLength
  split_ifs <;> decide

variable {m m' n y y' : ℤ}

theorem daysBeforeYear_mono (h : y ≤ y') :
    daysBeforeYear y ≤ daysBeforeYear y' := by
  induction y', h using Int.leInduction with
  | base => exact le_refl _
  | succ n hn ih =>
    rw [daysBeforeYear_succ]
    have := yearLength_pos n
    omega

theorem daysBeforeMonth_mono (y : ℤ) (h₁ : 1 ≤ m) (h : m ≤ m') (h₂ : m' ≤ 12) :
    daysBeforeMonth y m ≤ daysBeforeMonth y m' := by
  induction m', h using Int.leInduction with
  | base => exact le_refl _
  | succ n hn ih =>
    rw [daysBeforeMonth_succ y n (by omega) (by omega)]
    have := monthLength_pos y n
    have := ih (by omega)
    omega

/-- A month ends inside its year. -/
theorem daysBeforeMonth_add_monthLength_le (y : ℤ) (h₁ : 1 ≤ m) (h₂ : m ≤ 12) :
    daysBeforeMonth y m + monthLength y m ≤ yearLength y := by
  rw [← daysBeforeMonth_december y]
  rcases Int.lt_or_eq_of_le h₂ with hlt | rfl
  · have hnext := daysBeforeMonth_mono y (by omega)
      (show m + 1 ≤ 12 by omega) (le_refl 12)
    rw [daysBeforeMonth_succ y m h₁ (by omega)] at hnext
    have := monthLength_pos y 12
    omega
  · exact le_refl _

theorem daysBeforeMonth_nonneg (y : ℤ) (h₁ : 1 ≤ m) (h₂ : m ≤ 12) :
    0 ≤ daysBeforeMonth y m :=
  daysBeforeMonth_mono y (le_refl 1) h₁ h₂

/-- A month ends before a later one starts. -/
theorem monthStart_add_monthLength_le (h₁ : 1 ≤ m) (h₂ : m ≤ 12) (h₁' : 1 ≤ m') (h₂' : m' ≤ 12)
    (h : y < y' ∨ (y = y' ∧ m < m')) :
    monthStart y m + monthLength y m ≤ monthStart y' m' := by
  unfold monthStart
  rcases h with hy | ⟨rfl, hm⟩
  · have hend := daysBeforeMonth_add_monthLength_le y h₁ h₂
    have hyear := daysBeforeYear_mono (show y + 1 ≤ y' by omega)
    rw [daysBeforeYear_succ] at hyear
    have hstart := daysBeforeMonth_nonneg y' h₁' h₂'
    omega
  · have hnext := daysBeforeMonth_mono y (show 1 ≤ m + 1 by omega)
      (show m + 1 ≤ m' by omega) h₂'
    rw [daysBeforeMonth_succ y m h₁ (by omega)] at hnext
    omega

/-- Days from 0000-03-01 to the first of March of a year. -/
def marchDays (s : ℤ) : ℤ :=
  365 * s + s / 4 - s / 100 + s / 400

/-- The day number read off the year and month counted from March. -/
theorem dayNumber_of_march (y m d : ℤ) (h₁ : 1 ≤ m) (h₂ : m ≤ 12) :
    dayNumber y m d =
      marchDays (if m ≤ 2 then y - 1 else y) +
        (153 * (if m ≤ 2 then m + 9 else m - 3) + 2) / 5 + d - 1 - 719468 := by
  unfold dayNumber monthStart daysBeforeYear daysBeforeMonth marchDays Leap
  split_ifs <;> omega

/-- Days before a year of the cycle, whose last year alone is a century that
is a leap year. -/
theorem marchDays_of_cycle {r : ℤ} (h₁ : 0 ≤ r) (h₂ : r < 400) :
    marchDays r = 365 * r + r / 4 - r / 100 := by
  unfold marchDays
  omega

/-- A cycle of 400 years has 146097 days. -/
theorem marchDays_cycle (e r : ℤ) :
    marchDays (400 * e + r) = 146097 * e + marchDays r := by
  unfold marchDays
  omega

theorem Date.number_lt {a b : Date} (h : a.Before b) :
    a.number < b.number := by
  have hmonth :
      (a.year < b.year ∨ (a.year = b.year ∧ a.month < b.month)) →
        a.number < b.number := by
    intro hlt
    have hstart := monthStart_add_monthLength_le a.one_le_month a.month_le
      b.one_le_month b.month_le hlt
    have hday := a.day_le
    have hday' := b.one_le_day
    unfold Date.number dayNumber
    omega
  rcases h with hy | ⟨hy, hm | ⟨hm, hd⟩⟩
  · exact hmonth (Or.inl hy)
  · exact hmonth (Or.inr ⟨hy, hm⟩)
  · unfold Date.number dayNumber
    rw [hy, hm]
    omega

/-- A number is at most a year's days away from the start of its year. -/
theorem Date.number_bounds (a : Date) :
    daysBeforeYear a.year - 719162 ≤ a.number ∧
      a.number ≤ daysBeforeYear a.year - 719162 + 365 := by
  have hstart := daysBeforeMonth_nonneg a.year a.one_le_month a.month_le
  have hend := daysBeforeMonth_add_monthLength_le a.year a.one_le_month
    a.month_le
  have hyear : yearLength a.year ≤ 366 := by
    unfold yearLength
    split_ifs <;> decide
  have hd₁ := a.one_le_day
  have hd₂ := a.day_le
  unfold Date.number dayNumber monthStart
  omega

theorem Date.trichotomy (a b : Date) :
    a.Before b ∨ a = b ∨ b.Before a := by
  have hext : a.year = b.year → a.month = b.month → a.day = b.day →
      a = b := Date.ext
  unfold Date.Before
  rcases lt_trichotomy a.year b.year with hy | hy | hy
  · exact Or.inl (Or.inl hy)
  · rcases lt_trichotomy a.month b.month with hm | hm | hm
    · exact Or.inl (Or.inr ⟨hy, Or.inl hm⟩)
    · rcases lt_trichotomy a.day b.day with hd | hd | hd
      · exact Or.inl (Or.inr ⟨hy, Or.inr ⟨hm, hd⟩⟩)
      · exact Or.inr (Or.inl (hext hy hm hd))
      · exact Or.inr (Or.inr (Or.inr ⟨hy.symm, Or.inr ⟨hm.symm, hd⟩⟩))
    · exact Or.inr (Or.inr (Or.inr ⟨hy.symm, Or.inl hm⟩))
  · exact Or.inr (Or.inr (Or.inl hy))

/-- Two dates with one number are the same date. -/
theorem Date.number_injective : Function.Injective Date.number := by
  intro a b h
  rcases a.trichotomy b with hlt | heq | hlt
  · exact absurd h (ne_of_lt (Date.number_lt hlt))
  · exact heq
  · exact absurd h.symm (ne_of_lt (Date.number_lt hlt))

/-- The date after a date. -/
def Date.next (a : Date) : Date :=
  if hday : a.day < monthLength a.year a.month then
    { a with
      day := a.day + 1
      one_le_day := by have := a.one_le_day; omega
      day_le := by omega }
  else if hmonth : a.month < 12 then
    { year := a.year
      month := a.month + 1
      day := 1
      one_le_month := by have := a.one_le_month; omega
      month_le := by omega
      one_le_day := le_refl 1
      day_le := by have := monthLength_pos a.year (a.month + 1); omega }
  else
    { year := a.year + 1
      month := 1
      day := 1
      one_le_month := le_refl 1
      month_le := by decide
      one_le_day := le_refl 1
      day_le := by have := monthLength_pos (a.year + 1) 1; omega }

theorem Date.number_next (a : Date) : a.next.number = a.number + 1 := by
  have hle := a.day_le
  have hmle := a.month_le
  unfold Date.next
  split_ifs with hday hmonth
  · unfold Date.number dayNumber
    dsimp only
    omega
  · unfold Date.number dayNumber monthStart
    dsimp only
    rw [daysBeforeMonth_succ _ _ a.one_le_month (by omega)]
    omega
  · have hdec : a.month = 12 := by omega
    have hyear := daysBeforeMonth_december a.year
    have hfirst : daysBeforeMonth (a.year + 1) 1 = 0 := rfl
    unfold Date.number dayNumber monthStart
    dsimp only
    rw [daysBeforeYear_succ, hfirst, hdec, ← hyear]
    rw [hdec] at hday hle
    omega

theorem Date.next_year (a : Date) :
    a.year ≤ a.next.year ∧ a.next.year ≤ a.year + 1 := by
  unfold Date.next
  split_ifs
  · exact ⟨le_refl _, Int.le_of_lt (Int.lt_succ _)⟩
  · exact ⟨le_refl _, Int.le_of_lt (Int.lt_succ _)⟩
  · exact ⟨Int.le_of_lt (Int.lt_succ _), le_refl _⟩

/-- The year, counted from March, that holds a day of a 400-year cycle. -/
def yearOfCycle (n : ℤ) : ℤ :=
  (n - n / 1460 + n / 36524 - n / 146096) / 365

/-- Years of a cycle counted by its centuries and their leap years. -/
theorem marchDays_split {b q : ℤ} (hb : 0 ≤ b ∧ b ≤ 3) (hq : 0 ≤ q ∧ q ≤ 24)
    (hy : 0 ≤ y ∧ y ≤ 3) :
    marchDays (100 * b + 4 * q + y) = 36524 * b + 1461 * q + 365 * y := by
  unfold marchDays
  omega

/-- A day of the cycle is a day of one century, one four years of it and one
year of these. -/
theorem yearOfCycle_spec (h₁ : 0 ≤ n) (h₂ : n ≤ 146096) :
    0 ≤ yearOfCycle n ∧ yearOfCycle n ≤ 399 ∧
      marchDays (yearOfCycle n) ≤ n ∧
      n ≤ marchDays (yearOfCycle n) + 365 ∧
      (n = marchDays (yearOfCycle n) + 365 → Leap (yearOfCycle n + 1)) := by
  rcases Int.lt_or_eq_of_le h₂ with hlt | rfl
  · obtain ⟨b, hb⟩ : ∃ b, b = n / 36524 := ⟨_, rfl⟩
    obtain ⟨q, hq⟩ : ∃ q, q = n % 36524 / 1461 := ⟨_, rfl⟩
    obtain ⟨t, ht⟩ : ∃ t, t = n % 36524 % 1461 := ⟨_, rfl⟩
    have hn : n = 36524 * b + 1461 * q + t := by omega
    have hb' : 0 ≤ b ∧ b ≤ 3 := by omega
    have hq' : 0 ≤ q ∧ q ≤ 24 := by omega
    have ht' : 0 ≤ t ∧ t ≤ 1460 := by omega
    have hlast : q = 24 → t ≤ 1459 := by omega
    obtain ⟨r, hr⟩ : ∃ r, r = (24 * b + q + t) / 1460 := ⟨_, rfl⟩
    have hskip : n / 1460 = 25 * b + q + r := by omega
    obtain ⟨y, hy⟩ : ∃ y, y = (t - r) / 365 := ⟨_, rfl⟩
    have hyear : 365 * y ≤ t ∧ t ≤ 365 * y + 364 + (if y = 3 then 1 else 0) ∧
        0 ≤ y ∧ y ≤ 3 := by
      split_ifs <;> omega
    have hfound : yearOfCycle n = 100 * b + 4 * q + y := by
      unfold yearOfCycle
      omega
    have hbefore := marchDays_split hb' hq' hyear.2.2
    rw [hfound, hbefore, hn]
    clear hfound hbefore hskip hy hr hb hq ht hn
    refine ⟨by omega, by omega, by omega, ?_, ?_⟩
    · split_ifs at hyear <;> omega
    · intro hend
      have hy3 : y = 3 := by
        split_ifs at hyear <;> omega
      exact ⟨by omega, Or.inl (by omega)⟩
  · exact ⟨by decide, by decide, by decide, by decide, fun _ => by decide⟩

/-- The month, counted from March, that holds a day of the year. -/
def monthOfYear (doy : ℤ) : ℤ :=
  (5 * doy + 2) / 153

def calendarMonth (k : ℤ) : ℤ :=
  if k < 10 then k + 3 else k - 9

/-- The day of the month is one the month has. -/
theorem day_le_of_march {s doy : ℤ} (h₁ : 0 ≤ doy) (h₂ : doy ≤ 365)
    (hleap : doy = 365 → Leap (s + 1)) :
    doy - (153 * monthOfYear doy + 2) / 5 + 1 ≤
      monthLength (if calendarMonth (monthOfYear doy) ≤ 2 then s + 1 else s)
        (calendarMonth (monthOfYear doy)) := by
  obtain ⟨k, hk⟩ : ∃ k, k = monthOfYear doy := ⟨_, rfl⟩
  have hlow : 153 * k ≤ 5 * doy + 2 := by
    rw [hk, monthOfYear]
    omega
  have hhigh : 5 * doy + 2 < 153 * k + 153 := by
    rw [hk, monthOfYear]
    omega
  have hk₁ : 0 ≤ k := by omega
  have hk₂ : k ≤ 11 := by omega
  rw [← hk]
  rcases Int.lt_or_eq_of_le h₂ with hlt | heq
  · interval_cases k <;> simp [calendarMonth, monthLength] <;> omega
  · have hk11 : k = 11 := by omega
    rw [hk11, heq]
    simp [calendarMonth, monthLength, hleap heq]

/-- The date on a day of the year that starts in March of year `s`. -/
def ofMarch
    (s doy : ℤ)
    (h₁ : 0 ≤ doy)
    (h₂ : doy ≤ 365)
    (hleap : doy = 365 → Leap (s + 1)) : Date where
  year := if calendarMonth (monthOfYear doy) ≤ 2 then s + 1 else s
  month := calendarMonth (monthOfYear doy)
  day := doy - (153 * monthOfYear doy + 2) / 5 + 1
  one_le_month := by
    unfold calendarMonth monthOfYear
    split_ifs <;> omega
  month_le := by
    unfold calendarMonth monthOfYear
    split_ifs <;> omega
  one_le_day := by
    unfold monthOfYear
    omega
  day_le := day_le_of_march h₁ h₂ hleap

theorem ofMarch_number (s doy : ℤ) (h₁ : 0 ≤ doy) (h₂ : doy ≤ 365)
    (hleap : doy = 365 → Leap (s + 1)) :
    (ofMarch s doy h₁ h₂ hleap).number = marchDays s + doy - 719468 := by
  have hk : 0 ≤ monthOfYear doy ∧ monthOfYear doy ≤ 11 := by
    unfold monthOfYear
    omega
  have hyear : (ofMarch s doy h₁ h₂ hleap).year =
      if calendarMonth (monthOfYear doy) ≤ 2 then s + 1 else s := rfl
  have hmonth : (ofMarch s doy h₁ h₂ hleap).month =
      calendarMonth (monthOfYear doy) := rfl
  have hday : (ofMarch s doy h₁ h₂ hleap).day =
      doy - (153 * monthOfYear doy + 2) / 5 + 1 := rfl
  unfold Date.number
  rw [dayNumber_of_march _ _ _ (ofMarch s doy h₁ h₂ hleap).one_le_month
    (ofMarch s doy h₁ h₂ hleap).month_le, hyear, hmonth, hday]
  unfold calendarMonth
  by_cases h : monthOfYear doy < 10
  · rw [if_pos h]
    rw [if_neg (by omega), if_neg (by omega), if_neg (by omega)]
    omega
  · rw [if_neg h]
    rw [if_pos (by omega), if_pos (by omega), if_pos (by omega),
      add_sub_cancel_right]
    omega

/-- The date that has a number. -/
def ofNumber (n : ℤ) : Date :=
  let era := (n + 719468) / 146097
  let dayOfEra := (n + 719468) % 146097
  have hspec := yearOfCycle_spec (n := dayOfEra) (by omega) (by omega)
  ofMarch (400 * era + yearOfCycle dayOfEra)
    (dayOfEra - marchDays (yearOfCycle dayOfEra)) (by omega) (by omega)
    (fun h => by
      have := hspec.2.2.2.2 (by omega)
      unfold Leap at this ⊢
      omega)

@[simp] theorem ofNumber_number (n : ℤ) : (ofNumber n).number = n := by
  unfold ofNumber
  dsimp only
  rw [ofMarch_number, marchDays_cycle]
  omega

/-- The fields of the date, with the day split into its cycle and its day. -/
theorem ofNumber_fields {e w : ℤ} (he : (n + 719468) / 146097 = e)
    (hw : (n + 719468) % 146097 = w) :
    (ofNumber n).year =
        (if calendarMonth (monthOfYear (w - marchDays (yearOfCycle w))) ≤ 2
          then 400 * e + yearOfCycle w + 1 else 400 * e + yearOfCycle w) ∧
      (ofNumber n).month =
        calendarMonth (monthOfYear (w - marchDays (yearOfCycle w))) ∧
      (ofNumber n).day = w - marchDays (yearOfCycle w) -
        (153 * monthOfYear (w - marchDays (yearOfCycle w)) + 2) / 5 + 1 := by
  subst he hw
  exact ⟨rfl, rfl, rfl⟩

@[simp] theorem ofNumber_of_number (a : Date) : ofNumber a.number = a :=
  Date.number_injective (ofNumber_number a.number)

/-- A date and a time of a day without leap seconds. -/
@[ext]
structure Moment where
  date : Date
  hour : ℤ
  minute : ℤ
  second : ℤ
  nanosecond : ℤ
  hour_bounds : 0 ≤ hour ∧ hour ≤ 23
  minute_bounds : 0 ≤ minute ∧ minute ≤ 59
  second_bounds : 0 ≤ second ∧ second ≤ 59
  nanosecond_bounds : 0 ≤ nanosecond ∧ nanosecond ≤ 999999999

/-- Seconds from the start of 1970. -/
def Moment.seconds (t : Moment) : ℤ :=
  t.date.number * 86400 + t.hour * 3600 + t.minute * 60 + t.second

/-- Nanoseconds from the start of 1970. -/
def Moment.instant (t : Moment) : ℤ :=
  t.seconds * 1000000000 + t.nanosecond

theorem Moment.instant_injective : Function.Injective Moment.instant := by
  intro a b h
  have ha := a.hour_bounds
  have hb := b.hour_bounds
  have ha' := a.minute_bounds
  have hb' := b.minute_bounds
  have hs := a.second_bounds
  have hs' := b.second_bounds
  have hn := a.nanosecond_bounds
  have hn' := b.nanosecond_bounds
  unfold Moment.instant Moment.seconds at h
  have hdate : a.date = b.date := Date.number_injective (by omega)
  rw [hdate] at h
  exact Moment.ext hdate (by omega) (by omega) (by omega) (by omega)

/-- The moment that is `fraction` nanoseconds into a second. -/
def momentOfSeconds
    (seconds fraction : ℤ)
    (h : 0 ≤ fraction ∧ fraction ≤ 999999999) : Moment where
  date := ofNumber (seconds / 86400)
  hour := seconds % 86400 / 3600
  minute := seconds % 86400 / 60 % 60
  second := seconds % 86400 % 60
  nanosecond := fraction
  hour_bounds := by omega
  minute_bounds := by omega
  second_bounds := by omega
  nanosecond_bounds := h

@[simp] theorem momentOfSeconds_seconds (seconds fraction : ℤ)
    (h : 0 ≤ fraction ∧ fraction ≤ 999999999) :
    (momentOfSeconds seconds fraction h).seconds = seconds := by
  unfold Moment.seconds momentOfSeconds
  dsimp only
  rw [ofNumber_number]
  omega

/-- The moment a count of nanoseconds from the start of 1970 stands for. -/
def momentOfInstant (n : ℤ) : Moment :=
  momentOfSeconds (n / 1000000000) (n % 1000000000) (by omega)

@[simp] theorem momentOfInstant_instant (n : ℤ) :
    (momentOfInstant n).instant = n := by
  unfold Moment.instant momentOfInstant
  rw [momentOfSeconds_seconds]
  exact Int.ediv_mul_add_emod n 1000000000

@[simp] theorem momentOfInstant_of_instant (t : Moment) :
    momentOfInstant t.instant = t :=
  Moment.instant_injective (momentOfInstant_instant t.instant)

theorem momentOfInstant_number (n : ℤ) :
    (momentOfInstant n).date.number = n / 86400000000000 := by
  show (ofNumber (n / 1000000000 / 86400)).number = n / 86400000000000
  rw [ofNumber_number]
  omega

/-- The years are those of the days between two numbers. -/
theorem Date.year_le_iff (a : Date) (y : ℤ) :
    a.year ≤ y ↔ a.number < dayNumber (y + 1) 1 1 := by
  have hbounds := a.number_bounds
  have hfirst : dayNumber (y + 1) 1 1 = daysBeforeYear (y + 1) - 719162 := by
    unfold dayNumber monthStart daysBeforeMonth
    norm_num
  rw [hfirst]
  constructor
  · intro h
    have hend := daysBeforeMonth_add_monthLength_le a.year a.one_le_month
      a.month_le
    have hmono := daysBeforeYear_mono (show a.year + 1 ≤ y + 1 by omega)
    rw [daysBeforeYear_succ] at hmono
    have hday := a.day_le
    unfold Date.number dayNumber monthStart
    omega
  · intro h
    by_contra hlt
    have hmono := daysBeforeYear_mono (show y + 1 ≤ a.year by omega)
    omega

end Gregorian
end Beans
