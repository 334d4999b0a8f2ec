import Beans.Foundation.Gregorian
import Beans.Foundation.Words

/-!
# Civil dates and day numbers

`std.calendar` converts between a civil date and the number of days from
1970-01-01.  The arithmetic is the machine's: `int` is a 64-bit word whose
operations wrap and whose division truncates.

The conversions shift the year to begin in March and count in eras of 400 years.

**Results.**
* `civil_bijection`: over 2^60 days on either side of the epoch the conversions are inverse
  to each other and number the valid dates in their order, one by one.
-/

namespace Beans
namespace Calendar

open SignedWords

/-- Floor division; the machine's `/` truncates toward zero. -/
def floorDiv (value divisor : Int64) : Int64 :=
  let quotient := value / divisor
  if value % divisor ≠ 0 ∧
      ((value < 0 ∧ ¬ divisor < 0) ∨ (¬ value < 0 ∧ divisor < 0)) then
    quotient - 1
  else quotient

/-- The Gregorian rule. -/
def isLeapYear (year : Int64) : Bool :=
  if year % 4 ≠ 0 then false
  else if year % 100 ≠ 0 then true
  else year % 400 == 0

/-- Days in a month; a month outside 1 to 12 answers 0. -/
def daysInMonth (year month : Int64) : Int64 :=
  if month = 1 ∨ month = 3 ∨ month = 5 ∨ month = 7 ∨ month = 8 ∨
      month = 10 ∨ month = 12 then 31
  else if month = 4 ∨ month = 6 ∨ month = 9 ∨ month = 11 then 30
  else if month = 2 then
    if isLeapYear year then 29 else 28
  else 0

/-- Eras of 400 years, and years that begin in March. -/
def daysFromCivil (year month day : Int64) : Int64 :=
  let shifted := if month ≤ 2 then year - 1 else year
  let era := floorDiv shifted 400
  let yearOfEra := shifted - era * 400
  let monthShift := if month > 2 then month - 3 else month + 9
  let dayOfYear := (153 * monthShift + 2) / 5 + day - 1
  let dayOfEra := yearOfEra * 365 + yearOfEra / 4 - yearOfEra / 100 + dayOfYear
  era * 146097 + dayOfEra - 719468

structure CivilDate where
  year : Int64
  month : Int64
  day : Int64
  deriving DecidableEq

/-- The year is estimated from the day of the era. -/
def civilFromDays (days : Int64) : CivilDate :=
  let shifted := days + 719468
  let era := floorDiv shifted 146097
  let dayOfEra := shifted - era * 146097
  let yearOfEra :=
    (dayOfEra - dayOfEra / 1460 + dayOfEra / 36524 - dayOfEra / 146096) / 365
  let year := yearOfEra + era * 400
  let dayOfYear := dayOfEra - (365 * yearOfEra + yearOfEra / 4 - yearOfEra / 100)
  let monthShift := (5 * dayOfYear + 2) / 153
  let day := dayOfYear - (153 * monthShift + 2) / 5 + 1
  let month := if monthShift < 10 then monthShift + 3 else monthShift - 9
  { year := if month ≤ 2 then year + 1 else year
    month := month
    day := day }

theorem floorDiv_fits {a b : ℤ} (ha : Fits a) (hb : 0 < b) :
    Fits (a / b) := by
  have hlow : (-2 ^ 63) * b ≤ a := by nlinarith [ha.1]
  refine ⟨(Int.le_ediv_iff_mul_le hb).mpr hlow, ?_⟩
  rw [Int.ediv_lt_iff_lt_mul hb]
  nlinarith [ha.2]

/-- `floorDiv` never wraps: it is the division that rounds down. -/
theorem toInt_floorDiv {value divisor : Int64} {a b : ℤ} (ha : value.toInt = a)
    (hb : divisor.toInt = b) (h : 0 < b) :
    (floorDiv value divisor).toInt = a / b := by
  have hfits : Fits (a / b) := floorDiv_fits (ha ▸ fits_toInt value) h
  have hne : divisor ≠ -1 := by
    rintro rfl
    have hminus : (-1 : Int64).toInt = -1 := rfl
    omega
  have hquot : (value / divisor).toInt = a.tdiv b := by
    rw [Int64.toInt_div_of_ne_right value divisor hne, ha, hb]
  have hrem : value % divisor ≠ 0 ↔ ¬ b ∣ a := by
    rw [Ne, eq_iff (Int64.toInt_mod value divisor) Int64.toInt_zero, ha, hb,
      Int.dvd_iff_tmod_eq_zero]
  have hneg : value < 0 ↔ a < 0 := lt_iff ha Int64.toInt_zero
  have hpos : ¬ divisor < 0 := by
    rw [lt_iff hb Int64.toInt_zero]
    omega
  have hdef : floorDiv value divisor =
      if ¬ b ∣ a ∧ a < 0 then value / divisor - 1 else value / divisor := by
    unfold floorDiv
    simp only [hrem, hneg, hpos, not_false_eq_true, and_true, and_false,
      or_false]
  rw [hdef]
  rw [Int.tdiv_eq_ediv] at hquot
  by_cases hexact : 0 ≤ a ∨ b ∣ a
  · rw [if_pos hexact, add_zero] at hquot
    rw [if_neg (by omega), hquot]
  · rw [if_neg hexact, Int.sign_eq_one_of_pos h] at hquot
    rw [if_pos (by omega), toInt_sub hquot Int64.toInt_one (by omega)]
    omega

theorem isLeapYear_iff (year : Int64) :
    isLeapYear year = true ↔ Gregorian.Leap year.toInt := by
  have hdiv : ∀ d : Int64, year % d = 0 ↔ d.toInt ∣ year.toInt := by
    intro d
    rw [eq_iff (Int64.toInt_mod year d) Int64.toInt_zero,
      Int.dvd_iff_tmod_eq_zero]
  have h4 : year % 4 = 0 ↔ (4 : ℤ) ∣ year.toInt := hdiv 4
  have h100 : year % 100 = 0 ↔ (100 : ℤ) ∣ year.toInt := hdiv 100
  have h400 : year % 400 = 0 ↔ (400 : ℤ) ∣ year.toInt := hdiv 400
  unfold isLeapYear Gregorian.Leap
  by_cases ha : year % 4 = 0
  · by_cases hb : year % 100 = 0
    · rw [if_neg (not_not.mpr ha), if_neg (not_not.mpr hb), beq_iff_eq, h400]
      rw [h4] at ha
      rw [h100] at hb
      omega
    · rw [if_neg (not_not.mpr ha), if_pos hb]
      rw [h4] at ha
      rw [h100] at hb
      exact iff_of_true rfl (by omega)
  · rw [if_pos ha]
    rw [h4] at ha
    exact iff_of_false Bool.false_ne_true (by omega)

/-- Inside the year the code's table is the calendar's. -/
theorem toInt_daysInMonth (year : Int64) {month : Int64} {m : ℤ} (hm : month.toInt = m)
    (h₁ : 1 ≤ m) (h₂ : m ≤ 12) :
    (daysInMonth year month).toInt =
      Gregorian.monthLength year.toInt m := by
  have hlit : ∀ {c : Int64} {k : ℤ}, c.toInt = k → (month = c ↔ m = k) :=
    fun hk => eq_iff hm hk
  have hleap := isLeapYear_iff year
  unfold daysInMonth Gregorian.monthLength
  have h1 : month = 1 ↔ m = 1 := hlit rfl
  have h2 : month = 2 ↔ m = 2 := hlit rfl
  have h3 : month = 3 ↔ m = 3 := hlit rfl
  have h4 : month = 4 ↔ m = 4 := hlit rfl
  have h5 : month = 5 ↔ m = 5 := hlit rfl
  have h6 : month = 6 ↔ m = 6 := hlit rfl
  have h7 : month = 7 ↔ m = 7 := hlit rfl
  have h8 : month = 8 ↔ m = 8 := hlit rfl
  have h9 : month = 9 ↔ m = 9 := hlit rfl
  have h10 : month = 10 ↔ m = 10 := hlit rfl
  have h11 : month = 11 ↔ m = 11 := hlit rfl
  have h12 : month = 12 ↔ m = 12 := hlit rfl
  simp only [h1, h2, h3, h4, h5, h6, h7, h8, h9, h10, h11, h12, hleap]
  split_ifs <;> first | rfl | omega

/-- No intermediate result of the day number wraps. -/
theorem toInt_daysFromCivil {year month day : Int64} {y m d : ℤ} (hy : year.toInt = y)
    (hm : month.toInt = m) (hd : day.toInt = d) (hyear : -2 ^ 54 ≤ y ∧ y ≤ 2 ^ 54)
    (hmonth : 1 ≤ m ∧ m ≤ 12) (hday : 1 ≤ d ∧ d ≤ 31) :
    (daysFromCivil year month day).toInt = Gregorian.dayNumber y m d := by
  have hle : month ≤ 2 ↔ m ≤ 2 := le_iff hm rfl
  have hgt : month > 2 ↔ ¬ m ≤ 2 := (lt_iff (show (2 : Int64).toInt = 2 from rfl) hm).trans (by omega)
  obtain ⟨s, hs⟩ : ∃ s, s = if m ≤ 2 then y - 1 else y := ⟨_, rfl⟩
  obtain ⟨k, hk⟩ : ∃ k, k = if m ≤ 2 then m + 9 else m - 3 := ⟨_, rfl⟩
  have hsbound : -2 ^ 54 - 1 ≤ s ∧ s ≤ 2 ^ 54 := by
    rw [hs]
    split_ifs <;> omega
  have hkbound : 0 ≤ k ∧ k ≤ 11 := by
    rw [hk]
    split_ifs <;> omega
  rw [Gregorian.dayNumber_of_march y m d hmonth.1 hmonth.2, ← hs, ← hk]
  unfold daysFromCivil
  extract_lets shifted era yearOfEra monthShift dayOfYear dayOfEra
  have hshifted : shifted.toInt = s := by
    simp only [shifted, hle, hs]
    split_ifs
    · exact toInt_sub hy rfl (by omega)
    · exact hy
  clear_value shifted
  have hera : era.toInt = s / 400 := by
    show (floorDiv shifted 400).toInt = s / 400
    exact toInt_floorDiv hshifted rfl (by decide)
  clear_value era
  have hyoe : yearOfEra.toInt = s % 400 := by
    show (shifted - era * 400).toInt = s % 400
    rw [toInt_sub hshifted (toInt_mul hera (b := 400) rfl (by omega))
      (by omega)]
    omega
  clear_value yearOfEra
  have hshift : monthShift.toInt = k := by
    simp only [monthShift, hgt, ite_not, hk]
    split_ifs
    · exact toInt_add hm rfl (by omega)
    · exact toInt_sub hm rfl (by omega)
  clear_value monthShift
  have hmarch : (153 * monthShift + 2 : Int64).toInt = 153 * k + 2 :=
    toInt_add (toInt_mul rfl hshift (by omega)) rfl (by omega)
  have hdoy : dayOfYear.toInt = (153 * k + 2) / 5 + d - 1 := by
    show ((153 * monthShift + 2) / 5 + day - 1).toInt =
      (153 * k + 2) / 5 + d - 1
    exact toInt_sub (toInt_add (toInt_div hmarch rfl (by omega) (by decide)) hd
      (by omega)) rfl (by omega)
  clear_value dayOfYear
  have hdays : (yearOfEra * 365 + yearOfEra / 4 : Int64).toInt =
      s % 400 * 365 + s % 400 / 4 :=
    toInt_add (toInt_mul hyoe rfl (by omega))
      (toInt_div hyoe rfl (by omega) (by decide)) (by omega)
  have hdoe : dayOfEra.toInt = s % 400 * 365 + s % 400 / 4 - s % 400 / 100 +
      ((153 * k + 2) / 5 + d - 1) := by
    show (yearOfEra * 365 + yearOfEra / 4 - yearOfEra / 100 +
      dayOfYear).toInt = _
    exact toInt_add (toInt_sub hdays
      (toInt_div hyoe rfl (by omega) (by decide)) (by omega)) hdoy (by omega)
  clear_value dayOfEra
  have hsum : (era * 146097 + dayOfEra - 719468 : Int64).toInt =
      s / 400 * 146097 + (s % 400 * 365 + s % 400 / 4 - s % 400 / 100 +
        ((153 * k + 2) / 5 + d - 1)) - 719468 :=
    toInt_sub (toInt_add (toInt_mul hera rfl (by omega)) hdoe (by omega)) rfl
      (by omega)
  have hcycle : Gregorian.marchDays s = 146097 * (s / 400) +
      (365 * (s % 400) + s % 400 / 4 - s % 400 / 100) := by
    rw [← Gregorian.marchDays_of_cycle (Int.emod_nonneg s (by decide))
      (Int.emod_lt_of_pos s (by decide)), ← Gregorian.marchDays_cycle,
      Int.mul_ediv_add_emod]
  rw [hsum, hcycle]
  ring

/-- The word date denotes the calendar date. -/
def CivilDate.Denotes (c : CivilDate) (a : Gregorian.Date) : Prop :=
  c.year.toInt = a.year ∧ c.month.toInt = a.month ∧ c.day.toInt = a.day

/-- No intermediate result of the date wraps. -/
theorem civilFromDays_denotes {days : Int64} {n : ℤ} (hn : days.toInt = n)
    (h : -2 ^ 61 ≤ n ∧ n ≤ 2 ^ 61) :
    (civilFromDays days).Denotes (Gregorian.ofNumber n) := by
  obtain ⟨e, he⟩ : ∃ e, (n + 719468) / 146097 = e := ⟨_, rfl⟩
  obtain ⟨w, hw⟩ : ∃ w, (n + 719468) % 146097 = w := ⟨_, rfl⟩
  have hfound := Gregorian.ofNumber_fields he hw
  have hwe : n + 719468 - e * 146097 = w := by omega
  have hw₁ : 0 ≤ w := by omega
  have hw₂ : w ≤ 146096 := by omega
  have he' : -2 ^ 45 ≤ e ∧ e ≤ 2 ^ 45 := by omega
  unfold civilFromDays
  extract_lets shifted era dayOfEra yearOfEra year dayOfYear monthShift day
    month
  have hshifted : shifted.toInt = n + 719468 := by
    show (days + 719468).toInt = n + 719468
    exact toInt_add hn rfl (by omega)
  clear_value shifted
  have hera : era.toInt = e := by
    show (floorDiv shifted 146097).toInt = e
    rw [toInt_floorDiv hshifted (b := 146097) rfl (by decide), he]
  clear_value era
  have hdoe : dayOfEra.toInt = w := by
    show (shifted - era * 146097).toInt = w
    rw [← hwe]
    exact toInt_sub hshifted (toInt_mul hera rfl (by omega)) (by omega)
  clear_value dayOfEra
  clear hshifted hwe he hw h
  have hleft : (dayOfEra - dayOfEra / 1460 : Int64).toInt = w - w / 1460 :=
    toInt_sub hdoe (toInt_div hdoe rfl (by omega) (by decide)) (by omega)
  have hmiddle : (dayOfEra - dayOfEra / 1460 + dayOfEra / 36524 : Int64).toInt =
      w - w / 1460 + w / 36524 :=
    toInt_add hleft (toInt_div hdoe rfl (by omega) (by decide)) (by omega)
  have hspec := Gregorian.yearOfCycle_spec hw₁ hw₂
  obtain ⟨yoe, hyoe⟩ : ∃ y, y = Gregorian.yearOfCycle w := ⟨_, rfl⟩
  rw [← hyoe] at hspec hfound
  have hyears : yearOfEra.toInt = yoe := by
    show ((dayOfEra - dayOfEra / 1460 + dayOfEra / 36524 -
      dayOfEra / 146096) / 365 : Int64).toInt = yoe
    rw [hyoe]
    exact toInt_div (toInt_sub hmiddle
      (toInt_div hdoe rfl (by omega) (by decide)) (by omega)) rfl (by omega)
      (by decide)
  clear_value yearOfEra
  have hyear : year.toInt = yoe + e * 400 := by
    show (yearOfEra + era * 400).toInt = yoe + e * 400
    exact toInt_add hyears (toInt_mul hera rfl (by omega)) (by omega)
  clear_value year
  have hmarch := Gregorian.marchDays_of_cycle hspec.1
    (Int.lt_of_le_of_lt hspec.2.1 (by decide))
  obtain ⟨doy, hdoy⟩ : ∃ d, d = w - Gregorian.marchDays yoe := ⟨_, rfl⟩
  rw [← hdoy] at hfound
  have hdays : dayOfYear.toInt = doy := by
    show (dayOfEra - (365 * yearOfEra + yearOfEra / 4 - yearOfEra / 100)
      ).toInt = doy
    have hquarter : (365 * yearOfEra + yearOfEra / 4 : Int64).toInt =
        365 * yoe + yoe / 4 :=
      toInt_add (toInt_mul rfl hyears (by omega))
        (toInt_div hyears rfl (by omega) (by decide)) (by omega)
    rw [hdoy, hmarch]
    exact toInt_sub hdoe (toInt_sub hquarter
      (toInt_div hyears rfl (by omega) (by decide)) (by omega)) (by omega)
  clear_value dayOfYear
  have hdoy' : 0 ≤ doy ∧ doy ≤ 365 := by omega
  obtain ⟨k, hk⟩ : ∃ k, k = Gregorian.monthOfYear doy := ⟨_, rfl⟩
  rw [← hk] at hfound
  have hkdef : k = (5 * doy + 2) / 153 := hk
  have hshift : monthShift.toInt = k := by
    show ((5 * dayOfYear + 2) / 153 : Int64).toInt = k
    rw [hkdef]
    exact toInt_div (toInt_add (toInt_mul rfl hdays (by omega)) rfl (by omega))
      rfl (by omega) (by decide)
  clear_value monthShift
  have hmonths : (153 * monthShift + 2 : Int64).toInt = 153 * k + 2 :=
    toInt_add (toInt_mul rfl hshift (by omega)) rfl (by omega)
  have hday : day.toInt = doy - (153 * k + 2) / 5 + 1 := by
    show (dayOfYear - (153 * monthShift + 2) / 5 + 1).toInt =
      doy - (153 * k + 2) / 5 + 1
    exact toInt_add (toInt_sub hdays
      (toInt_div hmonths rfl (by omega) (by decide)) (by omega)) rfl (by omega)
  clear_value day
  have hmonth : month.toInt = Gregorian.calendarMonth k := by
    have hten : monthShift < 10 ↔ k < 10 :=
      lt_iff hshift (show (10 : Int64).toInt = 10 from rfl)
    simp only [month, hten, Gregorian.calendarMonth]
    split_ifs
    · exact toInt_add hshift rfl (by omega)
    · exact toInt_sub hshift rfl (by omega)
  clear_value month
  have htwo : month ≤ 2 ↔ Gregorian.calendarMonth k ≤ 2 :=
    le_iff hmonth (show (2 : Int64).toInt = 2 from rfl)
  refine ⟨?_, hmonth.trans hfound.2.1.symm, hday.trans hfound.2.2.symm⟩
  rw [hfound.1]
  simp only [htwo]
  split_ifs
  · rw [toInt_add hyear (show (1 : Int64).toInt = 1 from rfl) (by omega)]
    omega
  · rw [hyear]
    omega

/-- A date the calendar has. -/
structure CivilDate.Valid (c : CivilDate) : Prop where
  one_le_month : 1 ≤ c.month
  month_le : c.month ≤ 12
  one_le_day : 1 ≤ c.day
  day_le : c.day ≤ daysInMonth c.year c.month

/-- Lexicographic order by year, month and day. -/
def CivilDate.Before (a b : CivilDate) : Prop :=
  a.year < b.year ∨
    (a.year = b.year ∧
      (a.month < b.month ∨ (a.month = b.month ∧ a.day < b.day)))

/-- The date after a date, by the lengths of the months. -/
def CivilDate.next (c : CivilDate) : CivilDate :=
  if c.day < daysInMonth c.year c.month then { c with day := c.day + 1 }
  else if c.month < 12 then { c with month := c.month + 1, day := 1 }
  else { year := c.year + 1, month := 1, day := 1 }

def CivilDate.days (c : CivilDate) : Int64 :=
  daysFromCivil c.year c.month c.day

variable {c c' : CivilDate} {a b : Gregorian.Date}

theorem CivilDate.Valid.denotes (h : c.Valid) : ∃ a, c.Denotes a := by
  have h₁ : 1 ≤ c.month.toInt := (le_iff rfl rfl).mp h.one_le_month
  have h₂ : c.month.toInt ≤ 12 := (le_iff rfl rfl).mp h.month_le
  have hday : c.day.toInt ≤ Gregorian.monthLength c.year.toInt c.month.toInt :=
    (le_iff rfl (toInt_daysInMonth c.year rfl h₁ h₂)).mp h.day_le
  exact ⟨⟨c.year.toInt, c.month.toInt, c.day.toInt, h₁, h₂,
    (le_iff rfl rfl).mp h.one_le_day, hday⟩, rfl, rfl, rfl⟩

namespace CivilDate.Denotes

theorem daysInMonth (h : c.Denotes a) :
    (daysInMonth c.year c.month).toInt =
      Gregorian.monthLength a.year a.month := by
  rw [toInt_daysInMonth c.year h.2.1 a.one_le_month a.month_le, h.1]

theorem valid (h : c.Denotes a) : c.Valid where
  one_le_month := (le_iff rfl h.2.1).mpr a.one_le_month
  month_le := (le_iff h.2.1 rfl).mpr a.month_le
  one_le_day := (le_iff rfl h.2.2).mpr a.one_le_day
  day_le := (le_iff h.2.2 h.daysInMonth).mpr a.day_le

/-- A calendar date is denoted by one word date at most. -/
theorem unique (h : c.Denotes a) (h' : c'.Denotes a) : c = c' := by
  cases c
  cases c'
  rw [CivilDate.mk.injEq]
  exact ⟨eq_of_toInt (h.1.trans h'.1.symm),
    eq_of_toInt (h.2.1.trans h'.2.1.symm),
    eq_of_toInt (h.2.2.trans h'.2.2.symm)⟩

theorem before_iff (h : c.Denotes a) (h' : c'.Denotes b) :
    c.Before c' ↔ a.Before b := by
  unfold CivilDate.Before Gregorian.Date.Before
  rw [lt_iff h.1 h'.1, eq_iff h.1 h'.1, lt_iff h.2.1 h'.2.1,
    eq_iff h.2.1 h'.2.1, lt_iff h.2.2 h'.2.2]

theorem days (h : c.Denotes a) (hyear : -2 ^ 54 ≤ a.year ∧ a.year ≤ 2 ^ 54) :
    c.days.toInt = a.number :=
  toInt_daysFromCivil h.1 h.2.1 h.2.2 hyear ⟨a.one_le_month, a.month_le⟩
    ⟨a.one_le_day, le_trans a.day_le (Gregorian.monthLength_le _ _)⟩

theorem next (h : c.Denotes a) (hyear : a.year < 2 ^ 54) :
    c.next.Denotes a.next := by
  have hfits : Fits a.year := h.1 ▸ fits_toInt c.year
  have hm := a.month_le
  have hm' := a.one_le_month
  have hd := a.day_le
  have hd' := a.one_le_day
  have hlen := Gregorian.monthLength_le a.year a.month
  have hday : c.day < Calendar.daysInMonth c.year c.month ↔
      a.day < Gregorian.monthLength a.year a.month :=
    lt_iff h.2.2 h.daysInMonth
  have hmonth : c.month < 12 ↔ a.month < 12 := lt_iff h.2.1 rfl
  unfold CivilDate.next Gregorian.Date.next
  simp only [hday, hmonth]
  split_ifs
  · exact ⟨h.1, h.2.1, toInt_add h.2.2 rfl (by omega)⟩
  · exact ⟨h.1, toInt_add h.2.1 rfl (by omega), rfl⟩
  · exact ⟨toInt_add h.1 rfl (by omega), rfl, rfl⟩

end CivilDate.Denotes

/-- A day number of at most 2^61 has a year of at most 2^54. -/
theorem year_bounds {n : ℤ} (h : -2 ^ 61 ≤ n ∧ n ≤ 2 ^ 61) :
    -2 ^ 54 ≤ (Gregorian.ofNumber n).year ∧
      (Gregorian.ofNumber n).year ≤ 2 ^ 54 := by
  have hnumber := (Gregorian.ofNumber n).number_bounds
  rw [Gregorian.ofNumber_number] at hnumber
  unfold Gregorian.daysBeforeYear at hnumber
  omega

/-- Over 2^60 days on either side of the epoch, the two conversions are inverse
to each other and number the valid dates in their order, one by one. -/
theorem civil_bijection :
    (∀ days : Int64, |days.toInt| ≤ 2 ^ 60 →
      (civilFromDays days).days = days ∧ (civilFromDays days).Valid) ∧
    (∀ c : CivilDate, c.Valid → |c.year.toInt| ≤ 2 ^ 50 →
      civilFromDays c.days = c) ∧
    (∀ c c' : CivilDate, c.Valid → c'.Valid → |c.year.toInt| ≤ 2 ^ 50 →
      |c'.year.toInt| ≤ 2 ^ 50 → c.Before c' → c.days < c'.days) ∧
    (∀ c : CivilDate, c.Valid → |c.year.toInt| ≤ 2 ^ 50 →
      c.next.Valid ∧ c.next.days = c.days + 1) ∧
    CivilDate.days ⟨1970, 1, 1⟩ = 0 := by
  refine ⟨?_, ?_, ?_, ?_, rfl⟩
  · intro days h
    rw [abs_le] at h
    have hbound : -2 ^ 61 ≤ days.toInt ∧ days.toInt ≤ 2 ^ 61 := by omega
    have hdate := @civilFromDays_denotes days _ rfl hbound
    have hdays := hdate.days (year_bounds hbound)
    rw [Gregorian.ofNumber_number] at hdays
    exact ⟨eq_of_toInt hdays, hdate.valid⟩
  · intro c hc hyear
    obtain ⟨a, ha⟩ := hc.denotes
    rw [ha.1, abs_le] at hyear
    have hdays := ha.days (by omega)
    have hbound : -2 ^ 61 ≤ a.number ∧ a.number ≤ 2 ^ 61 := by
      have hnumber := a.number_bounds
      unfold Gregorian.daysBeforeYear at hnumber
      omega
    have hback := civilFromDays_denotes hdays hbound
    rw [Gregorian.ofNumber_of_number] at hback
    exact hback.unique ha
  · intro c c' hc hc' hyear hyear' hbefore
    obtain ⟨a, ha⟩ := hc.denotes
    obtain ⟨b, hb⟩ := hc'.denotes
    rw [ha.1, abs_le] at hyear
    rw [hb.1, abs_le] at hyear'
    rw [lt_iff (ha.days (by omega)) (hb.days (by omega))]
    exact Gregorian.Date.number_lt ((ha.before_iff hb).mp hbefore)
  · intro c hc hyear
    obtain ⟨a, ha⟩ := hc.denotes
    rw [ha.1, abs_le] at hyear
    have hnext := ha.next (by omega)
    have hnextYear := a.next_year
    refine ⟨hnext.valid, eq_of_toInt ?_⟩
    have hbound := a.number_bounds
    unfold Gregorian.daysBeforeYear at hbound
    rw [hnext.days (by omega), Gregorian.Date.number_next,
      toInt_add (ha.days (by omega)) Int64.toInt_one (by omega)]

/-- A leap day before the era, and the end of a February that has none. -/
theorem civil_bijection_leapDay :
    (civilFromDays 19782).days = 19782 ∧
    civilFromDays (CivilDate.days ⟨-4, 2, 29⟩) = ⟨-4, 2, 29⟩ ∧
    (⟨1900, 2, 28⟩ : CivilDate).next = ⟨1900, 3, 1⟩ ∧
    CivilDate.days ⟨1900, 3, 1⟩ = CivilDate.days ⟨1900, 2, 28⟩ + 1 :=
  ⟨(civil_bijection.1 19782 (by decide)).1,
    civil_bijection.2.1 ⟨-4, 2, 29⟩
      ⟨by decide, by decide, by decide, by decide⟩ (by decide),
    rfl,
    (civil_bijection.2.2.2.1 ⟨1900, 2, 28⟩
      ⟨by decide, by decide, by decide, by decide⟩ (by decide)).2⟩

end Calendar
end Beans
