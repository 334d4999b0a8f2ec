import Beans.Calendar.DateTime

/-!
# Epoch conversions

The counts of seconds, milliseconds and nanoseconds since 1970 are exact: what
a `DateTime` was built from is what it gives back, wherever the count fits the
word and the year has four digits.

**Results.**
* `epoch_conversions_exact`: every 64-bit count and every valid value is converted exactly,
  or refused with a range error where the calendar ends.
-/

namespace Beans
namespace Calendar

open SignedWords

variable {d d' : DateTime} {t : Gregorian.Moment}

def DateTime.date (d : DateTime) : CivilDate :=
  ⟨d.year, d.month, d.day⟩

/-- A value that a factory can have made. -/
structure DateTime.Valid (d : DateTime) : Prop where
  year : 1 ≤ d.year ∧ d.year ≤ 9999
  date : d.date.Valid
  hour : 0 ≤ d.hour ∧ d.hour ≤ 23
  minute : 0 ≤ d.minute ∧ d.minute ≤ 59
  second : 0 ≤ d.second ∧ d.second ≤ 59
  nanosecond : 0 ≤ d.nanosecond ∧ d.nanosecond ≤ 999999999

/-- Nanoseconds since 1970 as a number, whether a word holds it or not. -/
def DateTime.instant (d : DateTime) : ℤ :=
  (Gregorian.dayNumber d.year.toInt d.month.toInt d.day.toInt * 86400 +
    d.hour.toInt * 3600 + d.minute.toInt * 60 + d.second.toInt) * 1000000000 +
    d.nanosecond.toInt

/-- The day lies in years 1 to 9999. -/
def InYears (day : ℤ) : Prop :=
  Gregorian.dayNumber 1 1 1 ≤ day ∧ day ≤ Gregorian.dayNumber 9999 12 31

theorem inYears_iff (a : Gregorian.Date) :
    InYears a.number ↔ 1 ≤ a.year ∧ a.year ≤ 9999 := by
  have hlow := a.year_le_iff 0
  have hhigh := a.year_le_iff 9999
  have h₁ : Gregorian.dayNumber 1 1 1 = -719162 := by decide
  have h₂ : Gregorian.dayNumber 9999 12 31 = 2932896 := by decide
  have h₃ : Gregorian.dayNumber (0 + 1) 1 1 = -719162 := by decide
  have h₄ : Gregorian.dayNumber (9999 + 1) 1 1 = 2932897 := by decide
  unfold InYears
  omega

/-- The word fields denote the moment. -/
structure DateTime.Denotes (d : DateTime) (t : Gregorian.Moment) : Prop where
  date : d.date.Denotes t.date
  hour : d.hour.toInt = t.hour
  minute : d.minute.toInt = t.minute
  second : d.second.toInt = t.second
  nanosecond : d.nanosecond.toInt = t.nanosecond

theorem DateTime.Valid.denotes (h : d.Valid) :
    ∃ t, d.Denotes t ∧ 1 ≤ t.date.year ∧ t.date.year ≤ 9999 := by
  obtain ⟨a, ha⟩ := h.date.denotes
  have hyear : d.year.toInt = a.year := ha.1
  refine ⟨⟨a, d.hour.toInt, d.minute.toInt, d.second.toInt,
    d.nanosecond.toInt, ?_, ?_, ?_, ?_⟩, ⟨ha, rfl, rfl, rfl, rfl⟩, ?_⟩
  · exact ⟨(le_iff rfl rfl).mp h.hour.1, (le_iff rfl rfl).mp h.hour.2⟩
  · exact ⟨(le_iff rfl rfl).mp h.minute.1, (le_iff rfl rfl).mp h.minute.2⟩
  · exact ⟨(le_iff rfl rfl).mp h.second.1, (le_iff rfl rfl).mp h.second.2⟩
  · exact ⟨(le_iff rfl rfl).mp h.nanosecond.1,
      (le_iff rfl rfl).mp h.nanosecond.2⟩
  · exact ⟨(le_iff rfl hyear).mp h.year.1, (le_iff hyear rfl).mp h.year.2⟩

namespace DateTime.Denotes

theorem valid (h : d.Denotes t) (hyear : 1 ≤ t.date.year ∧ t.date.year ≤ 9999) :
    d.Valid where
  year := ⟨(le_iff rfl h.date.1).mpr hyear.1,
    (le_iff h.date.1 rfl).mpr hyear.2⟩
  date := h.date.valid
  hour := ⟨(le_iff rfl h.hour).mpr t.hour_bounds.1,
    (le_iff h.hour rfl).mpr t.hour_bounds.2⟩
  minute := ⟨(le_iff rfl h.minute).mpr t.minute_bounds.1,
    (le_iff h.minute rfl).mpr t.minute_bounds.2⟩
  second := ⟨(le_iff rfl h.second).mpr t.second_bounds.1,
    (le_iff h.second rfl).mpr t.second_bounds.2⟩
  nanosecond := ⟨(le_iff rfl h.nanosecond).mpr t.nanosecond_bounds.1,
    (le_iff h.nanosecond rfl).mpr t.nanosecond_bounds.2⟩

theorem instant (h : d.Denotes t) : d.instant = t.instant := by
  have hy : d.year.toInt = t.date.year := h.date.1
  have hm : d.month.toInt = t.date.month := h.date.2.1
  have hd : d.day.toInt = t.date.day := h.date.2.2
  unfold DateTime.instant
  rw [hy, hm, hd, h.hour, h.minute, h.second, h.nanosecond]
  rfl

theorem unique (h : d.Denotes t) (h' : d'.Denotes t) : d = d' := by
  have hdate := h.date.unique h'.date
  unfold DateTime.date at hdate
  rw [CivilDate.mk.injEq] at hdate
  cases d
  cases d'
  rw [DateTime.mk.injEq]
  exact ⟨hdate.1, hdate.2.1, hdate.2.2,
    eq_of_toInt (h.hour.trans h'.hour.symm),
    eq_of_toInt (h.minute.trans h'.minute.symm),
    eq_of_toInt (h.second.trans h'.second.symm),
    eq_of_toInt (h.nanosecond.trans h'.nanosecond.symm)⟩

theorem epochDay (h : d.Denotes t) (hyear : 1 ≤ t.date.year ∧ t.date.year ≤ 9999) :
    d.epochDay.toInt = t.date.number :=
  h.date.days (by omega)

/-- The days of years 1 to 9999. -/
theorem number_bounds (hyear : 1 ≤ t.date.year ∧ t.date.year ≤ 9999) :
    -719162 ≤ t.date.number ∧ t.date.number ≤ 2932896 :=
  (inYears_iff t.date).mpr hyear

theorem seconds_bounds (hyear : 1 ≤ t.date.year ∧ t.date.year ≤ 9999) :
    -62135596800 ≤ t.seconds ∧ t.seconds ≤ 253402300799 := by
  have hnumber := number_bounds hyear
  have hhour := t.hour_bounds
  have hminute := t.minute_bounds
  have hsecond := t.second_bounds
  unfold Gregorian.Moment.seconds
  omega

theorem epochSeconds (h : d.Denotes t) (hyear : 1 ≤ t.date.year ∧ t.date.year ≤ 9999) :
    d.epochSeconds.toInt = t.seconds := by
  have hnumber := number_bounds hyear
  have hhour := t.hour_bounds
  have hminute := t.minute_bounds
  have hsecond := t.second_bounds
  have hdays := toInt_mul (h.epochDay hyear)
    (show secondsPerDay.toInt = 86400 from rfl) (by omega)
  have hhours := toInt_add hdays (toInt_mul h.hour
    (show secondsPerHour.toInt = 3600 from rfl) (by omega)) (by omega)
  have hminutes := toInt_add hhours (toInt_mul h.minute
    (show secondsPerMinute.toInt = 60 from rfl) (by omega)) (by omega)
  exact toInt_add hminutes h.second (by omega)

end DateTime.Denotes

variable {f s : ℤ} {millis seconds : Int64}

/-- Every 64-bit count of seconds is split into its moment. -/
theorem buildFromSeconds_denotes {fraction : Int64} (hs : seconds.toInt = s)
    (hf : fraction.toInt = f) (h : 0 ≤ f ∧ f ≤ 999999999) :
    (buildFromSeconds seconds fraction).Denotes
      (Gregorian.momentOfSeconds s f h) := by
  have hfits : Fits s := hs ▸ fits_toInt seconds
  unfold buildFromSeconds
  extract_lets days within date
  have hdays : days.toInt = s / 86400 := by
    show (floorDiv seconds secondsPerDay).toInt = s / 86400
    exact toInt_floorDiv hs rfl (by decide)
  have hdate : date.Denotes (Gregorian.ofNumber (s / 86400)) :=
    civilFromDays_denotes hdays (by omega)
  clear_value date days
  have hwithin : within.toInt = s % 86400 := by
    show (seconds - days * secondsPerDay).toInt = s % 86400
    rw [toInt_sub_mul hdays (b := 86400) rfl hs (by omega)]
    omega
  clear_value within
  exact {
    date := hdate
    hour := toInt_div hwithin rfl (by omega) (by decide)
    minute := toInt_mod (toInt_div hwithin rfl (by omega) (by decide)) rfl
      (by omega)
    second := toInt_mod hwithin rfl (by omega)
    nanosecond := hf }

theorem fromEpochNanos_denotes (n : Int64) :
    (DateTime.fromEpochNanos n).Denotes
      (Gregorian.momentOfSeconds (n.toInt / 1000000000)
        (n.toInt % 1000000000) (by omega)) := by
  have hseconds : (floorDiv n nanosPerSecond).toInt = n.toInt / 1000000000 :=
    toInt_floorDiv rfl (show nanosPerSecond.toInt = 1000000000 from rfl)
      (by decide)
  have hfraction := toInt_sub_mul hseconds
    (show nanosPerSecond.toInt = 1000000000 from rfl) (w := n) rfl (by omega)
  exact buildFromSeconds_denotes hseconds (hfraction.trans (by omega)) _

/-- The window in which `epochNanos` answers is that of the 64-bit counts. -/
theorem epochNanos_window (s f : ℤ) (h : 0 ≤ f ∧ f ≤ 999999999) :
    Fits (s * 1000000000 + f) ↔
      ¬ (s < -9223372037 ∨ s > 9223372036) ∧
        ¬ (s = 9223372036 ∧ f > 854775807) ∧
        ¬ (s = -9223372037 ∧ f < 145224192) := by
  unfold Fits
  omega

theorem DateTime.Denotes.epochNanos (h : d.Denotes t)
    (hyear : 1 ≤ t.date.year ∧ t.date.year ≤ 9999) :
    (Fits t.instant → ∃ r, d.epochNanos = .ok r ∧ r.toInt = t.instant) ∧
      (¬ Fits t.instant →
        ∃ e : BeansError, d.epochNanos = .error e ∧ e.kind = ascii "range") := by
  have hseconds := h.epochSeconds hyear
  have hwindow := epochNanos_window t.seconds t.nanosecond t.nanosecond_bounds
  have h₁ : d.epochSeconds < minNanosSecond ↔ t.seconds < -9223372037 :=
    lt_iff hseconds rfl
  have h₂ : d.epochSeconds > maxNanosSecond ↔ t.seconds > 9223372036 :=
    lt_iff rfl hseconds
  have h₃ : d.epochSeconds = maxNanosSecond ↔ t.seconds = 9223372036 :=
    eq_iff hseconds rfl
  have h₄ : d.nanosecond > maxNanosFraction ↔ t.nanosecond > 854775807 :=
    lt_iff rfl h.nanosecond
  have h₅ : d.epochSeconds = minNanosSecond ↔ t.seconds = -9223372037 :=
    eq_iff hseconds rfl
  have h₆ : d.nanosecond < minNanosFraction ↔ t.nanosecond < 145224192 :=
    lt_iff h.nanosecond rfl
  have hdef : d.epochNanos =
      if t.seconds < -9223372037 ∨ t.seconds > 9223372036 then
        err (d.toRfc3339 ++ ascii " is outside the nanosecond epoch range")
          "range"
      else if t.seconds = 9223372036 ∧ t.nanosecond > 854775807 then
        err (d.toRfc3339 ++ ascii " is outside the nanosecond epoch range")
          "range"
      else if t.seconds = -9223372037 ∧ t.nanosecond < 145224192 then
        err (d.toRfc3339 ++ ascii " is outside the nanosecond epoch range")
          "range"
      else .ok (d.epochSeconds * nanosPerSecond + d.nanosecond) := by
    unfold DateTime.epochNanos
    simp only [h₁, h₂, h₃, h₄, h₅, h₆]
  have hinstant : t.instant = t.seconds * 1000000000 + t.nanosecond := rfl
  rw [hinstant, hwindow, hdef]
  constructor
  · rintro ⟨hw₁, hw₂, hw₃⟩
    rw [if_neg hw₁, if_neg hw₂, if_neg hw₃]
    exact ⟨_, rfl, toInt_mul_add hseconds rfl h.nanosecond
      (hwindow.mpr ⟨hw₁, hw₂, hw₃⟩)⟩
  · intro hout
    split_ifs with hw₁ hw₂ hw₃
    · exact ⟨_, rfl, rfl⟩
    · exact ⟨_, rfl, rfl⟩
    · exact ⟨_, rfl, rfl⟩
    · exact absurd ⟨hw₁, hw₂, hw₃⟩ hout

/-- The seconds of years 1 to 9999. -/
theorem inYears_seconds_iff (s : ℤ) :
    InYears (s / 86400) ↔ ¬ (s < -62135596800 ∨ s > 253402300799) := by
  have h₁ : Gregorian.dayNumber 1 1 1 = -719162 := by decide
  have h₂ : Gregorian.dayNumber 9999 12 31 = 2932896 := by decide
  unfold InYears
  omega

theorem epochSeconds_outside (hs : seconds.toInt = s) :
    (seconds < minEpochSeconds ∨ seconds > maxEpochSeconds) ↔
      ¬ InYears (s / 86400) := by
  rw [inYears_seconds_iff, not_not, lt_iff hs rfl, gt_iff_lt, lt_iff rfl hs]
  rfl

theorem momentOfSeconds_inYears (h : 0 ≤ f ∧ f ≤ 999999999) (hyears : InYears (s / 86400)) :
    1 ≤ (Gregorian.momentOfSeconds s f h).date.year ∧
      (Gregorian.momentOfSeconds s f h).date.year ≤ 9999 := by
  refine (inYears_iff _).mp ?_
  have : (Gregorian.momentOfSeconds s f h).date.number = s / 86400 :=
    Gregorian.ofNumber_number _
  rwa [this]

theorem fromEpochSeconds_outside (h : ¬ InYears (seconds.toInt / 86400)) :
    ∃ e : BeansError, DateTime.fromEpochSeconds seconds = .error e ∧
      e.kind = ascii "range" := by
  unfold DateTime.fromEpochSeconds
  rw [if_pos ((epochSeconds_outside rfl).mpr h)]
  exact ⟨_, rfl, rfl⟩

/-- The split into a second and its milliseconds. -/
theorem fromEpochMillis_denotes (h : InYears (millis.toInt / 86400000)) :
    ∃ d, DateTime.fromEpochMillis millis = .ok d ∧
      d.Denotes (Gregorian.momentOfSeconds (millis.toInt / 1000)
        (millis.toInt % 1000 * 1000000) (by omega)) := by
  have hseconds : (floorDiv millis 1000).toInt = millis.toInt / 1000 :=
    toInt_floorDiv rfl rfl (by decide)
  have hrest := (toInt_sub_mul hseconds (show (1000 : Int64).toInt = 1000 from
    rfl) (w := millis) rfl (by omega)).trans
      (show millis.toInt - millis.toInt / 1000 * 1000 = millis.toInt % 1000 by
        omega)
  have hfraction := toInt_mul hrest
    (show (1000000 : Int64).toInt = 1000000 from rfl) (by omega)
  have hin : InYears (millis.toInt / 1000 / 86400) := by
    rw [Int.ediv_ediv_of_nonneg (by decide)]
    exact h
  unfold DateTime.fromEpochMillis
  dsimp only
  rw [if_neg (fun hout => (epochSeconds_outside hseconds).mp hout hin)]
  exact ⟨_, rfl, buildFromSeconds_denotes hseconds hfraction _⟩

theorem fromEpochMillis_outside (h : ¬ InYears (millis.toInt / 86400000)) :
    ∃ e : BeansError, DateTime.fromEpochMillis millis = .error e ∧
      e.kind = ascii "range" := by
  have hseconds : (floorDiv millis 1000).toInt = millis.toInt / 1000 :=
    toInt_floorDiv rfl rfl (by decide)
  have hout : ¬ InYears (millis.toInt / 1000 / 86400) := by
    rw [Int.ediv_ediv_of_nonneg (by decide)]
    exact h
  unfold DateTime.fromEpochMillis
  dsimp only
  rw [if_pos ((epochSeconds_outside hseconds).mpr hout)]
  exact ⟨_, rfl, rfl⟩

/-- Dropping the fraction of a moment gives the moment of its seconds. -/
theorem DateTime.Denotes.withoutFraction (h : d.Denotes t) :
    ({ d with nanosecond := 0 } : DateTime).Denotes
      (Gregorian.momentOfSeconds t.seconds 0 (by decide)) := by
  have hzero : ({ d with nanosecond := 0 } : DateTime).Denotes
      { t with
        nanosecond := 0
        nanosecond_bounds := by decide } :=
    ⟨h.date, h.hour, h.minute, h.second, rfl⟩
  have hsame : ({ t with
        nanosecond := 0
        nanosecond_bounds := by decide } : Gregorian.Moment) =
      Gregorian.momentOfSeconds t.seconds 0 (by decide) := by
    refine Gregorian.Moment.instant_injective ?_
    unfold Gregorian.Moment.instant
    rw [Gregorian.momentOfSeconds_seconds]
    rfl
  rwa [hsame] at hzero

theorem DateTime.Denotes.seconds_inYears (hyear : 1 ≤ t.date.year ∧ t.date.year ≤ 9999) :
    InYears (t.seconds / 86400) := by
  rw [inYears_seconds_iff]
  have := DateTime.Denotes.seconds_bounds hyear
  omega

theorem DateTime.Denotes.epochMillis (h : d.Denotes t)
    (hyear : 1 ≤ t.date.year ∧ t.date.year ≤ 9999) :
    d.epochMillis.toInt = t.seconds * 1000 + t.nanosecond / 1000000 := by
  have hbound := DateTime.Denotes.seconds_bounds hyear
  have hnano := t.nanosecond_bounds
  exact toInt_add (toInt_mul (h.epochSeconds hyear)
    (show (1000 : Int64).toInt = 1000 from rfl) (by omega))
    (toInt_div h.nanosecond rfl (by omega) (by decide)) (by omega)

theorem fromEpochNanos_exact (n : Int64) :
    (DateTime.fromEpochNanos n).Valid ∧
      (DateTime.fromEpochNanos n).epochNanos = .ok n := by
  have hn := fits_toInt n
  have hden := fromEpochNanos_denotes n
  have hyear := momentOfSeconds_inYears
    (show 0 ≤ n.toInt % 1000000000 ∧ n.toInt % 1000000000 ≤ 999999999 by
      omega) ((inYears_seconds_iff (n.toInt / 1000000000)).mpr (by omega))
  have hinstant : (Gregorian.momentOfSeconds (n.toInt / 1000000000)
      (n.toInt % 1000000000) (by omega)).instant = n.toInt := by
    unfold Gregorian.Moment.instant
    rw [Gregorian.momentOfSeconds_seconds]
    exact Int.ediv_mul_add_emod n.toInt 1000000000
  have hnanos := (hden.epochNanos hyear).1
  rw [hinstant] at hnanos
  obtain ⟨r, hr, hrn⟩ := hnanos hn
  exact ⟨hden.valid hyear, by rw [hr, eq_of_toInt hrn]⟩

theorem epochNanos_exact (hd : d.Valid) :
    (Fits d.instant ↔ ∃ r, d.epochNanos = .ok r) ∧
      ∀ r, d.epochNanos = .ok r → r.toInt = d.instant := by
  obtain ⟨t, ht, hyear⟩ := hd.denotes
  obtain ⟨hin, hout⟩ := ht.epochNanos hyear
  rw [ht.instant]
  by_cases hfits : Fits t.instant
  · obtain ⟨r, hr, heq⟩ := hin hfits
    refine ⟨iff_of_true hfits ⟨r, hr⟩, fun r' hr' => ?_⟩
    rw [hr] at hr'
    cases hr'
    exact heq
  · obtain ⟨e, he, -⟩ := hout hfits
    have hno : ∀ r, d.epochNanos ≠ .ok r := by
      intro r hr
      rw [he] at hr
      cases hr
    exact ⟨iff_of_false hfits fun ⟨r, hr⟩ => hno r hr,
      fun r hr => absurd hr (hno r)⟩

theorem fromEpochSeconds_epochSeconds (hd : d.Valid) :
    DateTime.fromEpochSeconds d.epochSeconds =
      .ok { d with nanosecond := 0 } := by
  obtain ⟨t, ht, hyear⟩ := hd.denotes
  have hseconds := ht.epochSeconds hyear
  have hin := DateTime.Denotes.seconds_inYears hyear
  unfold DateTime.fromEpochSeconds
  rw [if_neg (fun hout => (epochSeconds_outside hseconds).mp hout hin)]
  have hbuilt := buildFromSeconds_denotes hseconds Int64.toInt_zero
    (by decide)
  rw [hbuilt.unique ht.withoutFraction]

theorem fromEpochMillis_epochMillis {m : Int64} (hin : InYears (m.toInt / 86400000)) :
    ∃ d, DateTime.fromEpochMillis m = .ok d ∧ d.Valid ∧ d.epochMillis = m := by
  obtain ⟨d, hd, hden⟩ := fromEpochMillis_denotes hin
  have hyear := momentOfSeconds_inYears
    (show 0 ≤ m.toInt % 1000 * 1000000 ∧
      m.toInt % 1000 * 1000000 ≤ 999999999 by omega)
    (show InYears (m.toInt / 1000 / 86400) by
      rw [Int.ediv_ediv_of_nonneg (by decide)]
      exact hin)
  refine ⟨d, hd, hden.valid hyear, eq_of_toInt ?_⟩
  have hnano : (Gregorian.momentOfSeconds (m.toInt / 1000)
      (m.toInt % 1000 * 1000000) (by omega)).nanosecond =
      m.toInt % 1000 * 1000000 := rfl
  rw [hden.epochMillis hyear, Gregorian.momentOfSeconds_seconds, hnano]
  omega

theorem fromEpochMillis_exact (m : Int64) :
    (InYears (m.toInt / 86400000) ↔ ∃ d, DateTime.fromEpochMillis m = .ok d) ∧
      ∀ d, DateTime.fromEpochMillis m = .ok d →
        d.Valid ∧ d.epochMillis = m := by
  by_cases hin : InYears (m.toInt / 86400000)
  · obtain ⟨d, hd, hvalid, hback⟩ := fromEpochMillis_epochMillis hin
    refine ⟨iff_of_true hin ⟨d, hd⟩, fun d' hd' => ?_⟩
    rw [hd] at hd'
    cases hd'
    exact ⟨hvalid, hback⟩
  · obtain ⟨e, he, -⟩ := fromEpochMillis_outside hin
    have hno : ∀ d, DateTime.fromEpochMillis m ≠ .ok d := by
      intro d hd
      rw [he] at hd
      cases hd
    exact ⟨iff_of_false hin fun ⟨d, hd⟩ => hno d hd,
      fun d hd => absurd hd (hno d)⟩

/-- The epoch conversions over every 64-bit count and every valid value. -/
theorem epoch_conversions_exact :
    (∀ n : Int64, (DateTime.fromEpochNanos n).Valid ∧
      (DateTime.fromEpochNanos n).epochNanos = .ok n) ∧
    (∀ d : DateTime, d.Valid →
      (Fits d.instant ↔ ∃ r, d.epochNanos = .ok r) ∧
      ∀ r, d.epochNanos = .ok r → r.toInt = d.instant) ∧
    (∀ d : DateTime, d.Valid →
      DateTime.fromEpochSeconds d.epochSeconds =
        .ok { d with nanosecond := 0 }) ∧
    (∀ m : Int64,
      (InYears (m.toInt / 86400000) ↔ ∃ d, DateTime.fromEpochMillis m = .ok d) ∧
      ∀ d, DateTime.fromEpochMillis m = .ok d → d.Valid ∧ d.epochMillis = m) ∧
    (∀ s : Int64, ¬ InYears (s.toInt / 86400) →
      ∃ e : BeansError, DateTime.fromEpochSeconds s = .error e ∧
        e.kind = ascii "range") ∧
    (∀ m : Int64, ¬ InYears (m.toInt / 86400000) →
      ∃ e : BeansError, DateTime.fromEpochMillis m = .error e ∧
        e.kind = ascii "range") :=
  ⟨fromEpochNanos_exact, fun _ => epochNanos_exact,
    fun _ => fromEpochSeconds_epochSeconds, fromEpochMillis_exact,
    fun _ => fromEpochSeconds_outside, fun _ => fromEpochMillis_outside⟩

/-- The first nanosecond, the last second of the calendar, and the second after it. -/
theorem epoch_conversions_exact_at_ends :
    (DateTime.fromEpochNanos Int64.minValue).epochNanos =
      .ok Int64.minValue ∧
    DateTime.fromEpochSeconds
        (DateTime.mk 9999 12 31 23 59 59 7).epochSeconds =
      .ok (DateTime.mk 9999 12 31 23 59 59 0) ∧
    (∃ e : BeansError,
      DateTime.fromEpochSeconds 253402300800 = .error e ∧
        e.kind = ascii "range") :=
  ⟨(epoch_conversions_exact.1 Int64.minValue).2,
    epoch_conversions_exact.2.2.1 (DateTime.mk 9999 12 31 23 59 59 7)
      ⟨by decide, ⟨by decide, by decide, by decide, by decide⟩, by decide,
        by decide, by decide, by decide⟩,
    epoch_conversions_exact.2.2.2.2.1 253402300800 (by
      rw [inYears_seconds_iff]
      decide)⟩

end Calendar
end Beans
