import Beans.Calendar.Epoch

/-!
# Adding to a moment

`plus_nanos` to `plus_days` add a 64-bit count of units to a `DateTime`.  The
count may be any word, so a move is checked against the ends of the calendar
before it is made; a move that stays inside is exact.

**Results.**
* `calendar_addition_exact`: adding a 64-bit count of any unit is exact or a range error.
-/

namespace Beans
namespace Calendar

open SignedWords

variable {d : DateTime} {t : Gregorian.Moment}

/-- The call was asked for the moment `n` nanoseconds after the start of 1970:
it answers that moment, or a range error when the calendar does not have it. -/
def Answers (answer : Result DateTime) (n : ℤ) : Prop :=
  (InYears (n / 86400000000000) →
    ∃ e, answer = .ok e ∧ e.Denotes (Gregorian.momentOfInstant n)) ∧
  (¬ InYears (n / 86400000000000) →
    ∃ e : BeansError, answer = .error e ∧ e.kind = ascii "range")

theorem inYears_iff_bounds (day : ℤ) :
    InYears day ↔ -719162 ≤ day ∧ day ≤ 2932896 := by
  have h₁ : Gregorian.dayNumber 1 1 1 = -719162 := by decide
  have h₂ : Gregorian.dayNumber 9999 12 31 = 2932896 := by decide
  unfold InYears
  rw [h₁, h₂]

theorem firstDay_toInt : (daysFromCivil minYear 1 1).toInt = -719162 := by
  decide

theorem lastDay_toInt : (daysFromCivil maxYear 12 31).toInt = 2932896 := by
  decide

/-- The comparisons with the ends of the calendar, less what is added to the
day on top of `days`. -/
theorem leaves_iff {days here carry : Int64} {k n c : ℤ} (hk : days.toInt = k)
    (hn : here.toInt = n) (hc : carry.toInt = c) (hnumber : -719162 ≤ n ∧ n ≤ 2932896)
    (hcarry : 0 ≤ c ∧ c ≤ 1) :
    (days < daysFromCivil minYear 1 1 - here - carry ∨
        days > daysFromCivil maxYear 12 31 - here - carry) ↔
      ¬ InYears (n + k + c) := by
  have hlow : (daysFromCivil minYear 1 1 - here - carry).toInt =
      -719162 - n - c :=
    toInt_sub (toInt_sub firstDay_toInt hn (by omega)) hc (by omega)
  have hhigh : (daysFromCivil maxYear 12 31 - here - carry).toInt =
      2932896 - n - c :=
    toInt_sub (toInt_sub lastDay_toInt hn (by omega)) hc (by omega)
  rw [gt_iff_lt, lt_iff hk hlow, lt_iff hhigh hk, inYears_iff_bounds]
  omega

/-- The parts of an instant that a day and the nanoseconds within it make. -/
theorem instant_parts {day within : ℤ} (h : 0 ≤ within ∧ within < 86400000000000) :
    (day * 86400000000000 + within) / 86400000000000 = day ∧
      (day * 86400000000000 + within) / 1000000000 / 86400 = day ∧
      (day * 86400000000000 + within) / 1000000000 % 86400 = within / 1000000000 ∧
      (day * 86400000000000 + within) % 1000000000 =
        within - within / 1000000000 * 1000000000 := by
  refine ⟨?_, ?_, ?_, ?_⟩
  all_goals omega

theorem secondsWithin_bounds {within : ℤ} (h : 0 ≤ within ∧ within < 86400000000000) :
    0 ≤ within / 1000000000 ∧ 0 ≤ within / 1000000000 / 60 ∧
      Fits (within - within / 1000000000 * 1000000000) := by
  unfold Fits
  omega

theorem shifted_bounds {day carry : ℤ} (hcarry : 0 ≤ carry ∧ carry ≤ 1)
    (h : InYears (day + carry)) :
    Fits day ∧ Fits (day + carry) ∧ -2 ^ 61 ≤ day + carry ∧ day + carry ≤ 2 ^ 61 := by
  rw [inYears_iff_bounds] at h
  unfold Fits
  omega

/-- Days and a rest below a day are added exactly, or the calendar ends. -/
theorem DateTime.Denotes.shiftDaysAndNanos (h : d.Denotes t)
    (hyear : 1 ≤ t.date.year ∧ t.date.year ≤ 9999) {days nanos : Int64} {k r : ℤ}
    (hk : days.toInt = k) (hr : nanos.toInt = r) (hrest : 0 ≤ r ∧ r < 86400000000000)
    (subject : Text) :
    Answers (d.shiftDaysAndNanos days nanos subject)
      (t.instant + k * 86400000000000 + r) := by
  have hnumber := DateTime.Denotes.number_bounds hyear
  have hhour := t.hour_bounds
  have hminute := t.minute_bounds
  have hsecond := t.second_bounds
  have hnano := t.nanosecond_bounds
  have hinstant : t.instant = t.date.number * 86400000000000 +
      (t.hour * 3600000000000 + t.minute * 60000000000 +
        t.second * 1000000000 + t.nanosecond) := by
    unfold Gregorian.Moment.instant Gregorian.Moment.seconds
    ring
  obtain ⟨s, hs⟩ : ∃ s, s = t.hour * 3600000000000 + t.minute * 60000000000 +
    t.second * 1000000000 + t.nanosecond := ⟨_, rfl⟩
  rw [← hs] at hinstant
  have hsbound : 0 ≤ s ∧ s < 86400000000000 := by omega
  have hhere : d.epochDay.toInt = t.date.number := h.epochDay hyear
  unfold DateTime.shiftDaysAndNanos
  extract_lets start total carry within first last here moved whole
  have hstart : start.toInt = s := by
    have hhours : (d.hour * secondsPerHour * nanosPerSecond).toInt =
        t.hour * 3600 * 1000000000 :=
      toInt_mul (toInt_mul h.hour (show secondsPerHour.toInt = 3600 from rfl)
        (by omega)) (show nanosPerSecond.toInt = 1000000000 from rfl) (by omega)
    have hminutes : (d.minute * secondsPerMinute * nanosPerSecond).toInt =
        t.minute * 60 * 1000000000 :=
      toInt_mul (toInt_mul h.minute (show secondsPerMinute.toInt = 60 from rfl)
        (by omega)) (show nanosPerSecond.toInt = 1000000000 from rfl) (by omega)
    have hseconds : (d.second * nanosPerSecond).toInt =
        t.second * 1000000000 :=
      toInt_mul h.second (show nanosPerSecond.toInt = 1000000000 from rfl)
        (by omega)
    have hsum := toInt_add (toInt_add (toInt_add hhours hminutes (by omega))
      hseconds (by omega)) h.nanosecond (by omega)
    show (d.hour * secondsPerHour * nanosPerSecond +
      d.minute * secondsPerMinute * nanosPerSecond +
      d.second * nanosPerSecond + d.nanosecond).toInt = s
    rw [hsum, hs]
    ring
  clear_value start
  have htotal : total.toInt = s + r := toInt_add hstart hr (by omega)
  clear_value total
  have hcarry : carry.toInt = (s + r) / 86400000000000 := by
    show (floorDiv total nanosPerDay).toInt = (s + r) / 86400000000000
    exact toInt_floorDiv htotal
      (show nanosPerDay.toInt = 86400000000000 from rfl) (by decide)
  clear_value carry
  have hwithin : within.toInt = (s + r) % 86400000000000 := by
    show (total - carry * nanosPerDay).toInt = (s + r) % 86400000000000
    rw [toInt_sub_mul hcarry (show nanosPerDay.toInt = 86400000000000 from rfl)
      htotal (by omega)]
    omega
  clear_value within
  obtain ⟨c, hc⟩ : ∃ c, (s + r) / 86400000000000 = c := ⟨_, rfl⟩
  obtain ⟨w, hw⟩ : ∃ w, (s + r) % 86400000000000 = w := ⟨_, rfl⟩
  rw [hc] at hcarry
  rw [hw] at hwithin
  have hsplit : t.instant + k * 86400000000000 + r =
      (t.date.number + k + c) * 86400000000000 + w := by omega
  have hwbound : 0 ≤ w ∧ w < 86400000000000 := by omega
  have hcbound : 0 ≤ c ∧ c ≤ 1 := by omega
  have hleaves := leaves_iff hk hhere hcarry hnumber hcbound
  unfold Answers
  rw [hsplit, (instant_parts hwbound).1]
  constructor
  · intro hin
    rw [if_neg (fun hout => hleaves.mp hout hin)]
    refine ⟨_, rfl, ?_⟩
    have hmoved : moved.Denotes
        (Gregorian.ofNumber (t.date.number + k + c)) := by
      show (civilFromDays (d.epochDay + days + carry)).Denotes _
      obtain ⟨hday, hsum, hbounds⟩ := shifted_bounds hcbound hin
      exact civilFromDays_denotes (toInt_add (toInt_add hhere hk hday) hcarry hsum) hbounds
    have hwhole : whole.toInt = w / 1000000000 := by
      show (within / nanosPerSecond).toInt = w / 1000000000
      exact toInt_div hwithin
        (show nanosPerSecond.toInt = 1000000000 from rfl) hwbound.1 (by decide)
    clear_value whole moved
    obtain ⟨-, hseconds, hwithinDay, hfraction⟩ :=
      @instant_parts (t.date.number + k + c) w hwbound
    obtain ⟨hwhole₀, hwhole₆₀, hfits⟩ := secondsWithin_bounds hwbound
    unfold Gregorian.momentOfInstant Gregorian.momentOfSeconds
    exact {
      date := by
        dsimp only
        rw [hseconds]
        exact hmoved
      hour := by
        dsimp only
        rw [hwithinDay]
        exact toInt_div hwhole rfl hwhole₀ (by decide)
      minute := by
        dsimp only
        rw [hwithinDay]
        exact toInt_mod (toInt_div hwhole rfl hwhole₀ (by decide)) rfl hwhole₆₀
      second := by
        dsimp only
        rw [hwithinDay]
        exact toInt_mod hwhole rfl hwhole₀
      nanosecond := by
        dsimp only
        rw [hfraction]
        exact toInt_sub_mul hwhole
          (show nanosPerSecond.toInt = 1000000000 from rfl) hwithin hfits }
  · intro hout
    rw [if_pos (hleaves.mpr hout)]
    exact ⟨_, rfl, rfl⟩

theorem DateTime.Denotes.shiftDays (h : d.Denotes t)
    (hyear : 1 ≤ t.date.year ∧ t.date.year ≤ 9999) {days : Int64} {k : ℤ}
    (hk : days.toInt = k) :
    Answers (d.shiftDays days) (t.instant + k * 86400000000000) := by
  have hnumber := DateTime.Denotes.number_bounds hyear
  have hhere : d.epochDay.toInt = t.date.number := h.epochDay hyear
  have hleaves := leaves_iff hk hhere Int64.toInt_zero hnumber (by decide)
  rw [Int64.sub_zero, Int64.sub_zero, add_zero] at hleaves
  obtain ⟨u, hu⟩ : ∃ u : Gregorian.Moment,
      u = { t with date := Gregorian.ofNumber (t.date.number + k) } := ⟨_, rfl⟩
  have hinstant : u.instant = t.instant + k * 86400000000000 := by
    rw [hu]
    unfold Gregorian.Moment.instant Gregorian.Moment.seconds
    dsimp only
    rw [Gregorian.ofNumber_number]
    ring
  have hday : (t.instant + k * 86400000000000) / 86400000000000 =
      t.date.number + k := by
    rw [← hinstant, ← Gregorian.momentOfInstant_number,
      Gregorian.momentOfInstant_of_instant, hu, Gregorian.ofNumber_number]
  unfold Answers DateTime.shiftDays
  rw [hday]
  constructor
  · intro hin
    rw [if_neg (fun hout => hleaves.mp hout hin)]
    rw [inYears_iff_bounds] at hin
    refine ⟨_, rfl, ?_⟩
    rw [← hinstant, Gregorian.momentOfInstant_of_instant, hu]
    have hmoved : (civilFromDays (d.epochDay + days)).Denotes
        (Gregorian.ofNumber (t.date.number + k)) :=
      civilFromDays_denotes (toInt_add hhere hk (by omega)) (by omega)
    exact ⟨hmoved, h.hour, h.minute, h.second, h.nanosecond⟩
  · intro hout
    rw [if_pos (hleaves.mpr hout)]
    exact ⟨_, rfl, rfl⟩

theorem DateTime.Denotes.plusNanos (h : d.Denotes t)
    (hyear : 1 ≤ t.date.year ∧ t.date.year ≤ 9999) (nanos : Int64) :
    Answers (d.plusNanos nanos) (t.instant + nanos.toInt * 1) := by
  have hdays : (floorDiv nanos nanosPerDay).toInt =
      nanos.toInt / 86400000000000 :=
    toInt_floorDiv rfl (show nanosPerDay.toInt = 86400000000000 from rfl)
      (by decide)
  have hrest := toInt_sub_mul hdays
    (show nanosPerDay.toInt = 86400000000000 from rfl) (w := nanos) rfl
    (by omega)
  have hanswer := h.shiftDaysAndNanos hyear hdays hrest (by omega)
    (intText nanos ++ ascii " nanoseconds")
  have hsum : t.instant + nanos.toInt * 1 =
      t.instant + nanos.toInt / 86400000000000 * 86400000000000 +
        (nanos.toInt - nanos.toInt / 86400000000000 * 86400000000000) := by
    omega
  rw [hsum]
  exact hanswer

theorem DateTime.Denotes.plusSeconds (h : d.Denotes t)
    (hyear : 1 ≤ t.date.year ∧ t.date.year ≤ 9999) (seconds : Int64) :
    Answers (d.plusSeconds seconds)
      (t.instant + seconds.toInt * 1000000000) := by
  have hdays : (floorDiv seconds secondsPerDay).toInt =
      seconds.toInt / 86400 :=
    toInt_floorDiv rfl (show secondsPerDay.toInt = 86400 from rfl) (by decide)
  have hrest := toInt_sub_mul hdays
    (show secondsPerDay.toInt = 86400 from rfl) (w := seconds) rfl (by omega)
  have hnanos := toInt_mul hrest
    (show nanosPerSecond.toInt = 1000000000 from rfl) (by omega)
  have hanswer := h.shiftDaysAndNanos hyear hdays hnanos (by omega)
    (intText seconds ++ ascii " seconds")
  have hsum : t.instant + seconds.toInt * 1000000000 =
      t.instant + seconds.toInt / 86400 * 86400000000000 +
        (seconds.toInt - seconds.toInt / 86400 * 86400) * 1000000000 := by
    omega
  rw [hsum]
  exact hanswer

/-- An operand past the bound of `plus_minutes` or `plus_hours` is past the end
of the calendar. -/
theorem answers_outside (hyear : 1 ≤ t.date.year ∧ t.date.year ≤ 9999) {n : ℤ}
    (hn : n ≤ -1000000000000000000000 ∨ 1000000000000000000000 ≤ n) (msg : Text) :
    Answers (err msg "range") (t.instant + n) := by
  have hseconds := DateTime.Denotes.seconds_bounds hyear
  have hnano := t.nanosecond_bounds
  have hinstant : t.instant = t.seconds * 1000000000 + t.nanosecond := rfl
  have hout : ¬ InYears ((t.instant + n) / 86400000000000) := by
    rw [inYears_iff_bounds]
    omega
  exact ⟨fun hin => absurd hin hout, fun _ => ⟨_, rfl, rfl⟩⟩

theorem DateTime.Denotes.plusMinutes (h : d.Denotes t)
    (hyear : 1 ≤ t.date.year ∧ t.date.year ≤ 9999) (minutes : Int64) :
    Answers (d.plusMinutes minutes)
      (t.instant + minutes.toInt * 60000000000) := by
  have hlow : minutes < -153722867280912 ↔ minutes.toInt < -153722867280912 :=
    lt_iff rfl rfl
  have hhigh : minutes > 153722867280912 ↔ 153722867280912 < minutes.toInt :=
    lt_iff rfl rfl
  unfold DateTime.plusMinutes
  simp only [hlow, hhigh]
  split_ifs with hout
  · exact answers_outside hyear (by omega) _
  · have hseconds := toInt_mul (x := minutes) rfl
      (show secondsPerMinute.toInt = 60 from rfl) (by omega)
    have hanswer := h.plusSeconds hyear (minutes * secondsPerMinute)
    rw [hseconds, mul_assoc] at hanswer
    exact hanswer

theorem DateTime.Denotes.plusHours (h : d.Denotes t)
    (hyear : 1 ≤ t.date.year ∧ t.date.year ≤ 9999) (hours : Int64) :
    Answers (d.plusHours hours) (t.instant + hours.toInt * 3600000000000) := by
  have hlow : hours < -2562047788015 ↔ hours.toInt < -2562047788015 :=
    lt_iff rfl rfl
  have hhigh : hours > 2562047788015 ↔ 2562047788015 < hours.toInt :=
    lt_iff rfl rfl
  unfold DateTime.plusHours
  simp only [hlow, hhigh]
  split_ifs with hout
  · exact answers_outside hyear (by omega) _
  · have hseconds := toInt_mul (x := hours) rfl
      (show secondsPerHour.toInt = 3600 from rfl) (by omega)
    have hanswer := h.plusSeconds hyear (hours * secondsPerHour)
    rw [hseconds, mul_assoc] at hanswer
    exact hanswer

/-- `plus` adds `n` units of `unit` nanoseconds: it succeeds exactly when the
calendar has the sum, the result is the valid value of the sum, and subtracting
again gives the value back. -/
structure AddsExactly
    (plus : DateTime → Int64 → Result DateTime)
    (unit : ℤ) : Prop where
  ok_iff : ∀ d n, d.Valid →
    ((∃ e, plus d n = .ok e) ↔
      InYears ((d.instant + n.toInt * unit) / 86400000000000))
  exact : ∀ d n e, d.Valid → plus d n = .ok e →
    e.Valid ∧ e.instant = d.instant + n.toInt * unit
  error : ∀ d n, d.Valid →
    ¬ InYears ((d.instant + n.toInt * unit) / 86400000000000) →
    ∃ e : BeansError, plus d n = .error e ∧ e.kind = ascii "range"
  restores : ∀ d n e, d.Valid → n ≠ Int64.minValue → plus d n = .ok e →
    plus e (-n) = .ok d

theorem Answers.ok_denotes {answer : Result DateTime} {n : ℤ} (h : Answers answer n)
    {e : DateTime} (he : answer = .ok e) :
    InYears (n / 86400000000000) ∧
      e.Denotes (Gregorian.momentOfInstant n) := by
  by_cases hin : InYears (n / 86400000000000)
  · obtain ⟨e', he', hden⟩ := h.1 hin
    rw [he] at he'
    cases he'
    exact ⟨hin, hden⟩
  · obtain ⟨e', he', -⟩ := h.2 hin
    rw [he] at he'
    cases he'

theorem momentOfInstant_years {n : ℤ} (h : InYears (n / 86400000000000)) :
    1 ≤ (Gregorian.momentOfInstant n).date.year ∧
      (Gregorian.momentOfInstant n).date.year ≤ 9999 := by
  rw [← Gregorian.momentOfInstant_number] at h
  exact (inYears_iff _).mp h

theorem toInt_neg_of_ne {n : Int64} (h : n ≠ Int64.minValue) :
    (-n).toInt = -n.toInt := by
  have hfits := fits_toInt n
  have hmin : n.toInt ≠ -2 ^ 63 := fun heq => h (eq_of_toInt (heq.trans rfl))
  rw [Int64.toInt_neg]
  exact bmod_of_fits (by omega)

theorem addsExactly_of_answers {plus : DateTime → Int64 → Result DateTime} {unit : ℤ}
    (h : ∀ {d t}, DateTime.Denotes d t →
      1 ≤ t.date.year ∧ t.date.year ≤ 9999 →
      ∀ n : Int64, Answers (plus d n) (t.instant + n.toInt * unit)) :
    AddsExactly plus unit where
  ok_iff d n hd := by
    obtain ⟨t, ht, hyear⟩ := hd.denotes
    rw [ht.instant]
    constructor
    · rintro ⟨e, he⟩
      exact ((h ht hyear n).ok_denotes he).1
    · intro hin
      obtain ⟨e, he, -⟩ := (h ht hyear n).1 hin
      exact ⟨e, he⟩
  exact d n e hd he := by
    obtain ⟨t, ht, hyear⟩ := hd.denotes
    obtain ⟨hin, hden⟩ := (h ht hyear n).ok_denotes he
    refine ⟨hden.valid (momentOfInstant_years hin), ?_⟩
    rw [hden.instant, Gregorian.momentOfInstant_instant, ht.instant]
  error d n hd hout := by
    obtain ⟨t, ht, hyear⟩ := hd.denotes
    rw [ht.instant] at hout
    exact (h ht hyear n).2 hout
  restores d n e hd hn he := by
    obtain ⟨t, ht, hyear⟩ := hd.denotes
    obtain ⟨hin, hden⟩ := (h ht hyear n).ok_denotes he
    have hback := h hden (momentOfInstant_years hin) (-n)
    have hsum : (Gregorian.momentOfInstant (t.instant + n.toInt * unit)).instant
        + (-n).toInt * unit = t.instant := by
      rw [Gregorian.momentOfInstant_instant, toInt_neg_of_ne hn]
      ring
    rw [hsum] at hback
    have hhere : InYears (t.instant / 86400000000000) := by
      rw [← Gregorian.momentOfInstant_number,
        Gregorian.momentOfInstant_of_instant]
      exact (inYears_iff _).mpr hyear
    obtain ⟨e', he', hden'⟩ := hback.1 hhere
    rw [Gregorian.momentOfInstant_of_instant] at hden'
    rw [he', hden'.unique ht]

/-- Adding a 64-bit count of any unit is exact or a range error. -/
theorem calendar_addition_exact :
    AddsExactly DateTime.plusNanos 1 ∧
    AddsExactly DateTime.plusSeconds 1000000000 ∧
    AddsExactly DateTime.plusMinutes 60000000000 ∧
    AddsExactly DateTime.plusHours 3600000000000 ∧
    AddsExactly DateTime.plusDays 86400000000000 :=
  ⟨addsExactly_of_answers fun ht hyear => ht.plusNanos hyear,
    addsExactly_of_answers fun ht hyear => ht.plusSeconds hyear,
    addsExactly_of_answers fun ht hyear => ht.plusMinutes hyear,
    addsExactly_of_answers fun ht hyear => ht.plusHours hyear,
    addsExactly_of_answers fun ht hyear _ => ht.shiftDays hyear rfl⟩

/-- An hour before noon of the first day, and a day too many. -/
theorem calendar_addition_exact_at_ends :
    (∃ e, DateTime.plusHours ⟨1, 1, 1, 12, 0, 0, 0⟩ (-1) = .ok e) ∧
      DateTime.plusHours ⟨1, 1, 1, 11, 0, 0, 0⟩ (-(-1)) =
        .ok ⟨1, 1, 1, 12, 0, 0, 0⟩ ∧
      ∃ e : BeansError,
        DateTime.plusDays ⟨9999, 12, 31, 0, 0, 0, 0⟩ 1 = .error e ∧
          e.kind = ascii "range" := by
  have hnoon : (DateTime.mk 1 1 1 12 0 0 0).Valid :=
    ⟨by decide, ⟨by decide, by decide, by decide, by decide⟩, by decide,
      by decide, by decide, by decide⟩
  have hlast : (DateTime.mk 9999 12 31 0 0 0 0).Valid :=
    ⟨by decide, ⟨by decide, by decide, by decide, by decide⟩, by decide,
      by decide, by decide, by decide⟩
  refine ⟨(calendar_addition_exact.2.2.2.1.ok_iff _ (-1) hnoon).mpr ?_,
    calendar_addition_exact.2.2.2.1.restores _ (-1) _ hnoon (by decide) ?_,
    calendar_addition_exact.2.2.2.2.error _ 1 hlast ?_⟩
  · rw [inYears_iff_bounds]
    decide
  · rfl
  · rw [inYears_iff_bounds]
    decide

end Calendar
end Beans
