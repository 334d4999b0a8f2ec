import Beans.Calendar.Civil
import Beans.Runtime.Text

/-!
# Date and time of day

A `DateTime` is a civil date, a time of day and a nanosecond, in UTC.  It is
built from counts of seconds, milliseconds and nanoseconds since 1970, and
gives them back.
-/

namespace Beans
namespace Calendar

def nanosPerSecond : Int64 := 1000000000
def nanosPerDay : Int64 := 86400000000000
def secondsPerDay : Int64 := 86400
def secondsPerHour : Int64 := 3600
def secondsPerMinute : Int64 := 60

def minYear : Int64 := 1
def maxYear : Int64 := 9999

def minEpochSeconds : Int64 := -62135596800
def maxEpochSeconds : Int64 := 253402300799

def minNanosSecond : Int64 := -9223372037
def maxNanosSecond : Int64 := 9223372036
def minNanosFraction : Int64 := 145224192
def maxNanosFraction : Int64 := 854775807

/-- `"{value}"`. -/
def intText (value : Int64) : Text :=
  Text.ofInt value.toInt

/-- The loop that puts zeros in front until `missing` bytes were added. -/
def padZeros : ℕ → Text → Text
  | 0, text => text
  | missing + 1, text => padZeros missing (48 :: text)

/-- Zero-padded decimal. -/
def pad (value : Int64) (width : ℕ) : Text :=
  padZeros (width - (intText value).length) (intText value)

/-- A moment by its fields. -/
structure DateTime where
  year : Int64
  month : Int64
  day : Int64
  hour : Int64
  minute : Int64
  second : Int64
  nanosecond : Int64
deriving DecidableEq

/-- Days and the rest of a day, both rounded down. -/
def buildFromSeconds (seconds nanosecond : Int64) : DateTime :=
  let days := floorDiv seconds secondsPerDay
  let within := seconds - days * secondsPerDay
  let date := civilFromDays days
  { year := date.year
    month := date.month
    day := date.day
    hour := within / secondsPerHour
    minute := (within / secondsPerMinute) % 60
    second := within % 60
    nanosecond := nanosecond }

namespace DateTime

/-- Every word of nanoseconds is a moment. -/
def fromEpochNanos (nanos : Int64) : DateTime :=
  let seconds := floorDiv nanos nanosPerSecond
  let fraction := nanos - seconds * nanosPerSecond
  buildFromSeconds seconds fraction

/-- Outside of the calendar it is a range error. -/
def fromEpochMillis (millis : Int64) : Result DateTime :=
  let seconds := floorDiv millis 1000
  let fraction := (millis - seconds * 1000) * 1000000
  if seconds < minEpochSeconds ∨ seconds > maxEpochSeconds then
    err (ascii "epoch millisecond " ++ intText millis ++
      ascii " is outside years 1..9999") "range"
  else .ok (buildFromSeconds seconds fraction)

def fromEpochSeconds (seconds : Int64) : Result DateTime :=
  if seconds < minEpochSeconds ∨ seconds > maxEpochSeconds then
    err (ascii "epoch second " ++ intText seconds ++
      ascii " is outside years 1..9999") "range"
  else .ok (buildFromSeconds seconds 0)

variable (self : DateTime)

def epochDay : Int64 :=
  daysFromCivil self.year self.month self.day

def epochSeconds : Int64 :=
  self.epochDay * secondsPerDay + self.hour * secondsPerHour +
    self.minute * secondsPerMinute + self.second

def epochMillis : Int64 :=
  self.epochSeconds * 1000 + self.nanosecond / 1000000

def toDateString : Text :=
  pad self.year 4 ++ ascii "-" ++ pad self.month 2 ++ ascii "-" ++
    pad self.day 2

def toTimeString : Text :=
  pad self.hour 2 ++ ascii ":" ++ pad self.minute 2 ++ ascii ":" ++
    pad self.second 2

def toRfc3339 : Text :=
  let stamp := self.toDateString ++ ascii "T" ++ self.toTimeString
  if self.nanosecond = 0 then stamp ++ ascii "Z"
  else stamp ++ ascii "." ++ pad self.nanosecond 9 ++ ascii "Z"

/-- Both ends of the window stop part-way through a second, so the fraction is
checked against what is left of it. -/
def epochNanos : Result Int64 :=
  let seconds := self.epochSeconds
  if seconds < minNanosSecond ∨ seconds > maxNanosSecond then
    err (self.toRfc3339 ++ ascii " is outside the nanosecond epoch range")
      "range"
  else if seconds = maxNanosSecond ∧ self.nanosecond > maxNanosFraction then
    err (self.toRfc3339 ++ ascii " is outside the nanosecond epoch range")
      "range"
  else if seconds = minNanosSecond ∧ self.nanosecond < minNanosFraction then
    err (self.toRfc3339 ++ ascii " is outside the nanosecond epoch range")
      "range"
  else .ok (seconds * nanosPerSecond + self.nanosecond)

/-- The move by whole days and a remainder of less than a day; `subject` names
the caller's unit. -/
def shiftDaysAndNanos (days nanos : Int64) (subject : Text) :
    Result DateTime :=
  let start := self.hour * secondsPerHour * nanosPerSecond +
    self.minute * secondsPerMinute * nanosPerSecond +
    self.second * nanosPerSecond + self.nanosecond
  let total := start + nanos
  let carry := floorDiv total nanosPerDay
  let within := total - carry * nanosPerDay
  let first := daysFromCivil minYear 1 1
  let last := daysFromCivil maxYear 12 31
  let here := self.epochDay
  if days < first - here - carry ∨ days > last - here - carry then
    err (ascii "adding " ++ subject ++ ascii " leaves the calendar") "range"
  else
    let moved := civilFromDays (here + days + carry)
    let whole := within / nanosPerSecond
    .ok
      { year := moved.year
        month := moved.month
        day := moved.day
        hour := whole / secondsPerHour
        minute := (whole / secondsPerMinute) % 60
        second := whole % 60
        nanosecond := within - whole * nanosPerSecond }

/-- The move by whole days; the time of day stays. -/
def shiftDays (days : Int64) : Result DateTime :=
  let first := daysFromCivil minYear 1 1
  let last := daysFromCivil maxYear 12 31
  let here := self.epochDay
  if days < first - here ∨ days > last - here then
    err (ascii "adding " ++ intText days ++ ascii " days leaves the calendar")
      "range"
  else
    let moved := civilFromDays (here + days)
    .ok { self with year := moved.year, month := moved.month, day := moved.day }

def plusNanos (nanos : Int64) : Result DateTime :=
  let days := floorDiv nanos nanosPerDay
  let rest := nanos - days * nanosPerDay
  self.shiftDaysAndNanos days rest (intText nanos ++ ascii " nanoseconds")

def plusSeconds (seconds : Int64) : Result DateTime :=
  let days := floorDiv seconds secondsPerDay
  let rest := seconds - days * secondsPerDay
  self.shiftDaysAndNanos days (rest * nanosPerSecond)
    (intText seconds ++ ascii " seconds")

/-- A count that would not fit in seconds is refused first. -/
def plusMinutes (minutes : Int64) : Result DateTime :=
  if minutes < -153722867280912 ∨ minutes > 153722867280912 then
    err (ascii "adding " ++ intText minutes ++
      ascii " minutes leaves the calendar") "range"
  else self.plusSeconds (minutes * secondsPerMinute)

def plusHours (hours : Int64) : Result DateTime :=
  if hours < -2562047788015 ∨ hours > 2562047788015 then
    err (ascii "adding " ++ intText hours ++ ascii " hours leaves the calendar")
      "range"
  else self.plusSeconds (hours * secondsPerHour)

def plusDays (days : Int64) : Result DateTime :=
  self.shiftDays days

end DateTime

end Calendar
end Beans
