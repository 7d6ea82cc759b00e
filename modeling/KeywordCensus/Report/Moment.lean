/-!
# Moments

The moment at which a report is made, from the number of seconds since the beginning of 1970, as a
day of the calendar and a time of the day.
-/

namespace KeywordCensus

/-- A moment, to the minute. -/
structure Moment where
  /-- The year. -/
  year : Nat
  /-- The month, January being one. -/
  month : Nat
  /-- The day of the month. -/
  day : Nat
  /-- The hour. -/
  hour : Nat
  /-- The minute. -/
  minute : Nat
  deriving DecidableEq, Repr

namespace Moment

/-- The days from the first of March of the year zero to the beginning of 1970. -/
def daysBefore1970 : Nat := 719468

/-- The day of the calendar so many days after the beginning of 1970, as year, month and day. Years
begin in March here, so that a leap day is the last day of its year. -/
def calendarDay (days : Nat) : Nat × Nat × Nat :=
  let days := days + daysBefore1970
  let inEra := days % 146097
  let yearOfEra := (inEra - inEra / 1460 + inEra / 36524 - inEra / 146096) / 365
  let inYear := inEra - (365 * yearOfEra + yearOfEra / 4 - yearOfEra / 100)
  let fromMarch := (5 * inYear + 2) / 153
  let day := inYear - (153 * fromMarch + 2) / 5 + 1
  let year := days / 146097 * 400 + yearOfEra
  if fromMarch < 10 then (year, fromMarch + 3, day) else (year + 1, fromMarch - 9, day)

/-- The moment so many seconds after the beginning of 1970. -/
def ofSeconds (seconds : Nat) : Moment :=
  let (year, month, day) := calendarDay (seconds / 86400)
  ⟨year, month, day, seconds / 3600 % 24, seconds / 60 % 60⟩

/-- A number with at least two digits. -/
def twoDigits (n : Nat) : String := if n < 10 then s!"0{n}" else toString n

/-- The text of a moment. -/
def text (m : Moment) : String :=
  s!"{twoDigits m.day}.{twoDigits m.month}.{m.year} - {twoDigits m.hour}:{twoDigits m.minute}"

example : ofSeconds 0 = ⟨1970, 1, 1, 0, 0⟩ := by decide

example : ofSeconds 951782399 = ⟨2000, 2, 28, 23, 59⟩ := by decide

example : ofSeconds 951782400 = ⟨2000, 2, 29, 0, 0⟩ := by decide

end Moment

end KeywordCensus
