import SignedHttp.Time.Instant

namespace SignedHttp.Calendar

structure Date where
  year : Int
  month : Nat
  day : Nat
  deriving DecidableEq, Repr

def isLeapYear (y : Int) : Bool :=
  y % 4 == 0 && (y % 100 != 0 || y % 400 == 0)

def monthLength (y : Int) (month : Nat) : Nat :=
  if month == 2 then (if isLeapYear y then 29 else 28)
  else if month == 4 || month == 6 || month == 9 || month == 11 then 30
  else 31

/-- The dates between the earliest and the latest instant. -/
def Date.valid (d : Date) : Bool :=
  -262143 ≤ d.year && d.year ≤ 262142 && 1 ≤ d.month && d.month ≤ 12 &&
    1 ≤ d.day && d.day ≤ monthLength d.year d.month

/-- Days since the first of January 1970. Years are counted from March, so that a leap day is
the last of its year. -/
def Date.number (d : Date) : Int :=
  let y := if d.month ≤ 2 then d.year - 1 else d.year
  let era := y / 400
  let yearOfEra := y - era * 400
  let dayOfYear : Int := (153 * ((d.month + 9) % 12) + 2) / 5 + d.day - 1
  era * 146097 + yearOfEra * 365 + yearOfEra / 4 - yearOfEra / 100 + dayOfYear - 719468

def Date.ofNumber (n : Int) : Date :=
  let z := n + 719468
  let era := z / 146097
  let dayOfEra := z - era * 146097
  let yearOfEra := (dayOfEra - dayOfEra / 1460 + dayOfEra / 36524 - dayOfEra / 146096) / 365
  let dayOfYear := dayOfEra - (365 * yearOfEra + yearOfEra / 4 - yearOfEra / 100)
  let march := (5 * dayOfYear + 2) / 153
  let day := dayOfYear - (153 * march + 2) / 5 + 1
  let month := if march < 10 then march + 3 else march - 9
  let year := yearOfEra + era * 400
  ⟨if month ≤ 2 then year + 1 else year, month.toNat, day.toNat⟩

/-- Days since Sunday. -/
def weekday (dayNumber : Int) : Nat :=
  ((dayNumber + 4) % 7).toNat

def weekdayNames : List String := ["Sun", "Mon", "Tue", "Wed", "Thu", "Fri", "Sat"]

def monthNames : List String :=
  ["Jan", "Feb", "Mar", "Apr", "May", "Jun", "Jul", "Aug", "Sep", "Oct", "Nov", "Dec"]

/-- A moment of a day in UTC, to the nanosecond. In a leap second, `nanos` goes on from a
billion to two. -/
structure Moment where
  dayNumber : Int
  second : Nat
  nanos : Nat
  deriving DecidableEq, Repr

namespace Moment

def inRange? (m : Moment) : Option Moment :=
  if -96465292 ≤ m.dayNumber && m.dayNumber ≤ 95026236 then some m else none

def ofInstant (t : Instant) : Moment :=
  ⟨t.seconds / 86400, (t.seconds % 86400).toNat, t.subsecond⟩

def date (m : Moment) : Date :=
  Date.ofNumber m.dayNumber

/-- The time on a clock: hours, minutes and seconds, sixty of them in a leap second. -/
def clock (m : Moment) : Nat × Nat × Nat :=
  (m.second / 3600, m.second / 60 % 60, m.second % 60 + m.nanos / billion)

def fraction (m : Moment) : Nat :=
  m.nanos % billion

/-- The moment at which a clock `offset` seconds ahead of UTC shows the given date and time, if
there are such a date, time and offset and the moment is in range. -/
def ofLocal? (d : Date) (hour minute second nanos : Nat) (offset : Int) : Option Moment :=
  if d.valid && hour < 24 && minute < 60 && second ≤ 60 && -86400 < offset && offset < 86400 then
    let leap : Nat := if second == 60 then 1 else 0
    let shown : Int := 3600 * hour + 60 * minute + second - leap - offset
    inRange? ⟨d.number + shown / 86400, (shown % 86400).toNat, nanos + leap * billion⟩
  else none

/-- A year in four digits, or with a sign outside the years zero to 9999. -/
def yearText (y : Int) : List Char :=
  if 0 ≤ y && y ≤ 9999 then Text.padded 4 y.natAbs
  else (if y < 0 then '-' else '+') :: Text.padded 4 y.natAbs

end Moment

end SignedHttp.Calendar
