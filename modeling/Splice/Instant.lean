import Splice.Text.Basic

/-!
# Moments

A moment is a number of nanoseconds since the start of 1970.  It is written as a
date and a time of day in UTC, with as many digits of the second as it needs, and
may be read with any distance from UTC.
-/

namespace Splice

/-- Nanoseconds since the start of 1970. -/
structure Instant where
  nanoseconds : Int
deriving DecidableEq, Repr, Inhabited

namespace Instant

/-- The moment that stands for none: the start of year 1. -/
def unset : Instant := ⟨-62135596800000000000⟩

def nanosPerSecond : Nat := 1000000000

def secondsPerDay : Nat := 86400

/-- A day of the calendar. -/
structure Date where
  year : Int
  month : Nat
  day : Nat
deriving DecidableEq, Repr, Inhabited

/-- Days from the start of March of year 0 to the start of 1970. -/
def epochShift : Int := 719468

/-- Days in 400 years. -/
def daysPerEra : Nat := 146097

/-- Days since the start of 1970.  Years are counted from March on, so that a leap
day ends its year. -/
def Date.toDays (d : Date) : Int :=
  let year := if d.month ≤ 2 then d.year - 1 else d.year
  let era := year / 400
  let yearOfEra := year % 400
  let dayOfYear := (153 * ((d.month + 9) % 12) + 2) / 5 + d.day - 1
  era * daysPerEra + (yearOfEra * 365 + yearOfEra / 4 - yearOfEra / 100 + dayOfYear) - epochShift

/-- The day that is so many days after the start of 1970. -/
def Date.ofDays (days : Int) : Date :=
  let shifted := days + epochShift
  let era := shifted / daysPerEra
  let dayOfEra := (shifted % daysPerEra).toNat
  let yearOfEra :=
    (dayOfEra - dayOfEra / 1460 + dayOfEra / 36524 - dayOfEra / 146096) / 365
  let dayOfYear := dayOfEra - (365 * yearOfEra + yearOfEra / 4 - yearOfEra / 100)
  let monthFromMarch := (5 * dayOfYear + 2) / 153
  let month := if monthFromMarch < 10 then monthFromMarch + 3 else monthFromMarch - 9
  { year := yearOfEra + era * 400 + if month ≤ 2 then 1 else 0
    month
    day := dayOfYear - (153 * monthFromMarch + 2) / 5 + 1 }

def isLeapYear (year : Int) : Bool := year % 4 == 0 && (year % 100 != 0 || year % 400 == 0)

def daysOfMonth (year : Int) (month : Nat) : Nat :=
  if month == 2 then (if isLeapYear year then 29 else 28)
  else if month == 4 || month == 6 || month == 9 || month == 11 then 30
  else 31

/-- Whether a month has a day. -/
def isDay (year : Int) (month day : Nat) : Bool :=
  0 < month && month ≤ 12 && 0 < day && day ≤ daysOfMonth year month

/-! ## Writing -/

def padded (width n : Nat) : Text := Text.padLeft 48 width (Text.ofNat n)

/-- The digits of a part of a second, without zeros at their end. -/
def fractionDigits (nanos : Nat) : Text :=
  ((padded 9 nanos).reverse.dropWhile (· == 48)).reverse

/-- A year with at least four digits. -/
def yearText (year : Int) : Text :=
  (if year < 0 then ("-" : Text) else []) ++ padded 4 year.natAbs

/-- The moment in UTC; a whole second has no fraction. -/
def text (t : Instant) : Text :=
  let seconds := t.nanoseconds / nanosPerSecond
  let nanos := (t.nanoseconds % nanosPerSecond).toNat
  let date := Date.ofDays (seconds / secondsPerDay)
  let secondOfDay := (seconds % secondsPerDay).toNat
  let fraction : Text := if nanos == 0 then [] else "." ++ fractionDigits nanos
  yearText date.year ++ "-" ++ padded 2 date.month ++ "-" ++ padded 2 date.day ++ "T" ++
    padded 2 (secondOfDay / 3600) ++ ":" ++ padded 2 (secondOfDay / 60 % 60) ++ ":" ++
    padded 2 (secondOfDay % 60) ++ fraction ++ "Z"

/-! ## Reading -/

/-- How moments are written. -/
def layout : Text := "2006-01-02T15:04:05.999999999Z07:00"

/-- Why a moment cannot be read back from its text: years have exactly four digits
there.  What is left at that point comes with what was expected. -/
def unreadable? (t : Instant) : Option (Text × Text) :=
  let year := (Date.ofDays (t.nanoseconds / nanosPerSecond / secondsPerDay)).year
  if year < 0 then some (t.text, "2006")
  else if 9999 < year then some (t.text.drop 4, "-")
  else none

/-- A number of exactly so many digits. -/
def number? (width : Nat) (t : Text) : Option (Nat × Text) :=
  if t.length < width then none
  else (Text.toNat? (t.take width)).map fun n => (n, t.drop width)

/-- A number of one or two digits. -/
private def shortNumber? (t : Text) : Option (Nat × Text) := (number? 2 t).or (number? 1 t)

/-- What follows a byte. -/
def mark? (b : UInt8) : Text → Option Text
  | c :: rest => if c == b then some rest else none
  | [] => none

/-- Nanoseconds of a fraction behind a point or a comma; digits beyond the ninth are
dropped. -/
def fraction? : Text → Option (Nat × Text)
  | [] => some (0, [])
  | b :: rest =>
      if b == 46 || b == 44 then
        let digits := rest.takeWhile fun b => (Text.digit? b).isSome
        (Text.toNat? ((digits ++ List.replicate 9 48).take 9)).bind fun n =>
          if digits.isEmpty then none else some (n, rest.drop digits.length)
      else some (0, b :: rest)

/-- Seconds east of UTC. -/
def offset? : Text → Option Int
  | [90] => some 0
  | sign :: rest => do
      let (hours, rest) ← number? 2 rest
      let rest ← mark? 58 rest
      let (minutes, rest) ← number? 2 rest
      if !rest.isEmpty || 24 < hours || 60 < minutes then none
      let seconds : Int := hours * 3600 + minutes * 60
      if sign == 43 then some seconds else if sign == 45 then some (-seconds) else none
  | [] => none

def parse? (t : Text) : Option Instant := do
  let (year, t) ← number? 4 t
  let (month, t) ← number? 2 (← mark? 45 t)
  let (day, t) ← number? 2 (← mark? 45 t)
  let (hour, t) ← shortNumber? (← mark? 84 t)
  let (minute, t) ← number? 2 (← mark? 58 t)
  let (second, t) ← number? 2 (← mark? 58 t)
  let (nanos, t) ← fraction? t
  let east ← offset? t
  if !isDay year month day then none
  if 23 < hour || 59 < minute || 59 < second then none
  let days := Date.toDays ⟨year, month, day⟩
  let seconds := days * secondsPerDay + (hour * 3600 + minute * 60 + second : Nat) - east
  some ⟨seconds * nanosPerSecond + nanos⟩

end Instant

end Splice
