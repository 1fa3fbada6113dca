/-!
# The calendar

The lengths of months and years, and the date of a moment.
-/

namespace OpManifest.Calendar

/-- The year is a leap year. -/
def isLeapYear (year : Nat) : Bool := year % 4 = 0 && (year % 100 ≠ 0 || year % 400 = 0)

/-- How many days a month has. -/
def daysIn (year month : Nat) : Nat :=
  if month = 2 then if isLeapYear year then 29 else 28
  else if [4, 6, 9, 11].contains month then 30
  else 31

/-- How many days a year has. -/
def yearLength (year : Nat) : Nat := if isLeapYear year then 366 else 365

theorem yearLength_pos (year : Nat) : 0 < yearLength year := by
  unfold yearLength
  split <;> omega

/-- The year that lies so many days after the start of the given one, and the
days that are left. -/
def yearAfter (year days : Nat) : Nat × Nat :=
  if yearLength year ≤ days then yearAfter (year + 1) (days - yearLength year) else (year, days)
termination_by days
decreasing_by
  have := yearLength_pos year
  omega

/-- The month and the day of it, so many days after the start of the year. -/
def monthAfter (year days : Nat) : List Nat → Nat × Nat
  | [] => (12, days + 1)
  | month :: months =>
    if days < daysIn year month then (month, days + 1)
    else monthAfter year (days - daysIn year month) months

/-- A number with at least so many digits. -/
def padded (count : Nat) (n : Nat) : List Char :=
  let digits := Nat.toDigits 10 n
  List.replicate (count - digits.length) '0' ++ digits

/-- The date and the time of a moment, given in seconds since the start of
1970. -/
def dateText (seconds : Nat) : String :=
  let (year, days) := yearAfter 1970 (seconds / 86400)
  let (month, day) := monthAfter year days [1, 2, 3, 4, 5, 6, 7, 8, 9, 10, 11, 12]
  let time := seconds % 86400
  .ofList (padded 4 year ++ '-' :: padded 2 month ++ '-' :: padded 2 day ++ ' ' ::
    padded 2 (time / 3600) ++ ':' :: padded 2 (time % 3600 / 60) ++ ':' :: padded 2 (time % 60))

end OpManifest.Calendar
