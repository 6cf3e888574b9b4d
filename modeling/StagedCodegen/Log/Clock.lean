/-!
# Times

A moment, counted in nanoseconds from the beginning of the year 1970, as a text: the date and the
time of day in universal time.

Main statement: `foldl_monthLengths`, the months of a year have all its days.
-/

namespace StagedCodegen.Log.Clock

/-- A year has a day more. -/
def isLeap (year : Nat) : Bool := year % 4 == 0 && (year % 100 != 0 || year % 400 == 0)

/-- How many days a year has. -/
def daysInYear (year : Nat) : Nat := if isLeap year then 366 else 365

/-- How many days the months of a year have. -/
def monthLengths (year : Nat) : List Nat :=
  [31, if isLeap year then 29 else 28, 31, 30, 31, 30, 31, 31, 30, 31, 30, 31]

theorem foldl_monthLengths (year : Nat) :
    (monthLengths year).foldl (· + ·) 0 = daysInYear year := by
  unfold monthLengths daysInYear
  split <;> rfl

/-- The year of a day that is counted from the beginning of an earlier year, and the day of its own
year, counted from zero. -/
def yearOf : (fuel : Nat) → (year day : Nat) → Nat × Nat
  | 0, year, day => (year, day)
  | fuel + 1, year, day =>
    if day < daysInYear year then (year, day) else yearOf fuel (year + 1) (day - daysInYear year)

/-- The month of a day of its year, and the day of that month, both counted from one. -/
def monthOf : (month : Nat) → (lengths : List Nat) → (day : Nat) → Nat × Nat
  | month, [], day => (month, day + 1)
  | month, n :: ns, day => if day < n then (month, day + 1) else monthOf (month + 1) ns (day - n)

/-- A number with zeros in front, at least so wide. -/
def padded (width n : Nat) : String :=
  let digits := toString n
  String.ofList (List.replicate (width - digits.length) '0') ++ digits

/-- The date of a day, counted from the beginning of the year 1970. -/
def dateText (days : Nat) : String :=
  let (year, day) := yearOf (days / 365 + 1) 1970 days
  let (month, dayOfMonth) := monthOf 1 (monthLengths year) day
  padded 4 year ++ "-" ++ padded 2 month ++ "-" ++ padded 2 dayOfMonth

/-- The time of day, in seconds. -/
def timeText (seconds : Nat) : String :=
  padded 2 (seconds / 3600) ++ ":" ++ padded 2 (seconds / 60 % 60) ++ ":" ++ padded 2 (seconds % 60)

/-- A moment, in nanoseconds from the beginning of the year 1970. -/
def text (nanoseconds : Nat) : String :=
  let seconds := nanoseconds / 1000000000
  dateText (seconds / 86400) ++ "T" ++ timeText (seconds % 86400) ++ "." ++
    padded 9 (nanoseconds % 1000000000) ++ "+00:00"

end StagedCodegen.Log.Clock
