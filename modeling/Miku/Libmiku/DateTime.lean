import Mathlib.Data.List.Basic

/-! The calendar of `datetime.rs`. Years are from 1970 on, and do not leave their 32 bits. -/

namespace Miku.Libmiku

structure DateTime where
  year : Nat
  month : Nat
  day : Nat
  hour : Nat
  minute : Nat
  second : Nat
  weekday : Nat
  yearday : Nat

namespace DateTime

def isLeap (y : Nat) : Bool := (y % 4 == 0 && y % 100 != 0) || y % 400 == 0

def daysInMonth (m y : Nat) : Nat :=
  if m == 2 && isLeap y then 29 else [31,28,31,30,31,30,31,31,30,31,30,31].getD (m - 1) 0

def yearDays (y : Nat) : Nat := if isLeap y then 366 else 365

/-- The year, and the days left in it. -/
def yearLoop (y remaining : Nat) : Nat × Nat :=
  if remaining < yearDays y then (y,remaining) else yearLoop (y + 1) (remaining - yearDays y)
termination_by remaining
decreasing_by
  have : 0 < yearDays y := by unfold yearDays; split <;> decide
  omega

/-- The month, and the days left in it; `n` months are still to come. -/
def monthLoop (y : Nat) : Nat → Nat → Nat → Nat × Nat
  | 0, m, remaining => (m,remaining)
  | n + 1, m, remaining =>
    if remaining < daysInMonth m y then (m,remaining)
    else monthLoop y n (m + 1) (remaining - daysInMonth m y)

def fromTimestamp (ts : Int) : DateTime :=
  let secs := ts.toNat
  let days := secs / 86400
  let daySecs := secs % 86400
  let (y,yearday) := yearLoop 1970 days
  let (m,remaining) := monthLoop y 12 1 yearday
  ⟨y,m,remaining + 1,daySecs / 3600,daySecs % 3600 / 60,daySecs % 60,(days % 7 + 4) % 7,yearday⟩

/-- The days of `n` years from `y` on. -/
def sumYears (y n : Nat) : Nat := (List.range n).foldl (fun days i => days + yearDays (y + i)) 0

def sumMonths (y n : Nat) : Nat :=
  (List.range n).foldl (fun days i => days + daysInMonth (1 + i) y) 0

def toTimestamp (dt : DateTime) : Int :=
  (sumYears 1970 (dt.year - 1970) + sumMonths dt.year (dt.month - 1) + dt.day - 1 : Int) * 86400 +
    dt.hour * 3600 + dt.minute * 60 + dt.second

def cmp (a b : DateTime) : Int :=
  if a.toTimestamp < b.toTimestamp then -1 else if a.toTimestamp > b.toTimestamp then 1 else 0

end DateTime

end Miku.Libmiku
