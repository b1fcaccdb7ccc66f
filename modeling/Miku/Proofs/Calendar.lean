import Mathlib.Tactic.IntervalCases
import Miku.Libmiku.DateTime

/-! The calendar of the library is the Gregorian one, against the number of a day in closed
form. -/

namespace Miku.Libmiku.DateTime

/-- The days of the proleptic Gregorian calendar before the year `y`. -/
def daysBefore (y : Nat) : Int :=
  365 * ((y : Int) - 1) + (y - 1) / 4 - (y - 1) / 100 + (y - 1) / 400

def monthStart (m y : Nat) : Nat :=
  [0,31,59,90,120,151,181,212,243,273,304,334,365].getD (m - 1) 0 +
    if 2 < m ∧ isLeap y then 1 else 0

/-- A day of the Gregorian calendar, counted from the first day of the year 1. -/
def dayNumber (y m d : Nat) : Int := daysBefore y + monthStart m y + d - 1

/-- Seconds from 1970 on. -/
def seconds (dt : DateTime) : Int :=
  (dayNumber dt.year dt.month dt.day - dayNumber 1970 1 1) * 86400 + dt.hour * 3600 +
    dt.minute * 60 + dt.second

structure Valid (dt : DateTime) : Prop where
  year : 1970 ≤ dt.year
  month : 1 ≤ dt.month ∧ dt.month ≤ 12
  day : 1 ≤ dt.day ∧ dt.day ≤ daysInMonth dt.month dt.year
  time : dt.hour < 24 ∧ dt.minute < 60 ∧ dt.second < 60

/-- The date, the time, the weekday and the day of the year of a timestamp. -/
structure IsAt (dt : DateTime) (ts : Int) : Prop where
  valid : dt.Valid
  date : dayNumber dt.year dt.month dt.day = dayNumber 1970 1 1 + ts / 86400
  time : (dt.hour * 3600 + dt.minute * 60 + dt.second : Int) = ts % 86400
  -- the first day of the year 1 was a Monday
  weekday : (dt.weekday : Int) = (dayNumber dt.year dt.month dt.day + 1) % 7
  yearday : (dt.yearday : Int) = dayNumber dt.year dt.month dt.day - dayNumber dt.year 1 1

theorem yearDays_eq : (yearDays y : Int) = daysBefore (y + 1) - daysBefore y := by
  unfold yearDays isLeap daysBefore
  split <;> rename_i h <;> simp at h <;> push_cast <;> omega

theorem sumYears_eq : (sumYears y n : Int) = daysBefore (y + n) - daysBefore y := by
  induction n with
  | zero => simp [sumYears]
  | succ n ih =>
    have hy := @yearDays_eq (y + n)
    unfold sumYears at *
    rw [List.range_succ,List.foldl_append]
    simp only [List.foldl_cons,List.foldl_nil]
    push_cast at *
    rw [← Nat.add_assoc]
    omega

theorem monthStart_succ (h1 : 1 ≤ m) (h2 : m ≤ 12) :
    monthStart (m + 1) y = monthStart m y + daysInMonth m y := by
  cases hl : isLeap y <;> interval_cases m <;> simp [monthStart,daysInMonth,hl]

theorem sumMonths_eq (h : m ≤ 12) : sumMonths y m = monthStart (m + 1) y := by
  induction m with
  | zero => rfl
  | succ m ih =>
    rw [monthStart_succ (Nat.succ_pos m) h,← ih (by omega)]
    simp [sumMonths,List.range_succ,Nat.add_comm 1]

theorem yearLoop_spec (y remaining : Nat) : y ≤ (yearLoop y remaining).1 ∧
    daysBefore y + remaining = daysBefore (yearLoop y remaining).1 + (yearLoop y remaining).2 ∧
    (yearLoop y remaining).2 < yearDays (yearLoop y remaining).1 := by
  fun_induction yearLoop y remaining with
  | case1 y remaining h => exact ⟨.refl,rfl,h⟩
  | case2 y remaining h ih =>
    have hy := @yearDays_eq y
    exact ⟨by omega,by omega,ih.2.2⟩

theorem monthLoop_spec (hm : 1 ≤ m) (hn : m + n = 13)
    (h : monthStart m y + remaining < yearDays y) :
    m ≤ (monthLoop y n m remaining).1 ∧ (monthLoop y n m remaining).1 ≤ 12 ∧
    monthStart m y + remaining =
      monthStart (monthLoop y n m remaining).1 y + (monthLoop y n m remaining).2 ∧
    (monthLoop y n m remaining).2 < daysInMonth (monthLoop y n m remaining).1 y := by
  induction n generalizing m remaining with
  | zero =>
    obtain rfl : m = 13 := hn
    simp [monthStart,yearDays] at h
    split at h <;> omega
  | succ n ih =>
    rw [monthLoop]
    split
    · rename_i hlt
      exact ⟨.refl,by omega,rfl,hlt⟩
    · have hs := @monthStart_succ m y hm (by omega)
      have := @ih (m + 1) (remaining - daysInMonth m y) (by omega) (by omega) (by omega)
      omega

theorem fromTimestamp_isAt (h : 0 ≤ ts) : IsAt (fromTimestamp ts) ts := by
  obtain ⟨n,rfl⟩ := Int.eq_ofNat_of_zero_le h
  obtain ⟨h1,h2,h3⟩ := yearLoop_spec 1970 (n / 86400)
  obtain ⟨m1,m2,m3,m4⟩ := monthLoop_spec (n := 12) .refl rfl (by simpa [monthStart] using h3)
  have h0 : daysBefore 1970 = 719162 := by decide
  have hs : ∀ y, monthStart 1 y = 0 := fun y => by simp [monthStart]
  rw [hs] at m3
  refine ⟨⟨h1,⟨m1,m2⟩,⟨Nat.succ_pos _,m4⟩,?_⟩,?_,?_,?_,?_⟩
  all_goals simp only [fromTimestamp,dayNumber,hs,Int.toNat_natCast]; push_cast; omega

theorem toTimestamp_eq (h : dt.Valid) : toTimestamp dt = dt.seconds := by
  unfold toTimestamp seconds dayNumber
  have := h.month
  rw [sumMonths_eq (by omega),sumYears_eq,Nat.add_sub_cancel' h.year,Nat.sub_add_cancel this.1]
  simp [monthStart]
  omega

theorem IsAt.seconds (h : IsAt dt ts) : dt.seconds = ts := by
  have := h.date
  have := h.time
  unfold DateTime.seconds
  omega

/-- A timestamp is turned into its Gregorian date and back, and dates compare as their seconds. -/
theorem calendar_exact (ts : Int) (h : 0 ≤ ts) (a b : DateTime) (ha : a.Valid) (hb : b.Valid) :
    IsAt (fromTimestamp ts) ts ∧ (fromTimestamp ts).toTimestamp = ts ∧
      a.cmp b = if a.seconds < b.seconds then -1 else if b.seconds < a.seconds then 1 else 0 := by
  have hat := fromTimestamp_isAt h
  refine ⟨hat,(toTimestamp_eq hat.valid).trans hat.seconds,?_⟩
  rw [cmp,toTimestamp_eq ha,toTimestamp_eq hb]

theorem calendar_exact_leap_day : IsAt (fromTimestamp 951782400) 951782400 :=
  (calendar_exact 951782400 (by decide) ⟨2000,2,29,0,0,0,2,59⟩ ⟨2000,3,1,0,0,0,3,60⟩
    ⟨by decide,by decide,by decide,by decide⟩ ⟨by decide,by decide,by decide,by decide⟩).1

end Miku.Libmiku.DateTime
