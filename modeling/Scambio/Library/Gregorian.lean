import Mathlib.Data.Nat.Init
import Mathlib.Order.Monotone.Basic

/-!
# Gregorian — days counted in the proleptic Gregorian calendar

Months are numbered from January of the year 0, so that month `m` of the year `y` (January is 0) is `12 * y + m`,
and days are counted from the first of that January.  A day of a month need not be one of the month's own: the
40th of January is the 9th of February.

* `monthLength`   : the days of a month, with the rule for the centuries;
* `daysBefore`    : the days of all months before one;
* `dayNumber`     : the place of a day of a month among all days;
* `minuteNumber`  : the same for the minutes, where hours and minutes may run over as days do.

`dayNumber_next` is how a day moves on to the next month, and `dayNumber_injective` says that a day that is one of
its month's own is told by its number.
-/

namespace Scambio
namespace Library

/-! ## Months -/

def LeapYear (y : Nat) : Prop :=
  4 ∣ y ∧ (100 ∣ y → 400 ∣ y)

instance : DecidablePred LeapYear := fun y =>
  inferInstanceAs (Decidable (4 ∣ y ∧ (100 ∣ y → 400 ∣ y)))

/-- Thirty days have September, April, June and November. -/
def monthLength (month : Nat) : Nat :=
  if month % 12 = 1 then if LeapYear (month / 12) then 29 else 28
  else if month % 12 = 3 ∨ month % 12 = 5 ∨ month % 12 = 8 ∨ month % 12 = 10 then 30
  else 31

theorem monthLength_ge (month : Nat) : 28 ≤ monthLength month := by
  unfold monthLength
  split_ifs <;> omega

/-! ## Days -/

def daysBefore : Nat → Nat
  | 0 => 0
  | month + 1 => daysBefore month + monthLength month

@[simp] theorem daysBefore_succ (month : Nat) : daysBefore (month + 1) = daysBefore month + monthLength month := rfl

theorem daysBefore_strictMono : StrictMono daysBefore :=
  strictMono_nat_of_lt_succ fun month => Nat.lt_add_of_pos_right (by have := monthLength_ge month; omega)

/-- No month is shorter than four weeks. -/
theorem daysBefore_add_le (month n : Nat) : daysBefore month + 28 * n ≤ daysBefore (month + n) := by
  induction n with
  | zero => exact le_rfl
  | succ n ih =>
      have hge := monthLength_ge (month + n)
      rw [← Nat.add_assoc, daysBefore_succ]
      omega

/-- The place of day `day` of a month, which has its first day as day 1. -/
def dayNumber (month day : Nat) : Nat :=
  daysBefore month + day

theorem dayNumber_next {month day : Nat} (h : monthLength month ≤ day) :
    dayNumber (month + 1) (day - monthLength month) = dayNumber month day := by
  unfold dayNumber
  rw [daysBefore_succ]
  omega

theorem lt_of_dayNumber_le {month day last : Nat} (hpos : 1 ≤ day) (h : dayNumber month day ≤ daysBefore last) :
    month < last := by
  unfold dayNumber at h
  exact daysBefore_strictMono.lt_iff_lt.1 (by omega)

/-- A day of a month comes before the next month's first. -/
theorem dayNumber_le {month day : Nat} (h : day ≤ monthLength month) : dayNumber month day ≤ daysBefore (month + 1) := by
  unfold dayNumber
  rw [daysBefore_succ]
  omega

/-- A bound on a date that needs no count of days. -/
theorem dayNumber_le_of_weeks {month day n last : Nat} (hday : day ≤ 28 * n) (hlast : month + n ≤ last) :
    dayNumber month day ≤ daysBefore last := by
  have hweeks := daysBefore_add_le month n
  have hmono := daysBefore_strictMono.monotone hlast
  unfold dayNumber
  omega

theorem dayNumber_injective {month day month' day' : Nat} (hpos : 1 ≤ day) (hday : day ≤ monthLength month)
    (hpos' : 1 ≤ day') (hday' : day' ≤ monthLength month') (h : dayNumber month day = dayNumber month' day') :
    month = month' ∧ day = day' := by
  have hle : month < month' + 1 := lt_of_dayNumber_le hpos (h.trans_le (dayNumber_le hday'))
  have hge : month' < month + 1 := lt_of_dayNumber_le hpos' (h.symm.trans_le (dayNumber_le hday))
  have hmonth : month = month' := by omega
  subst hmonth
  unfold dayNumber at h
  exact ⟨rfl, by omega⟩

/-! ## Minutes -/

def minuteNumber (month day hour min : Nat) : Nat :=
  (24 * dayNumber month day + hour) * 60 + min

/-- Full hours among the minutes are hours. -/
theorem minuteNumber_hours (month day hour min : Nat) :
    minuteNumber month day (hour + min / 60) (min % 60) = minuteNumber month day hour min := by
  unfold minuteNumber
  omega

/-- Full days among the hours are days. -/
theorem minuteNumber_days (month day hour min : Nat) :
    minuteNumber month (day + hour / 24) (hour % 24) min = minuteNumber month day hour min := by
  unfold minuteNumber dayNumber
  omega

theorem minuteNumber_congr {month day month' day' : Nat} (h : dayNumber month day = dayNumber month' day')
    (hour min : Nat) : minuteNumber month day hour min = minuteNumber month' day' hour min := by
  unfold minuteNumber
  rw [h]

/-- With all fields in range the minute tells them. -/
theorem minuteNumber_injective {month day hour min month' day' hour' min' : Nat}
    (hpos : 1 ≤ day) (hday : day ≤ monthLength month) (hhour : hour ≤ 23) (hmin : min ≤ 59)
    (hpos' : 1 ≤ day') (hday' : day' ≤ monthLength month') (hhour' : hour' ≤ 23) (hmin' : min' ≤ 59)
    (h : minuteNumber month day hour min = minuteNumber month' day' hour' min') :
    month = month' ∧ day = day' ∧ hour = hour' ∧ min = min' := by
  unfold minuteNumber at h
  have hnumber : dayNumber month day = dayNumber month' day' := by omega
  have hsame := dayNumber_injective hpos hday hpos' hday' hnumber
  exact ⟨hsame.1, hsame.2, by omega, by omega⟩

end Library
end Scambio
