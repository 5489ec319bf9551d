import Scambio.Commons.CString
import Scambio.Lib.Error
import Scambio.Library.Gregorian
import Mathlib.Tactic.IntervalCases

/-!
# CalDate — dates of the calendar (`vadrouille/cal_date.c`)

A date may lack its time, which an hour past 23 says, and may lack altogether, which the year 0 says.
`cal_date_ctor` takes fields that overflow, minutes above all, and carries them up to the years; this is how
`cal_date_ctor_from_input` adds a duration to a date.

- `calDateCtor_spec`: the fields that come out are in range and denote the instant of those that went in.
- `calDateCtor_congr`: fields that denote one minute come out as one date.
- `calDate_instant_iff`: a duration that the user entered is added right exactly if the date that is to be
  filled happens to be set before, for the assertion is about that date and not about the one it adds to.
-/

namespace Scambio

open Library

/-! ## Months (`lib/timetools.c`) -/

def isLeapYear (y : Nat) : Bool :=
  y % 4 == 0 && (y % 100 != 0 || y % 400 == 0)

def days : List Nat :=
  [31, 28, 31, 30, 31, 30, 31, 31, 30, 31, 30, 31]

/-- The month is from 0 to 11. -/
def monthDays (year month : Nat) : Nat :=
  days.getD month 0 + if month = 1 ∧ isLeapYear year then 1 else 0

/-! ## Dates -/

/-- `struct cal_date` -/
structure CalDate where
  year : Nat
  month : Nat
  day : Nat
  hour : Nat
  min : Nat
  str : Bytes
  deriving DecidableEq, Repr

def CalDate.isSet (cd : CalDate) : Bool :=
  cd.year != 0

def CalDate.hasTime (cd : CalDate) : Bool :=
  cd.isSet && cd.hour ≤ 23

/-- The sum of two `guint`. -/
def guintAdd (a b : Nat) : Nat :=
  (a + b) % 2 ^ 32

/-- The minutes are carried to the hours and these to the days, if there is a time. -/
def CalDate.boundTime (cd : CalDate) : CalDate :=
  if cd.hasTime then
    -- the hours are bounded after the minutes were carried to them
    let hour := guintAdd cd.hour (cd.min / 60)
    { cd with min := cd.min % 60, hour := hour % 24, day := guintAdd cd.day (hour / 24) }
  else cd

def CalDate.boundMonth (cd : CalDate) : CalDate :=
  { cd with year := guintAdd cd.year (cd.month / 12), month := cd.month % 12 }

/-- The month's days are taken off, and the month after it is next, be it in the next year. -/
def CalDate.nextMonth (cd : CalDate) : CalDate :=
  let day := cd.day - monthDays cd.year cd.month
  if cd.month + 1 ≥ 12 then { cd with day := day, month := cd.month + 1 - 12, year := guintAdd cd.year 1 }
  else { cd with day := day, month := cd.month + 1 }

/-- The loop over the months, none if `fuel` turns do not end it. -/
def CalDate.boundDay : Nat → CalDate → Option CalDate
  | 0, _ => none
  | fuel + 1, cd => if cd.day ≤ monthDays cd.year cd.month then some cd else boundDay fuel cd.nextMonth

/-- `%0<width>u` -/
def zeroPadded (width n : Nat) : Bytes :=
  List.replicate (width - (decimal n).length) 48 ++ decimal n

/-- What goes to `cd->str`, which has room for 17 characters. -/
def CalDate.print (cd : CalDate) : Bytes :=
  if cd.isSet then
    let date := zeroPadded 4 cd.year ++ [45] ++ zeroPadded 2 (cd.month + 1) ++ [45] ++ zeroPadded 2 cd.day
    let time := ascii " " ++ zeroPadded 2 cd.hour ++ ascii "h" ++ zeroPadded 2 cd.min
    if cd.hasTime then snprintf 17 date ++ snprintf (17 - date.length) time else snprintf 17 date
  else []

/-- `cal_date_ctor`, none if it does not return.  Every turn of the loop takes a day at least, so that more turns
than there are days are never made. -/
def calDateCtor (y M d h m : Nat) : Option CalDate :=
  let cd := CalDate.boundTime ⟨y, M, d, h, m, []⟩
  -- an unset date keeps its fields
  let bounded := if cd.isSet then CalDate.boundDay (cd.day + 1) cd.boundMonth else some cd
  bounded.map fun cd => { cd with str := cd.print }

/-! ## Dates that the user enters -/

/-- `strtol(s, &end, 10)`: the value, clamped to 64 bits, and the text at `end`. -/
def strtol (s : Bytes) : Int × Bytes :=
  let (neg, body) := readSign s
  let digits := body.takeWhile isDigit
  if digits = [] then (0, s)
  else
    -- the value is that of the longest run of digits
    let n : Int := digitsVal digits
    (if neg then max (-n) (-2 ^ 63) else min n (2 ^ 63 - 1), body.dropWhile isDigit)

/-- The value of a `long` after an operation. -/
def toLong (v : Int) : Int :=
  Int.bmod v (2 ^ 64)

/-- A `long` given as a `guint`. -/
def toGuint (v : Int) : Nat :=
  (v % 2 ^ 32).toNat

def issep (c : UInt8) : Bool :=
  isblank c || c == 45 || c == 47 || c == 58 || c == 104 || c == 72

/-- The minutes of the unit that starts with a letter, and the letters that may follow. -/
def durationUnit (c : UInt8) : Option (Int × Bytes) :=
  if c = 109 then some (1, ascii "in")
  else if c = 104 then some (60, ascii "our")
  else if c = 100 then some (60 * 24, ascii "ay")
  else none

/-- The rest of a unit's name is passed, with the `s` of the plural, or left where it is not the whole rest. -/
def skipUnit (name rest : Bytes) : Bytes :=
  if name.isPrefixOf rest then
    let rest := rest.drop name.length
    if rest.head? = some 115 then rest.tail else rest
  else rest

theorem length_skipUnit (name rest : Bytes) : (skipUnit name rest).length ≤ rest.length := by
  unfold skipUnit
  simp only
  split_ifs
  · rw [List.length_tail, List.length_drop]
    omega
  · rw [List.length_drop]
    omega
  · exact le_rfl

theorem length_strtol (s : Bytes) : (strtol s).2.length ≤ s.length := by
  have hsign : (readSign s).2.length ≤ (s.dropWhile isspace).length := by
    unfold readSign
    split
    · rename_i heq
      rw [heq]
      exact Nat.le_succ _
    · rename_i heq
      rw [heq]
      exact Nat.le_succ _
    · exact le_rfl
  have hspace := (List.dropWhile_sublist isspace (l := s)).length_le
  have hdigits := (List.dropWhile_sublist isDigit (l := (readSign s).2)).length_le
  unfold strtol
  simp only
  split
  · exact le_rfl
  · exact hdigits.trans (hsign.trans hspace)

/-- The loop of `parse_duration`, with the minutes so far. -/
def parseDurationFrom (str : Bytes) (d : Int) : Except Err Int :=
  if str = [] then .ok d
  else
    match _ : (strtol str).2.dropWhile isblank with
    | [] => .ok (toLong (d + (strtol str).1))
    | c :: stop =>
        match durationUnit c with
        | some (minutes, name) =>
            parseDurationFrom ((skipUnit name stop).dropWhile isblank)
              (toLong (d + toLong ((strtol str).1 * minutes)))
        | none => .error (.push 0 (ascii "Cannot parse '" ++ str ++ ascii "' as duration"))
termination_by str.length
decreasing_by
  rename_i hstop
  have hnumber := length_strtol str
  have hblank := (List.dropWhile_sublist isblank (l := (strtol str).2)).length_le
  have hunit := length_skipUnit name stop
  have hrest := (List.dropWhile_sublist isblank (l := skipUnit name stop)).length_le
  rw [hstop, List.length_cons] at hblank
  omega

def parseDuration (str : Bytes) : Except Err Int :=
  parseDurationFrom str 0

/-- The variables of `cal_date_ctor_from_input`. -/
structure InputFields where
  year : Int
  month : Int
  day : Int
  hour : Int
  min : Int
  deriving DecidableEq, Repr

def invalid {α : Type} (what : String) (v : Int) : Except Err α :=
  .error (.push 0 (ascii "Invalid " ++ ascii what ++ ascii " (" ++ printInt v ++ ascii ")"))

/-- From `get_hour` on. -/
def getHour (f : InputFields) (j : Bytes) : Except Err InputFields :=
  if j = [] then .ok f
  else
    let hour := (strtol j).1
    let i := (strtol j).2.dropWhile issep
    if hour < 0 ∨ 23 < hour then invalid "hour" hour
    else if i = [] then .ok { f with hour := hour }
    else
      let min := (strtol i).1
      if min < 0 ∨ 59 < min then invalid "minutes" min else .ok { f with hour := hour, min := min }

/-- A date that is no duration. -/
def normalDate (i : Bytes) (ref : Option CalDate) : Except Err InputFields :=
  let year := (strtol i).1
  let j := (strtol i).2
  if j = [] then .error (.push 0 (ascii "Invalid date : lacks a month"))
  else
    match ref, decide (j.head? = some 104 ∨ j.head? = some 72) with
    -- the first number is an hour of the day of `ref`
    | some ref, true => getHour ⟨ref.year, ref.month, ref.day, 99, 0⟩ i
    | _, _ =>
        -- the month is counted from 1 by the user
        let month := (strtol (j.dropWhile issep)).1
        let i := (strtol (j.dropWhile issep)).2
        if i = [] then .error (.push 0 (ascii "Invalid date : lacks a day"))
        else if month < 1 ∨ 12 < month then invalid "month" month
        else
          let day := (strtol (i.dropWhile issep)).1
          let j := (strtol (i.dropWhile issep)).2
          if day < 1 ∨ 31 < day then invalid "day" day
          else if (monthDays (toGuint year) (toGuint (month - 1)) : Int) < day then
            .error (.push 0 (ascii "No such day (" ++ printInt day ++ ascii ") in this month (" ++
              printInt (month - 1) ++ ascii ")"))
          else getHour ⟨year, month - 1, day, 99, 0⟩ (j.dropWhile isblank)

/-- The time that a duration is added to: without a time it is midnight. -/
def startHour (ref : CalDate) : Nat :=
  if ref.hasTime then ref.hour else 0

@[inherit_doc startHour]
def startMin (ref : CalDate) : Nat :=
  if ref.hasTime then ref.min else 0

/-- The fields that are given to `cal_date_ctor`.  The assertion is about `cd`, whose fields are those that the
caller left there. -/
def inputFields (cd : CalDate) (i : Bytes) (ref : Option CalDate) : Except Err InputFields :=
  match i, ref with
  | [], _ => .ok ⟨0, 0, 0, 99, 0⟩
  | 43 :: str, some ref =>
      match parseDuration str with
      | .error e => .error e
      | .ok duration =>
          -- `assert(cal_date_is_set(cd))`, where `ref` was meant
          if cd.isSet then .ok ⟨ref.year, ref.month, ref.day, startHour ref, toLong (startMin ref + duration)⟩
          else .error (.abort (ascii "cal_date_is_set(cd)"))
  | i, ref => normalDate i ref

/-- `cal_date_ctor_from_input`, none if it does not return. -/
def calDateCtorFromInput (cd : CalDate) (i : Bytes) (ref : Option CalDate) : Option (Except Err CalDate) :=
  match inputFields cd (i.dropWhile isblank) (ref.filter CalDate.isSet) with
  | .error e => some (.error e)
  | .ok f =>
      (calDateCtor (toGuint f.year) (toGuint f.month) (toGuint f.day) (toGuint f.hour) (toGuint f.min)).map .ok

/-! ## The days are bounded -/

theorem isLeapYear_iff (y : Nat) : isLeapYear y = true ↔ LeapYear y := by
  unfold isLeapYear LeapYear
  simp only [Bool.and_eq_true, Bool.or_eq_true, beq_iff_eq, bne_iff_ne]
  omega

theorem monthDays_eq (year : Nat) {month : Nat} (h : month ≤ 11) :
    monthDays year month = monthLength (12 * year + month) := by
  have hmod : (12 * year + month) % 12 = month := by omega
  have hdiv : (12 * year + month) / 12 = year := by omega
  unfold monthDays monthLength
  simp only [hmod, hdiv, isLeapYear_iff]
  interval_cases month <;> simp [days]
  split_ifs <;> rfl

def CalDate.monthIndex (cd : CalDate) : Nat :=
  12 * cd.year + cd.month

/-- The number of the day, and what is as it was given. -/
structure CalDate.SameDay (cd : CalDate) (month day hour min : Nat) : Prop where
  number : dayNumber cd.monthIndex cd.day = dayNumber month day
  hour : cd.hour = hour
  min : cd.min = min

/-- The month is one of the year, and the day one of the month. -/
structure CalDate.InRange (cd : CalDate) : Prop where
  isSet : cd.isSet = true
  month : cd.month ≤ 11
  day_pos : 1 ≤ cd.day
  day : cd.day ≤ monthDays cd.year cd.month

theorem isSet_iff (cd : CalDate) : cd.isSet = true ↔ 1 ≤ cd.year := by
  unfold CalDate.isSet
  rw [bne_iff_ne]
  omega

theorem hasTime_iff (cd : CalDate) : cd.hasTime = true ↔ 1 ≤ cd.year ∧ cd.hour ≤ 23 := by
  unfold CalDate.hasTime
  rw [Bool.and_eq_true, isSet_iff, decide_eq_true_eq]

theorem guintAdd_of_lt {a b : Nat} (h : a + b < 2 ^ 32) : guintAdd a b = a + b :=
  Nat.mod_eq_of_lt h

/-- A turn of the loop does not change the day that is meant. -/
theorem nextMonth_spec {cd : CalDate} (hset : cd.isSet = true) (hmonth : cd.month ≤ 11)
    (hlast : cd.monthIndex + 1 < 12 * 2 ^ 32) :
    cd.nextMonth.isSet = true ∧ cd.nextMonth.month ≤ 11 ∧ cd.nextMonth.monthIndex = cd.monthIndex + 1 ∧
      cd.nextMonth.day = cd.day - monthLength cd.monthIndex ∧ cd.nextMonth.hour = cd.hour ∧
      cd.nextMonth.min = cd.min := by
  have hlen : monthDays cd.year cd.month = monthLength cd.monthIndex := monthDays_eq cd.year hmonth
  rw [isSet_iff] at hset
  unfold CalDate.nextMonth
  unfold CalDate.monthIndex at hlast
  split
  -- from December to January
  · have hyear : guintAdd cd.year 1 = cd.year + 1 := guintAdd_of_lt (by omega)
    refine ⟨?_, ?_, ?_, ?_, rfl, rfl⟩
    · rw [isSet_iff]
      exact hyear ▸ Nat.le_add_left 1 cd.year
    · exact (by omega : cd.month + 1 - 12 ≤ 11)
    · unfold CalDate.monthIndex
      simp only [hyear]
      omega
    · exact congrArg (cd.day - ·) hlen
  · refine ⟨(isSet_iff _).2 hset, ?_, rfl, congrArg (cd.day - ·) hlen, rfl, rfl⟩
    exact (by omega : cd.month + 1 ≤ 11)

/-- The loop ends in the month that the day is in. -/
theorem boundDay_spec {fuel : Nat} {cd : CalDate} (hset : cd.isSet = true) (hmonth : cd.month ≤ 11)
    (hday : 1 ≤ cd.day) (hfuel : cd.day < fuel)
    (hlast : dayNumber cd.monthIndex cd.day ≤ daysBefore (12 * 2 ^ 32)) :
    ∃ cd', CalDate.boundDay fuel cd = some cd' ∧ cd'.InRange ∧ cd'.SameDay cd.monthIndex cd.day cd.hour cd.min := by
  induction fuel generalizing cd with
  | zero => exact absurd hfuel (Nat.not_lt_zero _)
  | succ fuel ih =>
      unfold CalDate.boundDay
      have hlen : monthDays cd.year cd.month = monthLength cd.monthIndex := monthDays_eq cd.year hmonth
      by_cases hle : cd.day ≤ monthDays cd.year cd.month
      · exact ⟨cd, if_pos hle, ⟨hset, hmonth, hday, hle⟩, ⟨rfl, rfl, rfl⟩⟩
      -- the month is passed, and the number of the day stays the same
      · have hge := monthLength_ge cd.monthIndex
        have hnumber := @dayNumber_next cd.monthIndex cd.day (by omega)
        have hindex : cd.monthIndex + 1 < 12 * 2 ^ 32 := lt_of_dayNumber_le (by omega) (hnumber.trans_le hlast)
        rcases nextMonth_spec hset hmonth hindex with ⟨hset', hmonth', hindex', hday', hhour', hmin'⟩
        have hsame : dayNumber cd.nextMonth.monthIndex cd.nextMonth.day = dayNumber cd.monthIndex cd.day := by
          rw [hindex', hday', hnumber]
        rcases ih hset' hmonth' (by omega) (by omega) (hsame.trans_le hlast) with ⟨cd', heq, hrange, hend⟩
        rw [if_neg hle]
        exact ⟨cd', heq, hrange, hend.number.trans hsame, hend.hour.trans hhour', hend.min.trans hmin'⟩

/-! ## What the constructor does -/

section Ctor

variable {y M d h m : Nat}

/-- The days, with the full days among the hours and minutes of a time. -/
def carriedDays (d h m : Nat) : Nat :=
  if h ≤ 23 then d + (h + m / 60) / 24 else d

/-- No sum of `cal_date_ctor` reaches 2^32, that of the years which its loop counts included. -/
structure FieldsFit (y M d h m : Nat) : Prop where
  year : y + M / 12 < 2 ^ 32
  hour : h ≤ 23 → h + m / 60 < 2 ^ 32
  day : carriedDays d h m < 2 ^ 32
  date : dayNumber (12 * y + M) (carriedDays d h m) ≤ daysBefore (12 * 2 ^ 32)

/-- The date is the minute that the fields denote, or the day if they have no time. -/
structure CalDate.Denotes (cd : CalDate) (y M d h m : Nat) : Prop where
  time : h ≤ 23 → cd.hour ≤ 23 ∧ cd.min ≤ 59 ∧
    minuteNumber cd.monthIndex cd.day cd.hour cd.min = minuteNumber (12 * y + M) d h m
  noTime : 23 < h → cd.hour = h ∧ cd.min = m ∧ dayNumber cd.monthIndex cd.day = dayNumber (12 * y + M) d

theorem boundTime_spec (hy : 1 ≤ y) (hfit : FieldsFit y M d h m) :
    CalDate.boundTime ⟨y, M, d, h, m, []⟩ =
      if h ≤ 23 then ⟨y, M, carriedDays d h m, (h + m / 60) % 24, m % 60, []⟩ else ⟨y, M, d, h, m, []⟩ := by
  have htime := hasTime_iff ⟨y, M, d, h, m, []⟩
  unfold CalDate.boundTime
  by_cases hh : h ≤ 23
  · have hday := hfit.day
    unfold carriedDays at hday ⊢
    rw [if_pos hh] at hday
    simp only [if_pos (htime.2 ⟨hy, hh⟩), if_pos hh, guintAdd_of_lt (hfit.hour hh), guintAdd_of_lt hday]
  · rw [if_neg fun h => hh (htime.1 h).2, if_neg hh]

theorem monthIndex_boundMonth {cd : CalDate} (h : cd.year + cd.month / 12 < 2 ^ 32) :
    cd.boundMonth.monthIndex = 12 * cd.year + cd.month := by
  unfold CalDate.monthIndex CalDate.boundMonth
  rw [guintAdd_of_lt h]
  simp only
  omega

/-- From the days on the fields are bounded by the loop. -/
theorem boundMonth_boundDay {cd : CalDate} (hset : 1 ≤ cd.year) (hday : 1 ≤ cd.day)
    (hyear : cd.year + cd.month / 12 < 2 ^ 32)
    (hlast : dayNumber (12 * cd.year + cd.month) cd.day ≤ daysBefore (12 * 2 ^ 32)) :
    ∃ cd', CalDate.boundDay (cd.day + 1) cd.boundMonth = some cd' ∧ cd'.InRange ∧
      cd'.SameDay (12 * cd.year + cd.month) cd.day cd.hour cd.min := by
  have hindex := monthIndex_boundMonth hyear
  have hset' : cd.boundMonth.isSet = true := by
    have hsum : cd.boundMonth.year = cd.year + cd.month / 12 := guintAdd_of_lt hyear
    rw [isSet_iff, hsum]
    exact hset.trans (Nat.le_add_right _ _)
  have hmonth : cd.boundMonth.month ≤ 11 := Nat.le_of_lt_succ (Nat.mod_lt _ (by decide))
  have hspec := @boundDay_spec (cd.day + 1) cd.boundMonth hset' hmonth hday (Nat.lt_succ_self _)
  rw [hindex] at hspec
  exact hspec hlast

theorem calDateCtor_spec (hy : 1 ≤ y) (hd : 1 ≤ d) (hfit : FieldsFit y M d h m) :
    ∃ cd, calDateCtor y M d h m = some cd ∧ cd.InRange ∧ cd.Denotes y M d h m := by
  have hpos : 1 ≤ carriedDays d h m := by
    unfold carriedDays
    split
    · exact hd.trans (Nat.le_add_right _ _)
    · exact hd
  have hbound := boundTime_spec hy hfit
  unfold calDateCtor
  rw [hbound]
  by_cases hh : h ≤ 23
  · rw [if_pos hh]
    have hset := (isSet_iff ⟨y, M, carriedDays d h m, (h + m / 60) % 24, m % 60, []⟩).2 hy
    -- with a time: minutes and hours first, then the loop over the months
    rcases @boundMonth_boundDay ⟨y, M, carriedDays d h m, (h + m / 60) % 24, m % 60, []⟩ hy hpos hfit.year hfit.date
      with ⟨cd, heq, hrange, hsame⟩
    simp only [if_pos hset, heq]
    refine ⟨_, rfl, ⟨hrange.isSet, hrange.month, hrange.day_pos, hrange.day⟩, ⟨fun _ => ?_, fun hlt => by omega⟩⟩
    refine ⟨?_, ?_, ?_⟩
    · exact hsame.hour.symm ▸ Nat.le_of_lt_succ (Nat.mod_lt _ (by decide))
    · exact hsame.min.symm ▸ Nat.le_of_lt_succ (Nat.mod_lt _ (by decide))
    · calc minuteNumber cd.monthIndex cd.day cd.hour cd.min
          = minuteNumber cd.monthIndex cd.day ((h + m / 60) % 24) (m % 60) := by rw [hsame.hour, hsame.min]
        _ = minuteNumber (12 * y + M) (carriedDays d h m) ((h + m / 60) % 24) (m % 60) :=
            minuteNumber_congr hsame.number _ _
        _ = minuteNumber (12 * y + M) (d + (h + m / 60) / 24) ((h + m / 60) % 24) (m % 60) := by
            rw [carriedDays, if_pos hh]
        _ = minuteNumber (12 * y + M) d h m := by rw [minuteNumber_days, minuteNumber_hours]
  -- without a time nothing is carried to the days
  · rw [if_neg hh]
    have hdate := hfit.date
    have hdays : carriedDays d h m = d := if_neg hh
    rw [hdays] at hdate
    have hset := (isSet_iff ⟨y, M, d, h, m, []⟩).2 hy
    rcases @boundMonth_boundDay ⟨y, M, d, h, m, []⟩ hy hd hfit.year hdate with ⟨cd, heq, hrange, hsame⟩
    simp only [if_pos hset, heq]
    refine ⟨_, rfl, ⟨hrange.isSet, hrange.month, hrange.day_pos, hrange.day⟩, ⟨fun hle => absurd hle hh, fun _ => ?_⟩⟩
    exact ⟨hsame.hour, hsame.min, hsame.number⟩

theorem calDateCtor_str {cd : CalDate} (h : calDateCtor y M d h m = some cd) : cd.str = cd.print := by
  unfold calDateCtor at h
  rcases Option.map_eq_some_iff.1 h with ⟨bounded, -, rfl⟩
  rfl

/-- A date in range is told by its minute. -/
theorem CalDate.InRange.eq_of_minute {cd cd' : CalDate} (hrange : cd.InRange) (hrange' : cd'.InRange)
    (hstr : cd.str = cd.print) (hstr' : cd'.str = cd'.print) (hhour : cd.hour ≤ 23) (hmin : cd.min ≤ 59)
    (hhour' : cd'.hour ≤ 23) (hmin' : cd'.min ≤ 59)
    (h : minuteNumber cd.monthIndex cd.day cd.hour cd.min = minuteNumber cd'.monthIndex cd'.day cd'.hour cd'.min) :
    cd = cd' := by
  have hday := hrange.day
  have hday' := hrange'.day
  rw [monthDays_eq _ hrange.month] at hday
  rw [monthDays_eq _ hrange'.month] at hday'
  have hsame := minuteNumber_injective hrange.day_pos hday hhour hmin hrange'.day_pos hday' hhour' hmin' h
  have hmonth := hrange.month
  have hmonth' := hrange'.month
  rcases cd with ⟨year, month, day, hour, min, str⟩
  rcases cd' with ⟨year', month', day', hour', min', str'⟩
  rcases hsame with ⟨hindex, rfl, rfl, rfl⟩
  simp only at hindex hmonth hmonth'
  obtain rfl : year = year' := by omega
  obtain rfl : month = month' := by omega
  exact congrArg _ (hstr.trans hstr'.symm)

/-- Fields with a time that denote the same minute give the same date. -/
theorem calDateCtor_congr {y' M' d' h' m' : Nat} (hy : 1 ≤ y) (hd : 1 ≤ d) (hfit : FieldsFit y M d h m)
    (hy' : 1 ≤ y') (hd' : 1 ≤ d') (hfit' : FieldsFit y' M' d' h' m') (hh : h ≤ 23) (hh' : h' ≤ 23)
    (heq : minuteNumber (12 * y + M) d h m = minuteNumber (12 * y' + M') d' h' m') :
    calDateCtor y M d h m = calDateCtor y' M' d' h' m' := by
  rcases calDateCtor_spec hy hd hfit with ⟨cd, hcd, hrange, hdenotes⟩
  rcases calDateCtor_spec hy' hd' hfit' with ⟨cd', hcd', hrange', hdenotes'⟩
  rcases hdenotes.time hh with ⟨hhour, hmin, hminute⟩
  rcases hdenotes'.time hh' with ⟨hhour', hmin', hminute'⟩
  rw [hcd, hcd', hrange.eq_of_minute hrange' (calDateCtor_str hcd) (calDateCtor_str hcd') hhour hmin hhour'
    hmin' (hminute.trans (heq.trans hminute'.symm))]

end Ctor

/-! ## A duration is added -/

section Duration

variable {ref : CalDate} {i : Bytes} {duration : Int}

/-- The input is a duration which, added to the date `ref`, makes fields that fit. -/
structure AddsTo (ref : CalDate) (i : Bytes) (duration : Int) : Prop where
  inRange : ref.InRange
  input : ∃ str, i.dropWhile isblank = 43 :: str ∧ parseDuration str = .ok duration
  nonneg : 0 ≤ startMin ref + duration
  guint : startMin ref + duration < 2 ^ 32
  fit : FieldsFit ref.year ref.month ref.day (startHour ref) (startMin ref + duration).toNat

theorem toGuint_of_lt {n : Nat} (h : n < 2 ^ 32) : toGuint n = n := by
  unfold toGuint
  omega

theorem toLong_of_lt {v : Int} (hnonneg : 0 ≤ v) (h : v < 2 ^ 32) : toLong v = v :=
  Int.bmod_eq_of_le (by omega) (by omega)

theorem startHour_le (ref : CalDate) : startHour ref ≤ 23 := by
  have htime := hasTime_iff ref
  unfold startHour
  split
  · exact (htime.1 ‹_›).2
  · exact Nat.zero_le _

/-- The date is made, but where the assertion fails. -/
theorem calDateCtorFromInput_duration (h : AddsTo ref i duration) (cd : CalDate) :
    calDateCtorFromInput cd i (some ref) =
      if cd.isSet then
        (calDateCtor ref.year ref.month ref.day (startHour ref) (startMin ref + duration).toNat).map .ok
      else some (.error (.abort (ascii "cal_date_is_set(cd)"))) := by
  rcases h.input with ⟨str, hinput, hduration⟩
  have href : (some ref).filter CalDate.isSet = some ref := by
    rw [Option.filter_some, if_pos h.inRange.isSet]
  unfold calDateCtorFromInput
  rw [hinput, href]
  simp only [inputFields, hduration]
  by_cases hset : cd.isSet = true
  -- no value is cut when it is passed on as a `guint`
  · obtain ⟨min, hmin⟩ := Int.eq_ofNat_of_zero_le h.nonneg
    have hguint := h.guint
    have hfit := h.fit
    rw [hmin] at hguint hfit
    have hyear := hfit.year
    have hmonth := h.inRange.month
    have hday := hfit.day
    have hhour := startHour_le ref
    rw [carriedDays, if_pos hhour] at hday
    rw [if_pos hset, if_pos hset, hmin, toLong_of_lt (Int.natCast_nonneg min) hguint]
    simp only
    rw [toGuint_of_lt (by omega), toGuint_of_lt (by omega), toGuint_of_lt (by omega), toGuint_of_lt (by omega),
      toGuint_of_lt (by omega), Int.toNat_natCast]
  · rw [if_neg hset, if_neg hset]

end Duration

/-- The constructor keeps the instant of its fields, whatever they are, but a duration that the user enters is
added to the reference exactly if the date to be filled is set before. -/
theorem calDate_instant_iff (cd : CalDate) :
    (∀ y M d h m, 1 ≤ y → 1 ≤ d → FieldsFit y M d h m →
      ∃ cd, calDateCtor y M d h m = some cd ∧ cd.InRange ∧ cd.Denotes y M d h m) ∧
    ∀ {ref : CalDate} {i : Bytes} {duration : Int}, AddsTo ref i duration →
      ((∃ r, calDateCtorFromInput cd i (some ref) = some (.ok r) ∧ r.InRange ∧ r.hour ≤ 23 ∧ r.min ≤ 59 ∧
        (minuteNumber r.monthIndex r.day r.hour r.min : Int) =
          minuteNumber ref.monthIndex ref.day (startHour ref) (startMin ref) + duration) ↔ cd.isSet = true) := by
  refine ⟨fun y M d h m hy hd hfit => calDateCtor_spec hy hd hfit, ?_⟩
  intro ref i duration h
  rw [calDateCtorFromInput_duration h]
  constructor
  -- with an unset date there is no result, for the program aborts
  · rintro ⟨r, heq, -⟩
    by_contra hset
    rw [if_neg hset] at heq
    cases heq
  · intro hset
    have hy := (isSet_iff ref).1 h.inRange.isSet
    rcases calDateCtor_spec hy h.inRange.day_pos h.fit with ⟨r, heq, hrange, hdenotes⟩
    rcases hdenotes.time (startHour_le ref) with ⟨hhour, hmin, hminute⟩
    rw [if_pos hset, heq]
    refine ⟨r, rfl, hrange, hhour, hmin, ?_⟩
    rw [hminute]
    have hmin := Int.toNat_of_nonneg h.nonneg
    unfold minuteNumber CalDate.monthIndex
    omega

/-- The last evening of 2008. -/
def lastEvening : CalDate :=
  ⟨2008, 11, 31, 22, 45, ascii "2008-12-31 22h45"⟩

theorem addsTo_lastEvening : AddsTo lastEvening (ascii "+90") 90 := by
  have hcarried : dayNumber (12 * 2008 + 11) (carriedDays 31 22 135) ≤ daysBefore (12 * 2 ^ 32) := by
    rw [show carriedDays 31 22 135 = 32 by decide]
    exact @dayNumber_le_of_weeks _ _ 2 _ (by omega) (by omega)
  refine ⟨⟨by decide, by decide, by decide, by decide⟩, ⟨ascii "90", by decide, ?_⟩, by decide, by decide, ?_⟩
  · rw [parseDuration, parseDurationFrom]
    decide +kernel
  · exact ⟨by decide, fun _ => by decide, by decide, hcarried⟩

/-- An hour and a half is added to the last evening of a year, in a date that is set. -/
theorem calDate_instant_newYear :
    ∃ r, calDateCtorFromInput lastEvening (ascii "+90") (some lastEvening) = some (.ok r) ∧ r.InRange ∧
      r.hour ≤ 23 ∧ r.min ≤ 59 ∧
      (minuteNumber r.monthIndex r.day r.hour r.min : Int) = minuteNumber (12 * 2008 + 11) 31 22 45 + 90 :=
  ((calDate_instant_iff lastEvening).2 addsTo_lastEvening).2 (by decide)

/-- The date that the editor gives for the end is on its stack and was written by nobody.  Where its year reads 0 the
program aborts. -/
theorem not_calDate_instant_unset :
    calDateCtorFromInput ⟨0, 0, 0, 0, 0, []⟩ (ascii "+90") (some lastEvening) =
        some (.error (.abort (ascii "cal_date_is_set(cd)"))) ∧
      ¬ ∀ (cd ref : CalDate) (i : Bytes) (duration : Int), AddsTo ref i duration →
        ∃ r, calDateCtorFromInput cd i (some ref) = some (.ok r) := by
  have habort : calDateCtorFromInput ⟨0, 0, 0, 0, 0, []⟩ (ascii "+90") (some lastEvening) =
      some (.error (.abort (ascii "cal_date_is_set(cd)"))) :=
    calDateCtorFromInput_duration addsTo_lastEvening _
  refine ⟨habort, fun hall => ?_⟩
  rcases hall ⟨0, 0, 0, 0, 0, []⟩ lastEvening (ascii "+90") 90 addsTo_lastEvening with ⟨r, hr⟩
  rw [habort] at hr
  cases hr

end Scambio
