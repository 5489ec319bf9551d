import Scambio.Vadrouille.CalDate
import Mathlib.Data.Prod.Lex

/-!
# DateOrder — the comparison of dates (`vadrouille/cal_date.c`)

`cal_date_compare` orders dates by their year, month and day, and those of one day by their time.  A date without a
time is meant to be at midnight: the tests for this are made from both sides, but they do not mirror each other.

- `calDateCompare_le_zero`: that the result is not positive is a comparison of ranks, where a date without a time
  ranks with midnight.  This is a total preorder.
- `calDateCompare_sign_iff`: the result has the opposite sign when the dates are swapped, unless one is at
  midnight of the day of the other, which has no time.
-/

namespace Scambio

open Library

/-! ## The comparison -/

def guintCompare (a b : Nat) : Int :=
  if a < b then -1 else if b < a then 1 else 0

/-- `COMPARE_FIELD`, with the code that follows it. -/
def compareField (a b : Nat) (next : Int) : Int :=
  if a ≠ b then guintCompare a b else next

/-- What `cal_date_compare` does once the days are the same. -/
def compareTime (a b : CalDate) : Int :=
  if !a.hasTime then if b.hasTime && (decide (0 < b.hour) || decide (0 < b.min)) then -1 else 0
  -- from this side a time of midnight goes on to the fields
  else if !b.hasTime && (decide (0 < a.hour) || decide (0 < a.min)) then 1
  else compareField a.hour b.hour (compareField a.min b.min 0)

def calDateCompare (a b : CalDate) : Int :=
  compareField a.year b.year (compareField a.month b.month (compareField a.day b.day (compareTime a b)))

/-! ## Ranks -/

/-- The time of a date, which is midnight where there is none. -/
def CalDate.time (cd : CalDate) : Nat ×ₗ Nat :=
  toLex (startHour cd, startMin cd)

/-- What dates are ordered by. -/
def CalDate.rank (cd : CalDate) : Nat ×ₗ Nat ×ₗ Nat ×ₗ Nat ×ₗ Nat :=
  toLex (cd.year, toLex (cd.month, toLex (cd.day, cd.time)))

/-- The first date is at midnight, and the second is the same day without a time. -/
def MidnightOf (a b : CalDate) : Prop :=
  a.year = b.year ∧ a.month = b.month ∧ a.day = b.day ∧ a.hasTime = true ∧ a.hour = 0 ∧ a.min = 0 ∧ b.hasTime = false

theorem compareField_le_zero (a b : Nat) (next : Int) : compareField a b next ≤ 0 ↔ a < b ∨ a = b ∧ next ≤ 0 := by
  unfold compareField guintCompare
  split_ifs <;> omega

theorem compareField_neg (a b : Nat) (next : Int) : compareField a b next < 0 ↔ a < b ∨ a = b ∧ next < 0 := by
  unfold compareField guintCompare
  split_ifs <;> omega

/-- Two dates of one year are both set or both not. -/
theorem hour_of_not_hasTime {a b : CalDate} (hyear : a.year = b.year) (ha : a.hasTime = true)
    (hb : b.hasTime = false) : 23 < b.hour := by
  have htime := (hasTime_iff a).1 ha
  by_contra hle
  have hb' := (hasTime_iff b).2 ⟨hyear ▸ htime.1, Nat.le_of_not_lt hle⟩
  rw [hb] at hb'
  cases hb'

theorem compareTime_le_zero {a b : CalDate} (hyear : a.year = b.year) : compareTime a b ≤ 0 ↔ a.time ≤ b.time := by
  unfold compareTime CalDate.time startHour startMin
  rw [Prod.Lex.toLex_le_toLex]
  cases ha : a.hasTime with
  | false =>
      cases hb : b.hasTime with
      | false => simp
      | true =>
          simp only [Bool.not_false, ↓reduceIte, Bool.true_and, Bool.or_eq_true, decide_eq_true_eq, Int.reduceNeg,
            Bool.false_eq_true, zero_le, and_true]
          omega
  | true =>
      cases hb : b.hasTime with
      | false =>
          -- the hour of `b` is compared although it has no time: it is past 23
          have hhour := hour_of_not_hasTime hyear ha hb
          simp only [Bool.not_true, Bool.false_eq_true, ↓reduceIte, Bool.not_false, Bool.true_and, Bool.or_eq_true,
            decide_eq_true_eq, not_lt_zero, nonpos_iff_eq_zero, false_or]
          split
          · omega
          · rw [compareField_le_zero]
            omega
      | true =>
          simp only [Bool.not_true, Bool.false_eq_true, ↓reduceIte, Bool.false_and, compareField_le_zero, le_refl,
            and_true]
          omega

/-- A date at midnight comes before its day without a time, which does not come after it. -/
theorem compareTime_neg {a b : CalDate} (hyear : a.year = b.year) :
    compareTime a b < 0 ↔ a.time < b.time ∨ a.hasTime = true ∧ a.hour = 0 ∧ a.min = 0 ∧ b.hasTime = false := by
  unfold compareTime CalDate.time startHour startMin
  rw [Prod.Lex.toLex_lt_toLex]
  cases ha : a.hasTime with
  | false =>
      cases hb : b.hasTime with
      | false => simp
      | true =>
          simp only [Bool.not_false, ↓reduceIte, Bool.true_and, Bool.or_eq_true, decide_eq_true_eq, Int.reduceNeg,
            Bool.false_eq_true, Bool.true_eq_false, and_false, and_self, or_false]
          omega
  | true =>
      cases hb : b.hasTime with
      | false =>
          -- this is where midnight comes before the same day without a time
          have hhour := hour_of_not_hasTime hyear ha hb
          simp only [Bool.not_true, Bool.false_eq_true, ↓reduceIte, Bool.not_false, Bool.true_and, Bool.or_eq_true,
            decide_eq_true_eq, not_lt_zero, and_false, or_self, and_true, true_and, false_or]
          split
          · omega
          · rw [compareField_neg]
            omega
      | true => simp [compareField_neg]

/-! ## The laws -/

theorem calDateCompare_le_zero (a b : CalDate) : calDateCompare a b ≤ 0 ↔ a.rank ≤ b.rank := by
  unfold calDateCompare CalDate.rank
  simp only [compareField_le_zero, Prod.Lex.toLex_le_toLex]
  refine or_congr_right (and_congr_right fun hyear => ?_)
  rw [compareTime_le_zero hyear]

theorem calDateCompare_neg (a b : CalDate) : calDateCompare a b < 0 ↔ a.rank < b.rank ∨ MidnightOf a b := by
  unfold calDateCompare CalDate.rank MidnightOf
  simp only [compareField_neg, Prod.Lex.toLex_lt_toLex]
  by_cases hyear : a.year = b.year
  · rw [compareTime_neg hyear]
    tauto
  · tauto

theorem calDateCompare_pos (a b : CalDate) : 0 < calDateCompare a b ↔ b.rank < a.rank := by
  rw [← not_le, calDateCompare_le_zero, not_le]

/-- Dates that do not rank above one another do not either along a chain of them. -/
theorem calDateCompare_trans {a b c : CalDate} (hab : calDateCompare a b ≤ 0) (hbc : calDateCompare b c ≤ 0) :
    calDateCompare a c ≤ 0 := by
  rw [calDateCompare_le_zero] at *
  exact hab.trans hbc

theorem MidnightOf.rank_eq {a b : CalDate} (h : MidnightOf a b) : a.rank = b.rank := by
  rcases h with ⟨hyear, hmonth, hday, ha, hhour, hmin, hb⟩
  unfold CalDate.rank CalDate.time startHour startMin
  rw [if_pos ha, if_pos ha, hyear, hmonth, hday, hhour, hmin, hb]
  rfl

theorem sign_cases (v : Int) : v < 0 ∧ v.sign = -1 ∨ v = 0 ∧ v.sign = 0 ∨ 0 < v ∧ v.sign = 1 := by
  rcases lt_trichotomy v 0 with hv | hv | hv
  · exact .inl ⟨hv, Int.sign_eq_neg_one_of_neg hv⟩
  · exact .inr (.inl ⟨hv, Int.sign_eq_zero_iff_zero.2 hv⟩)
  · exact .inr (.inr ⟨hv, Int.sign_eq_one_of_pos hv⟩)

theorem sign_eq_neg_iff (v w : Int) : v.sign = -w.sign ↔ (v < 0 ↔ 0 < w) ∧ (w < 0 ↔ 0 < v) := by
  have hv := sign_cases v
  have hw := sign_cases w
  omega

theorem calDateCompare_sign_iff (a b : CalDate) :
    (calDateCompare a b).sign = -(calDateCompare b a).sign ↔ ¬ MidnightOf a b ∧ ¬ MidnightOf b a := by
  rw [sign_eq_neg_iff, calDateCompare_neg, calDateCompare_neg, calDateCompare_pos, calDateCompare_pos]
  have hrank : ∀ {x y : CalDate}, MidnightOf x y → ¬ x.rank < y.rank := fun h => h.rank_eq.not_lt
  constructor
  · rintro ⟨hab, hba⟩
    exact ⟨fun h => hrank h (hab.1 (.inr h)), fun h => hrank h (hba.1 (.inr h))⟩
  · rintro ⟨hab, hba⟩
    exact ⟨or_iff_left hab, or_iff_left hba⟩

end Scambio
