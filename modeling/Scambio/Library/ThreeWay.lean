import Mathlib.Tactic.Common

/-!
# ThreeWay — merging two sides with what they were

A name has a value, or none, on the left side, on the right side, and in the base: what both sides were when they were
merged for the last time.

* `choose` : what is done of a value of the left side;
* `merge`  : the value that both sides have then;
* `merge_left`, `merge_right` : a change of one side alone goes to the other;
* `lost_of_merge` : what the left side loses was in the base, or is saved.
-/

namespace Scambio.Library.ThreeWay

/-- What is done of a value of the left side. -/
inductive Choice
  /-- Both sides have it already. -/
  | keep
  | give
  | take
  /-- It is saved, and the value of the right side is taken. -/
  | saveTake
  | drop
  | saveDrop
  deriving DecidableEq, Repr

section Merge

variable {δ : Type*} [DecidableEq δ]

def choose (left : δ) (right base : Option δ) : Choice :=
  match right, base with
  | some right, some base =>
      if left = base then if left = right then .keep else .take
      else if base = right then .give
      else .saveTake
  | some right, none => if left = right then .keep else .saveTake
  | none, some base => if left = base then .drop else .saveDrop
  | none, none => .give

/-- The value of both sides.  Where the left side has none, the base tells whether it never had it. -/
def merge : Option δ → Option δ → Option δ → Option δ
  | some left, right, base =>
      match choose left right base with
      | .keep => some left
      | .give => some left
      | .take => right
      | .saveTake => right
      | .drop => none
      | .saveDrop => none
  | none, right, none => right
  | none, _, some _ => none

theorem merge_some (left : δ) (right base : Option δ) : merge (some left) right base =
    match choose left right base with
    | .keep => some left
    | .give => some left
    | .take => right
    | .saveTake => right
    | .drop => none
    | .saveDrop => none := rfl

/-- A value of the left side that is saved. -/
def Saved (left right base : Option δ) : Prop :=
  ∃ value ∈ left, choose value right base = .saveTake ∨ choose value right base = .saveDrop

/-- What a choice tells of the three values. -/
def Choice.Tells (left : δ) (right base : Option δ) : Choice → Prop
  | .keep => right = some left
  | .give => right = base ∧ base ≠ some left
  | .take => base = some left ∧ ∃ value, right = some value ∧ value ≠ left
  | .saveTake => base ≠ some left ∧ ∃ value, right = some value
  | .drop => base = some left ∧ right = none
  | .saveDrop => base ≠ some left ∧ right = none

theorem choose_tells (left : δ) (right base : Option δ) : (choose left right base).Tells left right base := by
  rcases right with _ | right <;> rcases base with _ | base <;> unfold choose
  · exact ⟨rfl, nofun⟩
  · simp only
    split_ifs with h
    · exact ⟨h ▸ rfl, rfl⟩
    · exact ⟨fun heq => h (Option.some.inj heq).symm, rfl⟩
  · simp only
    split_ifs with h
    · exact h ▸ rfl
    · exact ⟨nofun, right, rfl⟩
  · simp only
    split_ifs with h h' h''
    · exact h' ▸ rfl
    · exact ⟨h ▸ rfl, right, rfl, Ne.symm h'⟩
    · exact ⟨h'' ▸ rfl, fun heq => h (Option.some.inj heq).symm⟩
    · exact ⟨fun heq => h (Option.some.inj heq).symm, right, rfl⟩

theorem choose_self (value : δ) : choose value (some value) (some value) = .keep := by
  simp [choose]

/-- Only the left side has changed. -/
theorem merge_left (left base : Option δ) : merge left base base = left := by
  rcases left with _ | left <;> rcases base with _ | base
  · rfl
  · rfl
  · rfl
  · by_cases h : left = base
    · simp [merge, choose, h]
    · simp [merge, choose, h]

/-- Only the right side has changed. -/
theorem merge_right (right base : Option δ) : merge base right base = right := by
  rcases base with _ | base
  · rfl
  · rcases right with _ | right
    · simp [merge, choose]
    · by_cases h : base = right
      · simp [merge, choose, h]
      · simp [merge, choose, h]

/-- A value that the left side loses is the one of the base, or is saved. -/
theorem lost_of_merge {left : δ} {right base : Option δ} (hlost : merge (some left) right base ≠ some left) :
    base = some left ∨ Saved (some left) right base := by
  have htells := choose_tells left right base
  rcases hchoose : choose left right base <;> rw [hchoose] at htells
  · exact absurd (by simp only [merge, hchoose]) hlost
  · exact absurd (by simp only [merge, hchoose]) hlost
  · exact .inl htells.1
  · exact .inr ⟨left, rfl, .inl hchoose⟩
  · exact .inl htells.1
  · exact .inr ⟨left, rfl, .inr hchoose⟩

end Merge

end Scambio.Library.ThreeWay
