import Mathlib.Data.List.Infix

/-!
# Infix — where a list first occurs in another one
-/

namespace Scambio.Library

variable {α : Type} [DecidableEq α]

/-- The index of the first occurrence of `little`. -/
def findInfix (little : List α) : List α → Option Nat
  | [] => if little = [] then some 0 else none
  | c :: big => if little <+: c :: big then some 0 else (findInfix little big).map (· + 1)

theorem findInfix_some {little big : List α} {i : Nat} (h : findInfix little big = some i) :
    little <+: big.drop i := by
  induction big generalizing i with
  | nil =>
      rcases Option.ite_none_right_eq_some.1 h with ⟨rfl, -⟩
      exact List.nil_prefix
  | cons c big ih =>
      rw [findInfix] at h
      split at h
      · next hpfx =>
        cases h
        exact hpfx
      · rcases Option.map_eq_some_iff.1 h with ⟨j, hj, rfl⟩
        exact ih hj

theorem findInfix_add_length_le {little big : List α} {i : Nat} (hne : little ≠ [])
    (h : findInfix little big = some i) : i + little.length ≤ big.length := by
  have hpfx := findInfix_some h
  have hlen := hpfx.length_le
  have hpos := List.length_pos_iff.2 hne
  rw [List.length_drop] at hlen
  omega

theorem findInfix_eq_none {little big : List α} (hne : little ≠ []) (h : ¬ little <:+: big) :
    findInfix little big = none := by
  induction big with
  | nil => exact if_neg hne
  | cons c big ih =>
      have hpfx : ¬ little <+: c :: big := fun hp => h hp.isInfix
      have htail : ¬ little <:+: big := fun hi => h (List.infix_cons hi)
      rw [findInfix, if_neg hpfx, ih htail]
      rfl

/-! ## A list whose head is nowhere else in it -/

variable {a : α} {w x z : List α}

omit [DecidableEq α] in
/-- What has no `a` does not reach over one. -/
theorem prefix_of_prefix_append (ha : a ∉ w) (h : w <+: x ++ a :: z) : w <+: x := by
  have hx : x ++ [a] <+: x ++ a :: z := ⟨z, by simp⟩
  rcases List.prefix_or_prefix_of_prefix h hx with hw | hw
  · rcases List.prefix_concat_iff.1 hw with rfl | hw
    · exact absurd (List.mem_append_right x (List.mem_singleton.2 rfl)) ha
    · exact hw
  · exact absurd (hw.subset (List.mem_append_right x (List.mem_singleton.2 rfl))) ha

omit [DecidableEq α] in
theorem infix_append_of_head (ha : a ∉ w) (h : a :: w <:+: x ++ a :: z) :
    a :: w <:+: x ∨ a :: w <:+: a :: z := by
  induction x with
  | nil => exact .inr h
  | cons c x ih =>
      rcases List.infix_cons_iff.1 h with hp | hi
      · rcases List.cons_prefix_cons.1 hp with ⟨rfl, hw⟩
        exact .inl (List.cons_prefix_cons.2 ⟨rfl, prefix_of_prefix_append ha hw⟩).isInfix
      · rcases ih hi with hx | hz
        · exact .inl (List.infix_cons hx)
        · exact .inr hz

/-- It is found at its first occurrence. -/
theorem findInfix_append (ha : a ∉ w) (hx : ¬ a :: w <:+: x) (y : List α) :
    findInfix (a :: w) (x ++ (a :: w ++ y)) = some x.length := by
  induction x with
  | nil => exact if_pos (List.prefix_append _ _)
  | cons c x ih =>
      have hpfx : ¬ a :: w <+: c :: (x ++ (a :: w ++ y)) := by
        intro hp
        rcases List.cons_prefix_cons.1 hp with ⟨rfl, hw⟩
        have hw' : w <+: x := prefix_of_prefix_append ha hw
        exact hx (List.cons_prefix_cons.2 ⟨rfl, hw'⟩).isInfix
      have htail : ¬ a :: w <:+: x := fun hi => hx (List.infix_cons hi)
      rw [List.cons_append, findInfix, if_neg hpfx, ih htail]
      rfl

end Scambio.Library
