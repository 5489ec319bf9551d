import Mathlib.Data.List.Sort
import Mathlib.Order.Basic

/-!
# Ranked — lists kept in the order of a rank

Elements are compared by a rank in a linear order, and two elements may have one rank.  An element that is
inserted before the first one above it, which is `List.orderedInsert` with the strict order of the ranks, comes last
among its equals and leaves the list in order; and in a list in order nothing of interest is behind the first element
above a bound.
-/

namespace Scambio
namespace Library

variable {α β : Type*} [LinearOrder β] (rank : α → β)

/-- No element ranks above a later one. -/
def Ranked (l : List α) : Prop :=
  l.Pairwise fun a b => rank a ≤ rank b

variable {rank} {l : List α}

theorem Ranked.orderedInsert (h : Ranked rank l) (x : α) :
    Ranked rank (l.orderedInsert (fun a b => rank a < rank b) x) := by
  induction l with
  | nil => exact List.pairwise_singleton _ x
  | cons y l ih =>
      rcases List.pairwise_cons.1 h with ⟨hy, hl⟩
      by_cases hlt : rank x < rank y
      · rw [List.orderedInsert_cons, if_pos hlt]
        refine List.pairwise_cons.2 ⟨fun z hz => ?_, h⟩
        rcases List.mem_cons.1 hz with rfl | hz
        · exact hlt.le
        · exact hlt.le.trans (hy z hz)
      · rw [List.orderedInsert_cons, if_neg hlt]
        refine List.pairwise_cons.2 ⟨fun z hz => ?_, ih hl⟩
        rcases (List.mem_orderedInsert _).1 hz with rfl | hz
        · exact not_lt.1 hlt
        · exact hy z hz

theorem Ranked.sublist {l' : List α} (h : Ranked rank l) (hsub : l'.Sublist l) : Ranked rank l' :=
  List.Pairwise.sublist hsub h

/-- Behind an element above the bound there are only such. -/
theorem Ranked.filter_eq_nil {x : α} {bound : β} (h : Ranked rank (x :: l)) (hx : ¬ rank x ≤ bound)
    (p : α → Bool) : (x :: l).filter (fun a => decide (rank a ≤ bound) && p a) = [] := by
  refine List.filter_eq_nil_iff.2 fun a ha => ?_
  have habove : ¬ rank a ≤ bound := by
    rcases List.mem_cons.1 ha with rfl | ha
    · exact hx
    · exact fun hle => hx (((List.pairwise_cons.1 h).1 a ha).trans hle)
  rw [decide_eq_false habove, Bool.false_and]
  exact Bool.false_ne_true

end Library
end Scambio
