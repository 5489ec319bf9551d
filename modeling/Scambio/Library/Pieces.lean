import Mathlib.Data.List.Basic

/-!
# Pieces — a list cut into pieces of bounded length

`pieces n l` are the pieces of `n` elements of `l`, the last one with what remains.  There is always a
last piece, which is empty only if the list is.

* `flatten_pieces` : the pieces make the list;
* `startOfLast`    : where the last piece of a list of pieces starts.
-/

namespace Scambio
namespace Library

variable {α : Type*}

def pieces (n : Nat) (l : List α) : List (List α) :=
  if _ : 0 < n ∧ n < l.length then l.take n :: pieces n (l.drop n) else [l]
termination_by l.length
decreasing_by
  rw [List.length_drop]
  omega

theorem pieces_of_le {n : Nat} {l : List α} (h : l.length ≤ n) : pieces n l = [l] := by
  rw [pieces, dif_neg (by omega)]

theorem pieces_of_lt {n : Nat} (hn : 0 < n) {l : List α} (h : n < l.length) :
    pieces n l = l.take n :: pieces n (l.drop n) := by
  rw [pieces, dif_pos ⟨hn, h⟩]

theorem pieces_ne_nil (n : Nat) (l : List α) : pieces n l ≠ [] := by
  rw [pieces]
  split <;> simp

theorem flatten_pieces (n : Nat) (l : List α) : (pieces n l).flatten = l := by
  induction l using pieces.induct n with
  | case1 l h ih => rw [pieces_of_lt h.1 h.2, List.flatten_cons, ih, List.take_append_drop]
  | case2 l h =>
      rw [pieces, dif_neg h]
      simp

theorem length_le_of_mem_pieces {n : Nat} (hn : 0 < n) {l p : List α} (hp : p ∈ pieces n l) :
    p.length ≤ n := by
  induction l using pieces.induct n with
  | case1 l h ih =>
      rw [pieces_of_lt h.1 h.2] at hp
      rcases List.mem_cons.1 hp with rfl | hp
      · exact List.length_take_le n l
      · exact ih hp
  | case2 l h =>
      rw [pieces, dif_neg h, List.mem_singleton] at hp
      subst hp
      omega

theorem ne_nil_of_mem_pieces {n : Nat} (hn : 0 < n) {l p : List α} (hl : l ≠ []) (hp : p ∈ pieces n l) : p ≠ [] := by
  induction l using pieces.induct n with
  | case1 l h ih =>
      rw [pieces_of_lt h.1 h.2] at hp
      rcases List.mem_cons.1 hp with rfl | hp
      · exact fun hnil => (List.take_eq_nil_iff.1 hnil).elim (Nat.ne_of_gt hn) hl
      · exact ih (List.drop_eq_nil_iff.not.2 (Nat.not_le_of_lt h.2)) hp
  | case2 l h =>
      rw [pieces, dif_neg h, List.mem_singleton] at hp
      exact hp ▸ hl

/-- Only a list without elements has a piece without elements. -/
theorem ne_nil_of_mem_tail_pieces {n : Nat} {l p : List α} (hp : p ∈ (pieces n l).tail) : p ≠ [] := by
  rw [pieces] at hp
  split at hp
  · next h =>
    exact ne_nil_of_mem_pieces h.1 (List.drop_eq_nil_iff.not.2 (Nat.not_le_of_lt h.2)) hp
  · cases hp

/-! ## The last piece -/

/-- Where the last piece starts in the concatenation. -/
def startOfLast (ps : List (List α)) : Nat :=
  ps.dropLast.flatten.length

theorem startOfLast_append (ps : List (List α)) {qs : List (List α)} (hne : qs ≠ []) :
    startOfLast (ps ++ qs) = ps.flatten.length + startOfLast qs := by
  rw [startOfLast, startOfLast, List.dropLast_append_of_ne_nil hne, List.flatten_append,
    List.length_append]

/-- No piece starts after the last one. -/
theorem start_le_startOfLast {ps ps₁ ps₂ : List (List α)} {p : List α} (h : ps = ps₁ ++ p :: ps₂) :
    ps₁.flatten.length ≤ startOfLast ps := by
  rw [h, startOfLast_append ps₁ (List.cons_ne_nil p ps₂)]
  exact Nat.le_add_right _ _

theorem exists_startOfLast {ps : List (List α)} (hne : ps ≠ []) :
    ∃ ps₁ p, ps = ps₁ ++ [p] ∧ ps₁.flatten.length = startOfLast ps :=
  ⟨ps.dropLast, ps.getLast hne, (List.dropLast_concat_getLast hne).symm, rfl⟩

theorem startOfLast_pieces {n : Nat} (hn : 0 < n) (l : List α) :
    startOfLast (pieces n l) = n * ((l.length - 1) / n) := by
  induction l using pieces.induct n with
  | case1 l h ih =>
      have hcons := startOfLast_append [l.take n] (pieces_ne_nil n (l.drop n))
      have hlen : l.length - 1 = (l.length - n - 1) + n := by omega
      rw [pieces_of_lt h.1 h.2, ← List.singleton_append, hcons, ih, List.length_drop, hlen,
        Nat.add_div_right _ hn, Nat.mul_succ]
      simp only [List.flatten_cons, List.flatten_nil, List.append_nil, List.length_take]
      omega
  | case2 l h =>
      have hle : l.length ≤ n := by omega
      have hzero : (l.length - 1) / n = 0 := Nat.div_eq_of_lt (by omega)
      rw [pieces_of_le hle, hzero]
      rfl

/-- Pieces that are cut again make the same list. -/
theorem flatten_flatMap_of {f : List α → List (List α)} (hflat : ∀ p, (f p).flatten = p)
    (ps : List (List α)) : (ps.flatMap f).flatten = ps.flatten := by
  induction ps with
  | nil => rfl
  | cons p ps ih => rw [List.flatMap_cons, List.flatten_append, hflat, ih, List.flatten_cons]

/-- The last piece of all, when pieces are cut again. -/
theorem startOfLast_flatMap {ps : List (List α)} (f : List α → List (List α))
    (hf : ∀ p, f p ≠ []) (hflat : ∀ p, (f p).flatten = p) {ps₁ : List (List α)} {p : List α}
    (h : ps = ps₁ ++ [p]) : startOfLast (ps.flatMap f) = ps₁.flatten.length + startOfLast (f p) := by
  rw [h, List.flatMap_append, List.flatMap_singleton, startOfLast_append _ (hf p),
    flatten_flatMap_of hflat]

end Library
end Scambio
