import Mathlib.Data.List.Basic

/-!
# Segments — files made of consecutive segments

A file is a list of bytes; a record file is the concatenation of its records.  This module
collects what is needed to reason about such files by position:

* `slice`     : read a range of a file;
* `overwrite` : write a range of a file in place (a gap past the end is filled);
* `offset`    : where the `i`-th segment of a concatenation starts.

Fixed-width record files are the special case `offset_const`.
-/

namespace Scambio
namespace Library

variable {α : Type*}

/-! ## Reading and overwriting a range -/

/-- The `len` elements of `f` from position `off` on (fewer at the end of `f`). -/
def slice (f : List α) (off len : Nat) : List α :=
  (f.drop off).take len

/-- `f` with `w` written at position `off`; a gap past the end is filled with `z`. -/
def overwrite (z : α) (f : List α) (off : Nat) (w : List α) : List α :=
  f.take off ++ List.replicate (off - f.length) z ++ w ++ f.drop (off + w.length)

@[simp] theorem overwrite_nil (z : α) (f : List α) {off : Nat} (h : off ≤ f.length) :
    overwrite z f off [] = f := by
  simp [overwrite, Nat.sub_eq_zero_of_le h]

/-- Inside a concatenation, an overwrite only touches the segment it falls in. -/
theorem overwrite_append_middle (z : α) (a s b w : List α) (h : w.length ≤ s.length) :
    overwrite z (a ++ (s ++ b)) a.length w = a ++ ((w ++ s.drop w.length) ++ b) := by
  have hdrop : (a ++ (s ++ b)).drop (a.length + w.length) = s.drop w.length ++ b := by
    rw [← List.drop_drop, List.drop_left, List.drop_append_of_le_length h]
  simp [overwrite, hdrop]

theorem length_overwrite (z : α) (f : List α) (off : Nat) (w : List α) :
    (overwrite z f off w).length = max f.length (off + w.length) := by
  simp only [overwrite, List.length_append, List.length_take, List.length_replicate, List.length_drop]
  omega

theorem take_overwrite (z : α) (f w : List α) (off : Nat) :
    (overwrite z f off w).take (off + w.length) = f.take off ++ List.replicate (off - f.length) z ++ w := by
  have hlen : (f.take off ++ List.replicate (off - f.length) z ++ w).length = off + w.length := by
    simp only [List.length_append, List.length_take, List.length_replicate]
    omega
  rw [overwrite, ← hlen, List.take_left]

/-- What is before the write is as before. -/
theorem take_overwrite_of_le (z : α) (f w : List α) {off n : Nat} (hn : n ≤ off) (hf : n ≤ f.length) :
    (overwrite z f off w).take n = f.take n := by
  have hlen : n ≤ (f.take off).length := by
    rw [List.length_take]
    omega
  rw [overwrite, List.append_assoc, List.append_assoc, List.take_append_of_le_length hlen, List.take_take,
    Nat.min_eq_left hn]

/-- What is written right behind a write is one write with it. -/
theorem overwrite_overwrite (z : α) (f a b : List α) (off : Nat) :
    overwrite z (overwrite z f off a) (off + a.length) b = overwrite z f off (a ++ b) := by
  have hlen : (f.take off ++ List.replicate (off - f.length) z ++ a).length = off + a.length := by
    simp only [List.length_append, List.length_take, List.length_replicate]
    omega
  have hdrop : (overwrite z f off a).drop (off + a.length + b.length) = f.drop (off + (a ++ b).length) := by
    rw [← List.drop_drop, overwrite, ← hlen, List.drop_left, List.drop_drop, hlen, List.length_append]
    congr 1
    omega
  have hgap : off + a.length - (overwrite z f off a).length = 0 := by
    rw [length_overwrite]
    omega
  rw [overwrite, take_overwrite, hgap, hdrop, List.replicate_zero, List.append_nil, overwrite]
  simp only [List.append_assoc]

theorem overwrite_zero (z : α) (f w : List α) : overwrite z f 0 w = w ++ f.drop w.length := by
  simp [overwrite]

/-- What is written is read back. -/
theorem getElem?_overwrite_add (z : α) (f w : List α) (off : Nat) {i : Nat} (hi : i < w.length) :
    (overwrite z f off w)[off + i]? = w[i]? := by
  have hlen : (f.take off ++ List.replicate (off - f.length) z).length = off := by
    simp only [List.length_append, List.length_take, List.length_replicate]
    omega
  rw [overwrite, List.append_assoc, List.getElem?_append_right (by omega), hlen, Nat.add_sub_cancel_left,
    List.getElem?_append_left hi]

/-- The rest of the file is as before. -/
theorem getElem?_overwrite_of_lt (z : α) (f w : List α) {off p : Nat} (hp : p < f.length)
    (hout : p < off ∨ off + w.length ≤ p) : (overwrite z f off w)[p]? = f[p]? := by
  rcases hout with hlt | hge
  · have htake : p < (f.take off).length := by
      rw [List.length_take]
      omega
    rw [overwrite, List.append_assoc, List.append_assoc, List.getElem?_append_left htake,
      List.getElem?_take_of_lt hlt]
  · have hlen : (f.take off ++ List.replicate (off - f.length) z ++ w).length = off + w.length := by
      simp only [List.length_append, List.length_take, List.length_replicate]
      omega
    rw [overwrite, List.getElem?_append_right (by omega), hlen, List.getElem?_drop]
    congr 1
    omega

/-- What fills the gap. -/
theorem getElem?_overwrite_gap (z : α) (f w : List α) {off p : Nat} (hp : f.length ≤ p) (hlt : p < off) :
    (overwrite z f off w)[p]? = some z := by
  have htake : f.take off = f := List.take_of_length_le (by omega)
  have hgap : p - f.length < off - f.length := by omega
  rw [overwrite, htake, List.append_assoc, List.append_assoc, List.getElem?_append_right hp,
    List.getElem?_append_left (by rw [List.length_replicate]; exact hgap), List.getElem?_replicate_of_lt hgap]

/-- A range, element by element. -/
theorem slice_eq_iff {f w : List α} {off : Nat} :
    slice f off w.length = w ↔ ∀ i < w.length, f[off + i]? = w[i]? := by
  have hget : ∀ i, (slice f off w.length)[i]? = if i < w.length then f[off + i]? else none := by
    intro i
    rw [slice, List.getElem?_take, List.getElem?_drop]
  constructor
  · intro h i hi
    rw [← h, hget, if_pos hi]
  · intro h
    apply List.ext_getElem?
    intro i
    rw [hget]
    split
    next hi => exact h i hi
    next hi => exact (List.getElem?_eq_none (Nat.le_of_not_lt hi)).symm

theorem slice_append_middle (a s b : List α) : slice (a ++ (s ++ b)) a.length s.length = s := by
  simp [slice]

/-! ## Offsets of segments -/

/-- Where segment `i` starts in the concatenation of `segs`. -/
def offset (segs : List (List α)) (i : Nat) : Nat :=
  (segs.take i).flatten.length

theorem flatten_around (segs : List (List α)) {i : Nat} (h : i < segs.length) :
    segs.flatten = (segs.take i).flatten ++ (segs[i] ++ (segs.drop (i + 1)).flatten) := by
  calc
    segs.flatten = (segs.take i ++ segs.drop i).flatten := by rw [List.take_append_drop]
    _ = (segs.take i).flatten ++ (segs[i] ++ (segs.drop (i + 1)).flatten) := by
          rw [List.flatten_append, List.drop_eq_getElem_cons h, List.flatten_cons]

@[simp] theorem offset_zero (segs : List (List α)) : offset segs 0 = 0 := by
  simp [offset]

theorem offset_length (segs : List (List α)) : offset segs segs.length = segs.flatten.length := by
  simp [offset]

theorem offset_succ (segs : List (List α)) {i : Nat} (h : i < segs.length) :
    offset segs (i + 1) = offset segs i + segs[i].length := by
  simp only [offset, List.take_succ_eq_append_getElem h, List.flatten_append, List.length_append]
  simp

theorem offset_append (segs t : List (List α)) {i : Nat} (h : i ≤ segs.length) :
    offset (segs ++ t) i = offset segs i := by
  simp [offset, List.take_append_of_le_length h]

theorem offset_le (segs : List (List α)) (i : Nat) : offset segs i ≤ segs.flatten.length := by
  calc
    offset segs i ≤ (segs.take i).flatten.length + (segs.drop i).flatten.length :=
          Nat.le_add_right _ _
    _ = segs.flatten.length := by
          rw [← List.length_append, ← List.flatten_append, List.take_append_drop]

/-- Replacing a segment by one of the same length moves no segment. -/
theorem offset_set (segs : List (List α)) {i : Nat} (h : i < segs.length) {s : List α}
    (hs : s.length = segs[i].length) (j : Nat) :
    offset (segs.set i s) j = offset segs j := by
  have hmap : (segs.set i s).map List.length = segs.map List.length := by
    rw [List.map_set, hs, ← List.getElem_map List.length (h := by simpa using h)]
    exact List.set_getElem_self _
  simp only [offset, List.length_flatten, List.map_take, hmap]

/-- In a concatenation of segments of one width, offsets are multiples of that width. -/
theorem offset_const (segs : List (List α)) {w : Nat} (hw : ∀ s ∈ segs, s.length = w) {i : Nat}
    (h : i ≤ segs.length) : offset segs i = w * i := by
  induction i with
  | zero => simp
  | succ i ih =>
      have hi : i < segs.length := h
      rw [offset_succ segs hi, ih (Nat.le_of_lt hi), hw _ (List.getElem_mem hi), Nat.mul_succ]

theorem drop_flatten_const {w : Nat} (segs : List (List α)) (hw : ∀ s ∈ segs, s.length = w) (i : Nat) :
    segs.flatten.drop (w * i) = (segs.drop i).flatten := by
  induction i generalizing segs with
  | zero => simp
  | succ i ih =>
      cases segs with
      | nil => simp
      | cons s segs =>
          have hs : s.length = w := hw s (by simp)
          have hrest : ∀ t ∈ segs, t.length = w := fun t ht => hw t (by simp [ht])
          rw [Nat.mul_succ, Nat.add_comm, ← List.drop_drop, List.flatten_cons, ← hs, List.drop_left,
            hs, ih segs hrest, List.drop_succ_cons]

theorem take_flatten_const {w : Nat} (segs : List (List α)) (hw : ∀ s ∈ segs, s.length = w) (n : Nat) :
    segs.flatten.take (w * n) = (segs.take n).flatten := by
  induction n generalizing segs with
  | zero => simp
  | succ n ih =>
      cases segs with
      | nil => simp
      | cons s segs =>
          have hs : s.length = w := hw s (by simp)
          have hrest : ∀ t ∈ segs, t.length = w := fun t ht => hw t (by simp [ht])
          have hle : s.length ≤ w * (n + 1) := by
            rw [hs]
            exact Nat.le_mul_of_pos_right w (Nat.succ_pos n)
          rw [List.flatten_cons, List.take_append, List.take_of_length_le hle, hs, Nat.mul_succ,
            Nat.add_sub_cancel, ih segs hrest, List.take_succ_cons, List.flatten_cons]

/-! ## Segment-wise reads and writes -/

theorem slice_flatten (segs : List (List α)) {i : Nat} (h : i < segs.length) :
    slice segs.flatten (offset segs i) segs[i].length = segs[i] := by
  rw [flatten_around segs h]
  exact slice_append_middle _ _ _

theorem slice_flatten_const {w : Nat} (segs : List (List α)) (hw : ∀ s ∈ segs, s.length = w)
    (i n : Nat) : slice segs.flatten (w * i) (w * n) = ((segs.drop i).take n).flatten := by
  rw [slice, drop_flatten_const segs hw,
    take_flatten_const _ fun s hs => hw s (List.mem_of_mem_drop hs)]

/-- Writing over the beginning of segment `i` is replacing that segment. -/
theorem overwrite_flatten (z : α) (segs : List (List α)) {i : Nat} (h : i < segs.length)
    {w : List α} (hw : w.length ≤ segs[i].length) :
    overwrite z segs.flatten (offset segs i) w =
      (segs.set i (w ++ segs[i].drop w.length)).flatten := by
  rw [flatten_around segs h, offset, overwrite_append_middle z _ _ _ _ hw,
    List.set_eq_take_append_cons_drop, if_pos h]
  simp

end Library
end Scambio
