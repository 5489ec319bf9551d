import Mathlib.Logic.Function.Basic
import Mathlib.Data.List.Basic

/-!
# Splice — lists threaded through one successor per node

A family of lists can be kept in a single successor function: the list of a node is what is met when
following the function from that node until it ends.  Putting a new node right after an existing one
changes every list that goes through the latter, and no other.

* `Walk next a l`    : following `next` from `a` meets exactly the nodes of `l`, then ends;
* `splice next t w`  : the node `w` is put right after `t`.
-/

namespace Scambio.Library

variable {α : Type}

inductive Walk (next : α → Option α) : α → List α → Prop
  | stop {a : α} : next a = none → Walk next a []
  | step {a b : α} {l : List α} : next a = some b → Walk next b l → Walk next a (b :: l)

section Walk

variable {next next' : α → Option α} {a b : α} {l l' : List α}

theorem Walk.unique (h : Walk next a l) (h' : Walk next a l') : l = l' := by
  induction h generalizing l' with
  | stop hstop =>
      cases h' with
      | stop _ => rfl
      | step hstep _ => simp [hstop] at hstep
  | step hstep _ ih =>
      cases h' with
      | stop hstop => simp [hstop] at hstep
      | step hstep' hrest =>
          rw [hstep, Option.some.injEq] at hstep'
          subst hstep'
          rw [ih hrest]

/-- A walk can be cut at any of its nodes. -/
theorem Walk.split (h : Walk next a l) (hb : b ∈ l) :
    ∃ l₁ l₂, l = l₁ ++ b :: l₂ ∧ Walk next b l₂ := by
  induction h with
  | stop _ => simp at hb
  | @step a c l _ hrest ih =>
      rcases List.mem_cons.1 hb with rfl | hb
      · exact ⟨[], l, rfl, hrest⟩
      · rcases ih hb with ⟨l₁, l₂, rfl, hwalk⟩
        exact ⟨c :: l₁, l₂, rfl, hwalk⟩

/-- A walk that ends does not come back to where it started. -/
theorem Walk.not_mem (h : Walk next a l) : a ∉ l := by
  intro ha
  rcases h.split ha with ⟨l₁, l₂, rfl, hwalk⟩
  have hlen := congrArg List.length (h.unique hwalk)
  simp only [List.length_append, List.length_cons] at hlen
  omega

/-- A walk only depends on the successors of the nodes it meets. -/
theorem Walk.congr (h : Walk next a l) (ha : next' a = next a) (hl : ∀ b ∈ l, next' b = next b) :
    Walk next' a l := by
  induction h with
  | stop hstop => exact .stop (ha.trans hstop)
  | step hstep _ ih =>
      exact .step (ha.trans hstep) (ih (hl _ (by simp)) fun b hb => hl b (by simp [hb]))

end Walk

section Splice

variable [DecidableEq α]

/-- The node `w` is put right after `t`. -/
def splice (next : α → Option α) (t w : α) : α → Option α :=
  Function.update (Function.update next t (some w)) w (next t)

variable {next : α → Option α} {t u w : α} {l : List α}

theorem splice_new : splice next t w w = next t := by
  simp [splice]

theorem splice_at (h : t ≠ w) : splice next t w t = some w := by
  simp [splice, h]

theorem splice_of_ne (ht : u ≠ t) (hw : u ≠ w) : splice next t w u = next u := by
  simp [splice, ht, hw]

/-- Nodes that are neither `t` nor the new node are followed as before. -/
theorem Walk.splice_of_not_mem (h : Walk next u l) (hu : u ≠ t) (huw : u ≠ w) (ht : t ∉ l)
    (hw : w ∉ l) : Walk (splice next t w) u l := by
  refine h.congr (splice_of_ne hu huw) fun b hb => splice_of_ne ?_ ?_
  · rintro rfl
    exact ht hb
  · rintro rfl
    exact hw hb

/-- The new node is followed by what followed `t`. -/
theorem Walk.splice_new (h : Walk next t l) (hw : w ∉ l) : Walk (splice next t w) w l := by
  have ht := h.not_mem
  cases h with
  | stop hstop => exact .stop (Library.splice_new.trans hstop)
  | @step _ b l hstep hrest =>
      simp only [List.mem_cons, not_or] at ht hw
      refine .step (Library.splice_new.trans hstep) ?_
      exact hrest.splice_of_not_mem (Ne.symm ht.1) (Ne.symm hw.1) ht.2 hw.2

theorem Walk.splice_at (h : Walk next t l) (htw : t ≠ w) (hw : w ∉ l) :
    Walk (splice next t w) t (w :: l) :=
  .step (Library.splice_at htw) (h.splice_new hw)

/-- A walk through `t` now goes through the new node. -/
theorem Walk.splice_of_mem (h : Walk next u l) (htw : t ≠ w) (huw : u ≠ w) (ht : t ∈ l) (hw : w ∉ l) :
    ∃ l', Walk (splice next t w) u l' ∧ w ∈ l' ∧ ∀ x ∈ l', x = w ∨ x ∈ l := by
  have hu : u ≠ t := fun he => h.not_mem (he ▸ ht)
  induction h with
  | stop _ => simp at ht
  | @step a b l hstep hrest ih =>
      simp only [List.mem_cons, not_or] at hw
      have hab : splice next t w a = some b := (splice_of_ne hu huw).trans hstep
      by_cases hbt : b = t
      · subst hbt
        refine ⟨b :: w :: l, .step hab (hrest.splice_at htw hw.2), by simp, ?_⟩
        intro x hx
        simp only [List.mem_cons] at hx ⊢
        rcases hx with hx | hx | hx <;> simp [hx]
      · have ht' : t ∈ l := (List.mem_cons.1 ht).resolve_left (Ne.symm hbt)
        rcases ih (Ne.symm hw.1) ht' hw.2 hbt with ⟨l', hwalk, hmem, hsub⟩
        refine ⟨b :: l', .step hab hwalk, by simp [hmem], ?_⟩
        intro x hx
        rcases List.mem_cons.1 hx with rfl | hx
        · simp
        · rcases hsub x hx with rfl | hx
          · simp
          · simp [hx]

end Splice

end Scambio.Library
