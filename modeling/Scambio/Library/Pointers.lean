import Mathlib.Logic.Function.Basic
import Mathlib.Logic.Relation
import Mathlib.Data.Set.Basic

/-!
# Pointers — following pointers to an end

Every place holds an end, a pointer to a place, or nothing any more.  `Settles` says of a place that following the
pointers from it comes to an end, that is neither to an erased place nor round and round.

* `allSettle_erase_iff` : which places can be erased;
* `allSettle_write_iff` : which pointers can be written at an end.
-/

namespace Scambio.Library

variable {α : Type*}

inductive Pointer (α : Type*)
  | stop
  | goto (target : α)
  | erased
  deriving DecidableEq

/-- Following the pointers from here comes to an end. -/
inductive Settles (place : α → Pointer α) : α → Prop
  | stop {a : α} : place a = .stop → Settles place a
  | goto {a b : α} : place a = .goto b → Settles place b → Settles place a

/-- All places that are not erased settle. -/
def AllSettle (place : α → Pointer α) : Prop :=
  ∀ a, place a ≠ .erased → Settles place a

variable {place : α → Pointer α}

theorem Settles.not_erased {a : α} (h : Settles place a) : place a ≠ .erased := by
  cases h with
  | stop hstop => simp [hstop]
  | goto hgoto _ => simp [hgoto]

theorem Settles.target {a b : α} (h : Settles place a) (hb : place a = .goto b) : Settles place b := by
  cases h with
  | stop hstop =>
      rw [hb] at hstop
      cases hstop
  | goto hgoto hsettles =>
      rw [hb, Pointer.goto.injEq] at hgoto
      exact hgoto ▸ hsettles

/-- A place that settles is not met again. -/
theorem Settles.acyclic {a : α} (h : Settles place a) :
    ¬ Relation.TransGen (fun a b => place a = .goto b) a a := by
  induction h with
  | stop hstop =>
      intro hcycle
      rcases Relation.TransGen.head'_iff.1 hcycle with ⟨c, hc, -⟩
      rw [hstop] at hc
      cases hc
  | goto hgoto _ ih =>
      intro hcycle
      rcases Relation.TransGen.head'_iff.1 hcycle with ⟨c, hc, hback⟩
      rw [hgoto, Pointer.goto.injEq] at hc
      exact ih (Relation.TransGen.tail' (hc ▸ hback) hgoto)

theorem Settles.congr {place' : α → Pointer α} {a : α} (h : Settles place a)
    (hsame : ∀ b, Relation.ReflTransGen (fun a b => place a = .goto b) a b → place' b = place b) :
    Settles place' a := by
  induction h with
  | @stop a hstop => exact .stop ((hsame a .refl).trans hstop)
  | @goto a b hgoto _ ih =>
      exact .goto ((hsame a .refl).trans hgoto) (ih fun c hc => hsame c (.head hgoto hc))

/-! ## Erasing -/

open Classical in
/-- The places of `gone` are erased. -/
noncomputable def erase (gone : Set α) (place : α → Pointer α) (a : α) : Pointer α :=
  if a ∈ gone then .erased else place a

variable {gone : Set α}

theorem erase_of_mem {a : α} (h : a ∈ gone) : erase gone place a = .erased :=
  if_pos h

theorem erase_of_not_mem {a : α} (h : a ∉ gone) : erase gone place a = place a :=
  if_neg h

theorem erase_erase {gone' : Set α} : erase gone (erase gone' place) = erase (gone ∪ gone') place := by
  funext a
  by_cases h : a ∈ gone
  · rw [erase_of_mem h, erase_of_mem (Set.mem_union_left _ h)]
  · rw [erase_of_not_mem h]
    by_cases h' : a ∈ gone'
    · rw [erase_of_mem h', erase_of_mem (Set.mem_union_right _ h')]
    · rw [erase_of_not_mem h', erase_of_not_mem fun hmem => hmem.elim h h']

/-- Places can be erased when no pointer that stays leads there. -/
theorem allSettle_erase_iff (h : AllSettle place) :
    AllSettle (erase gone place) ↔ ∀ a b, a ∉ gone → place a = .goto b → b ∉ gone := by
  constructor
  · intro hall a b ha hb hmem
    have hgoto : erase gone place a = .goto b := (erase_of_not_mem ha).trans hb
    have hsettles := hall a (by simp [hgoto])
    exact (hsettles.target hgoto).not_erased (erase_of_mem hmem)
  · intro hfree a ha
    have hmem : a ∉ gone := fun hmem => ha (erase_of_mem hmem)
    have hsettles := h a ((erase_of_not_mem hmem).symm.trans_ne ha)
    clear ha
    induction hsettles with
    | stop hstop => exact .stop ((erase_of_not_mem hmem).trans hstop)
    | @goto a b hgoto _ ih => exact .goto ((erase_of_not_mem hmem).trans hgoto) (ih (hfree a b hmem hgoto))

/-! ## Writing -/

variable [DecidableEq α] {n : α}

/-- An end can be written anywhere. -/
theorem AllSettle.write_stop (h : AllSettle place) : AllSettle (Function.update place n .stop) := by
  intro a ha
  by_cases hn : a = n
  · subst hn
    exact .stop (Function.update_self ..)
  · have hplace : Function.update place n .stop a = place a := Function.update_of_ne hn _ _
    have hsettles := h a (hplace ▸ ha)
    clear ha hplace hn
    induction hsettles with
    | @stop a hstop =>
        by_cases hn : a = n
        · subst hn
          exact .stop (Function.update_self ..)
        · exact .stop ((Function.update_of_ne hn _ _).trans hstop)
    | @goto a b hgoto _ ih =>
        by_cases hn : a = n
        · subst hn
          exact .stop (Function.update_self ..)
        · exact .goto ((Function.update_of_ne hn _ _).trans hgoto) ih

/-- A pointer can take the place of an end when what it points to settles without it. -/
theorem allSettle_write_iff (hstop : place n = .stop) {target : α} :
    AllSettle (Function.update place n (.goto target)) ↔
      AllSettle place ∧ Settles (erase {n} place) target := by
  have hself : Function.update place n (.goto target) n = .goto target := Function.update_self ..
  have hother : ∀ {a}, a ≠ n → Function.update place n (.goto target) a = place a :=
    fun ha => Function.update_of_ne ha _ _
  have herase : ∀ {a}, a ≠ n → erase {n} place a = place a := fun ha => erase_of_not_mem ha
  constructor
  · intro hall
    refine ⟨?_, ?_⟩
    · have hback := hall.write_stop (n := n)
      rwa [Function.update_idem, ← hstop, Function.update_eq_self] at hback
    · have hn := hall n (by simp)
      refine (hn.target hself).congr fun b hb => ?_
      -- a way that came back to `n` would be a cycle
      have hne : b ≠ n := by
        rintro rfl
        exact hn.acyclic (Relation.TransGen.head' hself hb)
      rw [herase hne, hother hne]
  · rintro ⟨hall, htarget⟩
    have havoid : ∀ {a}, Settles (erase {n} place) a → a ≠ n := by
      rintro a ha rfl
      exact ha.not_erased (erase_of_mem rfl)
    have hwrite : ∀ {a}, Settles (erase {n} place) a → Settles (Function.update place n (.goto target)) a := by
      intro a ha
      refine ha.congr fun b hb => ?_
      have hsettles : Settles (erase {n} place) b := by
        induction hb with
        | refl => exact ha
        | tail _ hgoto ih => exact ih.target hgoto
      rw [hother (havoid hsettles), herase (havoid hsettles)]
    have hn : Settles (Function.update place n (.goto target)) n := .goto hself (hwrite htarget)
    intro a ha
    by_cases hne : a = n
    · exact hne ▸ hn
    · have hsettles := hall a (hother hne ▸ ha)
      -- along the old way, which either avoids `n` or now goes on from there
      clear ha hne
      induction hsettles with
      | @stop a hstop =>
          by_cases hne : a = n
          · exact hne ▸ hn
          · exact .stop ((hother hne).trans hstop)
      | @goto a b hgoto _ ih =>
          by_cases hne : a = n
          · exact hne ▸ hn
          · exact .goto ((hother hne).trans hgoto) ih

end Scambio.Library
