import Mathlib.Data.List.Basic

/-!
# Traces — lists that grow at their end
-/

namespace Scambio
namespace Library

/-- A list cut at one of its elements, when it ends with `a`: the cut is at `a`, or before it. -/
theorem snoc_eq_append_cons {α : Type} {l t₁ t₂ : List α} {a x : α} (h : l ++ [a] = t₁ ++ x :: t₂) :
    (t₂ = [] ∧ l = t₁ ∧ a = x) ∨ ∃ t, t₂ = t ++ [a] ∧ l = t₁ ++ x :: t := by
  rcases List.eq_nil_or_concat t₂ with rfl | ⟨t, b, rfl⟩
  · have hinj := List.append_inj' h rfl
    have hax : a = x := by simpa using hinj.2
    exact .inl ⟨rfl, hinj.1, hax⟩
  · rw [List.concat_eq_append] at h ⊢
    have hassoc : t₁ ++ x :: (t ++ [b]) = (t₁ ++ x :: t) ++ [b] := by simp
    rw [hassoc] at h
    have hinj := List.append_inj' h rfl
    have hab : a = b := by simpa using hinj.2
    exact .inr ⟨t, by rw [hab], hinj.1⟩

/-- What holds at every cut of a list that ends with `a`: at every cut of what comes before, and at
`a`. -/
theorem forall_cut_concat {α : Type} {P : List α → α → Prop} (l : List α) (a : α) :
    (∀ pre x post, l ++ [a] = pre ++ x :: post → P pre x) ↔
      (∀ pre x post, l = pre ++ x :: post → P pre x) ∧ P l a := by
  constructor
  · intro h
    refine ⟨fun pre x post heq => h pre x (post ++ [a]) ?_, h l a [] rfl⟩
    rw [heq]
    simp
  · rintro ⟨hbefore, hlast⟩ pre x post heq
    rcases snoc_eq_append_cons heq with ⟨-, rfl, rfl⟩ | ⟨t, -, heq⟩
    · exact hlast
    · exact hbefore pre x t heq

end Library
end Scambio
