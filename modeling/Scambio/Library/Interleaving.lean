import Mathlib.Logic.Function.Basic

/-!
# Interleaving — threads that share a state

Threads take their steps one at a time, in any order.  A step sees the shared state and the state of its own thread.

* `World.Run`           : what is reached by steps of any threads;
* `World.Steady`        : an invariant of the shared state and one of each thread, which every step keeps for its own
  thread and does not disturb for the others;
* `World.Run.invariant` : they hold all along;
* `World.play`          : a run by the calls that its threads make, in their order.
-/

namespace Scambio
namespace Library

/-- A shared state, and the state of each thread. -/
structure World (ι σ τ : Type*) where
  shared : σ
  threads : ι → τ

namespace World

variable {ι σ τ : Type*} [DecidableEq ι]

/-- Thread `i` has taken a step. -/
def after (w : World ι σ τ) (i : ι) (r : σ × τ) : World ι σ τ :=
  ⟨r.1, Function.update w.threads i r.2⟩

@[simp] theorem after_shared (w : World ι σ τ) (i : ι) (r : σ × τ) : (w.after i r).shared = r.1 := rfl

@[simp] theorem after_self (w : World ι σ τ) (i : ι) (r : σ × τ) : (w.after i r).threads i = r.2 := by
  simp [after]

theorem after_other (w : World ι σ τ) {i j : ι} (hji : j ≠ i) (r : σ × τ) :
    (w.after i r).threads j = w.threads j := by
  simp [after, hji]

variable (step : ι → σ × τ → σ × τ → Prop)

/-- What is reached from `start`. -/
inductive Run (start : World ι σ τ) : World ι σ τ → Prop
  | start : Run start start
  | step {w : World ι σ τ} (i : ι) {r : σ × τ} :
      Run start w → step i (w.shared, w.threads i) r → Run start (w.after i r)

/-- Every step keeps the invariant `G` of the shared state and the invariant `L` of its own thread, and does not
disturb the invariants of the other threads. -/
structure Steady (G : σ → Prop) (L : ι → σ → τ → Prop) : Prop where
  shared : ∀ i s t r, step i (s, t) r → G s → L i s t → G r.1
  own : ∀ i s t r, step i (s, t) r → G s → L i s t → L i r.1 r.2
  others : ∀ i s t r, step i (s, t) r → G s → L i s t → ∀ j, j ≠ i → ∀ u, L j s u → L j r.1 u

variable {step} {step' : ι → σ × τ → σ × τ → Prop}

theorem Run.mono (h : ∀ i a b, step i a b → step' i a b) {start w : World ι σ τ} (hrun : Run step start w) :
    Run step' start w := by
  induction hrun with
  | start => exact .start
  | step i _ hstep ih => exact ih.step i (h i _ _ hstep)

variable {G : σ → Prop} {L : ι → σ → τ → Prop}

theorem Run.invariant (h : Steady step G L) {start w : World ι σ τ} (hG : G start.shared)
    (hL : ∀ i, L i start.shared (start.threads i)) (hrun : Run step start w) :
    G w.shared ∧ ∀ i, L i w.shared (w.threads i) := by
  induction hrun with
  | start => exact ⟨hG, hL⟩
  | @step w i r hrun hstep ih =>
      rcases ih with ⟨hshared, hthreads⟩
      refine ⟨h.shared i _ _ r hstep hshared (hthreads i), fun j => ?_⟩
      by_cases hji : j = i
      · subst hji
        rw [after_self]
        exact h.own j _ _ r hstep hshared (hthreads j)
      · rw [after_other w hji]
        exact h.others i _ _ r hstep hshared (hthreads i) j hji _ (hthreads j)

/-! ## Runs by their calls -/

section Play

variable {γ : Type*} (exec : ι → γ → σ × τ → Option (σ × τ))

/-- The threads make these calls; one that is not possible is not made. -/
def play (w : World ι σ τ) (calls : List (ι × γ)) : World ι σ τ :=
  calls.foldl (fun w call => ((exec call.1 call.2 (w.shared, w.threads call.1)).map (w.after call.1)).getD w) w

theorem run_play (start : World ι σ τ) (calls : List (ι × γ)) :
    Run (fun i a b => ∃ call, exec i call a = some b) start (start.play exec calls) := by
  suffices h : ∀ w, Run (fun i a b => ∃ call, exec i call a = some b) start w →
      Run (fun i a b => ∃ call, exec i call a = some b) start (w.play exec calls) from h start .start
  induction calls with
  | nil => exact fun w hrun => hrun
  | cons call calls ih =>
      intro w hrun
      refine ih _ ?_
      dsimp only
      cases hstep : exec call.1 call.2 (w.shared, w.threads call.1) with
      | none => exact hrun
      | some r => exact hrun.step call.1 ⟨call.2, hstep⟩

end Play

end World

end Library
end Scambio
