import Mathlib.Data.Finset.Card
import Mathlib.Data.Finset.SDiff
import Mathlib.Data.List.Perm.Basic
import Mathlib.Data.Nat.Find
import Mathlib.Logic.Relation

/-!
# Search — depth-first search with marks, in a graph where a node may fail

A node is a goal, or it is expanded into its successors, or it fails, and then the whole search does.
Nodes that were expanded are marked, and not expanded again.

* `search_ends`        : what is found was reached, and so was what failed;
* `search_exhausted`   : after a search without result nothing that is reached is a goal or fails;
* `search_total`       : the depth is bounded by the number of nodes;
* `search_fails_along` : a search that goes first to the nearest failing node fails.
-/

namespace Scambio.Library

variable {α : Type*}

inductive SearchResult
  | found
  | exhausted
  | failed
  deriving DecidableEq, Repr

section

/-- Visit nodes one after the other until the outcome is known. -/
def searchAll (visit : α → List α → Option (List α × SearchResult)) :
    List α → List α → Option (List α × SearchResult)
  | [], marks => some (marks, .exhausted)
  | x :: xs, marks =>
      match visit x marks with
      | none => none
      | some (marks, .exhausted) => searchAll visit xs marks
      | some (marks, .found) => some (marks, .found)
      | some (marks, .failed) => some (marks, .failed)

variable [DecidableEq α] (succs : α → Option (List α)) (goal : α → Bool)

/-- Search from a node, with so much room for the recursion, and `none` where there is not enough. -/
def search : Nat → α → List α → Option (List α × SearchResult)
  | 0, _, _ => none
  | fuel + 1, x, marks =>
      if goal x then some (marks, .found)
      else
        match succs x with
        | none => some (marks, .failed)
        | some ys =>
            if x ∈ marks then some (marks, .exhausted)
            else searchAll (search fuel) ys (x :: marks)

end

variable (succs : α → Option (List α)) (goal : α → Bool)

/-- One step of a path, from a node that is expanded. -/
def Expands (x y : α) : Prop :=
  goal x = false ∧ ∃ ys, succs x = some ys ∧ y ∈ ys

/-- The node can be neither used nor expanded. -/
def Fails (x : α) : Prop :=
  goal x = false ∧ succs x = none

abbrev Reaches : α → α → Prop :=
  Relation.ReflTransGen (Expands succs goal)

/-- What an outcome tells of the node that the search started from. -/
def EndsWith (x : α) : SearchResult → Prop
  | .found => ∃ y, Reaches succs goal x y ∧ goal y = true
  | .exhausted => True
  | .failed => ∃ y, Reaches succs goal x y ∧ Fails succs goal y

/-- All that was marked meanwhile is expanded, and its successors are marked too. -/
structure Explored (marks marks' : List α) : Prop where
  subset : marks ⊆ marks'
  closed : ∀ z ∈ marks', z ∈ marks ∨ goal z = false ∧ ∃ ys, succs z = some ys ∧ ∀ y ∈ ys, y ∈ marks'

variable {succs goal}

theorem Explored.refl (marks : List α) : Explored succs goal marks marks :=
  ⟨fun _ h => h, fun _ h => .inl h⟩

theorem Explored.trans {m₁ m₂ m₃ : List α} (h₁ : Explored succs goal m₁ m₂)
    (h₂ : Explored succs goal m₂ m₃) : Explored succs goal m₁ m₃ := by
  refine ⟨fun _ h => h₂.subset (h₁.subset h), fun z hz => ?_⟩
  rcases h₂.closed z hz with hz | hexp
  · rcases h₁.closed z hz with hz | ⟨hgoal, ys, hys, hall⟩
    · exact .inl hz
    · exact .inr ⟨hgoal, ys, hys, fun y hy => h₂.subset (hall y hy)⟩
  · exact .inr hexp

/-- From marks that are closed nothing new is reached. -/
theorem Explored.reaches {marks : List α} (h : Explored succs goal [] marks) {x y : α} (hx : x ∈ marks)
    (hxy : Reaches succs goal x y) : y ∈ marks ∧ goal y = false ∧ ¬ Fails succs goal y := by
  have hmem : y ∈ marks := by
    induction hxy with
    | refl => exact hx
    | tail _ hstep ih =>
        rcases h.closed _ ih with hnil | ⟨-, ys, hys, hall⟩
        · cases hnil
        · rcases hstep with ⟨-, ys', hys', hy⟩
          rw [hys] at hys'
          cases hys'
          exact hall _ hy
  rcases h.closed y hmem with hnil | ⟨hgoal, ys, hys, -⟩
  · cases hnil
  · refine ⟨hmem, hgoal, fun hfails => ?_⟩
    rw [hfails.2] at hys
    cases hys

section SearchAll

variable {visit : α → List α → Option (List α × SearchResult)}

theorem searchAll_ends (hvisit : ∀ x m m' o, visit x m = some (m', o) → EndsWith succs goal x o)
    {xs m m' : List α} {o : SearchResult} (h : searchAll visit xs m = some (m', o)) :
    o = .exhausted ∨ ∃ x ∈ xs, EndsWith succs goal x o := by
  induction xs generalizing m with
  | nil =>
      cases h
      exact .inl rfl
  | cons x xs ih =>
      rw [searchAll] at h
      split at h
      · cases h
      · rcases ih h with hex | ⟨y, hy, hends⟩
        · exact .inl hex
        · exact .inr ⟨y, List.mem_cons_of_mem _ hy, hends⟩
      · next hx =>
        cases h
        exact .inr ⟨x, List.mem_cons_self, hvisit _ _ _ _ hx⟩
      · next hx =>
        cases h
        exact .inr ⟨x, List.mem_cons_self, hvisit _ _ _ _ hx⟩

theorem searchAll_exhausted
    (hvisit : ∀ x m m', visit x m = some (m', .exhausted) → Explored succs goal m m' ∧ x ∈ m')
    {xs m m' : List α} (h : searchAll visit xs m = some (m', .exhausted)) :
    Explored succs goal m m' ∧ ∀ x ∈ xs, x ∈ m' := by
  induction xs generalizing m with
  | nil =>
      cases h
      exact ⟨.refl _, by simp⟩
  | cons x xs ih =>
      rw [searchAll] at h
      split at h
      · cases h
      · next m₁ hx =>
        rcases hvisit _ _ _ hx with ⟨hexp, hmem⟩
        rcases ih h with ⟨hrest, hall⟩
        refine ⟨hexp.trans hrest, fun y hy => ?_⟩
        rcases List.mem_cons.1 hy with rfl | hy
        · exact hrest.subset hmem
        · exact hall y hy
      · cases h
      · cases h

end SearchAll

variable [DecidableEq α]

theorem search_ends {fuel : Nat} {x : α} {m m' : List α} {o : SearchResult}
    (h : search succs goal fuel x m = some (m', o)) : EndsWith succs goal x o := by
  induction fuel generalizing x m m' o with
  | zero => cases h
  | succ fuel ih =>
      rw [search] at h
      split at h
      · next hgoal =>
        cases h
        exact ⟨x, .refl, hgoal⟩
      · next hgoal =>
        have hgoal' : goal x = false := by simpa using hgoal
        split at h
        · next hnone =>
          cases h
          exact ⟨x, .refl, hgoal', hnone⟩
        · next ys hys =>
          split at h
          · cases h
            trivial
          · rcases searchAll_ends (fun _ _ _ _ hvisit => ih hvisit) h with rfl | ⟨y, hy, hends⟩
            · trivial
            · -- what is reached from a successor is reached from the node
              have hstep : Expands succs goal x y := ⟨hgoal', ys, hys, hy⟩
              cases o with
              | found =>
                  rcases hends with ⟨z, hyz, hz⟩
                  exact ⟨z, .head hstep hyz, hz⟩
              | exhausted => trivial
              | failed =>
                  rcases hends with ⟨z, hyz, hz⟩
                  exact ⟨z, .head hstep hyz, hz⟩

theorem search_exhausted {fuel : Nat} {x : α} {m m' : List α}
    (h : search succs goal fuel x m = some (m', .exhausted)) : Explored succs goal m m' ∧ x ∈ m' := by
  induction fuel generalizing x m m' with
  | zero => cases h
  | succ fuel ih =>
      rw [search] at h
      split at h
      · cases h
      · next hgoal =>
        split at h
        · cases h
        · next ys hys =>
          split at h
          · next hmem =>
            cases h
            exact ⟨.refl m, hmem⟩
          · rcases searchAll_exhausted (fun _ _ _ hvisit => ih hvisit) h with ⟨hexp, hall⟩
            refine ⟨⟨fun z hz => hexp.subset (List.mem_cons_of_mem _ hz), fun z hz => ?_⟩,
              hexp.subset List.mem_cons_self⟩
            rcases hexp.closed z hz with hz | hexpanded
            · rcases List.mem_cons.1 hz with rfl | hz
              · exact .inr ⟨by simpa using hgoal, ys, hys, hall⟩
              · exact .inl hz
            · exact .inr hexpanded

/-! ## Termination -/

section Total

variable {univ : List α}

/-- How many nodes are left to mark. -/
def unmarked (univ marks : List α) : Nat :=
  (univ.toFinset \ marks.toFinset).card

theorem unmarked_cons_lt {x : α} {marks : List α} (hx : x ∈ univ) (hmem : x ∉ marks) :
    unmarked univ (x :: marks) < unmarked univ marks := by
  apply Finset.card_lt_card
  rw [Finset.ssubset_iff_of_subset]
  · exact ⟨x, by simp [hx, hmem], by simp⟩
  · intro y hy
    simp only [Finset.mem_sdiff, List.mem_toFinset, List.mem_cons, not_or] at hy ⊢
    exact ⟨hy.1, hy.2.2⟩

theorem unmarked_le {marks marks' : List α} (h : marks ⊆ marks') :
    unmarked univ marks' ≤ unmarked univ marks := by
  apply Finset.card_le_card
  intro y hy
  simp only [Finset.mem_sdiff, List.mem_toFinset] at hy ⊢
  exact ⟨hy.1, fun hmem => hy.2 (h hmem)⟩

theorem unmarked_le_length (marks : List α) : unmarked univ marks ≤ univ.length :=
  (Finset.card_le_card Finset.sdiff_subset).trans (List.toFinset_card_le univ)

theorem searchAll_total {visit : α → List α → Option (List α × SearchResult)} {n : Nat}
    (hvisit : ∀ x ∈ univ, ∀ m, unmarked univ m ≤ n → ∃ r, visit x m = some r)
    (hmono : ∀ x m m', visit x m = some (m', .exhausted) → m ⊆ m') {xs m : List α}
    (hxs : ∀ x ∈ xs, x ∈ univ) (hm : unmarked univ m ≤ n) : ∃ r, searchAll visit xs m = some r := by
  induction xs generalizing m with
  | nil => exact ⟨_, rfl⟩
  | cons x xs ih =>
      rcases hvisit x (hxs x List.mem_cons_self) m hm with ⟨⟨m', o⟩, hx⟩
      rw [searchAll, hx]
      cases o with
      | found => exact ⟨_, rfl⟩
      | exhausted =>
          exact ih (fun y hy => hxs y (List.mem_cons_of_mem _ hy))
            ((unmarked_le (hmono _ _ _ hx)).trans hm)
      | failed => exact ⟨_, rfl⟩

/-- The recursion is no deeper than there are nodes left to mark. -/
theorem search_total (huniv : ∀ x ys, succs x = some ys → ∀ y ∈ ys, y ∈ univ) {fuel : Nat} {x : α}
    {marks : List α} (hx : x ∈ univ) (hfuel : unmarked univ marks < fuel) :
    ∃ r, search succs goal fuel x marks = some r := by
  induction fuel generalizing x marks with
  | zero => exact absurd hfuel (Nat.not_lt_zero _)
  | succ fuel ih =>
      rw [search]
      split
      · exact ⟨_, rfl⟩
      · split
        · exact ⟨_, rfl⟩
        · next ys hys =>
          split
          · exact ⟨_, rfl⟩
          · next hmem =>
            have hlt := unmarked_cons_lt hx hmem
            refine searchAll_total (n := unmarked univ (x :: marks)) (fun y hy m hm => ih hy (by omega))
              (fun y m m' hvisit => (search_exhausted hvisit).1.subset) (huniv x ys hys) le_rfl

end Total

/-! ## The nearest failure -/

variable (succs goal) in
/-- A node that fails is so many steps away. -/
inductive FailsIn : Nat → α → Prop
  | zero {x : α} (h : Fails succs goal x) : FailsIn 0 x
  | succ {n : Nat} {x y : α} (hstep : Expands succs goal x y) (h : FailsIn n y) : FailsIn (n + 1) x

variable (succs goal) in
/-- The nearest node that fails is so many steps away. -/
def Nearest (n : Nat) (x : α) : Prop :=
  FailsIn succs goal n x ∧ ∀ k, k < n → ¬ FailsIn succs goal k x

omit [DecidableEq α] in
theorem exists_nearest {x y : α} (hxy : Reaches succs goal x y) (hy : Fails succs goal y) :
    ∃ n, Nearest succs goal n x := by
  have hsome : ∃ n, FailsIn succs goal n x := by
    induction hxy using Relation.ReflTransGen.head_induction_on with
    | refl => exact ⟨0, .zero hy⟩
    | head hstep _ ih =>
        rcases ih with ⟨n, hn⟩
        exact ⟨n + 1, .succ hstep hn⟩
  classical
  exact ⟨Nat.find hsome, Nat.find_spec hsome, fun k hk => Nat.find_min hsome hk⟩

omit [DecidableEq α] in
theorem Nearest.unique {n m : Nat} {x : α} (hn : Nearest succs goal n x) (hm : Nearest succs goal m x) :
    n = m := by
  rcases Nat.lt_trichotomy n m with hlt | heq | hlt
  · exact absurd hn.1 (hm.2 n hlt)
  · exact heq
  · exact absurd hm.1 (hn.2 m hlt)

omit [DecidableEq α] in
/-- One of the successors is nearer. -/
theorem Nearest.step {n : Nat} {x : α} (h : Nearest succs goal (n + 1) x) :
    ∃ y, Expands succs goal x y ∧ Nearest succs goal n y := by
  rcases h with ⟨hfails, hmin⟩
  cases hfails with
  | @succ _ _ y hstep hy =>
      exact ⟨y, hstep, hy, fun k hk hky => hmin (k + 1) (by omega) (.succ hstep hky)⟩

/-- A search in another order of the successors, where the first one is always nearer to the failure. -/
theorem search_fails_along {succs' : α → Option (List α)}
    (hzero : ∀ x, Nearest succs goal 0 x → succs' x = none)
    (hstep : ∀ n x, Nearest succs goal (n + 1) x → ∃ y ys, succs' x = some (y :: ys) ∧ Nearest succs goal n y)
    {n : Nat} {x : α} (hx : Nearest succs goal n x) (marks : List α)
    (hmarks : ∀ k, k ≤ n → ∀ z ∈ marks, ¬ Nearest succs goal k z) {fuel : Nat} (hfuel : n < fuel) :
    ∃ m', search succs' goal fuel x marks = some (m', .failed) := by
  have hgoal : goal x = false := by
    cases hx.1 with
    | zero h => exact h.1
    | succ hstep _ => exact hstep.1
  induction n generalizing x marks fuel with
  | zero =>
      rcases Nat.exists_eq_succ_of_ne_zero (Nat.ne_of_gt hfuel) with ⟨fuel, rfl⟩
      refine ⟨marks, ?_⟩
      simp [search, hgoal, hzero x hx]
  | succ n ih =>
      rcases Nat.exists_eq_succ_of_ne_zero (Nat.ne_of_gt (Nat.zero_lt_of_lt hfuel)) with ⟨fuel, rfl⟩
      rcases hstep n x hx with ⟨y, ys, hys, hy⟩
      have hmem : x ∉ marks := fun hmem => hmarks (n + 1) le_rfl x hmem hx
      have hmarks' : ∀ k, k ≤ n → ∀ z ∈ x :: marks, ¬ Nearest succs goal k z := by
        intro k hk z hz hnear
        rcases List.mem_cons.1 hz with rfl | hz
        · have := hx.unique hnear
          omega
        · exact hmarks k (by omega) z hz hnear
      have hgoal' : goal y = false := by
        cases hy.1 with
        | zero h => exact h.1
        | succ hstep _ => exact hstep.1
      rcases ih hy (x :: marks) hmarks' (show n < fuel by omega) hgoal' with ⟨m', hfail⟩
      refine ⟨m', ?_⟩
      simp [search, hgoal, hys, hmem, searchAll, hfail]

end Scambio.Library
