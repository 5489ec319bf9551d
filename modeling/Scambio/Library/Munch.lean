import Mathlib.Computability.RegularExpressions

/-!
# Munch — cutting a text at the longest matches

A lexer is a list of regular expressions, each with what it stands for.  At each place of the text the longest
match wins, then the first rule; a character that no rule takes is left out.

* `longest`       : the length of the longest beginning of a text that an expression matches;
* `munch`         : the rule that wins, `lexemes` : all of them with their texts;
* `munch_first`   : no rule in front of it takes the same text;
* `munch_eq`      : which rule wins on a text that cannot be made longer;
* `lexemes_append`: a text can be cut wherever no match straddles.
-/

namespace Scambio.Library

open RegularExpression

variable {α β : Type*}

/-! ## Expressions -/

/-- The characters of an expression. -/
def exprChars : RegularExpression α → List α
  | .zero => []
  | .epsilon => []
  | .char a => [a]
  | .plus r s => exprChars r ++ exprChars s
  | .comp r s => exprChars r ++ exprChars s
  | .star r => exprChars r

theorem mem_exprChars {r : RegularExpression α} {w : List α} (h : w ∈ r.matches') : ∀ a ∈ w, a ∈ exprChars r := by
  induction r generalizing w with
  | zero => exact absurd h (Language.notMem_zero w)
  | epsilon =>
      intro a ha
      rw [(Language.mem_one w).1 h] at ha
      exact absurd ha List.not_mem_nil
  | char b =>
      rw [Set.mem_singleton_iff.1 h]
      exact fun a ha => ha
  | plus r s ihr ihs =>
      intro a ha
      apply List.mem_append.2
      rcases h with h | h
      · exact Or.inl (ihr h a ha)
      · exact Or.inr (ihs h a ha)
  | comp r s ihr ihs =>
      rcases Language.mem_mul.1 h with ⟨u, hu, v, hv, rfl⟩
      intro a ha
      apply List.mem_append.2
      rcases List.mem_append.1 ha with ha | ha
      · exact Or.inl (ihr hu a ha)
      · exact Or.inr (ihs hv a ha)
  | star r ih =>
      rcases Language.mem_kstar.1 h with ⟨ws, rfl, hws⟩
      intro a ha
      rcases List.mem_flatten.1 ha with ⟨w, hw, ha⟩
      exact ih (hws w hw) a ha

/-- The expression of one text. -/
def lit : List α → RegularExpression α
  | [] => 1
  | a :: l => char a * lit l

theorem mem_lit {l w : List α} : w ∈ (lit l).matches' ↔ w = l := by
  induction l generalizing w with
  | nil => exact Language.mem_one w
  | cons a l ih =>
      constructor
      · intro h
        rcases Language.mem_mul.1 h with ⟨u, hu, v, hv, rfl⟩
        rw [Set.mem_singleton_iff.1 hu, ih.1 hv]
        rfl
      · rintro rfl
        exact Language.mem_mul.2 ⟨[a], rfl, l, ih.2 rfl, rfl⟩

/-- A class of characters. -/
def oneOf : List α → RegularExpression α
  | [] => 0
  | a :: l => char a + oneOf l

theorem mem_oneOf {l w : List α} : w ∈ (oneOf l).matches' ↔ ∃ a ∈ l, w = [a] := by
  induction l with
  | nil => exact iff_of_false (Language.notMem_zero w) (by simp)
  | cons a l ih =>
      rw [List.exists_mem_cons_iff, ← ih]
      exact or_congr Set.mem_singleton_iff Iff.rfl

theorem mem_star_oneOf {l w : List α} : w ∈ (star (oneOf l)).matches' ↔ ∀ a ∈ w, a ∈ l := by
  constructor
  · intro h a ha
    rcases Language.mem_kstar.1 h with ⟨ws, rfl, hws⟩
    rcases List.mem_flatten.1 ha with ⟨w, hw, ha⟩
    rcases mem_oneOf.1 (hws w hw) with ⟨b, hb, rfl⟩
    exact List.mem_singleton.1 ha ▸ hb
  · intro h
    have hflat : w = (w.map fun a => [a]).flatten := by
      rw [← List.flatMap_def, List.flatMap_singleton']
    refine Language.mem_kstar.2 ⟨w.map fun a => [a], hflat, fun w' hw' => ?_⟩
    rcases List.mem_map.1 hw' with ⟨a, ha, rfl⟩
    exact mem_oneOf.2 ⟨a, h a ha, rfl⟩

/-! ## The longest match -/

variable [DecidableEq α]

def longest : RegularExpression α → List α → Option Nat
  | r, [] => if r.matchEpsilon then some 0 else none
  | r, a :: l =>
      match longest (r.deriv a) l with
      | some n => some (n + 1)
      | none => if r.matchEpsilon then some 0 else none

theorem longest_rmatch {r : RegularExpression α} {l : List α} {n : Nat} (h : longest r l = some n) :
    n ≤ l.length ∧ r.rmatch (l.take n) = true := by
  induction l generalizing r n with
  | nil =>
      rw [longest] at h
      split at h
      · cases h
        exact ⟨le_refl _, ‹_›⟩
      · cases h
  | cons a l ih =>
      rw [longest] at h
      split at h
      next m hm =>
        cases h
        have hlen := (ih hm).1
        exact ⟨by simpa using hlen, (ih hm).2⟩
      next hm =>
        split at h
        · cases h
          exact ⟨Nat.zero_le _, ‹_›⟩
        · cases h

/-- What matches is not longer. -/
theorem le_longest {r : RegularExpression α} {l : List α} {m : Nat} (hm : m ≤ l.length)
    (h : r.rmatch (l.take m) = true) : ∃ n, longest r l = some n ∧ m ≤ n := by
  induction l generalizing r m with
  | nil =>
      have hzero : m = 0 := by simpa using hm
      subst hzero
      exact ⟨0, if_pos h, le_refl _⟩
  | cons a l ih =>
      cases m with
      | zero =>
          rw [longest]
          split
          next n _ => exact ⟨n + 1, rfl, Nat.zero_le _⟩
          next => exact ⟨0, if_pos h, le_refl _⟩
      | succ m =>
          rcases ih (r := r.deriv a) (by simpa using hm) h with ⟨n, hn, hle⟩
          exact ⟨n + 1, by rw [longest, hn], by omega⟩

/-- What follows does not count if no match goes that far. -/
theorem longest_append {r : RegularExpression α} {x y : List α}
    (h : ∀ v, v ≠ [] → v <+: y → r.rmatch (x ++ v) = false) : longest r (x ++ y) = longest r x := by
  induction x generalizing r with
  | nil =>
      have hno : ∀ n, longest r y = some n → n = 0 := by
        intro n hn
        by_contra hpos
        have hmatch := longest_rmatch hn
        have hne : y.take n ≠ [] := by
          intro hnil
          have := congrArg List.length hnil
          simp only [List.length_take, List.length_nil] at this
          omega
        have := h (y.take n) hne (List.take_prefix _ _)
        rw [List.nil_append, hmatch.2] at this
        cases this
      rw [List.nil_append, longest]
      cases hy : longest r y with
      | none =>
          rw [if_neg]
          intro heps
          rcases le_longest (r := r) (l := y) (Nat.zero_le _) heps with ⟨n, hn, -⟩
          rw [hy] at hn
          cases hn
      | some n =>
          obtain rfl := hno n hy
          exact (if_pos (longest_rmatch hy).2).symm
  | cons a x ih =>
      rw [List.cons_append, longest, longest, ih fun v hne hv => h v hne hv]

/-! ## Rules -/

/-- The rule of the longest match, the first one if there are several, with the length of the match. -/
def munch : List (RegularExpression α × β) → List α → Option (β × Nat)
  | [], _ => none
  | (r, b) :: rules, l =>
      match longest r l, munch rules l with
      | some (n + 1), some (c, m) => if n + 1 < m then some (c, m) else some (b, n + 1)
      | some (n + 1), none => some (b, n + 1)
      | _, o => o

theorem munch_matches {rules : List (RegularExpression α × β)} {l : List α} {b : β} {n : Nat}
    (h : munch rules l = some (b, n)) :
    0 < n ∧ n ≤ l.length ∧ ∃ r, (r, b) ∈ rules ∧ l.take n ∈ r.matches' := by
  induction rules with
  | nil => cases h
  | cons rule rules ih =>
      obtain ⟨r, c⟩ := rule
      have hlater : munch rules l = some (b, n) →
          0 < n ∧ n ≤ l.length ∧ ∃ r', (r', b) ∈ (r, c) :: rules ∧ l.take n ∈ r'.matches' := by
        intro h
        rcases ih h with ⟨hpos, hle, r', hmem, hmatch⟩
        exact ⟨hpos, hle, r', List.mem_cons_of_mem _ hmem, hmatch⟩
      have hfirst : ∀ m, longest r l = some (m + 1) → some (c, m + 1) = some (b, n) →
          0 < n ∧ n ≤ l.length ∧ ∃ r', (r', b) ∈ (r, c) :: rules ∧ l.take n ∈ r'.matches' := by
        intro m hm heq
        cases heq
        have hmatch := longest_rmatch hm
        exact ⟨Nat.succ_pos _, hmatch.1, r, List.mem_cons_self, (rmatch_iff_matches' _ _).1 hmatch.2⟩
      rw [munch] at h
      split at h
      next m c' m' hm hm' =>
        split at h
        · exact hlater (hm'.trans h)
        · exact hfirst m hm h
      next m hm _ => exact hfirst m hm h
      next => exact hlater h

/-- No rule in front of the one that wins takes the same text. -/
theorem munch_first {rules : List (RegularExpression α × β)} {l : List α} {b : β} {n : Nat}
    (h : munch rules l = some (b, n)) :
    ∃ before r after, rules = before ++ (r, b) :: after ∧ l.take n ∈ r.matches' ∧
      ∀ rule ∈ before, l.take n ∉ rule.1.matches' := by
  induction rules with
  | nil => cases h
  | cons rule rules ih =>
      obtain ⟨r, c⟩ := rule
      have hle := (munch_matches h).2.1
      have hpos := (munch_matches h).1
      have hlater : (∀ m, longest r l = some m → m < n) → munch rules l = some (b, n) →
          ∃ before r' after, (r, c) :: rules = before ++ (r', b) :: after ∧ l.take n ∈ r'.matches' ∧
            ∀ rule ∈ before, l.take n ∉ rule.1.matches' := by
        intro hshort hrest
        rcases ih hrest with ⟨before, r', after, rfl, hmatch, hbefore⟩
        refine ⟨(r, c) :: before, r', after, rfl, hmatch, List.forall_mem_cons.2 ⟨fun hr => ?_, hbefore⟩⟩
        rcases le_longest hle ((rmatch_iff_matches' _ _).2 hr) with ⟨m, hm, hge⟩
        exact absurd (hshort m hm) (Nat.not_lt.2 hge)
      have hnow : ∀ m, longest r l = some (m + 1) → some (c, m + 1) = some (b, n) →
          ∃ before r' after, (r, c) :: rules = before ++ (r', b) :: after ∧ l.take n ∈ r'.matches' ∧
            ∀ rule ∈ before, l.take n ∉ rule.1.matches' := by
        intro m hm heq
        cases heq
        exact ⟨[], r, rules, rfl, (rmatch_iff_matches' _ _).1 (longest_rmatch hm).2, by simp⟩
      rw [munch] at h
      split at h
      next m c' m' hm hm' =>
        split at h
        next hlt =>
          cases h
          exact hlater (fun k hk => by rw [hm] at hk; cases hk; exact hlt) hm'
        · exact hnow m hm h
      next m hm _ => exact hnow m hm h
      next hsome hnone =>
        refine hlater (fun m hm => ?_) h
        cases m with
        | zero => exact hpos
        | succ m => exact (hsome m b n hm h).elim

/-- Where something matches, a rule wins with no less. -/
theorem exists_munch {rules : List (RegularExpression α × β)} {l : List α} {r : RegularExpression α} {b : β}
    (hmem : (r, b) ∈ rules) {n : Nat} (hpos : 0 < n) (hle : n ≤ l.length) (hmatch : l.take n ∈ r.matches') :
    ∃ b' m, munch rules l = some (b', m) ∧ n ≤ m := by
  induction rules with
  | nil => exact absurd hmem List.not_mem_nil
  | cons rule rules ih =>
      obtain ⟨r', c⟩ := rule
      have hhead : (r, b) = (r', c) → ∃ m, longest r' l = some (m + 1) ∧ n ≤ m + 1 := by
        intro heq
        cases heq
        rcases le_longest hle ((rmatch_iff_matches' _ _).2 hmatch) with ⟨m, hm, hge⟩
        obtain ⟨m, rfl⟩ : ∃ k, m = k + 1 := ⟨m - 1, by omega⟩
        exact ⟨m, hm, hge⟩
      rw [munch]
      rcases List.mem_cons.1 hmem with heq | hmem
      · rcases hhead heq with ⟨m, hm, hge⟩
        rw [hm]
        cases hrest : munch rules l with
        | none => exact ⟨c, m + 1, rfl, hge⟩
        | some p =>
            simp only
            split
            next hlt => exact ⟨p.1, p.2, rfl, by omega⟩
            · exact ⟨c, m + 1, rfl, hge⟩
      · rcases ih hmem with ⟨b', m, hm, hge⟩
        rw [hm]
        split
        next m' c' k hlong heq =>
          cases heq
          split
          · exact ⟨b', m, rfl, hge⟩
          · exact ⟨c, m' + 1, rfl, by omega⟩
        next heq => cases heq
        · exact ⟨b', m, rfl, hge⟩

theorem munch_append {rules : List (RegularExpression α × β)} {x y : List α}
    (h : ∀ r b, (r, b) ∈ rules → ∀ v, v ≠ [] → v <+: y → x ++ v ∉ r.matches') :
    munch rules (x ++ y) = munch rules x := by
  induction rules with
  | nil => rfl
  | cons rule rules ih =>
      obtain ⟨r, b⟩ := rule
      have hlongest : longest r (x ++ y) = longest r x := by
        apply longest_append
        intro v hne hv
        rw [Bool.eq_false_iff, ne_eq, rmatch_iff_matches']
        exact h r b List.mem_cons_self v hne hv
      rw [munch, munch, hlongest, ih fun r b hmem => h r b (List.mem_cons_of_mem _ hmem)]

/-- A text that one rule takes, none in front of it does, and none takes more of what follows. -/
theorem munch_eq {before after : List (RegularExpression α × β)} {r : RegularExpression α} {b : β} {x y : List α}
    (hx : x ≠ []) (hmatch : x ∈ r.matches') (hbefore : ∀ rule ∈ before, x ∉ rule.1.matches')
    (hlonger : ∀ r' b', (r', b') ∈ before ++ (r, b) :: after → ∀ v, v ≠ [] → v <+: y → x ++ v ∉ r'.matches') :
    munch (before ++ (r, b) :: after) (x ++ y) = some (b, x.length) := by
  have hmem : (r, b) ∈ before ++ (r, b) :: after := List.mem_append_right _ List.mem_cons_self
  have hwhole : x.take x.length ∈ r.matches' := by rwa [List.take_length]
  rcases exists_munch hmem (List.length_pos_of_ne_nil hx) (le_refl _) hwhole with ⟨b', m, hm, hge⟩
  obtain rfl : m = x.length := Nat.le_antisymm (munch_matches hm).2.1 hge
  rcases munch_first hm with ⟨before', r', after', hrules, hmatch', hbefore'⟩
  rw [List.take_length] at hmatch' hbefore'
  -- both lists start with what does not take the text, and go on with what does
  have hsame : b' = b := by
    rcases List.append_eq_append_iff.1 hrules with ⟨middle, hmiddle, hcons⟩ | ⟨middle, hmiddle, hcons⟩
    · cases middle with
      | nil => exact (congrArg Prod.snd (List.cons.inj hcons).1).symm
      | cons rule middle =>
          have hrule : (r, b) ∈ before' := by
            rw [hmiddle, (List.cons.inj hcons).1]
            exact List.mem_append_right _ List.mem_cons_self
          exact absurd hmatch (hbefore' (r, b) hrule)
    · cases middle with
      | nil => exact congrArg Prod.snd (List.cons.inj hcons).1
      | cons rule middle =>
          have hrule : (r', b') ∈ before := by
            rw [hmiddle, (List.cons.inj hcons).1]
            exact List.mem_append_right _ List.mem_cons_self
          exact absurd hmatch' (hbefore (r', b') hrule)
  rw [munch_append hlonger, hm, hsame]

/-- The loop of the lexer; each round takes a character at least. -/
def lexLoop (rules : List (RegularExpression α × β)) : Nat → List α → List (β × List α)
  | 0, _ => []
  | _ + 1, [] => []
  | fuel + 1, a :: l =>
      match munch rules (a :: l) with
      | none => lexLoop rules fuel l
      | some (b, n) => (b, (a :: l).take n) :: lexLoop rules fuel ((a :: l).drop n)

/-- What the rules make of a text, each with the characters it took. -/
def lexemes (rules : List (RegularExpression α × β)) (l : List α) : List (β × List α) :=
  lexLoop rules l.length l

theorem lexLoop_of_le (rules : List (RegularExpression α × β)) {fuel : Nat} {l : List α} (h : l.length ≤ fuel) :
    lexLoop rules fuel l = lexemes rules l := by
  have hmore : ∀ (k fuel : Nat) (l : List α), l.length ≤ fuel → l.length ≤ k →
      lexLoop rules fuel l = lexLoop rules k l := by
    intro k
    induction k with
    | zero =>
        intro fuel l _ hk
        obtain rfl : l = [] := by simpa using hk
        cases fuel <;> rfl
    | succ k ih =>
        intro fuel l hfuel hk
        cases l with
        | nil => cases fuel <;> rfl
        | cons a l =>
            obtain ⟨fuel, rfl⟩ : ∃ f, fuel = f + 1 := ⟨fuel - 1, by simp at hfuel; omega⟩
            rw [lexLoop, lexLoop]
            cases hm : munch rules (a :: l) with
            | none => exact ih fuel l (by simpa using hfuel) (by simpa using hk)
            | some p =>
                have hpos := (munch_matches hm).1
                have hrest : ((a :: l).drop p.2).length ≤ l.length := by
                  rw [List.length_drop, List.length_cons]
                  omega
                have hnext := ih fuel ((a :: l).drop p.2) (by simp at hfuel; omega) (by simp at hk; omega)
                exact congrArg _ hnext
  exact hmore _ _ _ h (le_refl _)

theorem lexemes_none {rules : List (RegularExpression α × β)} {a : α} {l : List α}
    (h : munch rules (a :: l) = none) : lexemes rules (a :: l) = lexemes rules l := by
  rw [lexemes, List.length_cons, lexLoop, h]
  rfl

theorem lexemes_some {rules : List (RegularExpression α × β)} {l : List α} {b : β} {n : Nat}
    (h : munch rules l = some (b, n)) : lexemes rules l = (b, l.take n) :: lexemes rules (l.drop n) := by
  have hm := munch_matches h
  cases l with
  | nil => exact absurd (Nat.lt_of_lt_of_le hm.1 hm.2.1) (Nat.lt_irrefl 0)
  | cons a l =>
      rw [lexemes, List.length_cons, lexLoop, h]
      have hle : ((a :: l).drop n).length ≤ l.length := by
        rw [List.length_drop, List.length_cons]
        omega
      exact congrArg _ (lexLoop_of_le rules hle)

/-- A lexeme was taken by the first rule that takes it. -/
theorem mem_lexemes {rules : List (RegularExpression α × β)} {l : List α} {b : β} {w : List α}
    (h : (b, w) ∈ lexemes rules l) :
    ∃ before r after, rules = before ++ (r, b) :: after ∧ w ∈ r.matches' ∧ ∀ rule ∈ before, w ∉ rule.1.matches' := by
  induction hlen : l.length using Nat.strong_induction_on generalizing l with
  | _ k ih =>
      cases l with
      | nil => exact absurd h List.not_mem_nil
      | cons a l =>
          cases hm : munch rules (a :: l) with
          | none =>
              rw [lexemes_none hm] at h
              exact ih l.length (hlen ▸ Nat.lt_succ_self _) h rfl
          | some p =>
              obtain ⟨c, n⟩ := p
              rw [lexemes_some hm] at h
              rcases List.mem_cons.1 h with heq | h
              · cases heq
                exact munch_first hm
              · have hpos := (munch_matches hm).1
                refine ih _ ?_ h rfl
                rw [← hlen, List.length_drop, List.length_cons]
                omega

/-- A text can be cut where no match straddles. -/
theorem lexemes_append {rules : List (RegularExpression α × β)} {x y : List α}
    (h : ∀ r b, (r, b) ∈ rules → ∀ u v, u ≠ [] → u <:+: x → v ≠ [] → v <+: y → u ++ v ∉ r.matches') :
    lexemes rules (x ++ y) = lexemes rules x ++ lexemes rules y := by
  induction hlen : x.length using Nat.strong_induction_on generalizing x with
  | _ k ih =>
      cases x with
      | nil => rfl
      | cons a x =>
          have hsub : ∀ x' : List α, x' <:+ a :: x → x'.length < (a :: x).length →
              lexemes rules (x' ++ y) = lexemes rules x' ++ lexemes rules y := by
            intro x' hsuffix hlt
            refine ih _ (hlen ▸ hlt) ?_ rfl
            exact fun r b hmem u v hu hux => h r b hmem u v hu (hux.trans hsuffix.isInfix)
          have hmunch : munch rules (a :: x ++ y) = munch rules (a :: x) :=
            munch_append fun r b hmem v hne hv =>
              h r b hmem (a :: x) v (List.cons_ne_nil _ _) (List.infix_refl _) hne hv
          cases hm : munch rules (a :: x) with
          | none =>
              have hcut : lexemes rules (a :: x ++ y) = lexemes rules (x ++ y) := lexemes_none (hmunch.trans hm)
              rw [lexemes_none hm, hcut]
              exact hsub x (List.suffix_cons _ _) (Nat.lt_succ_self _)
          | some p =>
              obtain ⟨b, n⟩ := p
              have hspec := munch_matches hm
              have hdrop := hsub ((a :: x).drop n) (List.drop_suffix _ _) (by rw [List.length_drop]; omega)
              rw [lexemes_some hm, lexemes_some (hmunch.trans hm), List.take_append_of_le_length hspec.2.1,
                List.drop_append_of_le_length hspec.2.1, hdrop, List.cons_append]

end Scambio.Library
