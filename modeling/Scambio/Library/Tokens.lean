import Mathlib.Data.List.Basic

/-!
# Tokens — cutting a text at its delimiters

A token is a run of characters that a delimiter ends; the delimiters in front of it are its gap.
What follows the last delimiter is not a token, however long.

* `toksFrom`        : the tokens of a text, `tailFrom` what is left behind the last one;
* `eq_toks_append`  : both make the text up again;
* `toksFrom_text`   : the tokens of a text that is given as tokens.
-/

namespace Scambio.Library

variable {α : Type*}

structure Tok (α : Type*) where
  gap : List α
  word : List α
  stop : α
  deriving DecidableEq, Repr

namespace Tok

def text (t : Tok α) : List α :=
  t.gap ++ t.word ++ [t.stop]

/-- A token as it stands in a text. -/
structure Ok (isDel : α → Bool) (t : Tok α) : Prop where
  gap : ∀ c ∈ t.gap, isDel c = true
  word : ∀ c ∈ t.word, isDel c = false
  ne_nil : t.word ≠ []
  stop : isDel t.stop = true

end Tok

variable (isDel : α → Bool)

/-- The tokens of a text of which `gap` and then `word` were already read. -/
def toksFrom (gap word : List α) : List α → List (Tok α)
  | [] => []
  | c :: cs =>
      if isDel c then
        match word with
        | [] => toksFrom (gap ++ [c]) [] cs
        | d :: ds => ⟨gap, d :: ds, c⟩ :: toksFrom [] [] cs
      else toksFrom gap (word ++ [c]) cs

/-- What is left of that text after its last token. -/
def tailFrom (gap word : List α) : List α → List α
  | [] => gap ++ word
  | c :: cs =>
      if isDel c then
        match word with
        | [] => tailFrom (gap ++ [c]) [] cs
        | _ :: _ => tailFrom [] [] cs
      else tailFrom gap (word ++ [c]) cs

def toks (l : List α) : List (Tok α) :=
  toksFrom isDel [] [] l

def words (l : List α) : List (List α) :=
  (toks isDel l).map Tok.word

variable {isDel}

section Step

variable {gap word cs : List α} {c : α}

theorem toksFrom_gap (hc : isDel c = true) :
    toksFrom isDel gap [] (c :: cs) = toksFrom isDel (gap ++ [c]) [] cs := by
  simp [toksFrom, hc]

theorem toksFrom_stop (hc : isDel c = true) (hne : word ≠ []) :
    toksFrom isDel gap word (c :: cs) = ⟨gap, word, c⟩ :: toks isDel cs := by
  cases word with
  | nil => exact absurd rfl hne
  | cons d ds => simp [toksFrom, toks, hc]

theorem toksFrom_word (hc : isDel c = false) :
    toksFrom isDel gap word (c :: cs) = toksFrom isDel gap (word ++ [c]) cs := by
  simp [toksFrom, hc]

theorem toksFrom_gaps {l : List α} (hl : ∀ c ∈ l, isDel c = true) :
    toksFrom isDel gap [] (l ++ cs) = toksFrom isDel (gap ++ l) [] cs := by
  induction l generalizing gap with
  | nil => simp
  | cons d l ih =>
      have hd : isDel d = true := hl d List.mem_cons_self
      have htail : ∀ c ∈ l, isDel c = true := fun c hc => hl c (List.mem_cons_of_mem _ hc)
      rw [List.cons_append, toksFrom_gap hd, ih htail, List.append_assoc]
      rfl

theorem toksFrom_words {l : List α} (hl : ∀ c ∈ l, isDel c = false) :
    toksFrom isDel gap word (l ++ cs) = toksFrom isDel gap (word ++ l) cs := by
  induction l generalizing word with
  | nil => simp
  | cons d l ih =>
      have hd : isDel d = false := hl d List.mem_cons_self
      have htail : ∀ c ∈ l, isDel c = false := fun c hc => hl c (List.mem_cons_of_mem _ hc)
      rw [List.cons_append, toksFrom_word hd, ih htail, List.append_assoc]
      rfl

end Step

/-- The tokens of a text that starts with a token. -/
theorem toks_text_append {t : Tok α} (ht : t.Ok isDel) (l : List α) :
    toks isDel (t.text ++ l) = t :: toks isDel l := by
  have hsplit : t.text ++ l = t.gap ++ (t.word ++ t.stop :: l) := by simp [Tok.text]
  rw [toks, hsplit, toksFrom_gaps ht.gap, toksFrom_words ht.word]
  simp only [List.nil_append]
  rw [toksFrom_stop ht.stop ht.ne_nil]

variable (isDel) in
theorem eq_toksFrom_append (gap word l : List α) :
    gap ++ word ++ l = (toksFrom isDel gap word l).flatMap Tok.text ++ tailFrom isDel gap word l := by
  induction l generalizing gap word with
  | nil => simp [toksFrom, tailFrom]
  | cons c cs ih =>
      by_cases hc : isDel c = true
      · cases word with
        | nil =>
            have h := ih (gap ++ [c]) []
            simp only [toksFrom, tailFrom, hc, if_true]
            rw [← h]
            simp
        | cons d ds =>
            have h := ih [] []
            simp only [toksFrom, tailFrom, hc, if_true, List.flatMap_cons, List.append_assoc]
            rw [← h]
            simp [Tok.text]
      · have h := ih gap (word ++ [c])
        simp only [toksFrom, tailFrom, hc, Bool.false_eq_true, if_false]
        rw [← h]
        simp

variable (isDel) in
/-- A text is made of its tokens and its tail. -/
theorem eq_toks_append (l : List α) :
    l = (toks isDel l).flatMap Tok.text ++ tailFrom isDel [] [] l := by
  simpa [toks] using eq_toksFrom_append isDel [] [] l

theorem toksFrom_ok {gap word : List α} (hgap : ∀ c ∈ gap, isDel c = true)
    (hword : ∀ c ∈ word, isDel c = false) {l : List α} {t : Tok α}
    (ht : t ∈ toksFrom isDel gap word l) : t.Ok isDel := by
  induction l generalizing gap word with
  | nil => simp [toksFrom] at ht
  | cons c cs ih =>
      by_cases hc : isDel c = true
      · cases word with
        | nil =>
            rw [toksFrom_gap hc] at ht
            refine ih ?_ (by simp) ht
            simpa [or_imp, forall_and, hc] using hgap
        | cons d ds =>
            rw [toksFrom_stop hc (by simp)] at ht
            rcases List.mem_cons.1 ht with rfl | ht
            · exact ⟨hgap, hword, by simp, hc⟩
            · exact ih (by simp) (by simp) ht
      · have hc' : isDel c = false := by simpa using hc
        rw [toksFrom_word hc'] at ht
        refine ih hgap ?_ ht
        simpa [or_imp, forall_and, hc'] using hword

theorem toks_ok {l : List α} {t : Tok α} (ht : t ∈ toks isDel l) : t.Ok isDel :=
  toksFrom_ok (by simp) (by simp) ht

/-- The tail is made of delimiters and of the beginning of a token. -/
theorem tailFrom_eq {gap word : List α} (hgap : ∀ c ∈ gap, isDel c = true)
    (hword : ∀ c ∈ word, isDel c = false) (l : List α) :
    ∃ g w, tailFrom isDel gap word l = g ++ w ∧ (∀ c ∈ g, isDel c = true) ∧
      ∀ c ∈ w, isDel c = false := by
  induction l generalizing gap word with
  | nil => exact ⟨gap, word, rfl, hgap, hword⟩
  | cons c cs ih =>
      by_cases hc : isDel c = true
      · cases word with
        | nil =>
            simp only [tailFrom, hc, if_true]
            refine ih ?_ (by simp)
            simpa [or_imp, forall_and, hc] using hgap
        | cons d ds =>
            simp only [tailFrom, hc, if_true]
            exact ih (by simp) (by simp)
      · have hc' : isDel c = false := by simpa using hc
        simp only [tailFrom, hc', Bool.false_eq_true, if_false]
        refine ih hgap ?_
        simpa [or_imp, forall_and, hc'] using hword

theorem tail_eq (l : List α) :
    ∃ g w, tailFrom isDel [] [] l = g ++ w ∧ (∀ c ∈ g, isDel c = true) ∧ ∀ c ∈ w, isDel c = false :=
  tailFrom_eq (by simp) (by simp) l

/-- What stands in front of a text does not change its words. -/
theorem map_word_toksFrom (gap gap' word l : List α) :
    (toksFrom isDel gap word l).map Tok.word = (toksFrom isDel gap' word l).map Tok.word := by
  induction l generalizing gap gap' word with
  | nil => rfl
  | cons c cs ih =>
      by_cases hc : isDel c = true
      · cases word with
        | nil =>
            rw [toksFrom_gap hc, toksFrom_gap hc]
            exact ih _ _ _
        | cons d ds =>
            rw [toksFrom_stop hc (by simp), toksFrom_stop hc (by simp)]
            rfl
      · have hc' : isDel c = false := by simpa using hc
        rw [toksFrom_word hc', toksFrom_word hc']
        exact ih _ _ _

variable (isDel) in
theorem length_toks_le (l : List α) : (toks isDel l).length ≤ l.length := by
  have htext : ∀ ts : List (Tok α), ts.length ≤ (ts.flatMap Tok.text).length := by
    intro ts
    induction ts with
    | nil => simp
    | cons t ts ih =>
        simp only [List.flatMap_cons, List.length_append, List.length_cons, Tok.text] at ih ⊢
        omega
  have hl := congrArg List.length (eq_toks_append isDel l)
  rw [List.length_append] at hl
  have := htext (toks isDel l)
  omega

end Scambio.Library
