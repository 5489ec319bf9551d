import Mathlib.Data.List.DropRight
import Mathlib.Data.List.Infix

/-!
# Words — compacting white space

`squeeze` drops leading blanks and replaces every inner run of blanks by one separator;
`trimEnd` removes what is left at the end.  `Clean` is the normal form: words separated by single
separators.  The two results used elsewhere are

* `compact_clean`    : the compacted text is empty or clean;
* `compact_of_clean` : a clean text is its own compaction.
-/

namespace Scambio
namespace Library

variable {α : Type*} (isSp : α → Bool) (sep : α)

/-- Compact runs of blanks; with `rem` set, blanks are dropped until the next word. -/
def squeeze : Bool → List α → List α
  | _, [] => []
  | rem, c :: cs =>
      if isSp c then
        if rem then squeeze true cs else sep :: squeeze true cs
      else
        c :: squeeze false cs

/-- Remove the blanks at the end. -/
def trimEnd (l : List α) : List α :=
  l.rdropWhile isSp

/-- Words separated by single separators.  The flag says that the previous character was a blank
(or that there was none), so that a word has to start here. -/
def Clean [DecidableEq α] : Bool → List α → Bool
  | after, [] => !after
  | after, c :: cs =>
      if isSp c then decide (c = sep) && !after && Clean true cs else Clean false cs

variable {isSp sep}

theorem trimEnd_cons (c : α) (l : List α) :
    trimEnd isSp (c :: l) =
      if trimEnd isSp l = [] then (if isSp c then [] else [c]) else c :: trimEnd isSp l := by
  induction l using List.reverseRecOn with
  | nil => simp [trimEnd, List.rdropWhile_singleton]
  | append_singleton l x ih =>
      by_cases hx : isSp x = true
      · have h1 : trimEnd isSp (c :: (l ++ [x])) = trimEnd isSp (c :: l) :=
          List.rdropWhile_concat_pos isSp (c :: l) x hx
        have h2 : trimEnd isSp (l ++ [x]) = trimEnd isSp l :=
          List.rdropWhile_concat_pos isSp l x hx
        rw [h1, h2, ih]
      · have h1 : trimEnd isSp (c :: (l ++ [x])) = c :: (l ++ [x]) :=
          List.rdropWhile_concat_neg isSp (c :: l) x hx
        have h2 : trimEnd isSp (l ++ [x]) = l ++ [x] :=
          List.rdropWhile_concat_neg isSp l x hx
        rw [h1, h2]
        simp

theorem trimEnd_cons_word {c : α} (hc : isSp c = false) (l : List α) :
    trimEnd isSp (c :: l) = c :: trimEnd isSp l := by
  rw [trimEnd_cons]
  by_cases h : trimEnd isSp l = []
  · simp [h, hc]
  · simp [h]

/-- The compacted text is empty or clean. -/
theorem compact_clean [DecidableEq α] (hsep : isSp sep = true) (rem : Bool) (l : List α) :
    trimEnd isSp (squeeze isSp sep rem l) = [] ∨
      Clean isSp sep rem (trimEnd isSp (squeeze isSp sep rem l)) = true := by
  induction l generalizing rem with
  | nil => simp [squeeze, trimEnd]
  | cons c cs ih =>
      by_cases hc : isSp c = true
      · cases rem with
        | true => simpa [squeeze, hc] using ih true
        | false =>
            simp only [squeeze, hc, if_true, Bool.false_eq_true, if_false]
            rw [trimEnd_cons]
            by_cases h0 : trimEnd isSp (squeeze isSp sep true cs) = []
            · simp [h0, hsep]
            · have h := (ih true).resolve_left h0
              simp [h0, Clean, hsep, h]
      · have hc' : isSp c = false := by simpa using hc
        right
        simp only [squeeze, hc', Bool.false_eq_true, if_false, trimEnd_cons_word hc', Clean]
        rcases ih false with h | h
        · simp [h, Clean]
        · exact h

/-- A clean text is its own compaction. -/
theorem compact_of_clean [DecidableEq α] (rem : Bool) (l : List α) (h : Clean isSp sep rem l = true) :
    trimEnd isSp (squeeze isSp sep rem l) = l := by
  induction l generalizing rem with
  | nil => simp [squeeze, trimEnd]
  | cons c cs ih =>
      by_cases hc : isSp c = true
      · simp only [Clean, hc, if_true, Bool.and_eq_true, decide_eq_true_eq, Bool.not_eq_true'] at h
        rcases h with ⟨⟨rfl, rfl⟩, hcs⟩
        have hne : cs ≠ [] := by
          rintro rfl
          simp [Clean] at hcs
        simp [squeeze, hc, trimEnd_cons, ih true hcs, hne]
      · have hc' : isSp c = false := by simpa using hc
        simp only [Clean, hc', Bool.false_eq_true, if_false] at h
        simp [squeeze, hc', trimEnd_cons_word hc', ih false h]

/-- Nothing of a clean text is compacted. -/
theorem squeeze_of_clean [DecidableEq α] (rem : Bool) (l : List α) (h : Clean isSp sep rem l = true) :
    squeeze isSp sep rem l = l := by
  induction l generalizing rem with
  | nil => rfl
  | cons c cs ih =>
      by_cases hc : isSp c = true
      · simp only [Clean, hc, if_true, Bool.and_eq_true, decide_eq_true_eq, Bool.not_eq_true'] at h
        rcases h with ⟨⟨rfl, rfl⟩, hcs⟩
        simp only [squeeze, hc, if_true, Bool.false_eq_true, if_false, ih true hcs]
      · have hc' : isSp c = false := by simpa using hc
        simp only [Clean, hc', Bool.false_eq_true, if_false] at h
        simp only [squeeze, hc', Bool.false_eq_true, if_false, ih false h]

/-- Nothing is left of a text exactly when it is made of blanks. -/
theorem squeeze_eq_nil_iff (l : List α) :
    squeeze isSp sep true l = [] ↔ ∀ c ∈ l, isSp c = true := by
  induction l with
  | nil => simp [squeeze]
  | cons c cs ih =>
      by_cases hc : isSp c = true
      · simp [squeeze, hc, ih]
      · simp [squeeze, hc]

theorem trimEnd_squeeze_eq_nil_iff (l : List α) :
    trimEnd isSp (squeeze isSp sep true l) = [] ↔ squeeze isSp sep true l = [] := by
  induction l with
  | nil => simp [squeeze, trimEnd]
  | cons c cs ih =>
      by_cases hc : isSp c = true
      · simpa [squeeze, hc] using ih
      · have hc' : isSp c = false := by simpa using hc
        simp [squeeze, hc', trimEnd_cons_word hc']

/-- Compaction only brings in separators. -/
theorem mem_compact {rem : Bool} {l : List α} {c : α} (h : c ∈ trimEnd isSp (squeeze isSp sep rem l)) :
    c ∈ l ∨ c = sep := by
  have hmem : c ∈ squeeze isSp sep rem l := (List.rdropWhile_prefix isSp _).subset h
  clear h
  induction l generalizing rem with
  | nil => simp [squeeze] at hmem
  | cons d l ih =>
      unfold squeeze at hmem
      split_ifs at hmem
      · rcases ih hmem with h | h
        · exact .inl (List.mem_cons_of_mem _ h)
        · exact .inr h
      · rcases List.mem_cons.1 hmem with h | h
        · exact .inr h
        · rcases ih h with h | h
          · exact .inl (List.mem_cons_of_mem _ h)
          · exact .inr h
      · rcases List.mem_cons.1 hmem with h | h
        · exact .inl (h ▸ List.mem_cons_self)
        · rcases ih h with h | h
          · exact .inl (List.mem_cons_of_mem _ h)
          · exact .inr h

/-- A map that keeps blanks as they are and words words keeps a text clean. -/
theorem Clean.map [DecidableEq α] {f : α → α} (hsp : ∀ c, isSp (f c) = isSp c)
    (hblank : ∀ c, isSp c = true → f c = c) (rem : Bool) (l : List α) :
    Clean isSp sep rem (l.map f) = Clean isSp sep rem l := by
  induction l generalizing rem with
  | nil => rfl
  | cons c l ih =>
      by_cases hc : isSp c = true
      · simp [Clean, hc, hblank c hc, ih]
      · simp [Clean, hsp, hc, ih]

theorem Clean.ne_nil [DecidableEq α] {l : List α} (h : Clean isSp sep true l = true) : l ≠ [] := by
  rintro rfl
  simp [Clean] at h

theorem Clean.head [DecidableEq α] {c : α} {l : List α} (h : Clean isSp sep true (c :: l) = true) :
    isSp c = false := by
  by_contra hc
  have hc' : isSp c = true := by simpa using hc
  simp [Clean, hc'] at h

/-- The only blank of a clean text is the separator. -/
theorem Clean.eq_sep [DecidableEq α] {rem : Bool} {l : List α} (h : Clean isSp sep rem l = true) {c : α}
    (hc : c ∈ l) (hsp : isSp c = true) : c = sep := by
  induction l generalizing rem with
  | nil => cases hc
  | cons d ds ih =>
      by_cases hd : isSp d = true
      · simp only [Clean, hd, if_true, Bool.and_eq_true, decide_eq_true_eq] at h
        rcases List.mem_cons.1 hc with rfl | hmem
        · exact h.1.1
        · exact ih h.2 hmem
      · simp only [Clean, hd] at h
        rcases List.mem_cons.1 hc with rfl | hmem
        · exact absurd hsp hd
        · exact ih h hmem

theorem Clean.tail [DecidableEq α] {rem : Bool} {c : α} {l : List α}
    (h : Clean isSp sep rem (c :: l) = true) : ∃ r, Clean isSp sep r l = true := by
  by_cases hc : isSp c = true
  · simp only [Clean, hc, if_true, Bool.and_eq_true] at h
    exact ⟨true, h.2⟩
  · simp only [Clean, hc] at h
    exact ⟨false, h⟩

theorem Clean.drop [DecidableEq α] {rem : Bool} {l : List α} (h : Clean isSp sep rem l = true) (n : Nat) :
    ∃ r, Clean isSp sep r (l.drop n) = true := by
  induction n generalizing l rem with
  | zero => exact ⟨rem, by simpa using h⟩
  | succ n ih =>
      cases l with
      | nil => exact ⟨rem, by simpa using h⟩
      | cons c l =>
          rcases Clean.tail h with ⟨r, hr⟩
          simpa using ih hr

theorem Clean.getLast [DecidableEq α] {rem : Bool} {l : List α} (h : Clean isSp sep rem l = true) (hl : l ≠ []) :
    isSp (l.getLast hl) = false := by
  induction l generalizing rem with
  | nil => exact absurd rfl hl
  | cons c cs ih =>
      by_cases hne : cs = []
      · subst hne
        by_contra hc
        have hc' : isSp c = true := by simpa using hc
        simp [Clean, hc'] at h
      · rcases Clean.tail h with ⟨r, hr⟩
        rw [List.getLast_cons hne]
        exact ih hr hne

/-- Two characters of a clean text, or its only one, are not all blanks. -/
theorem Clean.exists_word [DecidableEq α] {rem : Bool} {l : List α} (h : Clean isSp sep rem l = true)
    (hl : l ≠ []) {n : Nat} (hn : 2 ≤ n) : ∃ c ∈ l.take n, isSp c = false := by
  obtain ⟨k, rfl⟩ : ∃ k, n = k + 2 := ⟨n - 2, by omega⟩
  cases l with
  | nil => exact absurd rfl hl
  | cons c l =>
      by_cases hc : isSp c = true
      · simp only [Clean, hc, if_true, Bool.and_eq_true] at h
        cases l with
        | nil => exact absurd rfl (Clean.ne_nil h.2)
        | cons d l => exact ⟨d, by simp, Clean.head h.2⟩
      · exact ⟨c, by simp, by simpa using hc⟩

/-- Two clean texts, the first one ended by one more character. -/
theorem Clean.append_word_sep [DecidableEq α] (hsep : isSp sep = true) {rem : Bool} {l l' : List α} {c : α}
    (h : Clean isSp sep rem l = true) (hc : isSp c = false) (h' : Clean isSp sep true l' = true) :
    Clean isSp sep rem (l ++ c :: sep :: l') = true := by
  induction l generalizing rem with
  | nil => simpa [Clean, hc, hsep] using h'
  | cons d l ih =>
      by_cases hd : isSp d = true
      · simp only [Clean, hd, if_true, Bool.and_eq_true, List.cons_append] at h ⊢
        exact ⟨h.1, ih h.2⟩
      · simp only [Clean, hd, List.cons_append] at h ⊢
        exact ih h

theorem squeeze_append_word {rem : Bool} {c : α} (hc : isSp c = false) (l x : List α) :
    squeeze isSp sep rem (l ++ c :: x) = squeeze isSp sep rem l ++ c :: squeeze isSp sep false x := by
  induction l generalizing rem with
  | nil => simp [squeeze, hc]
  | cons d l ih =>
      by_cases hd : isSp d = true
      · cases rem <;> simp [squeeze, hd, ih]
      · simp [squeeze, hd, ih]

theorem squeeze_word {rem : Bool} {l : List α} (h : ∀ c ∈ l, isSp c = false) : squeeze isSp sep rem l = l := by
  induction l generalizing rem with
  | nil => rfl
  | cons c l ih =>
      have hc := h c List.mem_cons_self
      simp only [squeeze, hc, Bool.false_eq_true, if_false]
      rw [ih fun d hd => h d (List.mem_cons_of_mem _ hd)]

/-- Nothing is added but separators. -/
theorem mem_squeeze {rem : Bool} {l : List α} {c : α} (h : c ∈ squeeze isSp sep rem l) : c ∈ l ∨ c = sep := by
  induction l generalizing rem with
  | nil => exact absurd h (by simp [squeeze])
  | cons d l ih =>
      simp only [squeeze] at h
      split at h
      · split at h
        · exact (ih h).imp_left (List.mem_cons_of_mem _)
        · rcases List.mem_cons.1 h with rfl | h
          · exact .inr rfl
          · exact (ih h).imp_left (List.mem_cons_of_mem _)
      · rcases List.mem_cons.1 h with rfl | h
        · exact .inl List.mem_cons_self
        · exact (ih h).imp_left (List.mem_cons_of_mem _)

theorem trimEnd_append_word {c : α} (hc : isSp c = false) (l : List α) :
    trimEnd isSp (l ++ [c]) = l ++ [c] :=
  List.rdropWhile_concat_neg isSp l c (by simp [hc])

/-- Single separators are kept. -/
theorem squeeze_of_single [DecidableEq α] {l : List α} (hsp : ∀ c ∈ l, isSp c = true → c = sep)
    (h : ¬ [sep, sep] <:+: l) : squeeze isSp sep false l = l := by
  induction l with
  | nil => rfl
  | cons c l ih =>
      have htail := ih (fun d hd => hsp d (List.mem_cons_of_mem _ hd)) fun hi => h (List.infix_cons hi)
      by_cases hc : isSp c = true
      · have hcs := hsp c List.mem_cons_self hc
        subst hcs
        simp only [squeeze, hc, if_true, Bool.false_eq_true, if_false]
        cases l with
        | nil => rfl
        | cons d l =>
            -- what follows starts a word, so that the flag does not matter
            have hd : isSp d = false := by
              by_contra hd
              have hds := hsp d (by simp) (by simpa using hd)
              subst hds
              exact h ⟨[], l, rfl⟩
            simp only [squeeze, hd, Bool.false_eq_true, if_false] at htail ⊢
            rw [htail]
      · simp only [squeeze, hc, Bool.false_eq_true, if_false]
        rw [htail]

/-- The next word starts after the blanks. -/
theorem squeeze_head {l : List α} (h : ∃ c ∈ l, isSp c = false) :
    ∃ c v, isSp c = false ∧ squeeze isSp sep true l = c :: v := by
  induction l with
  | nil => exact absurd h (by simp)
  | cons c l ih =>
      by_cases hc : isSp c = true
      · rcases h with ⟨d, hd, hdsp⟩
        rcases List.mem_cons.1 hd with rfl | hd
        · rw [hc] at hdsp
          cases hdsp
        · rcases ih ⟨d, hd, hdsp⟩ with ⟨e, v, he, hv⟩
          exact ⟨e, v, he, by simp [squeeze, hc, hv]⟩
      · exact ⟨c, squeeze isSp sep false l, by simpa using hc, by simp [squeeze, hc]⟩

/-- Where two separators follow each other, only one is kept. -/
theorem squeeze_of_double {l : List α} (hsep : isSp sep = true) (hsp : ∀ c ∈ l, isSp c = true → c = sep)
    (hlast : ∃ l' c, l = l' ++ [c] ∧ isSp c = false) (h : [sep, sep] <:+: l) :
    ∃ w c u v, isSp c = false ∧ u ≠ [] ∧ l = w ++ sep :: sep :: u ∧
      squeeze isSp sep false l = w ++ sep :: c :: v := by
  induction l with
  | nil => exact absurd h (by simp)
  | cons b l ih =>
      have hsp' : ∀ c ∈ l, isSp c = true → c = sep := fun c hc => hsp c (List.mem_cons_of_mem _ hc)
      have hlast' : l ≠ [] → ∃ l' c, l = l' ++ [c] ∧ isSp c = false := by
        intro hne
        rcases hlast with ⟨l', c, hl, hc⟩
        cases l' with
        | nil =>
            cases hl
            exact absurd rfl hne
        | cons d l' =>
            cases hl
            exact ⟨l', c, rfl, hc⟩
      -- the same list of blanks, one character later
      have hlater : [sep, sep] <:+: l → ∃ w c u v, isSp c = false ∧ u ≠ [] ∧ b :: l = b :: w ++ sep :: sep :: u ∧
          b :: squeeze isSp sep false l = b :: w ++ sep :: c :: v := by
        intro hinfix
        have hne : l ≠ [] := by
          rintro rfl
          exact absurd hinfix (by simp)
        rcases ih hsp' (hlast' hne) hinfix with ⟨w, c, u, v, hc, hu, hl, hq⟩
        exact ⟨w, c, u, v, hc, hu, by rw [hl]; rfl, by rw [hq]; rfl⟩
      by_cases hb : isSp b = true
      · have hbs := hsp b List.mem_cons_self hb
        subst hbs
        have hword : ∃ c ∈ l, isSp c = false := by
          rcases hlast with ⟨l', c, hl, hc⟩
          have hmem : c ∈ b :: l := by
            rw [hl]
            simp
          rcases List.mem_cons.1 hmem with rfl | hmem
          · rw [hb] at hc
            cases hc
          · exact ⟨c, hmem, hc⟩
        rcases @squeeze_head _ _ b _ hword with ⟨c, v, hc, hv⟩
        simp only [squeeze, hb, if_true, Bool.false_eq_true, if_false]
        cases l with
        | nil => exact absurd hword (by simp)
        | cons d l =>
            by_cases hd : isSp d = true
            · have hdb := hsp d (by simp) hd
              subst hdb
              have hne : l ≠ [] := by
                rintro rfl
                rcases hword with ⟨e, he, hesp⟩
                rw [List.mem_singleton.1 he, hb] at hesp
                cases hesp
              exact ⟨[], c, l, v, hc, hne, rfl, by rw [hv]; rfl⟩
            · have hd' : isSp d = false := by simpa using hd
              have hinfix : [b, b] <:+: d :: l := by
                rcases List.infix_cons_iff.1 h with hp | hi
                · have hbd := (List.cons_prefix_cons.1 (List.cons_prefix_cons.1 hp).2).1
                  rw [← hbd, hb] at hd'
                  cases hd'
                · exact hi
              rcases hlater hinfix with ⟨w, c', u, v', hc', hu, hl, hq⟩
              refine ⟨b :: w, c', u, v', hc', hu, hl, ?_⟩
              rw [← hq]
              simp [squeeze, hd']
      · have hb' : isSp b = false := by simpa using hb
        have hinfix : [sep, sep] <:+: l := by
          rcases List.infix_cons_iff.1 h with hp | hi
          · have hbs := (List.cons_prefix_cons.1 hp).1
            rw [← hbs, hsep] at hb'
            cases hb'
          · exact hi
        rcases hlater hinfix with ⟨w, c, u, v, hc, hu, hl, hq⟩
        exact ⟨b :: w, c, u, v, hc, hu, hl, by simpa [squeeze, hb'] using hq⟩

end Library
end Scambio
