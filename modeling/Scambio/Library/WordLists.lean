import Scambio.Library.Words

/-!
# WordLists — the words of a text

Compaction in `Library.Words` works from one character to the next.  Here it is compared with the words that are
between the blanks:

* `trimEnd_squeeze` : the compacted text is made of the words, with one separator between two of them;
* `length_squeeze`  : how many characters it has before its end is trimmed.
-/

namespace Scambio
namespace Library

variable {α : Type*} {isSp : α → Bool} {sep : α}

/-! ## Words -/

/-- The words between the blanks. -/
def wordList (isSp : α → Bool) (l : List α) : List (List α) :=
  (l.splitOnP isSp).filter fun w => !w.isEmpty

/-- The number of words with a blank behind them. -/
def wordEnds (isSp : α → Bool) (l : List α) : Nat :=
  (l.zip l.tail).countP fun pair => !isSp pair.1 && isSp pair.2

/-- A text starts with a blank, with a word of one character or with a word that goes on. -/
theorem wordList_induction (isSp : α → Bool) {motive : List α → Prop} (hnil : motive [])
    (hblank : ∀ c l, isSp c = true → motive l → motive (c :: l))
    (hlast : ∀ c, isSp c = false → motive [c])
    (hend : ∀ c b l, isSp c = false → isSp b = true → motive l → motive (c :: b :: l))
    (hword : ∀ c d l, isSp c = false → isSp d = false → motive (d :: l) → motive (c :: d :: l))
    (l : List α) : motive l := by
  have hboth : motive l ∧ ∀ c, isSp c = false → motive (c :: l) := by
    induction l with
    | nil => exact ⟨hnil, hlast⟩
    | cons d l ih =>
        rcases Bool.eq_false_or_eq_true (isSp d) with hd | hd
        · exact ⟨hblank d l hd ih.1, fun c hc => hend c d l hc hd ih.1⟩
        · exact ⟨ih.2 d hd, fun c hc => hword c d l hc hd (ih.2 d hd)⟩
  exact hboth.1

theorem wordList_nil : wordList isSp [] = [] := by
  rw [wordList, List.splitOnP_nil]
  rfl

theorem wordList_blank {c : α} (hc : isSp c = true) (l : List α) : wordList isSp (c :: l) = wordList isSp l := by
  rw [wordList, List.splitOnP_cons_eq_if_modifyHead, if_pos hc]
  rfl

theorem wordList_end {c b : α} (hc : isSp c = false) (hb : isSp b = true) (l : List α) :
    wordList isSp (c :: b :: l) = [c] :: wordList isSp l := by
  have hneg : ¬ isSp c = true := Bool.eq_false_iff.1 hc
  rw [wordList, List.splitOnP_cons_eq_if_modifyHead, if_neg hneg, List.splitOnP_cons_eq_if_modifyHead, if_pos hb]
  rfl

theorem wordList_last {c : α} (hc : isSp c = false) : wordList isSp [c] = [[c]] := by
  have hneg : ¬ isSp c = true := Bool.eq_false_iff.1 hc
  rw [wordList, List.splitOnP_cons_eq_if_modifyHead, if_neg hneg]
  rfl

/-- The first word of a text that starts with one. -/
theorem wordList_word {c : α} (hc : isSp c = false) (l : List α) :
    ∃ w ws, wordList isSp (c :: l) = (c :: w) :: ws := by
  have hneg : ¬ isSp c = true := Bool.eq_false_iff.1 hc
  rw [wordList, List.splitOnP_cons_eq_if_modifyHead, if_neg hneg]
  cases hsplit : l.splitOnP isSp with
  | nil => exact absurd hsplit (List.splitOnP_ne_nil isSp l)
  | cons w ws => exact ⟨w, ws.filter fun w => !w.isEmpty, rfl⟩

theorem wordList_inner {c d : α} (hc : isSp c = false) (hd : isSp d = false) (l : List α) :
    wordList isSp (c :: d :: l) = (wordList isSp (d :: l)).modifyHead (List.cons c) := by
  have hneg : ¬ isSp c = true := Bool.eq_false_iff.1 hc
  have hneg' : ¬ isSp d = true := Bool.eq_false_iff.1 hd
  rw [wordList, wordList, List.splitOnP_cons_eq_if_modifyHead, if_neg hneg, List.splitOnP_cons_eq_if_modifyHead,
    if_neg hneg']
  cases hsplit : l.splitOnP isSp with
  | nil => exact absurd hsplit (List.splitOnP_ne_nil isSp l)
  | cons w ws => rfl

theorem intercalate_wordList_eq_nil (l : List α) : [sep].intercalate (wordList isSp l) = [] ↔ wordList isSp l = [] := by
  constructor
  · intro hnil
    by_contra hne
    obtain ⟨w, ws, hw⟩ := List.exists_cons_of_ne_nil hne
    have hmem : w ∈ wordList isSp l := hw ▸ List.mem_cons_self
    have hword : w ≠ [] := by
      rintro rfl
      exact Bool.false_ne_true (List.mem_filter.1 hmem).2
    rw [hw] at hnil
    obtain ⟨c, w', rfl⟩ := List.exists_cons_of_ne_nil hword
    rw [List.intercalate_cons_cons_left] at hnil
    cases hnil
  · intro hnil
    rw [hnil]
    rfl

/-! ## The compacted text -/

/-- There is a compacted text where there is a word. -/
theorem exists_word_iff {l : List α} : (∃ c ∈ l, isSp c = false) ↔ squeeze isSp sep true l ≠ [] := by
  rw [Ne, squeeze_eq_nil_iff]
  simp only [not_forall, exists_prop, Bool.not_eq_true]

/-- The compacted text is made of the words, with one separator between two of them. -/
theorem trimEnd_squeeze (hsep : isSp sep = true) (l : List α) :
    trimEnd isSp (squeeze isSp sep true l) = [sep].intercalate (wordList isSp l) := by
  induction l using wordList_induction isSp with
  | hnil =>
      rw [wordList_nil]
      rfl
  | hblank c l hc ih =>
      rw [wordList_blank hc, ← ih]
      simp only [squeeze, hc, if_true]
  | hlast c hc =>
      rw [wordList_last hc]
      simp only [squeeze, hc, Bool.false_eq_true, if_false, trimEnd_cons_word hc]
      rfl
  | hend c b l hc hb ih =>
      rw [wordList_end hc hb]
      simp only [squeeze, hc, hb, Bool.false_eq_true, if_false, if_true, trimEnd_cons_word hc]
      rw [trimEnd_cons, ih]
      by_cases hnil : wordList isSp l = []
      · rw [if_pos ((intercalate_wordList_eq_nil l).2 hnil), if_pos hsep, hnil, List.intercalate_singleton]
      · -- the blank is the separator in front of the next word
        rw [if_neg fun h => hnil ((intercalate_wordList_eq_nil l).1 h), List.intercalate_cons_of_ne_nil hnil]
        rfl
  | hword c d l hc hd ih =>
      rcases wordList_word hd l with ⟨w, ws, hwords⟩
      rw [wordList_inner hc hd, hwords, List.modifyHead_cons, List.intercalate_cons_cons_left, ← hwords, ← ih]
      simp only [squeeze, hc, hd, Bool.false_eq_true, if_false, trimEnd_cons_word hc]

theorem wordEnds_cons_cons (c d : α) (l : List α) :
    wordEnds isSp (c :: d :: l) = wordEnds isSp (d :: l) + if isSp c = false ∧ isSp d = true then 1 else 0 := by
  unfold wordEnds
  rw [List.tail_cons, List.zip_cons_cons, List.countP_cons]
  congr 1
  simp only [Bool.and_eq_true, Bool.not_eq_true']

theorem wordEnds_blank {c : α} (hc : isSp c = true) (l : List α) : wordEnds isSp (c :: l) = wordEnds isSp l := by
  cases l with
  | nil => rfl
  | cons d l => rw [wordEnds_cons_cons, if_neg fun h => Bool.false_ne_true (h.1.symm.trans hc), Nat.add_zero]

/-- Before its end is trimmed, the compacted text has the characters of the words, and a separator for each word with a
blank behind it. -/
theorem length_squeeze (l : List α) :
    (squeeze isSp sep true l).length = l.countP (fun c => !isSp c) + wordEnds isSp l := by
  induction l using wordList_induction isSp with
  | hnil => rfl
  | hblank c l hc ih =>
      simp only [squeeze, hc, if_true, List.countP_cons, wordEnds_blank hc, ih]
      rfl
  | hlast c hc =>
      simp only [squeeze, hc, Bool.false_eq_true, if_false, List.countP_cons]
      rfl
  | hend c b l hc hb ih =>
      rw [wordEnds_cons_cons, if_pos ⟨hc, hb⟩, wordEnds_blank hb]
      simp only [squeeze, hc, hb, Bool.false_eq_true, if_false, if_true, List.length_cons, ih, List.countP_cons]
      simp only [Bool.not_false, Bool.not_true, Bool.false_eq_true, if_false, if_true]
      omega
  | hword c d l hc hd ih =>
      rw [wordEnds_cons_cons, if_neg fun h => Bool.false_ne_true (hd.symm.trans h.2), List.countP_cons]
      simp only [squeeze, hc, hd, Bool.false_eq_true, if_false, List.length_cons, Bool.not_false, if_true] at ih ⊢
      omega

end Library
end Scambio
