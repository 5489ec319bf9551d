import Scambio.Lib.Readback

/-!
# HeaderWire — a header written on a connection and read at the other end

`header_write` puts each field on one line, however long.  `header_read` takes lines by pieces of at
most MAX_HEADLINE_LENGTH characters, counts the pieces against MAX_HEADER_LINES, and takes a piece of
white space for the end of the header.

- the lines and the blank one must not be more than MAX_HEADER_LINES;
- all of them must have room in the buffer of `header_read`, which is for 10240 characters;
- each name and each value must have room in the buffer of `parse`.

A canonical header goes through if and only if all of this holds (`headerRead_headerWrite_iff`).  A line
of several pieces never does: its name or its value has no room in the buffer of `parse`.
-/

namespace Scambio

open Library

/-! ## One piece of a line -/

/-- Text without end of line, carriage return nor NUL. -/
def OneLine (s : Bytes) : Prop :=
  (10 : UInt8) ∉ s ∧ (13 : UInt8) ∉ s ∧ (0 : UInt8) ∉ s

theorem OneLine.drop {s : Bytes} (h : OneLine s) (n : Nat) : OneLine (s.drop n) :=
  ⟨fun hc => h.1 (List.mem_of_mem_drop hc), fun hc => h.2.1 (List.mem_of_mem_drop hc),
    fun hc => h.2.2 (List.mem_of_mem_drop hc)⟩

theorem readLineLoop_line {maxlen n : Nat} {s rest : Bytes} (h : OneLine s)
    (hlen : n + s.length < maxlen) :
    readLineLoop maxlen n false (s ++ 10 :: rest) =
      { line := s ++ [10], rest := rest, eof := false } := by
  induction s generalizing n with
  | nil =>
      have hn : n < maxlen := by simpa using hlen
      simp [readLineLoop, hn]
  | cons c s ih =>
      rw [List.length_cons] at hlen
      have hc : c ≠ 10 ∧ c ≠ 13 :=
        ⟨fun he => h.1 (he ▸ List.mem_cons_self), fun he => h.2.1 (he ▸ List.mem_cons_self)⟩
      have hs : OneLine s := h.drop 1
      have hnext := ih hs (n := n + 1) (by omega)
      have hn : n < maxlen := by omega
      simp [readLineLoop, hn, hc.1, hc.2, hnext]

theorem readLineLoop_full {maxlen n : Nat} {s rest : Bytes} (h : OneLine s) (hn : n ≤ maxlen)
    (hlen : maxlen ≤ n + s.length) :
    readLineLoop maxlen n false (s ++ 10 :: rest) =
      { line := s.take (maxlen - n), rest := s.drop (maxlen - n) ++ 10 :: rest, eof := false } := by
  induction s generalizing n with
  | nil =>
      have hlt : ¬ n < maxlen := by simpa using hlen
      simp [readLineLoop, hlt]
  | cons c s ih =>
      rw [List.length_cons] at hlen
      by_cases hlt : n < maxlen
      · have hc : c ≠ 10 ∧ c ≠ 13 :=
          ⟨fun he => h.1 (he ▸ List.mem_cons_self), fun he => h.2.1 (he ▸ List.mem_cons_self)⟩
        have hs : OneLine s := h.drop 1
        have hnext := ih hs (n := n + 1) (by omega) (by omega)
        have hsub : maxlen - n = (maxlen - (n + 1)) + 1 := by omega
        simp [readLineLoop, hlt, hc.1, hc.2, hnext, hsub]
      · have hzero : maxlen - n = 0 := by omega
        simp [readLineLoop, hlt, hzero]

theorem not_lineMatchEmpty {line : Bytes} (h0 : (0 : UInt8) ∉ line) {c : UInt8} (hc : c ∈ line)
    (hsp : isspace c = false) : lineMatchEmpty line = false := by
  rw [lineMatchEmpty, cstr_of_not_mem h0, List.all_eq_false]
  exact ⟨c, hc, by simp [hsp]⟩

/-! ## One line -/

/-- One more piece in front of what is read next. -/
def LinesRead.after (piece : Bytes) (r : LinesRead) : LinesRead :=
  { r with vb := piece ++ r.vb, appended := piece.length + r.appended, nbLines := r.nbLines + 1 }

/-- A clean line, or what is left of one. -/
structure CleanLine (s : Bytes) : Prop where
  line : OneLine s
  clean : ∃ r, Clean isspace 32 r s = true

theorem CleanLine.drop {s : Bytes} (h : CleanLine s) (n : Nat) : CleanLine (s.drop n) := by
  rcases h with ⟨hline, r, hr⟩
  exact ⟨hline.drop n, Clean.drop hr n⟩

theorem two_le_max : 2 ≤ MAX_HEADLINE_LENGTH := by decide

theorem headerReadLoop_zero {s rest : Bytes} (h : OneLine s) :
    (headerReadLoop 0 (s ++ 10 :: rest)).stop = .tooManyLines := by
  rw [headerReadLoop]
  by_cases hlen : s.length < MAX_HEADLINE_LENGTH
  · rw [varbufReadLine, readLineLoop_line h (by omega)]
    rfl
  · rw [varbufReadLine, readLineLoop_full h (by omega) (by omega)]
    rfl

/-- The last piece of a line, that is not empty. -/
theorem headerReadLoop_last {s rest : Bytes} (h : CleanLine s) (hne : s ≠ [])
    (hlen : s.length < MAX_HEADLINE_LENGTH) (left : Nat) :
    headerReadLoop (left + 1) (s ++ 10 :: rest) = (headerReadLoop left rest).after (s ++ [10]) := by
  rcases h with ⟨hline, r, hr⟩
  have hword : lineMatchEmpty (s ++ [10]) = false := by
    rcases Clean.exists_word hr hne (n := MAX_HEADLINE_LENGTH) two_le_max with ⟨c, hc, hsp⟩
    refine not_lineMatchEmpty ?_ (List.mem_append_left _ (List.mem_of_mem_take hc)) hsp
    simp [hline.2.2]
  rw [headerReadLoop, varbufReadLine, readLineLoop_line hline (by omega)]
  simp [hword, LinesRead.after]

/-- A full piece. -/
theorem headerReadLoop_full {s rest : Bytes} (h : CleanLine s) (hlen : MAX_HEADLINE_LENGTH ≤ s.length)
    (left : Nat) :
    headerReadLoop (left + 1) (s ++ 10 :: rest) =
      (headerReadLoop left (s.drop MAX_HEADLINE_LENGTH ++ 10 :: rest)).after
        (s.take MAX_HEADLINE_LENGTH) := by
  rcases h with ⟨hline, r, hr⟩
  have hne : s ≠ [] := by
    rintro rfl
    simp [MAX_HEADLINE_LENGTH] at hlen
  have hword : lineMatchEmpty (s.take MAX_HEADLINE_LENGTH) = false := by
    rcases Clean.exists_word hr hne (n := MAX_HEADLINE_LENGTH) two_le_max with ⟨c, hc, hsp⟩
    exact not_lineMatchEmpty (fun h0 => hline.2.2 (List.mem_of_mem_take h0)) hc hsp
  rw [headerReadLoop, varbufReadLine, readLineLoop_full hline (by omega) (by omega)]
  simp [hword, LinesRead.after]

theorem headerReadLoop_blank (left : Nat) (rest : Bytes) :
    headerReadLoop (left + 1) (10 :: rest) =
      { vb := [], appended := 1, rest := rest, nbLines := 1, stop := .blankLine } := by
  have hpiece := @readLineLoop_line MAX_HEADLINE_LENGTH 0 [] rest
    (by simp [OneLine]) (by decide)
  rw [List.nil_append] at hpiece
  have hblank : lineMatchEmpty [10] = true := by decide
  rw [headerReadLoop, varbufReadLine, hpiece]
  simp [hblank]

/-- The pieces in which a line is read. -/
def nbPieces (s : Bytes) : Nat :=
  s.length / MAX_HEADLINE_LENGTH + 1

theorem nbPieces_drop {s : Bytes} (hlen : MAX_HEADLINE_LENGTH ≤ s.length) :
    nbPieces s = nbPieces (s.drop MAX_HEADLINE_LENGTH) + 1 := by
  have hpos : 0 < MAX_HEADLINE_LENGTH := by decide
  rw [nbPieces, nbPieces, List.length_drop, ← Nat.div_eq_sub_div hpos hlen]

/-- A whole line, when none of its pieces is blank: what comes after it is read next. -/
theorem headerReadLoop_line {s rest : Bytes} (h : CleanLine s)
    (hmod : s.length % MAX_HEADLINE_LENGTH ≠ 0) {left : Nat} (hleft : nbPieces s ≤ left) :
    headerReadLoop left (s ++ 10 :: rest) =
      { headerReadLoop (left - nbPieces s) rest with
        vb := s ++ 10 :: (headerReadLoop (left - nbPieces s) rest).vb
        appended := s.length + 1 + (headerReadLoop (left - nbPieces s) rest).appended
        nbLines := (headerReadLoop (left - nbPieces s) rest).nbLines + nbPieces s } := by
  induction hn : s.length using Nat.strong_induction_on generalizing s left with
  | _ n ih =>
      subst hn
      have hne : s ≠ [] := by
        rintro rfl
        exact hmod (by simp)
      have hone : 1 ≤ nbPieces s := Nat.le_add_left _ _
      obtain ⟨k, rfl⟩ : ∃ k, left = k + 1 := ⟨left - 1, by omega⟩
      by_cases hlen : s.length < MAX_HEADLINE_LENGTH
      · have hone : nbPieces s = 1 := by rw [nbPieces, Nat.div_eq_of_lt hlen]
        rw [headerReadLoop_last h hne hlen, hone]
        simp [LinesRead.after]
      · -- a full piece, and a shorter line
        have hle : MAX_HEADLINE_LENGTH ≤ s.length := by omega
        have hpos : 0 < MAX_HEADLINE_LENGTH := by decide
        have hpieces := nbPieces_drop hle
        have hrest := ih (s.drop MAX_HEADLINE_LENGTH).length (by rw [List.length_drop]; omega)
          (h.drop _) (by rw [List.length_drop, ← Nat.mod_eq_sub_mod hle]; exact hmod)
          (show nbPieces (s.drop MAX_HEADLINE_LENGTH) ≤ k by omega) rfl
        have hsub : k + 1 - nbPieces s = k - nbPieces (s.drop MAX_HEADLINE_LENGTH) := by omega
        have htext : s.take MAX_HEADLINE_LENGTH ++ (s.drop MAX_HEADLINE_LENGTH ++
            10 :: (headerReadLoop (k - nbPieces (s.drop MAX_HEADLINE_LENGTH)) rest).vb) =
            s ++ 10 :: (headerReadLoop (k - nbPieces (s.drop MAX_HEADLINE_LENGTH)) rest).vb := by
          rw [← List.append_assoc, List.take_append_drop]
        have hlength : (s.take MAX_HEADLINE_LENGTH).length + ((s.drop MAX_HEADLINE_LENGTH).length + 1 +
            (headerReadLoop (k - nbPieces (s.drop MAX_HEADLINE_LENGTH)) rest).appended) =
            s.length + 1 + (headerReadLoop (k - nbPieces (s.drop MAX_HEADLINE_LENGTH)) rest).appended := by
          rw [List.length_take, List.length_drop]
          omega
        rw [headerReadLoop_full h hle, hrest, hsub]
        simp only [LinesRead.after, htext, hlength, hpieces]
        rfl

/-- A line of more pieces than are left. -/
theorem headerReadLoop_line_short {s rest : Bytes} (h : CleanLine s) {left : Nat}
    (hleft : left < nbPieces s) (hmod : s.length % MAX_HEADLINE_LENGTH ≠ 0) :
    (headerReadLoop left (s ++ 10 :: rest)).stop = .tooManyLines := by
  induction left generalizing s with
  | zero => exact headerReadLoop_zero h.line
  | succ k ih =>
      have hle : MAX_HEADLINE_LENGTH ≤ s.length := by
        by_contra hlt
        rw [nbPieces, Nat.div_eq_of_lt (by omega)] at hleft
        omega
      have hpieces := nbPieces_drop hle
      rw [headerReadLoop_full h hle]
      exact ih (h.drop _) (by omega) (by rw [List.length_drop, ← Nat.mod_eq_sub_mod hle]; exact hmod)

/-- A line whose last piece is its end of line alone: the header stops there, if not before, and the
text of the line has lost its end. -/
theorem headerReadLoop_line_cut {s : Bytes} (h : CleanLine s)
    (hmod : s.length % MAX_HEADLINE_LENGTH = 0) (left : Nat) (rest : Bytes) :
    (headerReadLoop left (s ++ 10 :: rest)).stop = .tooManyLines ∨
      ((headerReadLoop left (s ++ 10 :: rest)).vb = s ∧
        (headerReadLoop left (s ++ 10 :: rest)).rest = rest) := by
  induction left generalizing s with
  | zero => exact .inl (headerReadLoop_zero h.line)
  | succ k ih =>
      by_cases hnil : s = []
      · subst hnil
        right
        rw [List.nil_append, headerReadLoop_blank]
        exact ⟨rfl, rfl⟩
      · have hle : MAX_HEADLINE_LENGTH ≤ s.length := by
          by_contra hlt
          rw [Nat.mod_eq_of_lt (by omega)] at hmod
          exact hnil (List.length_eq_zero_iff.1 hmod)
        have hmod' : (s.drop MAX_HEADLINE_LENGTH).length % MAX_HEADLINE_LENGTH = 0 := by
          rw [List.length_drop, ← Nat.mod_eq_sub_mod hle]
          exact hmod
        rw [headerReadLoop_full h hle]
        rcases ih (h.drop MAX_HEADLINE_LENGTH) hmod' with hmany | ⟨hvb, hrest⟩
        · exact .inl hmany
        · refine .inr ⟨?_, hrest⟩
          simp only [LinesRead.after, hvb, List.take_append_drop]

/-! ## A whole header -/

/-- The line of a field, without its end. -/
def fieldLine (hf : HeaderField) : Bytes :=
  hf.name ++ ascii ": " ++ hf.value

theorem fieldWrite_eq (hf : HeaderField) : fieldWrite hf = fieldLine hf ++ [10] := rfl

theorem CanonicalField.cleanLine {hf : HeaderField} (h : CanonicalField hf) :
    CleanLine (fieldLine hf) := by
  have hline : ∀ {t : Bytes}, CleanText t → OneLine t := by
    intro t ht
    have hsep : ∀ {c : UInt8}, isspace c = true → c ≠ 32 → c ∉ t := by
      intro c hsp hne hc
      exact hne (Clean.eq_sep ht.1 hc hsp)
    exact ⟨hsep (by decide) (by decide), hsep (by decide) (by decide), ht.2⟩
  have hname := hline h.name_clean
  have hvalue := hline h.value_clean
  refine ⟨?_, true, ?_⟩
  · simp [fieldLine, OneLine, hname.1, hname.2.1, hname.2.2, hvalue.1, hvalue.2.1, hvalue.2.2, ascii,
      charByte]
  · have htext : fieldLine hf = hf.name ++ 58 :: 32 :: hf.value := by simp [fieldLine, ascii, charByte]
    rw [htext]
    exact Clean.append_word_sep (by decide) h.name_clean.1 (by decide) h.value_clean.1

/-- All lines have room in the buffer of `header_read`, with the blank one. -/
def InReadBuffer (h : Header) : Prop :=
  (headerWrite h).length ≤ 10240

instance (h : Header) : Decidable (InReadBuffer h) :=
  inferInstanceAs (Decidable (_ ≤ _))

/-- The header has not too many lines, all of them have room in the buffer of `header_read`, and each
name and value has room in the one of `parse`. -/
structure Receivable (h : Header) : Prop where
  lines : h.length < MAX_HEADER_LINES
  room : InReadBuffer h
  short : ShortHeader h

instance (h : Header) : Decidable (Receivable h) :=
  decidable_of_iff (h.length < MAX_HEADER_LINES ∧ InReadBuffer h ∧ ShortHeader h)
    ⟨fun hr => ⟨hr.1, hr.2.1, hr.2.2⟩, fun hr => ⟨hr.lines, hr.room, hr.short⟩⟩

theorem length_fieldLine (hf : HeaderField) :
    (fieldLine hf).length = hf.name.length + 2 + hf.value.length := by
  have htwo : (ascii ": ").length = 2 := rfl
  simp only [fieldLine, List.length_append, htwo]

/-- A short field is read in one piece. -/
theorem ShortField.onePiece {hf : HeaderField} (hs : ShortField hf) :
    (fieldLine hf).length % MAX_HEADLINE_LENGTH ≠ 0 ∧ nbPieces (fieldLine hf) = 1 := by
  have hname := hs.name
  have hvalue := hs.value
  have hlen := length_fieldLine hf
  have hlt : (fieldLine hf).length < MAX_HEADLINE_LENGTH := by
    have hmax : MAX_HEADLINE_LENGTH = 10000 := rfl
    omega
  rw [nbPieces, Nat.div_eq_of_lt hlt, Nat.mod_eq_of_lt hlt]
  omega

theorem ShortHeader.pieces {h : Header} (hs : ShortHeader h) :
    (h.map fun hf => nbPieces (fieldLine hf)).sum = h.length := by
  have hone : h.map (fun hf => nbPieces (fieldLine hf)) = h.map fun _ => 1 :=
    List.map_congr_left fun hf hmem => (hs hf hmem).onePiece.2
  rw [hone, List.map_const', List.sum_replicate_nat, Nat.mul_one]

theorem headerReadLoop_fields {h : Header} (hh : CanonicalHeader h) (tail : Bytes)
    (hlines : ∀ hf ∈ h, (fieldLine hf).length % MAX_HEADLINE_LENGTH ≠ 0) {left : Nat}
    (hleft : (h.map fun hf => nbPieces (fieldLine hf)).sum < left) :
    headerReadLoop left (h.flatMap fieldWrite ++ 10 :: tail) =
      { vb := h.flatMap fieldWrite, appended := (h.flatMap fieldWrite).length + 1, rest := tail,
        nbLines := (h.map fun hf => nbPieces (fieldLine hf)).sum + 1, stop := .blankLine } := by
  induction h generalizing left with
  | nil =>
      obtain ⟨k, rfl⟩ : ∃ k, left = k + 1 := ⟨left - 1, by simp at hleft; omega⟩
      simpa using headerReadLoop_blank k tail
  | cons hf h ih =>
      rw [List.map_cons, List.sum_cons] at hleft
      have hline := (hh hf List.mem_cons_self).cleanLine
      have hrest := ih (fun x hx => hh x (List.mem_cons_of_mem _ hx))
        (fun x hx => hlines x (List.mem_cons_of_mem _ hx))
        (show (h.map fun hf => nbPieces (fieldLine hf)).sum < left - nbPieces (fieldLine hf) by omega)
      have htext : (hf :: h).flatMap fieldWrite ++ 10 :: tail =
          fieldLine hf ++ 10 :: (h.flatMap fieldWrite ++ 10 :: tail) := by
        simp [fieldWrite_eq]
      rw [htext, headerReadLoop_line hline (hlines hf List.mem_cons_self) (by omega), hrest]
      simp [fieldWrite_eq, Nat.add_comm, Nat.add_left_comm, Nat.add_assoc]

/-- Otherwise there are too many lines, or the text that is read stops inside of the header, on a field
without its end of line. -/
theorem headerReadLoop_fields_fail {h : Header} (hh : CanonicalHeader h) (tail : Bytes) {left : Nat}
    (hfail : ¬ ((∀ hf ∈ h, (fieldLine hf).length % MAX_HEADLINE_LENGTH ≠ 0) ∧
      (h.map fun hf => nbPieces (fieldLine hf)).sum < left)) :
    (headerReadLoop left (h.flatMap fieldWrite ++ 10 :: tail)).stop = .tooManyLines ∨
      (tail.length < (headerReadLoop left (h.flatMap fieldWrite ++ 10 :: tail)).rest.length ∧
        ∃ fs hf, fs ++ [hf] <+: h ∧ (headerReadLoop left (h.flatMap fieldWrite ++ 10 :: tail)).vb =
          fs.flatMap fieldWrite ++ fieldLine hf) := by
  induction h generalizing left with
  | nil =>
      obtain rfl : left = 0 := by
        by_contra hpos
        exact hfail ⟨by simp, by simp; omega⟩
      exact .inl (headerReadLoop_zero (s := []) (by simp [OneLine]))
  | cons hf h ih =>
      have hline := (hh hf List.mem_cons_self).cleanLine
      have htext : (hf :: h).flatMap fieldWrite ++ 10 :: tail =
          fieldLine hf ++ 10 :: (h.flatMap fieldWrite ++ 10 :: tail) := by
        simp [fieldWrite_eq]
      rw [htext]
      -- a line of this length is cut right at its end, and what follows reads as an empty line
      by_cases hmod : (fieldLine hf).length % MAX_HEADLINE_LENGTH = 0
      · rcases headerReadLoop_line_cut hline hmod left (h.flatMap fieldWrite ++ 10 :: tail) with
          hmany | ⟨hvb, hcut⟩
        · exact .inl hmany
        · refine .inr ⟨?_, [], hf, by simp, by simpa using hvb⟩
          rw [hcut, List.length_append, List.length_cons]
          omega
      · by_cases hleft : nbPieces (fieldLine hf) ≤ left
        · have hfail' : ¬ ((∀ x ∈ h, (fieldLine x).length % MAX_HEADLINE_LENGTH ≠ 0) ∧
              (h.map fun x => nbPieces (fieldLine x)).sum < left - nbPieces (fieldLine hf)) := by
            rintro ⟨hlines, hsum⟩
            refine hfail ⟨?_, ?_⟩
            · intro x hx
              rcases List.mem_cons.1 hx with rfl | hx
              · exact hmod
              · exact hlines x hx
            · rw [List.map_cons, List.sum_cons]
              omega
          rw [headerReadLoop_line hline hmod hleft]
          rcases ih (fun x hx => hh x (List.mem_cons_of_mem _ hx)) hfail' with
            hmany | ⟨hrest, fs, hf', hpre, hvb⟩
          · exact .inl hmany
          · refine .inr ⟨hrest, hf :: fs, hf', List.cons_prefix_cons.2 ⟨rfl, hpre⟩, ?_⟩
            simp [hvb, fieldWrite_eq]
        · exact .inl (headerReadLoop_line_short hline (by omega) hmod)

/-- With too many short fields the line that is one too many is read, and no more. -/
theorem headerReadLoop_many {h : Header} (hh : CanonicalHeader h) (hs : ShortHeader h) (tail : Bytes)
    {left : Nat} (hleft : left ≤ h.length) :
    (headerReadLoop left (h.flatMap fieldWrite ++ 10 :: tail)).stop = .tooManyLines ∧
      (headerReadLoop left (h.flatMap fieldWrite ++ 10 :: tail)).appended ≤ (h.flatMap fieldWrite).length + 1 ∧
      (headerReadLoop left (h.flatMap fieldWrite ++ 10 :: tail)).nbLines ≠ 0 := by
  induction h generalizing left with
  | nil =>
      obtain rfl : left = 0 := Nat.le_zero.1 hleft
      have hblank := @readLineLoop_line MAX_HEADLINE_LENGTH 0 [] tail (by simp [OneLine]) (by decide)
      rw [List.nil_append] at hblank
      rw [List.flatMap_nil, List.nil_append, headerReadLoop, varbufReadLine, hblank]
      exact ⟨rfl, le_rfl, Nat.one_ne_zero⟩
  | cons hf h ih =>
      have hline := (hh hf List.mem_cons_self).cleanLine
      have hpiece := (hs hf List.mem_cons_self).onePiece
      have htext : (hf :: h).flatMap fieldWrite ++ 10 :: tail =
          fieldLine hf ++ 10 :: (h.flatMap fieldWrite ++ 10 :: tail) := by
        simp [fieldWrite_eq]
      have hlen : ((hf :: h).flatMap fieldWrite).length = (fieldLine hf).length + 1 + (h.flatMap fieldWrite).length := by
        rw [List.flatMap_cons, List.length_append, fieldWrite_eq, List.length_append, List.length_singleton]
      rw [htext, hlen]
      cases left with
      | zero =>
          -- the line in excess is read before it is counted
          have hshort : (fieldLine hf).length < MAX_HEADLINE_LENGTH := by
            have hname := (hs hf List.mem_cons_self).name
            have hvalue := (hs hf List.mem_cons_self).value
            have hmax : MAX_HEADLINE_LENGTH = 10000 := rfl
            rw [length_fieldLine]
            omega
          have hread := @readLineLoop_line MAX_HEADLINE_LENGTH 0 (fieldLine hf)
            (h.flatMap fieldWrite ++ 10 :: tail) hline.line (by omega)
          rw [headerReadLoop, varbufReadLine, hread]
          refine ⟨rfl, ?_, Nat.one_ne_zero⟩
          simp only [Bool.false_eq_true, if_false, List.length_append, List.length_singleton]
          omega
      | succ left =>
          rw [List.length_cons] at hleft
          rcases ih (fun x hx => hh x (List.mem_cons_of_mem _ hx)) (fun x hx => hs x (List.mem_cons_of_mem _ hx))
            (show left ≤ h.length by omega) with ⟨hstop, happended, hlines⟩
          rw [headerReadLoop_line hline hpiece.1 (by omega), hpiece.2, Nat.add_sub_cancel]
          exact ⟨hstop, by simp only; omega, by simp only; omega⟩

section Read

variable [Host]

/-- Too many lines are refused, as long as they have room in the buffer. -/
theorem headerRead_headerWrite_many {h : Header} (hh : CanonicalHeader h) (hs : ShortHeader h)
    (hroom : InReadBuffer h) (hmany : MAX_HEADER_LINES ≤ h.length) (tail : Bytes) :
    ∃ str, (headerRead (headerWrite h ++ tail)).1 = .error (.push 0 str) := by
  rcases headerReadLoop_many hh hs tail hmany with ⟨hstop, happended, hlines⟩
  rw [InReadBuffer, headerWrite, List.length_append] at hroom
  have htext : headerWrite h ++ tail = h.flatMap fieldWrite ++ 10 :: tail := by
    simp [headerWrite, ascii, charByte]
  have hone : (ascii "\n").length = 1 := rfl
  have hfits : ¬ 10240 < (headerReadLoop MAX_HEADER_LINES (h.flatMap fieldWrite ++ 10 :: tail)).appended := by
    omega
  rw [htext, headerRead]
  simp only [if_neg hfits, if_neg hlines, if_pos hstop]
  exact ⟨_, rfl⟩

omit [Host] in
/-- Without an end of line, a value is not terminated. -/
theorem parseLoop_endOfValue_none {s : Bytes} (h : ∀ c ∈ s, iseol c = false) (remSpace : Bool) :
    parseLoop isEndOfValue remSpace s = none := by
  induction s generalizing remSpace with
  | nil => rfl
  | cons c s ih =>
      have hc := h c List.mem_cons_self
      have hrest := fun r => ih (fun d hd => h d (List.mem_cons_of_mem _ hd)) r
      have hgo : isEndOfValue (c :: s) = false := by
        cases s <;> simp [isEndOfValue, hc]
      simp [parseLoop, hgo, hrest]

theorem headerParse_fieldLine {hf : HeaderField} (h : CanonicalField hf) :
    ∃ e, headerParse (fieldLine hf) = .error e := by
  have htext : fieldLine hf = hf.name ++ 58 :: 32 :: hf.value := by simp [fieldLine, ascii, charByte]
  have hne : fieldLine hf ≠ [] := by simp [htext]
  have hname := parse_name h.name_clean h.name_no_colon (32 :: hf.value)
  rw [← htext] at hname
  rw [headerParse_step hne]
  by_cases hlong : 1000 < hf.name.length
  · rw [if_pos hlong] at hname
    simp only [parseField, hname]
    exact ⟨_, rfl⟩
  · rw [if_neg hlong] at hname
    obtain ⟨n, hn⟩ : ∃ n, hf.name.length = n + 1 := by
      have hpos : 0 < hf.name.length := List.length_pos_of_ne_nil (Clean.ne_nil h.name_clean.1)
      exact ⟨hf.name.length - 1, by omega⟩
    have hdrop : (fieldLine hf).drop (n + 2) = 32 :: hf.value := by
      have hlen : n + 2 = hf.name.length + 1 := by omega
      rw [htext, hlen, ← List.drop_drop, List.drop_left]
      rfl
    have hnone : parseLoop isEndOfValue true (32 :: hf.value) = none := by
      refine parseLoop_endOfValue_none (fun c hc => ?_) true
      rcases List.mem_cons.1 hc with rfl | hc
      · rfl
      · exact h.value_clean.not_iseol hc
    rcases parse_of_none hnone with ⟨e, he⟩
    rw [hn] at hname
    simp only [parseField, hname, hdrop, he]
    exact ⟨e, rfl⟩

theorem headerParse_fields_error {h : Header} (hh : CanonicalHeader h) {tail : Bytes}
    (htail : NoBlankHead tail) {e : Err} (hp : headerParse tail = .error e) :
    ∃ e', headerParse (h.flatMap fieldDump ++ tail) = .error e' := by
  induction h with
  | nil => exact ⟨e, by simpa using hp⟩
  | cons hf h ih =>
      have hrest : CanonicalHeader h := fun x hx => hh x (List.mem_cons_of_mem _ hx)
      have hblank : NoBlankHead (h.flatMap fieldDump ++ tail) := noBlankHead_fields hrest htail
      have hne : fieldDump hf ++ (h.flatMap fieldDump ++ tail) ≠ [] := by simp [fieldDump_ne_nil]
      have hfield := parseField_dump (hh hf List.mem_cons_self) hblank
      rcases ih hrest with ⟨e', he'⟩
      rw [List.flatMap_cons, List.append_assoc, headerParse_step hne, hfield]
      by_cases hshort : ShortField hf
      · simp only [if_pos hshort, List.drop_left, he']
        exact ⟨e', rfl⟩
      · simp only [if_neg hshort]
        exact ⟨overrun, rfl⟩

omit [Host] in
theorem headerWrite_append (h : Header) (tail : Bytes) :
    headerWrite h ++ tail = h.flatMap fieldWrite ++ 10 :: tail := by
  simp [headerWrite, ascii, charByte]

/-- A canonical header that is not received as it was sent is not received at all. -/
theorem headerRead_headerWrite_error {h : Header} (hh : CanonicalHeader h) (hnot : ¬ Receivable h)
    (tail : Bytes) : ∃ e, (headerRead (headerWrite h ++ tail)).1 = .error e := by
  have hsame : ∀ fs : Header, fs.flatMap fieldWrite = fs.flatMap fieldDump := fun _ => rfl
  rw [headerWrite_append]
  by_cases hlines : (∀ hf ∈ h, (fieldLine hf).length % MAX_HEADLINE_LENGTH ≠ 0) ∧
      (h.map fun hf => nbPieces (fieldLine hf)).sum < MAX_HEADER_LINES
  · -- the lines are read, but one of the two buffers is overrun
    have hloop := headerReadLoop_fields hh tail hlines.1 hlines.2
    by_cases hroom : (h.flatMap fieldWrite).length + 1 ≤ 10240
    · have hlong : ¬ ShortHeader h := fun hs =>
        hnot ⟨hs.pieces ▸ hlines.2, by rw [InReadBuffer, headerWrite, List.length_append]; exact hroom, hs⟩
      have hzero : (0 : UInt8) ∉ h.flatMap fieldWrite := fun h0 =>
        zero_not_mem_headerDump hh (List.mem_append_left _ h0)
      have hend : NoBlankHead [] := by simp [NoBlankHead]
      have hparse := headerParse_fields_overrun hh hlong hend
      rw [List.append_nil, ← hsame] at hparse
      have hstop : ¬ EndOfLines.blankLine = .tooManyLines := by decide
      refine ⟨overrun, ?_⟩
      simp only [headerRead, hloop, if_neg (Nat.not_lt.2 hroom), if_neg (Nat.succ_ne_zero _), if_neg hstop,
        cstr_of_not_mem hzero, hparse]
    · refine ⟨overrun, ?_⟩
      simp only [headerRead, hloop, if_pos (Nat.lt_of_not_le hroom)]
  rcases headerReadLoop_fields_fail hh tail hlines with hmany | ⟨-, fs, hf, hpre, hvb⟩
  · simp only [headerRead, hmany, if_true]
    split_ifs
    · exact ⟨_, rfl⟩
    · exact ⟨_, rfl⟩
    · exact ⟨_, rfl⟩
  · -- the last field has no end of line
    have hmem : ∀ x ∈ fs ++ [hf], x ∈ h := fun x hx => hpre.subset hx
    have hfs : CanonicalHeader fs := fun x hx => hh x (hmem x (List.mem_append_left _ hx))
    have hcf : CanonicalField hf := hh hf (hmem hf (by simp))
    have hzero : (0 : UInt8) ∉ fs.flatMap fieldWrite ++ fieldLine hf := by
      rw [List.mem_append, not_or]
      refine ⟨fun h0 => zero_not_mem_headerDump hfs (List.mem_append_left _ h0), ?_⟩
      exact hcf.cleanLine.line.2.2
    have hblank : NoBlankHead (fieldLine hf) := by
      have h1 := @noBlankHead_fields [hf] (fun x hx => List.mem_singleton.1 hx ▸ hcf) []
        (by simp [NoBlankHead])
      intro c hc
      refine h1 c ?_
      cases hn : fieldLine hf with
      | nil => simp [hn] at hc
      | cons d ds =>
          have hdump : fieldDump hf = fieldLine hf ++ [10] := rfl
          rw [hn] at hc hdump
          simpa [hdump] using hc
    rcases headerParse_fieldLine hcf with ⟨e, he⟩
    rcases headerParse_fields_error hfs hblank he with ⟨e', hparse⟩
    simp only [headerRead]
    split_ifs
    · exact ⟨_, rfl⟩
    · exact ⟨_, rfl⟩
    · exact ⟨_, rfl⟩
    · rw [hvb, cstr_of_not_mem hzero, hsame, hparse]
      exact ⟨e', rfl⟩

/-- A canonical header is read as it was written, whatever follows it, if and only if it is
receivable. -/
theorem headerRead_headerWrite_iff {h : Header} (hh : CanonicalHeader h) (tail : Bytes) :
    headerRead (headerWrite h ++ tail) = (.ok h, tail) ↔ Receivable h := by
  constructor
  · intro hread
    by_contra hnot
    rcases headerRead_headerWrite_error hh hnot tail with ⟨e, he⟩
    rw [hread] at he
    cases he
  · intro hok
    have hpieces : (h.map fun hf => nbPieces (fieldLine hf)).sum < MAX_HEADER_LINES :=
      hok.short.pieces.symm ▸ hok.lines
    have hloop := headerReadLoop_fields hh tail (fun hf hmem => (hok.short hf hmem).onePiece.1) hpieces
    have hroom : (h.flatMap fieldWrite).length + 1 ≤ 10240 := by
      have hlen := hok.room
      rw [InReadBuffer, headerWrite, List.length_append] at hlen
      exact hlen
    have hblank : NoBlankHead [] := by simp [NoBlankHead]
    have hparse := headerParse_fields_append hh hok.short hblank headerParse_nil
    have hzero : (0 : UInt8) ∉ h.flatMap fieldWrite := by
      intro h0
      exact zero_not_mem_headerDump hh (List.mem_append_left _ h0)
    have hsame : h.flatMap fieldWrite = h.flatMap fieldDump := rfl
    rw [List.append_nil, List.append_nil] at hparse
    rw [headerWrite_append]
    simp only [headerRead, hloop, if_neg (Nat.not_lt.2 hroom), cstr_of_not_mem hzero]
    rw [hsame, hparse]
    simp

end Read

end Scambio
