import Scambio.Lib.AnswerLines
import Scambio.Smtpd.Parse

/-!
# MailLines — a mail that is sent line by line (`smtpd/parse.c`)

* `MailLine`, `TextLine` : lines that the server keeps as they are, and that are not taken for a delimiter;
* `readWholeMail_lines`  : such lines are read up to the dot, whatever the client sends next, if the buffer of the mail
  has room for them and for the dot.
-/

namespace Scambio

open Library

/-! ## Lines -/

/-- A line that the server neither cuts nor takes for the end of the message. -/
structure MailLine (l : Bytes) : Prop where
  chars : ∀ c ∈ l, iseol c = false ∧ c ≠ 0
  no_dot : l.head? ≠ some 46
  fits : l.length < MAX_MAILLINE_LENGTH

/-- A line that does not look like a delimiter either. -/
structure TextLine (l : Bytes) : Prop extends MailLine l where
  no_dash : l.head? ≠ some 45

/-- Lines as they are sent. -/
def crlfLines (lines : List Bytes) : Bytes :=
  (lines.map (· ++ ascii "\r\n")).flatten

@[simp] theorem crlfLines_nil : crlfLines [] = [] := rfl

@[simp] theorem crlfLines_cons (l : Bytes) (lines : List Bytes) :
    crlfLines (l :: lines) = l ++ ascii "\r\n" ++ crlfLines lines := rfl

theorem length_le_crlfLines (lines : List Bytes) : lines.length ≤ (crlfLines lines).length := by
  induction lines with
  | nil => exact Nat.zero_le _
  | cons l lines ih =>
      have htwo : (ascii "\r\n").length = 2 := rfl
      rw [crlfLines_cons, List.length_append, List.length_append, List.length_cons]
      omega

/-- Lines once they are read. -/
def lfLines (lines : List Bytes) : Bytes :=
  (lines.map (· ++ [10])).flatten

@[simp] theorem lfLines_nil : lfLines [] = [] := rfl

@[simp] theorem lfLines_cons (l : Bytes) (lines : List Bytes) : lfLines (l :: lines) = l ++ 10 :: lfLines lines := by
  simp [lfLines]

theorem lfLines_append (l l' : List Bytes) : lfLines (l ++ l') = lfLines l ++ lfLines l' := by
  simp [lfLines]

theorem crlfLines_append (l l' : List Bytes) : crlfLines (l ++ l') = crlfLines l ++ crlfLines l' := by
  simp [crlfLines]

theorem MailLine.not_mem {l : Bytes} (h : MailLine l) : (13 : UInt8) ∉ l ∧ (10 : UInt8) ∉ l := by
  constructor <;> exact fun hmem => absurd (h.chars _ hmem).1 (by decide)

/-! ## Reading -/

/-- The end of line that is read is the newline alone. -/
theorem varbufReadLine_mail {l : Bytes} (h : MailLine l) (rest : Bytes) :
    varbufReadLine MAX_MAILLINE_LENGTH (l ++ ascii "\r\n" ++ rest) = { line := l ++ [10], rest := rest, eof := false } := by
  have hlf : (10 : UInt8) ∉ l ++ [13] := by
    simp [h.not_mem.2]
  have hpass : passCR false (l ++ [13]) = l := by
    rw [passCR_append h.not_mem.1]
    exact List.append_nil l
  have hsplit : l ++ ascii "\r\n" ++ rest = (l ++ [13]) ++ 10 :: rest := by
    rw [List.append_assoc, List.append_assoc]
    rfl
  have hfits : 0 + (passCR false (l ++ [13])).length < MAX_MAILLINE_LENGTH := by
    rw [hpass, Nat.zero_add]
    exact h.fits
  rw [varbufReadLine, hsplit, readLineLoop_fit hlf hfits, hpass]

theorem lineMatchDot_mail {l : Bytes} (h : MailLine l) : lineMatchDot (l ++ [10]) = false := by
  have hhead : (l ++ [10]).head? ≠ some 46 := by
    cases l with
    | nil => decide
    | cons c l => exact h.no_dot
  rw [lineMatchDot, beq_eq_false_iff_ne.2 hhead, Bool.false_and]

/-- The lines are kept one after the other, and the dot ends them. -/
theorem readWholeMailLoop_lines {lines : List Bytes} (h : ∀ l ∈ lines, MailLine l) {fuel : Nat}
    (hfuel : lines.length < fuel) (vb rest : Bytes) :
    readWholeMailLoop fuel vb (crlfLines lines ++ (ascii ".\r\n" ++ rest)) =
      if MAIL_ROOM < vb.length + (lfLines lines).length + 2 then .error .overrun
      else .ok (.ok (vb ++ lfLines lines)) := by
  induction lines generalizing fuel vb with
  | nil =>
      obtain ⟨fuel, rfl⟩ := Nat.exists_eq_succ_of_ne_zero (Nat.ne_of_gt hfuel)
      have hread : varbufReadLine MAX_MAILLINE_LENGTH (ascii ".\r\n" ++ rest) = ⟨ascii ".\n", rest, false⟩ := by
        have hlf : (10 : UInt8) ∉ ascii ".\r" := by decide
        exact readLineLoop_fit hlf (by decide)
      have hdot : lineMatchDot (ascii ".\n") = true := by decide
      have hlen : (ascii ".\n").length = 2 := rfl
      simp only [crlfLines_nil, List.nil_append, lfLines_nil, List.append_nil, List.length_nil, Nat.add_zero,
        readWholeMailLoop, hread, hdot, hlen, Bool.false_eq_true, if_false, if_true]
  | cons l lines ih =>
      obtain ⟨fuel, rfl⟩ := Nat.exists_eq_succ_of_ne_zero (Nat.ne_of_gt (Nat.lt_of_le_of_lt (Nat.zero_le _) hfuel))
      have hl : MailLine l := h l List.mem_cons_self
      have hrest := ih (fun l hl => h l (List.mem_cons_of_mem _ hl)) (Nat.lt_of_succ_lt_succ hfuel) (vb ++ (l ++ [10]))
      have hall : vb ++ (l ++ [10]) ++ lfLines lines = vb ++ lfLines (l :: lines) := by
        rw [lfLines_cons, List.append_assoc vb, List.append_assoc l, List.singleton_append]
      have hlen : vb.length + (l ++ [10]).length + (lfLines lines).length = vb.length + (lfLines (l :: lines)).length := by
        rw [← List.length_append, ← List.length_append, hall, List.length_append]
      rw [List.length_append, hlen, hall] at hrest
      rw [crlfLines_cons, List.append_assoc, readWholeMailLoop]
      simp only [varbufReadLine_mail hl, lineMatchDot_mail hl, Bool.false_eq_true, if_false, hrest]
      -- a line that has no room leaves none for the ones after it
      split
      · next hover => rw [if_pos (by omega)]
      · rfl

theorem readWholeMail_lines {lines : List Bytes} (h : ∀ l ∈ lines, MailLine l) (rest : Bytes) :
    readWholeMail (crlfLines lines ++ (ascii ".\r\n" ++ rest)) =
      if MAIL_ROOM < (lfLines lines).length + 2 then .error .overrun else .ok (.ok (lfLines lines)) := by
  have hfuel : lines.length < (crlfLines lines ++ (ascii ".\r\n" ++ rest)).length + 1 := by
    have hle := length_le_crlfLines lines
    rw [List.length_append]
    omega
  have hread := readWholeMailLoop_lines h hfuel [] rest
  rw [List.length_nil, Nat.zero_add] at hread
  exact hread

/-- Returns are not kept. -/
theorem filter_crlfLines {lines : List Bytes} (h : ∀ l ∈ lines, MailLine l) :
    (crlfLines lines).filter (· != 13) = lfLines lines := by
  induction lines with
  | nil => rfl
  | cons l lines ih =>
      have hl : l.filter (· != 13) = l := by
        rw [List.filter_eq_self]
        intro c hc
        exact bne_iff_ne.2 fun heq => (h l List.mem_cons_self).not_mem.1 (heq ▸ hc)
      rw [crlfLines_cons, List.filter_append, List.filter_append, hl,
        ih fun l hl => h l (List.mem_cons_of_mem _ hl), lfLines_cons, List.append_assoc]
      rfl

theorem zero_not_mem_lfLines {lines : List Bytes} (h : ∀ l ∈ lines, MailLine l) : (0 : UInt8) ∉ lfLines lines := by
  intro hmem
  rcases List.mem_flatten.1 hmem with ⟨x, hx, hmem⟩
  rcases List.mem_map.1 hx with ⟨l, hl, rfl⟩
  rcases List.mem_append.1 hmem with hmem | hmem
  · exact ((h l hl).chars 0 hmem).2 rfl
  · exact absurd hmem (by decide)

/-- No line of them starts with a dash. -/
theorem not_dash_infix {lines : List Bytes} (h : ∀ l ∈ lines, TextLine l) : ¬ [10, 45] <:+: lfLines lines := by
  induction lines with
  | nil => decide
  | cons l lines ih =>
      have hl := (h l List.mem_cons_self).not_mem.2
      have hrest := ih fun l hl => h l (List.mem_cons_of_mem _ hl)
      rw [lfLines_cons]
      intro hinfix
      rcases infix_append_of_head (by decide) hinfix with hin | hin
      · exact hl (hin.subset List.mem_cons_self)
      rcases List.infix_cons_iff.1 hin with hpfx | hin
      · -- the line behind this end of line would start with the dash
        have hdash := (List.cons_prefix_cons.1 hpfx).2
        cases lines with
        | nil => simp at hdash
        | cons l' lines =>
            have hl' := (h l' (by simp)).no_dash
            rw [lfLines_cons] at hdash
            cases l' with
            | nil => exact absurd (List.cons_prefix_cons.1 hdash).1 (by decide)
            | cons c l' => exact hl' (congrArg some (List.cons_prefix_cons.1 hdash).1.symm)
      · exact hrest hin

end Scambio
