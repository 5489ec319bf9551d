import Scambio.Lib.AnswerLines

/-!
# CmdWords — a line of words is read back word by word

Most of the lines that scambio writes are words with one space between them: `mdir_cmd_read` gets these
words back as the tokens of the line, and leaves what follows the line on the connection.
-/

namespace Scambio

open Library

/-- The tokens of a line of words. -/
def wordToks : List Bytes → List (Tok UInt8)
  | [] => []
  | [w] => [⟨[], w, 10⟩]
  | w :: ws => ⟨[], w, 32⟩ :: wordToks ws

@[simp] theorem length_wordToks (ws : List Bytes) : (wordToks ws).length = ws.length := by
  induction ws with
  | nil => rfl
  | cons w ws ih =>
      cases ws with
      | nil => rfl
      | cons v ws => simpa [wordToks] using ih

theorem joinWords_cons {w : Bytes} {ws : List Bytes} (hne : ws ≠ []) :
    joinWords (w :: ws) = w ++ 32 :: joinWords ws := by
  cases ws with
  | nil => exact absurd rfl hne
  | cons v ws => simp [joinWords]

section Line

variable {ws : List Bytes} (hws : ∀ w ∈ ws, IsWord w)

include hws

/-- Nothing in the line but its spaces is a delimiter. -/
theorem not_mem_joinWords {c : UInt8} (hc : isDelimiter c = true) (hne : c ≠ 32) : c ∉ joinWords ws := by
  induction ws with
  | nil => simp [joinWords]
  | cons w ws ih =>
      have hw := not_mem_of_word (hws w List.mem_cons_self).2 hc
      by_cases hnil : ws = []
      · simpa [hnil, joinWords] using hw
      · have hrest := ih fun v hv => hws v (List.mem_cons_of_mem _ hv)
        rw [joinWords_cons hnil]
        simp [hw, hne, hrest]

theorem lineToks_joinWords (hne : ws ≠ []) : lineToks (joinWords ws ++ [10]) = wordToks ws := by
  induction ws with
  | nil => exact absurd rfl hne
  | cons w ws ih =>
      have hw := hws w List.mem_cons_self
      cases ws with
      | nil =>
          rw [joinWords_singleton, lineToks_word hw.1 hw.2 (by decide)]
          rfl
      | cons v ws =>
          have hrest := ih (fun u hu => hws u (List.mem_cons_of_mem _ hu)) (List.cons_ne_nil _ _)
          rw [joinWords_cons (List.cons_ne_nil _ _), List.append_assoc, List.cons_append,
            lineToks_word hw.1 hw.2 (by decide), hrest]
          rfl

/-- The reader gets the words of a line that fits. -/
theorem mdirCmdRead_words (stx : CmdSyntax) (hne : ws ≠ []) (hlen : (joinWords ws).length < MAX_CMD_LINE)
    (hfew : ws.length < CMD_MAX_ARGS) (rest : Bytes) :
    mdirCmdRead stx (joinWords ws ++ 10 :: rest) =
      { rest := rest, inBlock := decide ((joinWords ws ++ [10]).length ≤ 1024),
        parse := parseToks stx.defs (wordToks ws) } := by
  have hpass : passCR false (joinWords ws) = joinWords ws := by
    have h := passCR_append (not_mem_joinWords hws (show isDelimiter 13 = true by decide) (by decide)) []
    rw [List.append_nil, passCR, List.append_nil] at h
    exact h
  have hread : varbufReadLine MAX_CMD_LINE (joinWords ws ++ 10 :: rest) =
      { line := joinWords ws ++ [10], rest := rest, eof := false } := by
    have h := @readLineLoop_fit MAX_CMD_LINE 0 false (joinWords ws) rest
      (not_mem_joinWords hws (by decide) (by decide)) (by simpa [hpass] using hlen)
    rw [hpass] at h
    exact h
  have htoks := lineToks_joinWords hws hne
  have hcount : (lineToks (joinWords ws ++ [10])).length < CMD_MAX_ARGS := by
    rw [htoks, length_wordToks]
    exact hfew
  rw [mdirCmdRead, parseLine, hread]
  simp only [Bool.false_eq_true, if_false]
  rw [parseTokens_tokenize _ hcount, htoks]

end Line

end Scambio
