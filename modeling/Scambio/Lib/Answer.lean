import Scambio.Lib.CmdLines
import Scambio.Lib.Cnx

/-!
# Answer — what a query and its answer put on the connection (`lib/cnx.c`, `scambio/cmd.h`)

`mdir_cnx_query` starts its line with the number of the query, `mdir_cnx_answer` starts its own with
the same number, negated.  The answer is formatted into a buffer of fixed size, whose cells are modelled
one by one: those that no `snprintf` wrote are `none`.
-/

namespace Scambio

open Library

/-! ## The texts -/

/-- `mdir_cmd_seq2str`.  Its parameter `char buf[SEQ_BUF_LEN]` is a pointer: `sizeof(buf)` is the size of
a pointer, whatever SEQ_BUF_LEN is. -/
def mdirCmdSeq2str (ptrSize : Nat) (seq : Int) : Bytes :=
  (printInt seq).take (ptrSize - 1)

/-- The bytes that `mdir_cnx_query` writes for a query with this number (none without a sent query). -/
def queryText (ptrSize : Nat) (seq : Option Int) (kw : Bytes) (params : List Bytes)
    (h : Option Header) : Bytes :=
  (seq.map fun n => mdirCmdSeq2str ptrSize n ++ [32]).getD [] ++
    (kw ++ params.flatMap (fun param => 32 :: param) ++ [10] ++ (h.map headerDump).getD [])

def REPLY_SIZE : Nat := 512

/-- `snprintf(cells + off, size, ...)`: the text is cut to leave room for the NUL. -/
def snprintfAt (cells : List (Option UInt8)) (off size : Nat) (text : Bytes) : List (Option UInt8) :=
  if size = 0 then cells
  else
    let stored := text.take (size - 1) ++ [0]
    cells.take off ++ stored.map some ++ cells.drop (off + stored.length)

/-- `Write(cnx->fd, reply, len)`. -/
structure AnswerWrite where
  reply : List (Option UInt8)
  len : Nat
  deriving DecidableEq, Repr

/-- The number that starts an answer. -/
def answerHead (seq : Int) : Bytes :=
  45 :: printInt seq ++ [32]

/-- What follows it. -/
def answerBody (keyword : Bytes) (status : Int) (compl : Bytes) : Bytes :=
  keyword ++ [32] ++ printInt status ++ [32] ++ compl ++ [10]

/-- `mdir_cnx_answer`, on a connection that is open. -/
def mdirCnxAnswer (stx : CmdSyntax) (cmd : Cmd) (status : Int) (compl : Bytes) :
    Except Err (Option AnswerWrite) :=
  let reply := List.replicate REPLY_SIZE none
  let body := answerBody cmd.cmdDef.keyword status compl
  if cmd.seq ≠ 0 then
    if 0 < cmd.seq then
      let head := answerHead cmd.seq
      let reply := snprintfAt reply 0 REPLY_SIZE head
      .ok (some { reply := snprintfAt reply head.length (REPLY_SIZE - head.length) body
                  len := head.length + body.length })
    else .error (.abort (ascii "cmd->seq > 0"))
  else if stx.noAnswerIfNoSeqnum then .ok none
  else .ok (some { reply := snprintfAt reply 0 REPLY_SIZE body, len := body.length })

/-- The bytes `b` can be what the peer gets: the cells that are initialised, and anything where the
buffer is not or where it ends. -/
def AnswerWrite.Sent (w : AnswerWrite) (b : Bytes) : Prop :=
  b.length = w.len ∧ ∀ i x, i < w.len → w.reply[i]? = some (some x) → b[i]? = some x

/-! ## The buffer -/

theorem length_answerHead {seq : Int} (hpos : 0 < seq) (hmax : seq < 2 ^ 63) :
    (answerHead seq).length ≤ 22 := by
  have hlen := length_printInt (by omega : -2 ^ 63 ≤ seq) hmax
  rw [answerHead, List.length_append, List.length_cons, List.length_singleton]
  omega

/-- The buffer holds the beginning of the text and a NUL. -/
theorem mdirCnxAnswer_reply (stx : CmdSyntax) {cmd : Cmd} (status : Int) (compl : Bytes)
    (hpos : 0 < cmd.seq) (hmax : cmd.seq < 2 ^ 63) :
    ∃ w rest, mdirCnxAnswer stx cmd status compl = .ok (some w) ∧
      w.len = (answerHead cmd.seq ++ answerBody cmd.cmdDef.keyword status compl).length ∧
      w.reply = ((answerHead cmd.seq ++ answerBody cmd.cmdDef.keyword status compl).take
        (REPLY_SIZE - 1) ++ [0]).map some ++ rest := by
  have hsize : REPLY_SIZE = 512 := rfl
  have hlen := length_answerHead hpos hmax
  have hne : cmd.seq ≠ 0 := by omega
  have hroom : ¬ REPLY_SIZE - (answerHead cmd.seq).length = 0 := by omega
  have hhead : (answerHead cmd.seq).take (REPLY_SIZE - 1) = answerHead cmd.seq :=
    List.take_of_length_le (by omega)
  have hfirst : ∃ rest, snprintfAt (List.replicate REPLY_SIZE none) 0 REPLY_SIZE (answerHead cmd.seq) =
      (answerHead cmd.seq).map some ++ rest := by
    rw [snprintfAt, if_neg (by decide), hhead]
    simp only [List.take_zero, List.nil_append, List.map_append, List.append_assoc]
    exact ⟨_, rfl⟩
  rcases hfirst with ⟨rest, hfirst⟩
  -- the second call starts where the first one has put its NUL
  have hsecond : ∃ rest', snprintfAt ((answerHead cmd.seq).map some ++ rest) (answerHead cmd.seq).length
      (REPLY_SIZE - (answerHead cmd.seq).length) (answerBody cmd.cmdDef.keyword status compl) =
      ((answerHead cmd.seq ++ answerBody cmd.cmdDef.keyword status compl).take (REPLY_SIZE - 1) ++
        [0]).map some ++ rest' := by
    have hsub : REPLY_SIZE - (answerHead cmd.seq).length - 1 =
        REPLY_SIZE - 1 - (answerHead cmd.seq).length := by omega
    have htake : ((answerHead cmd.seq).map some ++ rest).take (answerHead cmd.seq).length =
        (answerHead cmd.seq).map some := List.take_left' (by simp)
    simp only [snprintfAt, hroom, if_false, htake, hsub, List.take_append, hhead]
    rw [← List.map_append, List.append_assoc (answerHead cmd.seq)]
    exact ⟨_, rfl⟩
  rcases hsecond with ⟨rest', hsecond⟩
  simp only [mdirCnxAnswer, hne, ne_eq, not_false_eq_true, if_true, hpos, hfirst, hsecond]
  exact ⟨_, rest', rfl, List.length_append.symm, rfl⟩

/-- A text that leaves room for the NUL is written as it is. -/
theorem mdirCnxAnswer_short (stx : CmdSyntax) {cmd : Cmd} {status : Int} {compl : Bytes}
    (hpos : 0 < cmd.seq) (hmax : cmd.seq < 2 ^ 63)
    (hshort : (answerHead cmd.seq ++ answerBody cmd.cmdDef.keyword status compl).length < REPLY_SIZE) :
    ∃ w, mdirCnxAnswer stx cmd status compl = .ok (some w) ∧
      w.len = (answerHead cmd.seq ++ answerBody cmd.cmdDef.keyword status compl).length ∧
      w.reply.take w.len = (answerHead cmd.seq ++ answerBody cmd.cmdDef.keyword status compl).map some := by
  rcases mdirCnxAnswer_reply stx status compl hpos hmax with ⟨w, rest, hw, hlen, hreply⟩
  refine ⟨w, hw, hlen, ?_⟩
  generalize answerHead cmd.seq ++ answerBody cmd.cmdDef.keyword status compl = text at hshort hlen hreply
  have htext : text.take (REPLY_SIZE - 1) = text := List.take_of_length_le (by omega)
  rw [hreply, hlen, htext, List.map_append, List.append_assoc]
  exact List.take_left' (List.length_map _)

theorem sent_of_take {w : AnswerWrite} {b : Bytes} (hlen : w.len = b.length)
    (htake : w.reply.take w.len = b.map some) : w.Sent b := by
  refine ⟨hlen.symm, fun i x hi hx => ?_⟩
  have h : (w.reply.take w.len)[i]? = some (some x) := by
    rw [List.getElem?_take_of_lt hi, hx]
  rw [htake, List.getElem?_map] at h
  simpa using h

/-- Whatever is sent starts with the number. -/
theorem AnswerWrite.Sent.head {w : AnswerWrite} {b head body : Bytes} {rest : List (Option UInt8)}
    (h : w.Sent b) (hlen : w.len = (head ++ body).length) (hshort : head.length < REPLY_SIZE)
    (hreply : w.reply = ((head ++ body).take (REPLY_SIZE - 1) ++ [0]).map some ++ rest) :
    ∃ b', b = head ++ b' := by
  refine ⟨b.drop head.length, ?_⟩
  have htake : b.take head.length = head := by
    apply List.ext_getElem?
    intro i
    by_cases hi : i < head.length
    · rw [List.getElem?_take_of_lt hi, List.getElem?_eq_getElem hi]
      apply h.2 i
      · rw [hlen, List.length_append]
        omega
      · have hin : i < ((head ++ body).take (REPLY_SIZE - 1)).length := by
          rw [List.length_take, List.length_append]
          omega
        rw [hreply, List.getElem?_append_left (by simp; omega), List.getElem?_map,
          List.getElem?_append_left hin, List.getElem?_take_of_lt (by omega),
          List.getElem?_append_left hi, List.getElem?_eq_getElem hi]
        rfl
    · rw [List.getElem?_eq_none (by rw [List.length_take]; omega), List.getElem?_eq_none (by omega)]
  calc
    b = b.take head.length ++ b.drop head.length := (List.take_append_drop _ _).symm
    _ = head ++ b.drop head.length := by rw [htake]

/-! ## The number at the head of a line -/

/-- The bytes at the head of a line are read as they are. -/
theorem readLineLoop_append {maxlen n : Nat} {w rest : Bytes} (hw : ∀ c ∈ w, isDelimiter c = false)
    (hlen : n + w.length ≤ maxlen) :
    readLineLoop maxlen n false (w ++ rest) =
      { readLineLoop maxlen (n + w.length) false rest with
        line := w ++ (readLineLoop maxlen (n + w.length) false rest).line } := by
  induction w generalizing n with
  | nil => simp
  | cons c w ih =>
      rw [List.length_cons] at hlen
      have hc := hw c List.mem_cons_self
      have hc10 : c ≠ 10 := by
        rintro rfl
        exact absurd hc (by decide)
      have hc13 : c ≠ 13 := by
        rintro rfl
        exact absurd hc (by decide)
      have hnext := @ih (n + 1) (fun d hd => hw d (List.mem_cons_of_mem _ hd)) (by omega)
      have hn : n < maxlen := by omega
      have hsum : n + 1 + w.length = n + (w.length + 1) := by omega
      rw [hsum] at hnext
      simp [readLineLoop, hn, hc10, hc13, hnext]

/-- A command that starts with a number has this number. -/
theorem seq_of_mdirCmdRead {stx : CmdSyntax} {w rest : Bytes} {cmd : Cmd} (hne : w ≠ [])
    (hw : ∀ c ∈ w, isDelimiter c = false) (hlen : w.length < MAX_CMD_LINE) (hseq : isSeq w = true)
    (h : (mdirCmdRead stx (w ++ 32 :: rest)).parse.result = .ok cmd) :
    (strtoll w).2 = [] ∧
      cmd.seq = if (strtoll w).1 < 0 then negateSeq (strtoll w).1 else (strtoll w).1 := by
  have hread : ∃ line, (varbufReadLine MAX_CMD_LINE (w ++ 32 :: rest)).line = w ++ 32 :: line := by
    rw [varbufReadLine, readLineLoop_append hw (by omega), readLineLoop]
    simp [hlen]
  rcases hread with ⟨line, hline⟩
  have htoks := lineToks_word hne hw (show isDelimiter 32 = true by decide) line
  rw [mdirCmdRead, parseLine] at h
  simp only [hline] at h
  split at h
  · cases h
  · by_cases hfew : (lineToks (w ++ 32 :: line)).length < CMD_MAX_ARGS
    · rw [parseTokens_tokenize _ hfew, htoks] at h
      unfold parseToks at h
      simp only [hseq, if_true] at h
      cases hargs : lineToks line with
      | nil =>
          rw [hargs] at h
          cases h
      | cons k args =>
          rw [hargs] at h
          simp only at h
          by_cases hstop : (strtoll w).2 = []
          · rw [readSeq_ok hstop] at h
            exact ⟨hstop, (dispatch_ok h).2.2⟩
          · rcases readSeq_error hstop with ⟨e, he⟩
            rw [he] at h
            cases h
    · -- too many tokens: the number makes `parse_line` refuse the line
      have hge : CMD_MAX_ARGS ≤ (lineToks (w ++ 32 :: line)).length := by omega
      have hfirst : words isDelimiter (w ++ 32 :: line) = w :: (lineToks line).map Tok.word :=
        congrArg (List.map Tok.word) htoks
      rcases (parseTokens_of_tooMany stx.defs hge).1 ⟨w, by rw [hfirst]; rfl, hseq⟩ with ⟨str, hstr⟩
      rw [hstr] at h
      cases h

end Scambio
