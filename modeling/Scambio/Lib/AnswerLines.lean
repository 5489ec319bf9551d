import Scambio.Lib.Seqnums

/-!
# AnswerLines — which answers the client gets back as they were given

The complement of an answer is free text.  It comes back only if

- the whole line fits in the buffer of `mdir_cnx_answer`, with its NUL;
- it is made of words separated by one space, since the client cuts the line and glues the words back;
- the line has less than CMD_MAX_ARGS tokens, that is the complement at most sixty words.

Nothing else is needed (`answer_lossless_iff`).
-/

namespace Scambio

open Library

/-! ## Words glued back -/

/-- A word in front of a clean text. -/
theorem clean_word_append {w : Bytes} (hne : w ≠ []) (hw : ∀ c ∈ w, isDelimiter c = false)
    (after : Bool) (l : Bytes) :
    Clean isDelimiter 32 after (w ++ l) = Clean isDelimiter 32 false l := by
  induction w generalizing after with
  | nil => exact absurd rfl hne
  | cons c w ih =>
      have hc := hw c List.mem_cons_self
      rw [List.cons_append, Clean, hc]
      simp only [Bool.false_eq_true, if_false]
      by_cases hnil : w = []
      · rw [hnil, List.nil_append]
      · exact ih hnil (fun d hd => hw d (List.mem_cons_of_mem _ hd)) false

theorem clean_gluedRest {ts : List (Tok UInt8)} (hts : ∀ t ∈ ts, t.Ok isDelimiter) :
    Clean isDelimiter 32 false (gluedRest ts) = true := by
  induction ts with
  | nil => rfl
  | cons t ts ih =>
      have ht := hts t List.mem_cons_self
      have hnext := ih fun u hu => hts u (List.mem_cons_of_mem _ hu)
      rw [gluedRest]
      split
      · have hword := clean_word_append ht.ne_nil ht.word true (gluedRest ts)
        rw [hnext] at hword
        simpa [Clean, isDelimiter] using hword
      · rfl

/-- What the client makes of several words is always clean. -/
theorem clean_glued {ts : List (Tok UInt8)} (hne : ts ≠ []) (hts : ∀ t ∈ ts, t.Ok isDelimiter) :
    Clean isDelimiter 32 true (glued ts) = true := by
  cases ts with
  | nil => exact absurd rfl hne
  | cons t ts =>
      have ht := hts t List.mem_cons_self
      rw [glued, clean_word_append ht.ne_nil ht.word]
      exact clean_gluedRest fun u hu => hts u (List.mem_cons_of_mem _ hu)

theorem head_gap_toksFrom {gap word l : Bytes} (hne : word ≠ []) {t : Tok UInt8} {ts : List (Tok UInt8)}
    (h : toksFrom isDelimiter gap word l = t :: ts) : t.gap = gap := by
  induction l generalizing word with
  | nil => cases h
  | cons c l ih =>
      by_cases hc : isDelimiter c = true
      · rw [toksFrom_stop hc hne] at h
        cases h
        rfl
      · rw [toksFrom_word (by simpa using hc)] at h
        exact ih (by simp) h

/-- A clean text is glued back as it was.  The flag of `Clean` tells whether a word has begun. -/
theorem glued_toksFrom {word l : Bytes} (h : Clean isDelimiter 32 word.isEmpty l = true) :
    glued (toksFrom isDelimiter [] word (l ++ [10])) = word ++ l := by
  induction l generalizing word with
  | nil =>
      have hne : word ≠ [] := by
        rintro rfl
        cases h
      rw [List.nil_append, toksFrom_stop (by decide) hne]
      simp [toks, toksFrom, glued, gluedRest]
  | cons c l ih =>
      rw [Clean] at h
      by_cases hc : isDelimiter c = true
      · simp only [hc, if_true, Bool.and_eq_true, decide_eq_true_eq, Bool.not_eq_true'] at h
        rcases h with ⟨⟨rfl, hword⟩, hl⟩
        have hne : word ≠ [] := by
          rintro rfl
          cases hword
        have hnext := @ih [] hl
        rw [List.cons_append, toksFrom_stop hc hne, glued, toks]
        -- the next token comes right after the space
        cases l with
        | nil => cases hl
        | cons d l =>
            have hd : isDelimiter d = false := Clean.head hl
            cases hts : toksFrom isDelimiter [] [] (d :: l ++ [10]) with
            | nil =>
                rw [hts] at hnext
                cases hnext
            | cons t ts =>
                have hgap : t.gap = [] := by
                  rw [List.cons_append, toksFrom_word hd] at hts
                  exact head_gap_toksFrom (by simp) hts
                rw [hts, glued, List.nil_append] at hnext
                rw [gluedRest, if_pos hgap, List.cons_append, hnext]
      · have hc' : isDelimiter c = false := by simpa using hc
        simp only [hc', Bool.false_eq_true, if_false] at h
        have hbegun : (word ++ [c]).isEmpty = false := by
          cases word <;> rfl
        rw [List.cons_append, toksFrom_word hc', ih (by rw [hbegun]; exact h)]
        simp

theorem glued_lineToks {l : Bytes} (h : Clean isDelimiter 32 true l = true) :
    glued (lineToks (l ++ [10])) = l :=
  @glued_toksFrom [] l h

/-! ## The line of an answer -/

/-- The line that an answer should be, without its end. -/
def answerLine (cmd : Cmd) (status : Int) (compl : Bytes) : Bytes :=
  (45 :: printInt cmd.seq) ++ 32 :: (cmd.cmdDef.keyword ++ 32 :: (printInt status ++ 32 :: compl))

theorem answerLine_eq (cmd : Cmd) (status : Int) (compl : Bytes) :
    answerHead cmd.seq ++ answerBody cmd.cmdDef.keyword status compl = answerLine cmd status compl ++ [10] := by
  simp [answerLine, answerHead, answerBody]

theorem printInt_not_isDelimiter {v : Int} {c : UInt8} (h : c ∈ printInt v) : isDelimiter c = false := by
  unfold printInt at h
  split at h
  · rcases List.mem_cons.1 h with rfl | h
    · decide
    · exact isDigit_not_isDelimiter (isDigit_of_mem_decimal h)
  · exact isDigit_not_isDelimiter (isDigit_of_mem_decimal h)

theorem printInt_ne_nil (v : Int) : printInt v ≠ [] := by
  unfold printInt
  split
  · simp
  · exact decimal_ne_nil _

theorem passCR_append {p : Bytes} (hp : (13 : UInt8) ∉ p) (s : Bytes) :
    passCR false (p ++ s) = p ++ passCR false s := by
  induction p with
  | nil => rfl
  | cons c p ih =>
      have hc : c ≠ 13 := fun he => hp (he ▸ List.mem_cons_self)
      have hp' : (13 : UInt8) ∉ p := fun h => hp (List.mem_cons_of_mem _ h)
      rw [List.cons_append, passCR, if_neg hc, ih hp']
      rfl

theorem length_passCR (wasCR : Bool) (s : Bytes) :
    (passCR wasCR s).length ≤ s.length + if wasCR then 1 else 0 := by
  induction s generalizing wasCR with
  | nil => simp [passCR]
  | cons c s ih =>
      rw [passCR, List.length_cons]
      split
      · have h := ih true
        simp only [if_true] at h
        omega
      · have h := ih false
        simp only [Bool.false_eq_true, if_false] at h
        split
        · simp only [List.length_cons]
          omega
        · simp only [List.length_cons]
          omega

theorem not_mem_of_word {w : Bytes} (hw : ∀ c ∈ w, isDelimiter c = false) {c : UInt8}
    (hc : isDelimiter c = true) : c ∉ w := by
  intro hmem
  rw [hw c hmem] at hc
  cases hc

section AnswerLine

variable {cmd : Cmd} {status : Int}

/-- The keyword of a definition, as a word. -/
def IsWord (w : Bytes) : Prop :=
  w ≠ [] ∧ ∀ c ∈ w, isDelimiter c = false

theorem isWord_printInt (v : Int) : IsWord (printInt v) :=
  ⟨printInt_ne_nil v, fun _ hc => printInt_not_isDelimiter hc⟩

/-- Only the complement can have characters that the reader changes. -/
theorem passCR_answerLine (hkw : IsWord cmd.cmdDef.keyword) (compl : Bytes) :
    passCR false (answerLine cmd status compl) = answerLine cmd status (passCR false compl) := by
  have hcr : ∀ {w : Bytes}, (∀ c ∈ w, isDelimiter c = false) → (13 : UInt8) ∉ w :=
    fun hw => not_mem_of_word hw (by decide)
  have hpfx : (13 : UInt8) ∉ (45 :: printInt cmd.seq) ++ 32 :: (cmd.cmdDef.keyword ++
      32 :: (printInt status ++ [32])) := by
    have h1 := hcr fun c (hc : c ∈ printInt cmd.seq) => printInt_not_isDelimiter hc
    have h2 := hcr hkw.2
    have h3 := hcr fun c (hc : c ∈ printInt status) => printInt_not_isDelimiter hc
    simp [h1, h2, h3]
  have hline : ∀ s, answerLine cmd status s = ((45 :: printInt cmd.seq) ++ 32 :: (cmd.cmdDef.keyword ++
      32 :: (printInt status ++ [32]))) ++ s := by
    intro s
    simp [answerLine]
  rw [hline, hline, passCR_append hpfx]

theorem lineToks_answerLine (hkw : IsWord cmd.cmdDef.keyword) (status : Int) (compl : Bytes) :
    lineToks (answerLine cmd status compl ++ [10]) =
      ⟨[], 45 :: printInt cmd.seq, 32⟩ :: ⟨[], cmd.cmdDef.keyword, 32⟩ :: ⟨[], printInt status, 32⟩ ::
        lineToks (compl ++ [10]) := by
  have hseq : IsWord (45 :: printInt cmd.seq) := by
    refine ⟨by simp, fun c hc => ?_⟩
    rcases List.mem_cons.1 hc with rfl | hc
    · decide
    · exact printInt_not_isDelimiter hc
  have hstatus := isWord_printInt status
  have hsp : isDelimiter 32 = true := by decide
  have hsplit : answerLine cmd status compl ++ [10] = (45 :: printInt cmd.seq) ++ 32 ::
      (cmd.cmdDef.keyword ++ 32 :: (printInt status ++ 32 :: (compl ++ [10]))) := by
    simp [answerLine]
  rw [hsplit, lineToks_word hseq.1 hseq.2 hsp, lineToks_word hkw.1 hkw.2 hsp,
    lineToks_word hstatus.1 hstatus.2 hsp]

/-- The arguments of an answer: its status, and all the other words in one string. -/
theorem buildToks_answer (keyword : Bytes) {t : Tok UInt8} (ht : strtoll t.word = (status, []))
    (us : List (Tok UInt8)) :
    buildToks (answRegister keyword) (t :: us) =
      .ok (.integer status :: if us = [] then [] else [.string (glued us)]) := by
  have hstatus : transcodeArg true t.word = .ok (.integer status) := by
    simp [transcodeArg, ht]
  have hint : (answRegister keyword).isInteger 0 = .ok true := rfl
  have hboth : ∀ s, convert (answRegister keyword) 0 [t.word, s] =
      .ok [.integer status, .string s] := by
    intro s
    have hstr : (answRegister keyword).isInteger 1 = .ok false := rfl
    have hstring : transcodeArg false s = .ok (.string s) := rfl
    simp [convert, hint, hstr, hstatus, hstring, bind, Except.bind]
  have hmin : ¬ (t :: us).length < (answRegister keyword).nbArgMin := by
    simp [answRegister]
  rw [buildToks, if_neg hmin]
  cases us with
  | nil =>
      have hsw : swallows (answRegister keyword) 1 = .ok false := rfl
      simp [hsw, argTexts, convert, hint, hstatus, bind, Except.bind]
  | cons u us =>
      cases us with
      | nil =>
          have hsw : swallows (answRegister keyword) 2 = .ok false := rfl
          have htexts : argTexts (answRegister keyword) false [t, u] = [t.word, glued [u]] := by
            simp [argTexts, glued, gluedRest]
          simp only [List.length_cons, List.length_nil, hsw, bind, Except.bind, htexts, hboth]
          rfl
      | cons v us =>
          have hsw : swallows (answRegister keyword) (t :: u :: v :: us).length = .ok true := by
            have hlt : (answRegister keyword).nbArgMax < (t :: u :: v :: us).length := by
              simp [answRegister]
            rw [swallows, if_pos hlt]
            rfl
          have htexts : argTexts (answRegister keyword) true (t :: u :: v :: us) =
              [t.word, glued (u :: v :: us)] := rfl
          simp only [hsw, bind, Except.bind, htexts, hboth]
          rfl

/-- What the client reads, when the line has few enough tokens. -/
theorem mdirCmdRead_answerLine {client : CmdSyntax} {compl : Bytes} (hpos : 0 < cmd.seq)
    (hmax : cmd.seq < 2 ^ 63) (hstatus : -2 ^ 31 ≤ status ∧ status < 2 ^ 31)
    (hkw : IsWord cmd.cmdDef.keyword)
    (hfind : client.defs.find? (CmdDef.selects (-cmd.seq) cmd.cmdDef.keyword) =
      some (answRegister cmd.cmdDef.keyword))
    (hline : (10 : UInt8) ∉ answerLine cmd status compl)
    (hfits : (passCR false (answerLine cmd status compl)).length < MAX_CMD_LINE) (rest : Bytes) :
    (mdirCmdRead client (answerLine cmd status compl ++ 10 :: rest)).rest = rest ∧
    ((lineToks (passCR false compl ++ [10])).length + 3 < CMD_MAX_ARGS →
      (mdirCmdRead client (answerLine cmd status compl ++ 10 :: rest)).parse.result =
        .ok { cmdDef := answRegister cmd.cmdDef.keyword
              seq := cmd.seq
              args := .integer status :: if lineToks (passCR false compl ++ [10]) = [] then [] else
                [.string (glued (lineToks (passCR false compl ++ [10])))] }) ∧
    (CMD_MAX_ARGS ≤ (lineToks (passCR false compl ++ [10])).length + 3 →
      ∃ e, (mdirCmdRead client (answerLine cmd status compl ++ 10 :: rest)).parse.result =
        .error (.raised e)) := by
  have hread : varbufReadLine MAX_CMD_LINE (answerLine cmd status compl ++ 10 :: rest) =
      { line := passCR false (answerLine cmd status compl) ++ [10], rest := rest, eof := false } :=
    readLineLoop_fit hline (by simpa using hfits)
  have htoks := lineToks_answerLine hkw status (passCR false compl)
  have hprint : printInt cmd.seq = decimal cmd.seq.toNat := by
    rw [printInt, if_neg (by omega)]
    congr 1
    omega
  have hdigits : ∀ d ∈ decimal cmd.seq.toNat, isDigit d = true := fun d hd => isDigit_of_mem_decimal hd
  -- the sequence number is negated by a minus sign in front
  have hisSeq : isSeq (45 :: printInt cmd.seq) = true := by
    rw [hprint]
    exact (isSeq_digits (decimal_ne_nil _) hdigits).2
  have hnumber : strtoll (45 :: printInt cmd.seq) = (-cmd.seq, []) := by
    rw [hprint, strtoll_neg_digits (decimal_ne_nil _) hdigits (head?_decimal_ne (by omega))
      (by rw [digitsVal_decimal]; omega), digitsVal_decimal, Int.toNat_of_nonneg (by omega)]
  rw [mdirCmdRead, parseLine, hread, passCR_answerLine hkw]
  refine ⟨rfl, fun hfew => ?_, fun hmany => ?_⟩
  · have hseq : readSeq (45 :: printInt cmd.seq) = .ok (-cmd.seq) := by
      rw [readSeq_ok (by rw [hnumber]), hnumber]
    have hbuild := fun us => buildToks_answer (t := ⟨[], printInt status, 32⟩) cmd.cmdDef.keyword
      (strtoll_printInt (by omega) (by omega : status < 2 ^ 63)) us
    have hlen : (lineToks (answerLine cmd status (passCR false compl) ++ [10])).length < CMD_MAX_ARGS := by
      rw [htoks]
      simpa using hfew
    simp only [Bool.false_eq_true, if_false]
    rw [parseTokens_tokenize _ hlen, htoks]
    unfold parseToks
    simp only [hisSeq, if_true, hseq, dispatch, hfind, hbuild, bind, Except.bind]
    rw [if_pos (by omega), negateSeq_neg hpos hmax]
  · have hlen : CMD_MAX_ARGS ≤ (lineToks (answerLine cmd status (passCR false compl) ++ [10])).length := by
      rw [htoks]
      simpa using hmany
    have hfirst : words isDelimiter (answerLine cmd status (passCR false compl) ++ [10]) =
        (45 :: printInt cmd.seq) :: cmd.cmdDef.keyword :: printInt status ::
          (lineToks (passCR false compl ++ [10])).map Tok.word :=
      congrArg (List.map Tok.word) htoks
    simp only [Bool.false_eq_true, if_false]
    rcases (parseTokens_of_tooMany client.defs hlen).1 ⟨_, by rw [hfirst]; rfl, hisSeq⟩ with ⟨str, hstr⟩
    rw [hstr]
    exact ⟨_, rfl⟩

/-- The answer is one line that stays within the buffer, and the client gets its number, its status and its
complement back. -/
def Lossless (server client : CmdSyntax) (cmd : Cmd) (status : Int) (compl : Bytes) : Prop :=
  ∃ w line, mdirCnxAnswer server cmd status compl = .ok (some w) ∧ w.len ≤ REPLY_SIZE ∧
    w.reply.take w.len = (line ++ [10]).map some ∧ (10 : UInt8) ∉ line ∧
    ∀ rest, (mdirCmdRead client (line ++ 10 :: rest)).rest = rest ∧
      (mdirCmdRead client (line ++ 10 :: rest)).parse.result =
        .ok { cmdDef := answRegister cmd.cmdDef.keyword, seq := cmd.seq
              args := [.integer status, .string compl] }

/-- A line is written whole exactly when the buffer has room for its NUL too. -/
theorem answer_written_iff (server : CmdSyntax) {compl line : Bytes} (hpos : 0 < cmd.seq)
    (hmax : cmd.seq < 2 ^ 63) :
    (∃ w, mdirCnxAnswer server cmd status compl = .ok (some w) ∧ w.len ≤ REPLY_SIZE ∧
      w.reply.take w.len = (line ++ [10]).map some) ↔
      line = answerLine cmd status compl ∧ (answerLine cmd status compl ++ [10]).length < REPLY_SIZE := by
  constructor
  · rintro ⟨w, hw, hle, htake⟩
    rcases mdirCnxAnswer_reply server status compl hpos hmax with ⟨w', rest, hw', hlen, hreply⟩
    rw [hw] at hw'
    cases hw'
    rw [answerLine_eq] at hlen hreply
    have hinj : Function.Injective (some : UInt8 → Option UInt8) := Option.some_injective _
    have hsize : REPLY_SIZE = 512 := rfl
    by_cases hshort : (answerLine cmd status compl ++ [10]).length < REPLY_SIZE
    · have htext : (answerLine cmd status compl ++ [10]).take (REPLY_SIZE - 1) =
          answerLine cmd status compl ++ [10] := List.take_of_length_le (by omega)
      rw [hreply, hlen, htext, List.map_append, List.append_assoc,
        List.take_left' (List.length_map _)] at htake
      have heq := List.map_injective_iff.2 hinj htake
      exact ⟨(List.append_inj_left' heq rfl).symm, hshort⟩
    · -- one byte too many: the NUL takes the place of the end of line
      exfalso
      have hstored : w.len = ((((answerLine cmd status compl ++ [10]).take (REPLY_SIZE - 1)) ++ [0]).map
          some).length := by
        rw [List.length_map, List.length_append, List.length_take, List.length_singleton]
        omega
      rw [hreply, hstored, List.take_left] at htake
      have heq := List.map_injective_iff.2 hinj htake
      have hlast := List.append_inj_right' heq rfl
      exact absurd hlast (by decide)
  · rintro ⟨rfl, hshort⟩
    rw [← answerLine_eq] at hshort ⊢
    rcases mdirCnxAnswer_short server hpos hmax hshort with ⟨w, hw, hlen, htake⟩
    exact ⟨w, hw, by omega, htake⟩

/-- Which answers are lossless. -/
theorem answer_lossless_iff (server client : CmdSyntax) (cmd : Cmd) (status : Int) (compl : Bytes)
    (hseq : 0 < cmd.seq ∧ cmd.seq < 2 ^ 63) (hstatus : -2 ^ 31 ≤ status ∧ status < 2 ^ 31)
    (hkw : IsWord cmd.cmdDef.keyword)
    (hfind : client.defs.find? (CmdDef.selects (-cmd.seq) cmd.cmdDef.keyword) =
      some (answRegister cmd.cmdDef.keyword))
    (hcompl : compl ≠ [] ∧ (10 : UInt8) ∉ compl ∧ (0 : UInt8) ∉ compl ∧ compl.length ≤ 1023) :
    Lossless server client cmd status compl ↔
      (answerLine cmd status compl ++ [10]).length < REPLY_SIZE ∧
        Clean isDelimiter 32 true compl = true ∧ (words isDelimiter (compl ++ [10])).length ≤ 60 := by
  have hsize : REPLY_SIZE = 512 := rfl
  have hmaxLine : MAX_CMD_LINE = 4352 := rfl
  have hmaxArgs : CMD_MAX_ARGS = 64 := rfl
  have hfits : (answerLine cmd status compl ++ [10]).length < REPLY_SIZE →
      (passCR false (answerLine cmd status compl)).length < MAX_CMD_LINE := by
    intro hshort
    have hle := length_passCR false (answerLine cmd status compl)
    rw [List.length_append, List.length_singleton] at hshort
    simp only [Bool.false_eq_true, if_false, Nat.add_zero] at hle
    omega
  have hpass : Clean isDelimiter 32 true compl = true → passCR false compl = compl := by
    intro hclean
    have hcr : (13 : UInt8) ∉ compl := fun h => absurd (Clean.eq_sep hclean h rfl) (by decide)
    have happ := passCR_append hcr []
    simpa [passCR] using happ
  have hnewline : (10 : UInt8) ∉ answerLine cmd status compl := by
    have h1 := not_mem_of_word (fun c (hc : c ∈ printInt cmd.seq) => printInt_not_isDelimiter hc)
      (show isDelimiter 10 = true by decide)
    have h2 := not_mem_of_word hkw.2 (show isDelimiter 10 = true by decide)
    have h3 := not_mem_of_word (fun c (hc : c ∈ printInt status) => printInt_not_isDelimiter hc)
      (show isDelimiter 10 = true by decide)
    simp [answerLine, h1, h2, h3, hcompl.2.1]
  have hlength : ∀ s : Bytes, (words isDelimiter s).length = (lineToks s).length :=
    fun s => List.length_map _
  constructor
  · rintro ⟨w, line, hw, hle, htake, -, hclient⟩
    rcases (answer_written_iff server hseq.1 hseq.2).1 ⟨w, hw, hle, htake⟩ with ⟨rfl, hshort⟩
    have hread := mdirCmdRead_answerLine hseq.1 hseq.2 hstatus hkw hfind hnewline (hfits hshort) []
    have hresult := (hclient []).2
    -- the sequence number, the keyword and the status take three words
    by_cases hfew : (lineToks (passCR false compl ++ [10])).length + 3 < CMD_MAX_ARGS
    · rw [hread.2.1 hfew] at hresult
      by_cases hnil : lineToks (passCR false compl ++ [10]) = []
      · simp [hnil] at hresult
      · have hglued : glued (lineToks (passCR false compl ++ [10])) = compl := by
          simpa [hnil] using hresult
        have hclean : Clean isDelimiter 32 true compl = true := by
          have h := clean_glued hnil fun t ht => toks_ok ht
          rwa [hglued] at h
        rw [hpass hclean] at hfew
        refine ⟨hshort, hclean, ?_⟩
        rw [hlength]
        omega
    -- too many words
    · rcases hread.2.2 (by omega) with ⟨e, he⟩
      rw [he] at hresult
      cases hresult
  · rintro ⟨hshort, hclean, hwords⟩
    rcases (answer_written_iff server hseq.1 hseq.2).2 ⟨rfl, hshort⟩ with ⟨w, hw, hle, htake⟩
    refine ⟨w, answerLine cmd status compl, hw, hle, htake, hnewline, fun rest => ?_⟩
    have hread := mdirCmdRead_answerLine hseq.1 hseq.2 hstatus hkw hfind hnewline (hfits hshort) rest
    rw [hlength] at hwords
    rw [hpass hclean, glued_lineToks hclean] at hread
    have hne : lineToks (compl ++ [10]) ≠ [] := by
      intro hnil
      have hglued := glued_lineToks hclean
      rw [hnil] at hglued
      exact hcompl.1 hglued.symm
    refine ⟨hread.1, ?_⟩
    rw [hread.2.1 (by omega), if_neg hne]

/-- The subscription number 7 of a client of mdsyncd. -/
def subSeven : Cmd :=
  { cmdDef := stringService kwSub 2, seq := 7, args := [.string (ascii "inbox"), .string (ascii "0")] }

theorem answer_lossless_sample :
    Lossless mdsyncdInitSyntax connecterBegin subSeven 200 (ascii "all is well") :=
  (answer_lossless_iff mdsyncdInitSyntax connecterBegin subSeven 200 (ascii "all is well") (by decide)
    (by decide +kernel) ⟨by decide +kernel, by decide +kernel⟩ (by decide +kernel) (by decide +kernel)).2
    ⟨by decide, by decide, by decide⟩

/-- Two blanks are enough to lose the end of an error text, a long one does not fit, and one of sixty-one
words is refused by the client. -/
theorem answer_not_lossless :
    ¬ Lossless mdsyncdInitSyntax connecterBegin subSeven 403 (ascii "no  user") ∧
    ¬ Lossless mdsyncdInitSyntax connecterBegin subSeven 403 (List.replicate 500 120) ∧
    ¬ Lossless mdsyncdInitSyntax connecterBegin subSeven 403 (joinWords (List.replicate 61 [120])) := by
  refine ⟨?_, ?_, ?_⟩
  · rintro ⟨w, line, hw, hle, htake, -, hclient⟩
    rcases (answer_written_iff mdsyncdInitSyntax (by decide) (by decide)).1 ⟨w, hw, hle, htake⟩ with
      ⟨rfl, -⟩
    exact absurd (hclient []).2 (by decide)
  · rintro ⟨w, line, hw, hle, htake, -, -⟩
    have hshort :=
      ((answer_written_iff mdsyncdInitSyntax (by decide) (by decide)).1 ⟨w, hw, hle, htake⟩).2
    exact absurd hshort (by decide +kernel)
  · rintro ⟨w, line, hw, hle, htake, -, hclient⟩
    rcases (answer_written_iff mdsyncdInitSyntax (by decide) (by decide)).1 ⟨w, hw, hle, htake⟩ with
      ⟨rfl, -⟩
    exact absurd (hclient []).2 (by decide +kernel)

end AnswerLine

end Scambio
