import Scambio.Lib.CmdSafe
import Scambio.Lib.HeaderWire

/-!
# CmdLines — one line, one command

On a connection whose commands have no body, the calls of `mdir_cmd_read` should each take one line and
dispatch what its tokens say.  They do (`oneLineOneCommand_of_lineOk`) unless

- a line does not fit in the buffer of `mdir_cmd_read`, or not in MAX_CMD_LINE bytes: what is left of it
  would be the next command;
- a token that the last argument should swallow comes after more than one delimiter: it is lost, with
  those behind it;
- the line is not read safely.
-/

namespace Scambio

open Library

/-! ## Reading a line -/

/-- What `varbuf_read_line` keeps of a line: a CR goes through only if what follows is neither a CR nor
the end of the line. -/
def passCR : Bool → Bytes → Bytes
  | _, [] => []
  | wasCR, c :: cs =>
      if c = 13 then passCR true cs
      else if wasCR then 13 :: c :: passCR false cs else c :: passCR false cs

section ReadLine

variable {maxlen n : Nat} {wasCR : Bool} {s rest : Bytes}

theorem readLineLoop_fit (hs : (10 : UInt8) ∉ s) (hfit : n + (passCR wasCR s).length < maxlen) :
    readLineLoop maxlen n wasCR (s ++ 10 :: rest) =
      { line := passCR wasCR s ++ [10], rest := rest, eof := false } := by
  induction s generalizing n wasCR with
  | nil =>
      have hn : n < maxlen := by simpa [passCR] using hfit
      simp [readLineLoop, passCR, hn]
  | cons c s ih =>
      have hc : c ≠ 10 := fun he => hs (he ▸ List.mem_cons_self)
      have hs' : (10 : UInt8) ∉ s := fun h => hs (List.mem_cons_of_mem _ h)
      have hn : n < maxlen := by omega
      rw [passCR] at hfit
      rw [List.cons_append, readLineLoop, passCR, if_pos hn]
      by_cases hcr : c = 13
      · rw [if_pos hcr] at hfit
        simp only [hcr, if_true]
        exact ih hs' hfit
      · rw [if_neg hcr] at hfit
        cases wasCR with
        | true =>
            simp only [if_true, List.length_cons] at hfit
            have hnext := @ih (n + 2) false hs' (by omega)
            simp [hcr, hc, hnext]
        | false =>
            simp only [Bool.false_eq_true, if_false, List.length_cons] at hfit
            have hnext := @ih (n + 1) false hs' (by omega)
            simp [hcr, hc, hnext]

/-- Without an end of line the end of file is reached, and there is no line. -/
theorem readLineLoop_eof (hs : (10 : UInt8) ∉ s) (hfit : n + (passCR wasCR s).length < maxlen) :
    readLineLoop maxlen n wasCR s = { line := passCR wasCR s, rest := [], eof := true } := by
  induction s generalizing n wasCR with
  | nil =>
      have hn : n < maxlen := by simpa [passCR] using hfit
      simp [readLineLoop, passCR, hn]
  | cons c s ih =>
      have hc : c ≠ 10 := fun he => hs (he ▸ List.mem_cons_self)
      have hs' : (10 : UInt8) ∉ s := fun h => hs (List.mem_cons_of_mem _ h)
      have hn : n < maxlen := by omega
      rw [passCR] at hfit
      rw [readLineLoop, passCR, if_pos hn]
      by_cases hcr : c = 13
      · rw [if_pos hcr] at hfit
        simp only [hcr, if_true]
        exact ih hs' hfit
      · rw [if_neg hcr] at hfit
        cases wasCR with
        | true =>
            simp only [if_true, List.length_cons] at hfit
            have hnext := @ih (n + 2) false hs' (by omega)
            simp [hcr, hc, hnext]
        | false =>
            simp only [Bool.false_eq_true, if_false, List.length_cons] at hfit
            have hnext := @ih (n + 1) false hs' (by omega)
            simp [hcr, hc, hnext]

end ReadLine

/-- A delimiter in front of another one makes no difference to the words. -/
theorem map_word_delims {word cs : Bytes} {c d : UInt8} (hc : isDelimiter c = true)
    (hd : isDelimiter d = true) :
    (toksFrom isDelimiter [] word (c :: d :: cs)).map Tok.word =
      (toksFrom isDelimiter [] word (d :: cs)).map Tok.word := by
  cases word with
  | nil =>
      rw [toksFrom_gap hc]
      exact map_word_toksFrom _ _ _ _
  | cons w ws =>
      rw [toksFrom_stop hc (by simp), toksFrom_stop hd (by simp), toks, toksFrom_gap hd, List.map_cons,
        List.map_cons, toks, map_word_toksFrom _ []]

/-- The held back CR is the delimiter that the reader has already seen. -/
theorem map_word_passCR (wasCR : Bool) (word s : Bytes) :
    (toksFrom isDelimiter [] word (passCR wasCR s ++ [10])).map Tok.word =
      (toksFrom isDelimiter [] word
        ((if wasCR then [13] else []) ++ (s ++ [10]))).map Tok.word := by
  induction s generalizing wasCR word with
  | nil =>
      cases wasCR with
      | false => rfl
      | true => exact (map_word_delims (by decide) (by decide)).symm
  | cons c s ih =>
      rw [passCR]
      by_cases hcr : c = 13
      · rw [if_pos hcr, ih, hcr]
        cases wasCR with
        | false => rfl
        | true => exact (map_word_delims (by decide) (by decide)).symm
      · rw [if_neg hcr]
        -- once the CR is passed both sides go on with the same state
        have hstep : ∀ gap word, (toksFrom isDelimiter gap word (c :: passCR false s ++ [10])).map Tok.word =
            (toksFrom isDelimiter gap word (c :: (s ++ [10]))).map Tok.word := by
          intro gap word
          rw [map_word_toksFrom gap [], map_word_toksFrom gap []]
          by_cases hdel : isDelimiter c = true
          · cases word with
            | nil =>
                rw [List.cons_append, toksFrom_gap hdel, toksFrom_gap hdel, map_word_toksFrom _ [],
                  ih false]
                exact map_word_toksFrom _ _ _ _
            | cons w ws =>
                rw [List.cons_append, toksFrom_stop hdel (by simp), toksFrom_stop hdel (by simp),
                  List.map_cons, List.map_cons, toks, toks, ih false]
                rfl
          · have hdel' : isDelimiter c = false := by simpa using hdel
            rw [List.cons_append, toksFrom_word hdel', toksFrom_word hdel', ih false]
            rfl
        cases wasCR with
        | false => exact hstep [] word
        | true =>
            have hcrDel : isDelimiter 13 = true := by decide
            simp only [if_true, List.cons_append, List.nil_append]
            cases word with
            | nil =>
                rw [toksFrom_gap hcrDel, toksFrom_gap hcrDel]
                exact hstep _ _
            | cons w ws =>
                rw [toksFrom_stop hcrDel (by simp), toksFrom_stop hcrDel (by simp), List.map_cons,
                  List.map_cons, toks, toks]
                exact congrArg _ (hstep _ _)

/-- The words of a line are those of what is kept of it. -/
theorem words_passCR (s : Bytes) :
    words isDelimiter (passCR false s ++ [10]) = words isDelimiter (s ++ [10]) :=
  map_word_passCR false [] s

/-! ## What a line says -/

def joinWords : List Bytes → Bytes
  | [] => []
  | w :: ws => w ++ ws.flatMap (fun w => 32 :: w)

/-- The argument that a text stands for. -/
def CmdArg.Reads : CmdArg → Bytes → Prop
  | .string s, text => s = text
  | .integer v, text => strtoll text = (v, [])

/-- The command has the keyword, the sequence number and all the arguments of the words of a line: each
argument is a word, but for the last one that may be several. -/
def Cmd.Tells (cmd : Cmd) (ws : List Bytes) : Prop :=
  ∃ seq keyword args, ∃ groups : List (List Bytes), command ws = some (seq, keyword, args) ∧
    strcaseeq cmd.cmdDef.keyword keyword = true ∧
    cmd.seq = (if seq < 0 then negateSeq seq else seq) ∧
    groups.flatten = args ∧ (∀ g ∈ groups, g ≠ []) ∧ (∀ g ∈ groups.dropLast, g.length = 1) ∧
    List.Forall₂ CmdArg.Reads cmd.args (groups.map joinWords)

/-- Either an error was raised and no command is dispatched, or the command is the one of the line. -/
def Dispatches (r : Except CmdErr Cmd) (ws : List Bytes) : Prop :=
  (∃ e, r = .error (.raised e)) ∨ ∃ cmd, r = .ok cmd ∧ cmd.Tells ws

/-- The tokens in excess, when the last argument swallows them, come after one delimiter each. -/
def SingleBlanks (defs : List CmdDef) (ts : List (Tok UInt8)) : Prop :=
  ∀ seq keyword args d, command (ts.map Tok.word) = some (seq, keyword, args) →
    defs.find? (CmdDef.selects seq keyword) = some d → swallows d args.length = .ok true →
    ∀ t ∈ ts.drop (ts.length - (args.length - d.nbArgMax)), t.gap = []

theorem convert_reads {d : CmdDef} {a : Nat} {texts : List Bytes} {args : List CmdArg}
    (h : convert d a texts = .ok args) : List.Forall₂ CmdArg.Reads args texts := by
  induction texts generalizing a args with
  | nil =>
      cases h
      exact .nil
  | cons s ss ih =>
      rw [convert] at h
      rcases hint : d.isInteger a with e | integer
      · rw [hint] at h
        cases h
      · rw [hint] at h
        simp only [bind, Except.bind] at h
        rcases harg : transcodeArg integer s with e | arg
        · rw [harg] at h
          cases h
        · rw [harg] at h
          simp only at h
          rcases hrest : convert d (a + 1) ss with e | rest
          · rw [hrest] at h
            cases h
          · rw [hrest] at h
            cases h
            refine .cons ?_ (ih hrest)
            cases integer with
            | false =>
                cases harg
                rfl
            | true =>
                simp only [transcodeArg, if_true] at harg
                split at harg
                · rename_i hstop
                  cases harg
                  exact Prod.ext rfl hstop
                · cases harg

theorem gluedRest_of_gaps {ts : List (Tok UInt8)} (h : ∀ t ∈ ts, t.gap = []) :
    gluedRest ts = (ts.map Tok.word).flatMap (fun w => 32 :: w) := by
  induction ts with
  | nil => rfl
  | cons t ts ih =>
      rw [gluedRest, if_pos (h t List.mem_cons_self), ih fun u hu => h u (List.mem_cons_of_mem _ hu)]
      rfl

theorem joinWords_singleton (w : Bytes) : joinWords [w] = w := by
  simp [joinWords]

/-- The arguments of the code are the groups of words of the line. -/
theorem buildToks_groups {d : CmdDef} {ts : List (Tok UInt8)} {args : List CmdArg}
    (h : buildToks d ts = .ok args)
    (hgap : swallows d ts.length = .ok true → ∀ t ∈ ts.drop d.nbArgMax, t.gap = []) :
    ∃ groups : List (List Bytes), groups.flatten = ts.map Tok.word ∧ (∀ g ∈ groups, g ≠ []) ∧
      (∀ g ∈ groups.dropLast, g.length = 1) ∧
      List.Forall₂ CmdArg.Reads args (groups.map joinWords) := by
  unfold buildToks at h
  split at h
  · cases h
  · rcases hsw : swallows d ts.length with e | _ | _
    · rw [hsw] at h
      cases h
    · -- one word for each argument
      rw [hsw] at h
      refine ⟨(ts.map Tok.word).map fun w => [w], ?_, by simp, ?_, ?_⟩
      · rw [← List.flatMap_def, List.flatMap_singleton']
      · intro g hg
        rcases List.mem_map.1 (List.dropLast_subset _ hg) with ⟨w, -, rfl⟩
        rfl
      · have hreads := convert_reads h
        simpa [argTexts, Function.comp_def, joinWords_singleton] using hreads
    · rw [hsw] at h
      rcases swallows_true hsw with ⟨hpos, hlt⟩
      have hk : d.nbArgMax - 1 < ts.length := by omega
      have hdrop : ts.drop (d.nbArgMax - 1) = ts[d.nbArgMax - 1] :: ts.drop d.nbArgMax := by
        rw [List.drop_eq_getElem_cons hk, Nat.sub_add_cancel hpos]
      refine ⟨(((ts.take (d.nbArgMax - 1)).map Tok.word).map fun w => [w]) ++
        [(ts.drop (d.nbArgMax - 1)).map Tok.word], ?_, ?_, ?_, ?_⟩
      · rw [List.flatten_append, List.flatten_singleton, ← List.flatMap_def, List.flatMap_singleton',
          ← List.map_append, List.take_append_drop]
      · intro g hg
        rcases List.mem_append.1 hg with hg | hg
        · rcases List.mem_map.1 hg with ⟨t, -, rfl⟩
          simp
        · rw [List.mem_singleton.1 hg, hdrop]
          simp
      · rw [List.dropLast_concat]
        intro g hg
        rcases List.mem_map.1 hg with ⟨t, -, rfl⟩
        rfl
      · have hreads := convert_reads h
        have hglued : glued (ts.drop (d.nbArgMax - 1)) =
            joinWords ((ts.drop (d.nbArgMax - 1)).map Tok.word) := by
          rw [hdrop, glued, gluedRest_of_gaps (hgap hsw)]
          rfl
        rw [argTexts, if_pos rfl, hglued] at hreads
        simpa [Function.comp_def, joinWords_singleton] using hreads

theorem dispatches_dispatch {defs : List CmdDef} {seq : Int} {keyword : Bytes} {ws : List Bytes}
    {args : List (Tok UInt8)} (hcmd : command ws = some (seq, keyword, args.map Tok.word))
    (hfault : NoFault (dispatch defs seq keyword fun d => buildToks d args))
    (hgap : ∀ d, defs.find? (CmdDef.selects seq keyword) = some d →
      swallows d args.length = .ok true → ∀ t ∈ args.drop d.nbArgMax, t.gap = []) :
    Dispatches (dispatch defs seq keyword fun d => buildToks d args) ws := by
  rcases hfault.raised_or_ok with hraised | ⟨cmd, hok⟩
  · exact .inl hraised
  · rcases dispatch_ok hok with ⟨hfind, hbuild, hseq⟩
    rcases buildToks_groups hbuild (hgap _ hfind) with ⟨groups, hflat, hne, hone, hreads⟩
    have hkw : strcaseeq cmd.cmdDef.keyword keyword = true := by
      have hsel := List.find?_some hfind
      rw [CmdDef.selects, Bool.and_eq_true] at hsel
      exact hsel.2
    exact .inr ⟨cmd, hok, seq, keyword, args.map Tok.word, groups, hcmd, hkw, hseq, hflat, hne, hone,
      hreads⟩

/-- The line whose tokens are cut is the one that is dispatched. -/
theorem dispatches_parseToks {defs : List CmdDef} {ts : List (Tok UInt8)}
    (hlen : ts.length < CMD_MAX_ARGS) (hargs : ¬ ArgsForNone defs (ts.map Tok.word))
    (hblanks : SingleBlanks defs ts) : Dispatches (parseToks defs ts).result (ts.map Tok.word) := by
  have hfault := ((parseToks_safe_iff defs hlen).2 hargs).noFault
  cases ts with
  | nil => exact .inl ⟨_, rfl⟩
  | cons t ts =>
      unfold parseToks at hfault ⊢
      by_cases hseq : isSeq t.word = true
      · cases ts with
        | nil =>
            simp only [hseq, if_true]
            exact .inl ⟨_, rfl⟩
        | cons k args =>
            simp only [hseq, if_true] at hfault ⊢
            by_cases hstop : (strtoll t.word).2 = []
            · have hcmd : command ((t :: k :: args).map Tok.word) =
                  some ((strtoll t.word).1, k.word, args.map Tok.word) := by
                simp [command, hseq, hstop]
              rw [readSeq_ok hstop] at hfault ⊢
              refine dispatches_dispatch hcmd hfault fun d hd hsw => ?_
              have hmax := (swallows_true hsw).2
              have hgap := hblanks _ _ _ d hcmd hd (by simpa using hsw)
              have hskip : (t :: k :: args).length - ((args.map Tok.word).length - d.nbArgMax) =
                  d.nbArgMax + 1 + 1 := by
                simp only [List.length_cons, List.length_map]
                omega
              rwa [hskip, List.drop_succ_cons, List.drop_succ_cons] at hgap
            · rcases readSeq_error hstop with ⟨e, he⟩
              rw [he]
              exact .inl ⟨e, rfl⟩
      · simp only [hseq, Bool.false_eq_true, if_false] at hfault ⊢
        have hcmd : command ((t :: ts).map Tok.word) = some (0, t.word, ts.map Tok.word) := by
          simp [command, hseq]
        refine dispatches_dispatch hcmd hfault fun d hd hsw => ?_
        have hmax := (swallows_true hsw).2
        have hgap := hblanks _ _ _ d hcmd hd (by simpa using hsw)
        have hskip : (t :: ts).length - ((ts.map Tok.word).length - d.nbArgMax) = d.nbArgMax + 1 := by
          simp only [List.length_cons, List.length_map]
          omega
        rwa [hskip, List.drop_succ_cons] at hgap

/-! ## One call -/

/-- The lines that one call takes whole and dispatches as they are. -/
structure LineOk (defs : List CmdDef) (s : Bytes) : Prop where
  fits : (passCR false s).length < 1024
  few : ¬ TooManyTokens (words isDelimiter (s ++ [10]))
  args : (words isDelimiter (s ++ [10])).length < CMD_MAX_ARGS →
    ¬ ArgsForNone defs (words isDelimiter (s ++ [10]))
  blanks : (words isDelimiter (s ++ [10])).length < CMD_MAX_ARGS →
    SingleBlanks defs (lineToks (passCR false s ++ [10]))

theorem mdirCmdRead_line {stx : CmdSyntax} {s : Bytes} (hs : (10 : UInt8) ∉ s) (h : LineOk stx.defs s)
    (rest : Bytes) :
    (mdirCmdRead stx (s ++ 10 :: rest)).rest = rest ∧ (mdirCmdRead stx (s ++ 10 :: rest)).inBlock = true ∧
      Dispatches (mdirCmdRead stx (s ++ 10 :: rest)).parse.result (words isDelimiter (s ++ [10])) := by
  have hfits := h.fits
  have hmax : MAX_CMD_LINE = 4352 := rfl
  have hread : varbufReadLine MAX_CMD_LINE (s ++ 10 :: rest) =
      { line := passCR false s ++ [10], rest := rest, eof := false } :=
    readLineLoop_fit hs (by omega)
  rw [mdirCmdRead, parseLine, hread]
  refine ⟨rfl, decide_eq_true ?_, ?_⟩
  · rw [List.length_append]
    exact hfits
  simp only [Bool.false_eq_true, if_false]
  have hwords : (lineToks (passCR false s ++ [10])).map Tok.word = words isDelimiter (s ++ [10]) :=
    words_passCR s
  by_cases hlen : (lineToks (passCR false s ++ [10])).length < CMD_MAX_ARGS
  · have hlen' : (words isDelimiter (s ++ [10])).length < CMD_MAX_ARGS := by
      rw [← hwords, List.length_map]
      exact hlen
    rw [parseTokens_tokenize _ hlen, ← hwords]
    refine dispatches_parseToks hlen ?_ (h.blanks hlen')
    rw [hwords]
    exact h.args hlen'
  · -- a sequence number makes the error code of `tokenize` visible
    have hge : CMD_MAX_ARGS ≤ (lineToks (passCR false s ++ [10])).length := by omega
    have hseq : ∃ w ∈ (words isDelimiter (passCR false s ++ [10])).head?, isSeq w = true := by
      by_contra hno
      rw [words_passCR] at hno
      refine h.few ⟨?_, fun w hw => ?_⟩
      · rw [← hwords, List.length_map]
        exact hge
      · by_contra hw'
        exact hno ⟨w, hw, by simpa using hw'⟩
    rcases (parseTokens_of_tooMany stx.defs hge).1 hseq with ⟨str, hstr⟩
    rw [hstr]
    exact .inl ⟨_, rfl⟩

theorem mdirCmdRead_eof (stx : CmdSyntax) {s : Bytes} (hs : (10 : UInt8) ∉ s)
    (hfits : (passCR false s).length ≤ 1024) :
    (mdirCmdRead stx s).rest = [] ∧ (mdirCmdRead stx s).inBlock = true ∧
      (mdirCmdRead stx s).parse.result = raise ENOENT (ascii "End of file") := by
  have hmax : MAX_CMD_LINE = 4352 := rfl
  have hread := @readLineLoop_eof MAX_CMD_LINE 0 false s hs (by omega)
  rw [mdirCmdRead, parseLine, varbufReadLine, hread]
  exact ⟨rfl, decide_eq_true hfits, rfl⟩

/-! ## Successive calls -/

/-- What is left on the connection after so many calls. -/
def afterCalls (stx : CmdSyntax) : Nat → Bytes → Bytes
  | 0, fd => fd
  | n + 1, fd => afterCalls stx n (mdirCmdRead stx fd).rest

/-- The stream made of these lines and of what follows the last end of line. -/
def streamOf (lines : List Bytes) (last : Bytes) : Bytes :=
  lines.flatMap (· ++ [10]) ++ last

theorem streamOf_cons (s : Bytes) (lines : List Bytes) (last : Bytes) :
    streamOf (s :: lines) last = s ++ 10 :: streamOf lines last := by
  simp [streamOf]

/-- Each call takes one line, without leaving its buffer, and dispatches what its tokens say; the call that
comes after the last line takes what is left and dispatches nothing. -/
def OneLineOneCommand (stx : CmdSyntax) (lines : List Bytes) (last : Bytes) : Prop :=
  (∀ i s, lines[i]? = some s →
    afterCalls stx i (streamOf lines last) = s ++ 10 :: afterCalls stx (i + 1) (streamOf lines last) ∧
    (mdirCmdRead stx (afterCalls stx i (streamOf lines last))).inBlock = true ∧
    Dispatches (mdirCmdRead stx (afterCalls stx i (streamOf lines last))).parse.result
      (words isDelimiter (s ++ [10]))) ∧
  (mdirCmdRead stx (afterCalls stx lines.length (streamOf lines last))).rest = [] ∧
  (mdirCmdRead stx (afterCalls stx lines.length (streamOf lines last))).inBlock = true ∧
  ∃ e, (mdirCmdRead stx (afterCalls stx lines.length (streamOf lines last))).parse.result =
    .error (.raised e)

theorem afterCalls_streamOf {stx : CmdSyntax} {lines : List Bytes} {last : Bytes}
    (hlines : ∀ s ∈ lines, (10 : UInt8) ∉ s ∧ LineOk stx.defs s) {i : Nat} (hi : i ≤ lines.length) :
    afterCalls stx i (streamOf lines last) = streamOf (lines.drop i) last := by
  induction i generalizing lines with
  | zero => rfl
  | succ i ih =>
      cases lines with
      | nil => exact absurd hi (by simp)
      | cons s lines =>
          rw [List.length_cons] at hi
          rcases hlines s List.mem_cons_self with ⟨hs, hok⟩
          have hread := (mdirCmdRead_line hs hok (streamOf lines last)).1
          rw [afterCalls, streamOf_cons, hread, List.drop_succ_cons]
          exact ih (fun u hu => hlines u (List.mem_cons_of_mem _ hu)) (by omega)

/-- One line, one command, on every stream whose lines are all taken whole. -/
theorem oneLineOneCommand_of_lineOk (stx : CmdSyntax) (lines : List Bytes) (last : Bytes)
    (hlines : ∀ s ∈ lines, (10 : UInt8) ∉ s ∧ LineOk stx.defs s)
    (hlast : (10 : UInt8) ∉ last ∧ (passCR false last).length ≤ 1024) :
    OneLineOneCommand stx lines last := by
  have hend : afterCalls stx lines.length (streamOf lines last) = last := by
    rw [afterCalls_streamOf hlines (Nat.le_refl _), List.drop_length]
    rfl
  have heof := mdirCmdRead_eof stx hlast.1 hlast.2
  refine ⟨?_, ?_, ?_⟩
  · intro i s hi
    rcases List.getElem?_eq_some_iff.1 hi with ⟨hlt, rfl⟩
    rcases hlines _ (List.getElem_mem hlt) with ⟨hs, hok⟩
    have hnow : afterCalls stx i (streamOf lines last) =
        lines[i] ++ 10 :: streamOf (lines.drop (i + 1)) last := by
      rw [afterCalls_streamOf hlines (by omega), List.drop_eq_getElem_cons hlt, streamOf_cons]
    have hline := mdirCmdRead_line hs hok (streamOf (lines.drop (i + 1)) last)
    rw [hnow, afterCalls_streamOf hlines (by omega)]
    exact ⟨rfl, hline.2⟩
  · rw [hend]
    exact heof.1
  · rw [hend]
    exact ⟨heof.2.1, _, heof.2.2⟩

/-- A short line for a command that takes arguments. -/
theorem lineOk_of_command {defs : List CmdDef} {s : Bytes} (seq : Int) (keyword : Bytes)
    (args : List Bytes) (d : CmdDef) (hfits : (passCR false s).length < 1024)
    (hfew : (words isDelimiter (s ++ [10])).length < CMD_MAX_ARGS)
    (hcmd : command (words isDelimiter (s ++ [10])) = some (seq, keyword, args))
    (hfind : defs.find? (CmdDef.selects seq keyword) = some d) (hmax : 0 < d.nbArgMax)
    (hgap : ∀ t ∈ (lineToks (passCR false s ++ [10])).drop
      ((lineToks (passCR false s ++ [10])).length - (args.length - d.nbArgMax)), t.gap = []) :
    LineOk defs s := by
  refine ⟨hfits, fun h => absurd h.1 (by omega), ?_, ?_⟩
  · rintro - ⟨seq', keyword', args', d', hcmd', hfind', hzero, -⟩
    rw [hcmd] at hcmd'
    cases hcmd'
    rw [hfind] at hfind'
    cases hfind'
    omega
  · intro _ seq' keyword' args' d' hcmd' hfind' _
    have hwords : (lineToks (passCR false s ++ [10])).map Tok.word = words isDelimiter (s ++ [10]) :=
      words_passCR s
    rw [hwords, hcmd] at hcmd'
    cases hcmd'
    rw [hfind] at hfind'
    cases hfind'
    exact hgap

/-- Two lines for mdsyncd, the second one with a token that the last argument swallows. -/
theorem oneLineOneCommand_two :
    OneLineOneCommand mdsyncdInitSyntax [ascii "1 sub inbox 0", ascii "auth joe doe"] (ascii "qu") := by
  apply oneLineOneCommand_of_lineOk
  · intro s hs
    rcases List.mem_cons.1 hs with rfl | hs
    · refine ⟨by decide, ?_⟩
      exact lineOk_of_command 1 kwSub [ascii "inbox", ascii "0"] (stringService kwSub 2)
        (by decide) (by decide) (by decide)
        (by decide) (by decide) (by decide)
    · rw [List.mem_singleton.1 hs]
      refine ⟨by decide, ?_⟩
      exact lineOk_of_command 0 kwAuth [ascii "joe", ascii "doe"] (stringService kwAuth 1)
        (by decide) (by decide) (by decide)
        (by decide) (by decide) (by decide)
  · decide

/-- A token is lost behind two blanks. -/
theorem not_oneLineOneCommand : ¬ OneLineOneCommand mdsyncdInitSyntax [ascii "auth joe  doe"] [] := by
  intro h
  have hread : (mdirCmdRead mdsyncdInitSyntax
      (afterCalls mdsyncdInitSyntax 0 (streamOf [ascii "auth joe  doe"] []))).parse.result =
      .ok { cmdDef := stringService kwAuth 1, seq := 0, args := [.string (ascii "joe")] } := by
    decide
  have hwords : command (words isDelimiter (ascii "auth joe  doe" ++ [10])) =
      some (0, kwAuth, [ascii "joe", ascii "doe"]) := by
    decide
  rcases (h.1 0 _ rfl).2.2 with ⟨e, he⟩ | ⟨cmd, hcmd, seq, keyword, args, groups, htells, -, -, hflat, -, -,
      hreads⟩
  · rw [hread] at he
    cases he
  · rw [hread] at hcmd
    cases hcmd
    rw [hwords] at htells
    cases htells
    -- one argument, that both words should be in
    cases groups with
    | nil => cases hreads
    | cons g gs =>
        cases gs with
        | nil =>
            rw [List.flatten_singleton] at hflat
            cases hreads with
            | cons hjoin _ =>
                rw [CmdArg.Reads, hflat] at hjoin
                exact absurd hjoin (by decide)
        | cons g' gs =>
            cases hreads with
            | cons _ hnil => cases hnil

end Scambio
