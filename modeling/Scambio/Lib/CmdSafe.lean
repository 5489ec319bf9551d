import Scambio.Lib.CmdTokens

/-!
# CmdSafe — which lines `parse_line` reads within its arrays

Three kinds of lines make `parse_line` leave its arrays:

- more than 1024 bytes, which do not have room in the buffer of the line;
- CMD_MAX_ARGS tokens or more without a sequence number: the error code of `tokenize` is taken for a
  number of tokens, and `cmd->nb_args` is then close to 2^32;
- an argument given to a command that takes none: the type of its last argument is looked for in
  front of `def->types`.

On every other line `parse_line` is safe (`mdirCmdRead_safe_iff`).
-/

namespace Scambio

open Library

/-! ## Faults -/

def NoFault {α : Type} (r : Except CmdErr α) : Prop :=
  ∀ a, r ≠ .error (.fault a)

section NoFault

variable {α β : Type}

theorem noFault_ok (x : α) : NoFault (.ok x : Except CmdErr α) := by
  intro a h
  cases h

theorem noFault_raise (code : Nat) (str : Bytes) : NoFault (raise code str : Except CmdErr α) := by
  intro a h
  cases h

theorem NoFault.bind {r : Except CmdErr α} {f : α → Except CmdErr β} (hr : NoFault r)
    (hf : ∀ x, r = .ok x → NoFault (f x)) : NoFault (r >>= f) := by
  cases r with
  | ok x => exact hf x rfl
  | error e =>
      intro a h
      cases h
      exact hr a rfl

theorem NoFault.of_bind {r : Except CmdErr α} {f : α → Except CmdErr β} (h : NoFault (r >>= f)) :
    NoFault r := by
  rintro a rfl
  exact h a rfl

theorem NoFault.map {r : Except CmdErr α} (h : NoFault r) (f : α → β) : NoFault (r.map f) := by
  cases r with
  | ok x => exact noFault_ok _
  | error e =>
      intro a ha
      cases ha
      exact h a rfl

theorem NoFault.raised_or_ok {r : Except CmdErr α} (h : NoFault r) :
    (∃ e, r = .error (.raised e)) ∨ ∃ x, r = .ok x := by
  cases r with
  | ok x => exact .inr ⟨x, rfl⟩
  | error e =>
      cases e with
      | raised e => exact .inl ⟨e, rfl⟩
      | fault a => exact absurd rfl (h a)

end NoFault

/-! ## Arguments -/

theorem noFault_typeAt {d : CmdDef} {i : Nat} (h : i < CMD_MAX_ARGS) : NoFault (d.typeAt i) := by
  rw [CmdDef.typeAt, if_pos h]
  exact noFault_ok _

theorem noFault_transcodeArg (integer : Bool) (s : Bytes) : NoFault (transcodeArg integer s) := by
  cases integer with
  | false => exact noFault_ok _
  | true =>
      simp only [transcodeArg, if_true]
      split
      · exact noFault_ok _
      · exact noFault_raise _ _

theorem noFault_isInteger {d : CmdDef} {a : Nat} (h : a < CMD_MAX_ARGS) : NoFault (d.isInteger a) := by
  unfold CmdDef.isInteger
  split
  · exact (noFault_typeAt h).map _
  · exact noFault_ok _

theorem noFault_convert {d : CmdDef} {texts : List Bytes} {a : Nat}
    (h : a + texts.length ≤ CMD_MAX_ARGS) : NoFault (convert d a texts) := by
  induction texts generalizing a with
  | nil => exact noFault_ok _
  | cons s ss ih =>
      rw [List.length_cons] at h
      refine (noFault_isInteger (by omega)).bind fun integer _ => ?_
      refine (noFault_transcodeArg integer s).bind fun arg _ => ?_
      exact (ih (by omega)).bind fun args _ => noFault_ok _

theorem length_argTexts {d : CmdDef} {args : List (Tok UInt8)} {swallow : Bool}
    (h : swallows d args.length = .ok swallow) : (argTexts d swallow args).length ≤ args.length := by
  cases swallow with
  | false => simp [argTexts]
  | true =>
      rcases swallows_true h with ⟨hpos, hlt⟩
      simp only [argTexts, if_true, List.length_append, List.length_map, List.length_take,
        List.length_singleton]
      omega

/-- Only a command without argument looks for the type of its last one out of the array. -/
theorem noFault_swallows_iff {d : CmdDef} {n : Nat} (hn : n ≤ CMD_MAX_ARGS) :
    NoFault (swallows d n) ↔ ¬ (d.nbArgMax = 0 ∧ 0 < n) := by
  constructor
  · rintro h ⟨hzero, hpos⟩
    apply h (.types (2 ^ 32 - 1))
    rw [swallows, hzero, if_pos hpos, if_neg (Nat.not_lt_zero _)]
    rfl
  · intro h
    unfold swallows
    split
    · rename_i hlt
      split
      · exact noFault_ok _
      · have hpred : unsignedPred d.nbArgMax < CMD_MAX_ARGS := by
          have hmax : CMD_MAX_ARGS = 64 := rfl
          rw [unsignedPred_of_pos (by omega) (by omega)]
          omega
        exact (noFault_typeAt hpred).map _
    · exact noFault_ok _

theorem noFault_buildToks_iff {d : CmdDef} {args : List (Tok UInt8)}
    (hn : args.length ≤ CMD_MAX_ARGS) :
    NoFault (buildToks d args) ↔
      ¬ (d.nbArgMax = 0 ∧ d.nbArgMin ≤ args.length ∧ 0 < args.length) := by
  unfold buildToks
  by_cases hmin : args.length < d.nbArgMin
  · rw [if_pos hmin]
    refine iff_of_true (noFault_raise _ _) ?_
    omega
  · rw [if_neg hmin]
    have hsw := noFault_swallows_iff (d := d) hn
    constructor
    · intro h
      have := hsw.1 (NoFault.of_bind h)
      omega
    · intro h
      refine (hsw.2 (by omega)).bind fun swallow hswallow => ?_
      have hlen := length_argTexts hswallow
      exact noFault_convert (by omega)

/-! ## Lines -/

/-- `tokenize` gives up on the line and no sequence number makes `parse_line` notice. -/
def TooManyTokens (ws : List Bytes) : Prop :=
  CMD_MAX_ARGS ≤ ws.length ∧ ∀ w ∈ ws.head?, isSeq w = false

/-- The sequence number, the keyword and the arguments of a line. -/
def command : List Bytes → Option (Int × Bytes × List Bytes)
  | [] => none
  | w :: ws =>
      if isSeq w then
        match ws with
        | [] => none
        | keyword :: args =>
            if (strtoll w).2 = [] then some ((strtoll w).1, keyword, args) else none
      else some (0, w, ws)

/-- The line gives an argument to a command that takes none. -/
def ArgsForNone (defs : List CmdDef) (ws : List Bytes) : Prop :=
  ∃ seq keyword args d, command ws = some (seq, keyword, args) ∧
    defs.find? (CmdDef.selects seq keyword) = some d ∧
    d.nbArgMax = 0 ∧ d.nbArgMin ≤ args.length ∧ 0 < args.length

/-- `parse_line` ended with an error or with a definition of the syntax, never left its arrays, and
counted no more arguments than there are tokens. -/
structure Parse.Safe (defs : List CmdDef) (nbTokens : Nat) (p : Parse) : Prop where
  ends : (∃ e, p.result = .error (.raised e)) ∨ ∃ cmd, p.result = .ok cmd ∧ cmd.cmdDef ∈ defs
  nbArgs : ∀ n ∈ p.nbArgs, n ≤ nbTokens

theorem Parse.Safe.noFault {defs : List CmdDef} {n : Nat} {p : Parse} (h : p.Safe defs n) :
    NoFault p.result := by
  intro a ha
  rcases h.ends with ⟨e, he⟩ | ⟨cmd, hcmd, -⟩
  · rw [he] at ha
    cases ha
  · rw [hcmd] at ha
    cases ha

theorem dispatch_ok {defs : List CmdDef} {seq : Int} {keyword : Bytes}
    {build : CmdDef → Except CmdErr (List CmdArg)} {cmd : Cmd}
    (h : dispatch defs seq keyword build = .ok cmd) :
    defs.find? (CmdDef.selects seq keyword) = some cmd.cmdDef ∧ build cmd.cmdDef = .ok cmd.args ∧
      cmd.seq = if seq < 0 then negateSeq seq else seq := by
  unfold dispatch at h
  split at h
  · cases h
  · rename_i d hd
    rcases hb : build d with e | args
    · rw [hb] at h
      cases h
    · rw [hb] at h
      cases h
      exact ⟨hd, hb, rfl⟩

theorem noFault_dispatch_iff {defs : List CmdDef} {seq : Int} {keyword : Bytes}
    {build : CmdDef → Except CmdErr (List CmdArg)} :
    NoFault (dispatch defs seq keyword build) ↔
      ∀ d, defs.find? (CmdDef.selects seq keyword) = some d → NoFault (build d) := by
  unfold dispatch
  cases hfind : defs.find? (CmdDef.selects seq keyword) with
  | none => simpa using noFault_raise _ _
  | some d =>
      constructor
      · rintro h _ ⟨⟩
        exact NoFault.of_bind h
      · intro h
        exact (h d rfl).bind fun _ _ => noFault_ok _

theorem dispatch_ends {defs : List CmdDef} {seq : Int} {keyword : Bytes}
    {build : CmdDef → Except CmdErr (List CmdArg)} (h : NoFault (dispatch defs seq keyword build)) :
    (∃ e, dispatch defs seq keyword build = .error (.raised e)) ∨
      ∃ cmd, dispatch defs seq keyword build = .ok cmd ∧ cmd.cmdDef ∈ defs := by
  rcases h.raised_or_ok with hraised | ⟨cmd, hok⟩
  · exact .inl hraised
  · exact .inr ⟨cmd, hok, List.mem_of_find?_eq_some (dispatch_ok hok).1⟩

/-- A line whose keyword and arguments are known. -/
theorem safe_dispatch_iff (defs : List CmdDef) (seq : Int) (keyword : Bytes)
    {args : List (Tok UInt8)} {n : Nat} (hlen : args.length ≤ CMD_MAX_ARGS) (hn : args.length ≤ n) :
    Parse.Safe defs n { nbArgs := some args.length
                        result := dispatch defs seq keyword (fun d => buildToks d args) } ↔
      ¬ ∃ d, defs.find? (CmdDef.selects seq keyword) = some d ∧ d.nbArgMax = 0 ∧
        d.nbArgMin ≤ args.length ∧ 0 < args.length := by
  have hfault := @noFault_dispatch_iff defs seq keyword (fun d => buildToks d args)
  constructor
  · rintro h ⟨d, hd, hbad⟩
    exact (noFault_buildToks_iff hlen).1 (hfault.1 h.noFault d hd) hbad
  · intro h
    refine ⟨dispatch_ends (hfault.2 fun d hd => ?_), by simpa using hn⟩
    exact (noFault_buildToks_iff hlen).2 fun hbad => h ⟨d, hd, hbad⟩

theorem safe_raise {defs : List CmdDef} {n : Nat} (code : Nat) (str : Bytes) :
    Parse.Safe defs n { nbArgs := none, result := raise code str } :=
  ⟨.inl ⟨_, rfl⟩, by simp⟩

theorem readSeq_ok {str : Bytes} (h : (strtoll str).2 = []) : readSeq str = .ok (strtoll str).1 := by
  simp [readSeq, h]

theorem readSeq_error {str : Bytes} (h : (strtoll str).2 ≠ []) : ∃ e, readSeq str = .error (.raised e) := by
  simp [readSeq, h, raise]

/-- Safety of the lines that `tokenize` cuts. -/
theorem parseToks_safe_iff (defs : List CmdDef) {ts : List (Tok UInt8)}
    (hlen : ts.length < CMD_MAX_ARGS) :
    (parseToks defs ts).Safe defs ts.length ↔ ¬ ArgsForNone defs (ts.map Tok.word) := by
  cases ts with
  | nil =>
      refine iff_of_true (safe_raise _ _) ?_
      rintro ⟨seq, keyword, args, d, hcmd, -⟩
      cases hcmd
  | cons t ts =>
      rw [List.length_cons] at hlen
      rw [List.map_cons]
      unfold parseToks
      by_cases hseq : isSeq t.word = true
      · cases ts with
        | nil =>
            simp only [hseq, if_true]
            refine iff_of_true (safe_raise _ _) ?_
            rintro ⟨seq, keyword, args, d, hcmd, -⟩
            simp [command, hseq] at hcmd
        | cons k args =>
            rw [List.length_cons] at hlen
            simp only [hseq, if_true]
            by_cases hstop : (strtoll t.word).2 = []
            · rw [readSeq_ok hstop]
              have hsafe := safe_dispatch_iff defs (strtoll t.word).1 k.word
                (show args.length ≤ CMD_MAX_ARGS by omega)
                (show args.length ≤ (t :: k :: args).length by simp only [List.length_cons]; omega)
              refine hsafe.trans (not_congr ?_)
              simp [ArgsForNone, command, hseq, hstop]
            · rcases readSeq_error hstop with ⟨e, he⟩
              rw [he]
              refine iff_of_true ⟨.inl ⟨e, rfl⟩, ?_⟩ ?_
              · intro n hn
                cases hn
                simp only [List.length_cons]
                omega
              · rintro ⟨seq, keyword, args, d, hcmd, -⟩
                simp [command, hseq, hstop] at hcmd
      · have hsafe := safe_dispatch_iff defs 0 t.word (show ts.length ≤ CMD_MAX_ARGS by omega)
          (show ts.length ≤ (t :: ts).length by simp)
        simp only [hseq, Bool.false_eq_true, if_false]
        refine hsafe.trans (not_congr ?_)
        simp [ArgsForNone, command, hseq]

/-- Past CMD_MAX_ARGS tokens a sequence number is what saves `parse_line`. -/
theorem parseTokens_of_tooMany (defs : List CmdDef) {line : Bytes}
    (hlen : CMD_MAX_ARGS ≤ (lineToks line).length) :
    ((∃ w ∈ (words isDelimiter line).head?, isSeq w = true) →
      ∃ str, parseTokens defs (tokenize line) = { nbArgs := none, result := raise EINVAL str }) ∧
    ((∀ w ∈ (words isDelimiter line).head?, isSeq w = false) →
      (parseTokens defs (tokenize line)).nbArgs = some (2 ^ 32 - 8)) := by
  rcases tokenize_spec line with ⟨tail, hlaid, hnb⟩
  rw [if_neg (by omega)] at hnb
  have hwords : words isDelimiter line = (lineToks line).map Tok.word := rfl
  rw [hwords]
  generalize lineToks line = ts at hlaid hlen
  cases ts with
  | nil =>
      rw [List.length_nil] at hlen
      exact absurd hlen (by decide)
  | cons t ts =>
      have hfirst : (tokenize line).string 0 = .ok t.word := hlaid.string rfl
      constructor
      · rintro ⟨w, hw, hseq⟩
        cases hw
        refine ⟨ascii "Bad number of tokens (-7)", ?_⟩
        unfold parseTokens
        rw [hnb, hfirst]
        simp only [hseq]
        rfl
      · intro hseq
        have hw := hseq t.word rfl
        unfold parseTokens
        rw [hnb, hfirst]
        simp only [hw]
        rfl

/-- A line read with a limit is at most one byte longer, the one that a CR was held back for. -/
theorem length_readLineLoop {maxlen n : Nat} (wasCR : Bool) (fd : Bytes) (hn : n ≤ maxlen + 1) :
    n + (readLineLoop maxlen n wasCR fd).line.length ≤ maxlen + 1 := by
  induction fd generalizing n wasCR with
  | nil => simpa [readLineLoop] using hn
  | cons byte rest ih =>
      unfold readLineLoop
      by_cases hlt : n < maxlen
      · rw [if_pos hlt]
        by_cases hcr : byte = 13
        · rw [if_pos hcr]
          exact ih true hn
        · rw [if_neg hcr]
          have hnew : (if byte ≠ 10 ∧ wasCR = true then [13, byte] else [byte]).length ≤ 2 := by
            split <;> simp
          simp only
          split
          · simp only
            omega
          · rw [List.length_append, ← Nat.add_assoc]
            exact ih false (by omega)
      · rw [if_neg hlt]
        simpa using hn

/-- The tokens of the line that `mdir_cmd_read` reads. -/
def wordsRead (fd : Bytes) : List Bytes :=
  words isDelimiter (varbufReadLine MAX_CMD_LINE fd).line

theorem length_wordsRead_lt (fd : Bytes) : (wordsRead fd).length < 2 ^ 32 - 8 := by
  have hline := length_readLineLoop false fd (show 0 ≤ MAX_CMD_LINE + 1 from Nat.zero_le _)
  have htoks := length_toks_le isDelimiter (varbufReadLine MAX_CMD_LINE fd).line
  have hmax : MAX_CMD_LINE = 4352 := rfl
  rw [wordsRead, words, List.length_map]
  rw [varbufReadLine] at htoks ⊢
  omega

/-- Reading the line stays in the block of its buffer, and so do the accesses that parse it. -/
structure CmdRead.Safe (defs : List CmdDef) (nbTokens : Nat) (r : CmdRead) : Prop where
  inBlock : r.inBlock = true
  parse : r.parse.Safe defs nbTokens

theorem mdirCmdRead_parse_safe_iff (stx : CmdSyntax) (fd : Bytes) :
    (mdirCmdRead stx fd).parse.Safe stx.defs (wordsRead fd).length ↔
      (varbufReadLine MAX_CMD_LINE fd).eof = true ∨
        ¬ TooManyTokens (wordsRead fd) ∧
          ¬ ((wordsRead fd).length < CMD_MAX_ARGS ∧ ArgsForNone stx.defs (wordsRead fd)) := by
  rw [mdirCmdRead, parseLine]
  by_cases heof : (varbufReadLine MAX_CMD_LINE fd).eof = true
  · simp only [heof, if_true, true_or, iff_true]
    exact safe_raise _ _
  · simp only [heof, Bool.false_eq_true, if_false, false_or]
    have hlen : (wordsRead fd).length = (lineToks (varbufReadLine MAX_CMD_LINE fd).line).length :=
      List.length_map _
    by_cases hlt : (wordsRead fd).length < CMD_MAX_ARGS
    · have hmany : ¬ TooManyTokens (wordsRead fd) := fun h => absurd h.1 (by omega)
      have hsafe := parseToks_safe_iff stx.defs (hlen ▸ hlt)
      rw [parseTokens_tokenize stx.defs (hlen ▸ hlt), hlen, hsafe, ← hlen]
      simp only [hmany, hlt, not_false_eq_true, true_and]
      rfl
    -- tokenize gives an error code, which passes for the number of tokens
    · have hge : CMD_MAX_ARGS ≤ (lineToks (varbufReadLine MAX_CMD_LINE fd).line).length := by omega
      have hp := parseTokens_of_tooMany stx.defs hge
      simp only [hlt, false_and, not_false_eq_true, and_true]
      constructor
      · intro hsafe hmany
        have hnb := hsafe.nbArgs _ (hp.2 hmany.2)
        have hbound := length_wordsRead_lt fd
        omega
      · intro hmany
        have hseq : ∃ w ∈ (wordsRead fd).head?, isSeq w = true := by
          by_contra hno
          refine hmany ⟨by omega, fun w hw => ?_⟩
          by_contra hw'
          exact hno ⟨w, hw, by simpa using hw'⟩
        rcases hp.1 hseq with ⟨str, hstr⟩
        rw [hstr]
        exact safe_raise _ _

/-- Which lines are read safely, under any syntax. -/
theorem mdirCmdRead_safe_iff (stx : CmdSyntax) (fd : Bytes) :
    (mdirCmdRead stx fd).Safe stx.defs (wordsRead fd).length ↔
      (varbufReadLine MAX_CMD_LINE fd).line.length ≤ 1024 ∧
        ((varbufReadLine MAX_CMD_LINE fd).eof = true ∨
          ¬ TooManyTokens (wordsRead fd) ∧
            ¬ ((wordsRead fd).length < CMD_MAX_ARGS ∧ ArgsForNone stx.defs (wordsRead fd))) := by
  rw [← mdirCmdRead_parse_safe_iff stx fd]
  exact ⟨fun h => ⟨of_decide_eq_true h.inBlock, h.parse⟩, fun h => ⟨decide_eq_true h.1, h.2⟩⟩

/-- A peer that says "quit now" to mdsyncd makes it read the type in front of the array. -/
theorem mdirCmdRead_quit_now :
    ¬ (mdirCmdRead mdsyncdInitSyntax (ascii "quit now\n")).Safe mdsyncdInitSyntax.defs
      (wordsRead (ascii "quit now\n")).length := by
  intro h
  apply h.parse.noFault (.types (2 ^ 32 - 1))
  decide

end Scambio
