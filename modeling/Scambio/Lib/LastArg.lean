import Scambio.Lib.AnswerLines
import Scambio.Lib.CmdTypes

/-!
# LastArg — what the last argument of a command is made of

The last argument takes all that is left of the line.  `build_cmd` undoes what `tokenize` did by writing a
space in front of each token in excess, so that it gets the text of the line back only where the tokens
are one space apart: a tab becomes a space, and two blanks end the string.  Names with other blanks
are not received as they were sent (`lastArg_iff`).
-/

namespace Scambio

open Library

/-! ## The text of several tokens -/

/-- The text of a line from the start of the first of these tokens to the end of the last one. -/
def spanText : List (Tok UInt8) → Bytes
  | [] => []
  | [t] => t.word
  | t :: u :: us => t.word ++ t.stop :: (u.gap ++ spanText (u :: us))

/-- Tokens that are one space apart. -/
def OneSpace (ts : List (Tok UInt8)) : Prop :=
  ts.IsChain fun t u => t.stop = 32 ∧ u.gap = []

/-- Glueing gives the text of the line back where every delimiter was one space. -/
theorem glued_eq_spanText_iff (ts : List (Tok UInt8)) : glued ts = spanText ts ↔ OneSpace ts := by
  induction ts with
  | nil => exact iff_of_true rfl .nil
  | cons t ts ih =>
      cases ts with
      | nil => exact iff_of_true (by simp [glued, gluedRest, spanText]) (.singleton t)
      | cons u us =>
          rw [OneSpace, List.isChain_cons_cons, glued, spanText, gluedRest, List.append_cancel_left_eq]
          by_cases hgap : u.gap = []
          · rw [if_pos hgap, hgap, List.nil_append, List.cons_append, List.cons.injEq]
            exact and_congr (by simp [eq_comm]) ih
          · rw [if_neg hgap]
            exact iff_of_false (by simp) fun h => hgap h.1.2

/-! ## The last argument -/

/-- The last argument that the definition declares is a string. -/
def CmdDef.EndsWithString (d : CmdDef) : Prop :=
  0 < d.nbArgMax ∧ (d.nbTypes < d.nbArgMax ∨ ¬ d.Lists (d.nbArgMax - 1))

theorem argTexts_last {d : CmdDef} {args : List (Tok UInt8)} (swallow : Bool) (hpos : 0 < d.nbArgMax)
    (hmany : d.nbArgMax ≤ args.length) (hsw : swallow = false → args.length = d.nbArgMax) :
    (argTexts d swallow args)[d.nbArgMax - 1]? = some (glued (args.drop (d.nbArgMax - 1))) := by
  cases swallow with
  | false =>
      have hin : d.nbArgMax - 1 < args.length := by omega
      have hrest : args.drop (d.nbArgMax - 1 + 1) = [] := List.drop_eq_nil_of_le (by
        rw [hsw rfl]
        omega)
      rw [List.drop_eq_getElem_cons hin, hrest]
      simp [argTexts, hin, glued, gluedRest]
  | true =>
      have hwords : ((args.take (d.nbArgMax - 1)).map Tok.word).length = d.nbArgMax - 1 := by
        rw [List.length_map, List.length_take]
        omega
      rw [argTexts, if_pos rfl, List.getElem?_append_right (by omega), hwords, Nat.sub_self]
      rfl

theorem taken_of_le {d : CmdDef} {n : Nat} (hlast : d.EndsWithString) (hn : d.nbArgMax ≤ n) :
    d.taken n = d.nbArgMax := by
  rw [CmdDef.taken]
  split
  · rfl
  · next hno => exact Nat.le_antisymm (Nat.le_of_not_lt fun hlt => hno ⟨hlt, hlast.2⟩) hn

theorem buildToks_last {d : CmdDef} {args : List (Tok UInt8)} (hlen : args.length ≤ CMD_MAX_ARGS)
    (hlast : d.EndsWithString) (hmany : d.nbArgMax ≤ args.length) (h : d.Accepts (args.map Tok.word)) :
    ∃ as, buildToks d args = .ok as ∧
      as.getLast? = some (.string (glued (args.drop (d.nbArgMax - 1)))) := by
  have htake := taken_of_le hlast hmany
  rcases hlast with ⟨hpos, hstring⟩
  rcases buildToks_total hlen hpos h with ⟨as, has⟩
  refine ⟨as, has, ?_⟩
  rcases buildToks_ok hlen has with ⟨hmin, htaken, hint⟩
  have hcount : as.length = d.nbArgMax := htaken.trans htake
  have hin : d.nbArgMax - 1 < as.length := by omega
  have harg : as.getLast? = some as[d.nbArgMax - 1] := by
    rw [List.getLast?_eq_getElem?, hcount, List.getElem?_eq_getElem hin]
  have hnotInt : ¬ as[d.nbArgMax - 1].isInteger = true := by
    rw [hint _ _ (List.getElem?_eq_getElem hin)]
    rintro ⟨hlt, hlists⟩
    rcases hstring with hfew | hno
    · omega
    · exact hno hlists
  have hreads : CmdArg.Reads as[d.nbArgMax - 1] (glued (args.drop (d.nbArgMax - 1))) := by
    rw [buildToks, if_neg (by omega)] at has
    rcases bind_ok has with ⟨swallow, hsw, hconvert⟩
    have htexts := argTexts_last swallow hpos hmany (by
      rintro rfl
      by_contra hne
      exact Bool.false_ne_true ((swallows_ok hlen hsw).2 ⟨by omega, hstring⟩))
    rcases List.getElem?_eq_some_iff.1 htexts with ⟨hin', htext⟩
    have hget := (convert_reads hconvert).get hin hin'
    rwa [List.get_eq_getElem, List.get_eq_getElem, htext] at hget
  rw [harg]
  cases hcase : as[d.nbArgMax - 1] with
  | string s =>
      rw [hcase] at hreads
      rw [show s = _ from hreads]
  | integer v =>
      rw [hcase] at hnotInt
      exact absurd rfl hnotInt

/-- A line with few enough tokens for its last argument to be whole, all the others being as the
definition wants them. -/
structure Surplus (defs : List CmdDef) (line : Bytes) (d : CmdDef) (args : List (Tok UInt8)) : Prop where
  few : (lineToks line).length ≤ CMD_MAX_ARGS
  toks : args <:+ lineToks line
  selected : ∃ seq keyword, command (words isDelimiter line) = some (seq, keyword, args.map Tok.word) ∧
    defs.find? (CmdDef.selects seq keyword) = some d
  last : d.EndsWithString
  many : d.nbArgMax < args.length
  accepts : d.Accepts (args.map Tok.word)

/-- The command of the line has the rest of the line for its last argument. -/
def TakesRest (defs : List CmdDef) (line : Bytes) (d : CmdDef) (args : List (Tok UInt8)) : Prop :=
  ∃ cmd, (parseTokens defs (tokenize line)).result = .ok cmd ∧
    cmd.args.getLast? = some (.string (spanText (args.drop (d.nbArgMax - 1))))

/-- The command that a line is read as, when its last argument is a string. -/
theorem parseTokens_last {defs : List CmdDef} {line : Bytes} {d : CmdDef} {args : List (Tok UInt8)}
    {seq : Int} {keyword : Bytes} (hlen : (lineToks line).length < CMD_MAX_ARGS)
    (htoks : args <:+ lineToks line)
    (hcmd : command (words isDelimiter line) = some (seq, keyword, args.map Tok.word))
    (hfind : defs.find? (CmdDef.selects seq keyword) = some d) (hlast : d.EndsWithString)
    (hmany : d.nbArgMax ≤ args.length) (haccepts : d.Accepts (args.map Tok.word)) :
    ∃ cmd, (parseTokens defs (tokenize line)).result = .ok cmd ∧
      cmd.args.getLast? = some (.string (glued (args.drop (d.nbArgMax - 1)))) := by
  have hargs : args.length ≤ CMD_MAX_ARGS := by
    have := htoks.length_le
    omega
  rcases buildToks_last hargs hlast hmany haccepts with ⟨as, has, hglued⟩
  rw [parseTokens_tokenize defs hlen]
  rcases parseToks_cases defs (lineToks line) with
    ⟨hnone, -⟩ | ⟨seq', keyword', args', hcmd', htoks', hres⟩
  · rw [show command ((lineToks line).map Tok.word) = _ from hcmd] at hnone
    cases hnone
  · rw [show command ((lineToks line).map Tok.word) = _ from hcmd, Option.some.injEq, Prod.mk.injEq,
      Prod.mk.injEq] at hcmd'
    rcases hcmd' with ⟨rfl, rfl, hwords⟩
    -- both are the end of the same line
    have hsame : args = args' := by
      have hcount := congrArg List.length hwords
      rw [List.length_map, List.length_map] at hcount
      exact (List.suffix_of_suffix_length_le htoks htoks' hcount.le).eq_of_length hcount
    subst hsame
    refine ⟨{ cmdDef := d, seq := if seq < 0 then negateSeq seq else seq, args := as }, ?_, hglued⟩
    rw [hres]
    simp only [dispatch, hfind, has]
    rfl

theorem takesRest_iff {defs : List CmdDef} {line : Bytes} {d : CmdDef} {args : List (Tok UInt8)}
    (h : Surplus defs line d args) :
    TakesRest defs line d args ↔
      (lineToks line).length < CMD_MAX_ARGS ∧ OneSpace (args.drop (d.nbArgMax - 1)) := by
  rcases h.selected with ⟨seq, keyword, hcmd, hfind⟩
  by_cases hlen : (lineToks line).length < CMD_MAX_ARGS
  · rcases parseTokens_last hlen h.toks hcmd hfind h.last h.many.le h.accepts with ⟨cmd, hok, hglued⟩
    rw [← glued_eq_spanText_iff, TakesRest, hok]
    constructor
    · rintro ⟨cmd', hcmd', hspan⟩
      cases hcmd'
      rw [hglued, Option.some.injEq, CmdArg.string.injEq] at hspan
      exact ⟨hlen, hspan⟩
    · rintro ⟨-, hspan⟩
      exact ⟨cmd, rfl, by rw [hglued, hspan]⟩
  · refine iff_of_false ?_ fun h => hlen h.1
    rintro ⟨cmd, hok, -⟩
    exact parseTokens_ne_ok defs (Nat.le_of_not_lt hlen) cmd hok

/-! ## Names in a query -/

/-- The words that `mdir_cnx_query` writes in front of its last parameter. -/
def queryHead (ptrSize : Nat) (seq : Option Int) (kw : Bytes) (params : List Bytes) : List Bytes :=
  (seq.map (mdirCmdSeq2str ptrSize)).toList ++ kw :: params

/-- The number that the peer reads in front of the query. -/
def queryNumber (ptrSize : Nat) (seq : Option Int) : Int :=
  (seq.map fun n => (strtoll (mdirCmdSeq2str ptrSize n)).1).getD 0

/-- The line of a query, without its end. -/
def queryLine (ptrSize : Nat) (seq : Option Int) (kw : Bytes) (params : List Bytes) (name : Bytes) : Bytes :=
  (queryHead ptrSize seq kw params).flatMap (fun w => w ++ [32]) ++ name

theorem flatMap_space (w : Bytes) (ws : List Bytes) :
    (w :: ws).flatMap (fun w => w ++ [32]) = w ++ ws.flatMap (fun w => 32 :: w) ++ [32] := by
  induction ws generalizing w with
  | nil => simp
  | cons v ws ih =>
      rw [List.flatMap_cons, ih v]
      simp

theorem queryText_eq (ptrSize : Nat) (seq : Option Int) (kw : Bytes) (params : List Bytes) (name : Bytes)
    (h : Option Header) :
    queryText ptrSize seq kw (params ++ [name]) h =
      queryLine ptrSize seq kw params name ++ 10 :: (h.map headerDump).getD [] := by
  have hparams := flatMap_space kw params
  cases seq with
  | none => simp [queryText, queryLine, queryHead, hparams]
  | some n => simp [queryText, queryLine, queryHead, hparams]

theorem lineToks_words {ws : List Bytes} (hws : ∀ w ∈ ws, IsWord w) (line : Bytes) :
    lineToks (ws.flatMap (fun w => w ++ [32]) ++ line) = ws.map (fun w => ⟨[], w, 32⟩) ++ lineToks line := by
  induction ws with
  | nil => rfl
  | cons w ws ih =>
      have hw := hws w List.mem_cons_self
      have hrest := ih fun v hv => hws v (List.mem_cons_of_mem _ hv)
      rw [List.flatMap_cons, List.append_assoc, List.append_assoc, List.singleton_append,
        lineToks_word hw.1 hw.2 (by decide), hrest]
      rfl

section Query

variable {ptrSize : Nat} {seq : Option Int} {kw name : Bytes} {params : List Bytes}

theorem mdirCmdSeq2str_digits (hptr : ptrSize = 4 ∨ ptrSize = 8) {n : Int} (hn : 0 < n) :
    IsWord (mdirCmdSeq2str ptrSize n) ∧ isSeq (mdirCmdSeq2str ptrSize n) = true ∧
      (strtoll (mdirCmdSeq2str ptrSize n)).2 = [] := by
  have hk : 0 < ptrSize - 1 := by omega
  have hpos : 0 < n.toNat := by omega
  rcases take_decimal_head hpos hk with ⟨hne, hhead⟩
  have hdig : ∀ d ∈ (decimal n.toNat).take (ptrSize - 1), isDigit d = true :=
    fun d hd => take_decimal_digits d hd
  have hlt : digitsVal ((decimal n.toNat).take (ptrSize - 1)) < 2 ^ 63 := by
    refine lt_trans digitsVal_take_decimal_lt ?_
    rcases hptr with rfl | rfl <;> decide
  have hprint : printInt n = decimal n.toNat := by
    rw [printInt, if_neg (by omega)]
    congr 1
    omega
  rw [mdirCmdSeq2str, hprint]
  refine ⟨⟨hne, fun c hc => isDigit_not_isDelimiter (hdig c hc)⟩, (isSeq_digits hne hdig).1, ?_⟩
  rw [strtoll_digits hne hdig hhead hlt]

/-- A query that the peer has a definition for, with a name for last argument. -/
structure Sendable (stx : CmdSyntax) (ptrSize : Nat) (seq : Option Int) (kw : Bytes) (params : List Bytes)
    (name : Bytes) (d : CmdDef) : Prop where
  ptr : ptrSize = 4 ∨ ptrSize = 8
  number : ∀ n ∈ seq, 0 < n
  keyword : IsWord kw ∧ isSeq kw = false
  words : ∀ w ∈ params, IsWord w
  found : stx.defs.find? (CmdDef.selects (queryNumber ptrSize seq) kw) = some d
  last : d.EndsWithString
  arity : d.nbArgMin ≤ d.nbArgMax ∧ d.nbArgMax = params.length + 1
  reads : d.ReadsAt 0 params
  nonblank : ∃ c ∈ name, isDelimiter c = false
  oneLine : (10 : UInt8) ∉ name
  fits : (queryLine ptrSize seq kw params name).length < MAX_CMD_LINE

/-- The peer gets the name of the query, whatever follows the query on the connection. -/
def NameReceived (stx : CmdSyntax) (text name : Bytes) : Prop :=
  ∀ rest, ∃ cmd, (mdirCmdRead stx (text ++ rest)).parse.result = .ok cmd ∧
    cmd.args.getLast? = some (.string name)

variable {stx : CmdSyntax} {d : CmdDef} (h : Sendable stx ptrSize seq kw params name d)

include h

theorem Sendable.isWord {w : Bytes} (hw : w ∈ queryHead ptrSize seq kw params) : IsWord w := by
  rcases List.mem_append.1 hw with hw | hw
  · rcases Option.mem_toList.1 hw with hseq
    rcases Option.map_eq_some_iff.1 hseq with ⟨n, hn, rfl⟩
    exact (mdirCmdSeq2str_digits h.ptr (h.number n hn)).1
  · rcases List.mem_cons.1 hw with rfl | hw
    · exact h.keyword.1
    · exact h.words w hw

theorem Sendable.command (ws : List Bytes) :
    command (queryHead ptrSize seq kw params ++ ws) =
      some (queryNumber ptrSize seq, kw, params ++ ws) := by
  have hkw := h.keyword.2
  cases hseq : seq with
  | none => simp [queryHead, queryNumber, Scambio.command, hkw]
  | some n =>
      rcases mdirCmdSeq2str_digits h.ptr (h.number n hseq) with ⟨-, hisSeq, hstop⟩
      simp [queryHead, queryNumber, Scambio.command, hisSeq, hstop]

/-- Nothing in front of the name is changed by the reader. -/
theorem Sendable.not_mem_head {c : UInt8} (hc : isDelimiter c = true) (hne : c ≠ 32) :
    c ∉ (queryHead ptrSize seq kw params).flatMap (fun w => w ++ [32]) := by
  intro hmem
  rcases List.mem_flatMap.1 hmem with ⟨w, hw, hcw⟩
  rcases List.mem_append.1 hcw with hcw | hcw
  · exact not_mem_of_word (h.isWord hw).2 hc hcw
  · exact hne (List.mem_singleton.1 hcw)

theorem Sendable.readLine (hdr : Option Header) (rest : Bytes) :
    varbufReadLine MAX_CMD_LINE (queryText ptrSize seq kw (params ++ [name]) hdr ++ rest) =
      { line := (queryHead ptrSize seq kw params).flatMap (fun w => w ++ [32]) ++ (passCR false name ++ [10])
        rest := (hdr.map headerDump).getD [] ++ rest, eof := false } := by
  have hpass : passCR false (queryLine ptrSize seq kw params name) =
      (queryHead ptrSize seq kw params).flatMap (fun w => w ++ [32]) ++ passCR false name :=
    passCR_append (h.not_mem_head (by decide) (by decide)) name
  have hline : (10 : UInt8) ∉ queryLine ptrSize seq kw params name := by
    rw [queryLine, List.mem_append, not_or]
    exact ⟨h.not_mem_head (by decide) (by decide), h.oneLine⟩
  have hfits : (passCR false (queryLine ptrSize seq kw params name)).length < MAX_CMD_LINE := by
    have hle := length_passCR false (queryLine ptrSize seq kw params name)
    exact lt_of_le_of_lt (by simpa using hle) h.fits
  have hread := @readLineLoop_fit MAX_CMD_LINE 0 false (queryLine ptrSize seq kw params name)
    ((hdr.map headerDump).getD [] ++ rest) hline (by simpa using hfits)
  rw [hpass, List.append_assoc] at hread
  rw [queryText_eq, List.append_assoc, List.cons_append]
  exact hread

omit h in
/-- A name that is not all blanks has words. -/
theorem words_ne_nil (hname : ∃ c ∈ name, isDelimiter c = false) :
    lineToks (passCR false name ++ [10]) ≠ [] := by
  intro hnil
  have hwords : words isDelimiter (name ++ [10]) = [] := by
    rw [← words_passCR, words]
    exact List.map_eq_nil_iff.2 hnil
  rcases line_eq (name ++ [10]) with ⟨gap, word, hline, hgap, hword⟩
  rw [show lineToks (name ++ [10]) = [] from List.map_eq_nil_iff.1 hwords, List.flatMap_nil,
    List.nil_append] at hline
  have hall : ∀ c ∈ name, isDelimiter c = true := by
    intro c hc
    rcases List.eq_nil_or_concat word with rfl | ⟨word, x, rfl⟩
    · rw [List.append_nil] at hline
      exact hgap c (hline ▸ List.mem_append_left _ hc)
    · -- the end of the line is no part of a word
      rw [List.concat_eq_append, ← List.append_assoc] at hline
      have hx : x = 10 := by
        have := List.append_inj_right' hline rfl
        simpa using this.symm
      have := hword x (by simp)
      rw [hx] at this
      exact absurd this (by decide)
  rcases hname with ⟨c, hc, hno⟩
  rw [hall c hc] at hno
  cases hno

/-- The definition accepts the parameters of the query and what the name is cut into. -/
theorem Sendable.accepts {ws : List Bytes} (hne : ws ≠ []) : d.Accepts (params ++ ws) := by
  rcases h.arity with ⟨hmin, hmax⟩
  have hpos := List.length_pos_iff.2 hne
  have hlen : d.nbArgMax ≤ (params ++ ws).length := by
    rw [List.length_append]
    omega
  refine ⟨by omega, ?_⟩
  rw [taken_of_le h.last hlen]
  intro i s hi hlt hlists
  have hin : i < d.nbArgMax := by
    have hsome := (List.getElem?_eq_some_iff.1 hi).1
    rw [List.length_take] at hsome
    omega
  have hnotLast : i ≠ params.length := by
    rintro rfl
    rw [Nat.zero_add] at hlt hlists
    rcases h.last.2 with hfew | hno
    · omega
    · exact hno (by rwa [hmax, Nat.add_sub_cancel])
  rw [List.getElem?_take_of_lt hin, List.getElem?_append_left (by omega)] at hi
  exact h.reads i s hi hlt hlists

/-- Which names are received as they were sent. -/
theorem nameReceived_iff (hdr : Option Header) :
    NameReceived stx (queryText ptrSize seq kw (params ++ [name]) hdr) name ↔
      Library.Clean isDelimiter 32 true name = true ∧
        (queryHead ptrSize seq kw params).length + (words isDelimiter (name ++ [10])).length <
          CMD_MAX_ARGS := by
  have hparams : ((params.map fun w => (⟨[], w, 32⟩ : Tok UInt8)).map Tok.word) = params := by
    simp [Function.comp_def]
  let line := (queryHead ptrSize seq kw params).flatMap (fun w => w ++ [32]) ++ (passCR false name ++ [10])
  have hread : ∀ rest, (mdirCmdRead stx
      (queryText ptrSize seq kw (params ++ [name]) hdr ++ rest)).parse.result =
        (parseTokens stx.defs (tokenize line)).result := by
    intro rest
    rw [mdirCmdRead, parseLine, h.readLine]
    rfl
  have htoks : lineToks line = (queryHead ptrSize seq kw params).map (fun w => ⟨[], w, 32⟩) ++
      lineToks (passCR false name ++ [10]) := lineToks_words (fun w hw => h.isWord hw) _
  have hcount : (lineToks line).length =
      (queryHead ptrSize seq kw params).length + (words isDelimiter (name ++ [10])).length := by
    rw [htoks, List.length_append, List.length_map, ← words_passCR, words, List.length_map]
    rfl
  have hne := words_ne_nil h.nonblank
  rw [← hcount]
  -- with fewer words than the maximum the name is the glued last argument
  by_cases hlen : (lineToks line).length < CMD_MAX_ARGS
  · let args : List (Tok UInt8) :=
      params.map (fun w => ⟨[], w, 32⟩) ++ lineToks (passCR false name ++ [10])
    have hsuffix : args <:+ lineToks line := by
      rw [htoks, queryHead, List.map_append, List.append_assoc]
      exact ((List.suffix_cons _ _).trans (List.suffix_append _ _))
    have hwords : args.map Tok.word = params ++ (lineToks (passCR false name ++ [10])).map Tok.word := by
      rw [List.map_append, hparams]
    have hcmd : command (words isDelimiter line) =
        some (queryNumber ptrSize seq, kw, args.map Tok.word) := by
      have hline : words isDelimiter line = queryHead ptrSize seq kw params ++
          (lineToks (passCR false name ++ [10])).map Tok.word := by
        rw [show words isDelimiter line = (lineToks line).map Tok.word from rfl, htoks]
        simp [Function.comp_def]
      rw [hline, h.command, hwords]
    have hmany : d.nbArgMax ≤ args.length := by
      have hpos := List.length_pos_iff.2 hne
      rw [h.arity.2, List.length_append, List.length_map]
      omega
    have haccepts : d.Accepts (args.map Tok.word) := by
      rw [hwords]
      exact h.accepts (by simpa using hne)
    rcases parseTokens_last hlen hsuffix hcmd h.found h.last hmany haccepts with ⟨cmd, hok, hglued⟩
    have hdrop : args.drop (d.nbArgMax - 1) = lineToks (passCR false name ++ [10]) := by
      rw [h.arity.2, Nat.add_sub_cancel]
      exact List.drop_left' (List.length_map _)
    rw [hdrop] at hglued
    constructor
    · intro hrec
      rcases hrec [] with ⟨cmd', hok', hname⟩
      rw [hread, hok] at hok'
      cases hok'
      rw [hglued, Option.some.injEq, CmdArg.string.injEq] at hname
      -- whatever is glued is clean, so a name that comes back is
      have hclean := clean_glued hne fun t ht => toks_ok ht
      rw [hname] at hclean
      exact ⟨hclean, hlen⟩
    · rintro ⟨hclean, -⟩ rest
      have hcr : (13 : UInt8) ∉ name := fun hmem => absurd (Library.Clean.eq_sep hclean hmem rfl) (by decide)
      have hpass : passCR false name = name := by simpa [passCR] using passCR_append hcr []
      rw [hpass, glued_lineToks hclean] at hglued
      exact ⟨cmd, by rw [hread, hok], hglued⟩
  · refine iff_of_false (fun hrec => ?_) fun hc => hlen hc.2
    -- with too many words there is no command
    rcases hrec [] with ⟨cmd, hok, -⟩
    rw [hread] at hok
    exact parseTokens_ne_ok stx.defs (Nat.le_of_not_lt hlen) cmd hok

end Query

/-- The last argument is the rest of the line when the tokens in excess are one space apart, and a name is
received when its words are; there has to be room for all the tokens. -/
theorem lastArg_iff (defs : List CmdDef) (line : Bytes) (d : CmdDef) (args : List (Tok UInt8)) (stx : CmdSyntax)
    (ptrSize : Nat) (seq : Option Int) (kw : Bytes) (params : List Bytes) (name : Bytes) (d' : CmdDef)
    (hdr : Option Header) :
    (Surplus defs line d args →
      (TakesRest defs line d args ↔
        (lineToks line).length < CMD_MAX_ARGS ∧ OneSpace (args.drop (d.nbArgMax - 1)))) ∧
    (Sendable stx ptrSize seq kw params name d' →
      (NameReceived stx (queryText ptrSize seq kw (params ++ [name]) hdr) name ↔
        Library.Clean isDelimiter 32 true name = true ∧
          (queryHead ptrSize seq kw params).length + (words isDelimiter (name ++ [10])).length <
            CMD_MAX_ARGS)) :=
  ⟨fun h => takesRest_iff h, fun h => nameReceived_iff h hdr⟩

theorem lists_stringService {kw : Bytes} {n a : Nat} : ¬ (stringService kw n).Lists a := by
  intro h
  have hmem := List.mem_of_getElem? h
  exact absurd (List.eq_of_mem_replicate hmem) (by decide)

theorem accepts_put {ws : List Bytes} (h : 1 ≤ ws.length) : (stringService kwPut 1).Accepts ws :=
  ⟨h, fun _ _ _ _ hlists => absurd hlists lists_stringService⟩

theorem endsWithString_put : (stringService kwPut 1).EndsWithString :=
  ⟨by decide, .inr lists_stringService⟩

/-- A folder name of two words. -/
theorem surplus_put (gap : Bytes) (hline : lineToks (ascii "1 put my " ++ gap ++ ascii "folder\n") =
    [⟨[], ascii "1", 32⟩, ⟨[], kwPut, 32⟩, ⟨[], ascii "my", 32⟩, ⟨gap, ascii "folder", 10⟩]) :
    Surplus mdsyncdInitSyntax.defs (ascii "1 put my " ++ gap ++ ascii "folder\n") (stringService kwPut 1)
      [⟨[], ascii "my", 32⟩, ⟨gap, ascii "folder", 10⟩] where
  few := by
    rw [hline]
    simp [CMD_MAX_ARGS]
  toks := by
    rw [hline]
    exact (List.suffix_cons _ _).trans (List.suffix_cons _ _)
  selected := by
    refine ⟨1, kwPut, ?_, by decide⟩
    rw [words, show toks isDelimiter _ = _ from hline]
    simp only [List.map_cons, List.map_nil]
    decide
  last := endsWithString_put
  many := by simp [stringService]
  accepts := accepts_put (by simp)

theorem sendable_put {name : Bytes} (hblank : ∃ c ∈ name, isDelimiter c = false)
    (hline : (10 : UInt8) ∉ name) (hfits : (queryLine 8 (some 1) kwPut [] name).length < MAX_CMD_LINE) :
    Sendable mdsyncdInitSyntax 8 (some 1) kwPut [] name (stringService kwPut 1) where
  ptr := .inr rfl
  number := by simp
  keyword := ⟨⟨by decide +kernel, by decide +kernel⟩, by decide +kernel⟩
  words := by simp
  found := by decide
  last := endsWithString_put
  arity := by decide
  reads := fun _ _ _ _ hlists => absurd hlists lists_stringService
  nonblank := hblank
  oneLine := hline
  fits := hfits

theorem lastArg_iff_put :
    TakesRest mdsyncdInitSyntax.defs (ascii "1 put my folder\n") (stringService kwPut 1)
      [⟨[], ascii "my", 32⟩, ⟨[], ascii "folder", 10⟩] ∧
    NameReceived mdsyncdInitSyntax (queryText 8 (some 1) kwPut [ascii "my folder"] none) (ascii "my folder") :=
  have hsurplus := surplus_put [] (by decide)
  have hsend := @sendable_put (ascii "my folder") ⟨109, by decide, by decide⟩ (by decide) (by decide)
  have h := lastArg_iff _ _ _ _ _ _ _ _ [] (ascii "my folder") _ none
  ⟨(h.1 hsurplus).2 ⟨by decide, .cons_cons ⟨rfl, rfl⟩ (.singleton _)⟩, (h.2 hsend).2 ⟨by decide, by decide⟩⟩

/-- Two blanks, or a tab, and the peer creates another folder. -/
theorem not_lastArg :
    ¬ (∀ defs line d args, Surplus defs line d args → TakesRest defs line d args) ∧
    ¬ ∀ stx ptrSize seq kw params name d, Sendable stx ptrSize seq kw params name d →
      (queryHead ptrSize seq kw params).length + (words isDelimiter (name ++ [10])).length ≤ CMD_MAX_ARGS →
      NameReceived stx (queryText ptrSize seq kw (params ++ [name]) none) name := by
  constructor
  · intro h
    have hrest := h _ _ _ _ (surplus_put [32] (by decide))
    rcases ((takesRest_iff (surplus_put [32] (by decide))).1 hrest).2 with _ | _ | ⟨⟨-, hgap⟩, -⟩
    cases hgap
  · intro h
    have hsend := @sendable_put (ascii "my\tfolder") ⟨109, by decide, by decide⟩
      (by decide) (by decide)
    have hclean := ((nameReceived_iff hsend none).1 (h _ _ _ _ _ _ _ hsend (by decide))).1
    exact absurd hclean (by decide)

end Scambio
