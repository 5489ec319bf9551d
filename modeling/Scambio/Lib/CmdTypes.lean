import Scambio.Lib.CmdLines
import Scambio.Lib.Sender
import Scambio.Smtpd.Queries

/-!
# CmdTypes — the arity and the types of the commands that are dispatched

The arity check, the conversion and the release of the arguments read `nb_arg_max`, `nb_types` and
`types` each in its own way.  They agree on a definition unless

- it lists an integer past `nb_types`, which is duplicated as a string and never freed: the length of
  "skip" and "miss";
- its last argument is an integer, which swallows nothing, so that the tokens in excess are arguments
  too: "thx" with more than one.

On what is registered these are the only ones (`declared_iff`).
-/

namespace Scambio

open Library

/-! ## What a definition declares -/

def CmdArg.isInteger : CmdArg → Bool
  | .string _ => false
  | .integer _ => true

/-- The definition writes CMD_INTEGER at this position. -/
def CmdDef.Lists (d : CmdDef) (a : Nat) : Prop :=
  d.types[a]? = some .integer

instance (d : CmdDef) (a : Nat) : Decidable (d.Lists a) :=
  inferInstanceAs (Decidable (_ = _))

/-- `mdir_cmd_dtor`: the arguments that it frees. -/
def mdirCmdDtor (cmd : Cmd) : List Nat :=
  (List.range cmd.args.length).filter fun a =>
    decide (cmd.cmdDef.nbArgMax ≤ a) || cmd.cmdDef.types.getD a .string == .string

/-- The command has the arity and the types of its definition, and what was duplicated is freed. -/
structure Cmd.Declared (cmd : Cmd) : Prop where
  min : cmd.cmdDef.nbArgMin ≤ cmd.args.length
  max : cmd.args.length ≤ cmd.cmdDef.nbArgMax
  typed : ∀ a arg, cmd.args[a]? = some arg → (arg.isInteger = true ↔ cmd.cmdDef.Lists a)
  freed : ∀ a, a ∈ mdirCmdDtor cmd ↔ ∃ s, cmd.args[a]? = some (.string s)

theorem getD_string_iff (d : CmdDef) (a : Nat) : d.types.getD a .string = .string ↔ ¬ d.Lists a := by
  rw [List.getD_eq_getElem?_getD, CmdDef.Lists]
  rcases d.types[a]? with _ | _ | _ <;> simp

theorem mem_mdirCmdDtor {cmd : Cmd} {a : Nat} :
    a ∈ mdirCmdDtor cmd ↔
      a < cmd.args.length ∧ (cmd.cmdDef.nbArgMax ≤ a ∨ ¬ cmd.cmdDef.Lists a) := by
  simp only [mdirCmdDtor, List.mem_filter, List.mem_range, Bool.or_eq_true, decide_eq_true_eq,
    beq_iff_eq, getD_string_iff]

/-! ## Conversion -/

theorem isInteger_ok {d : CmdDef} {a : Nat} {integer : Bool} (h : d.isInteger a = .ok integer) :
    integer = true ↔ a < d.nbTypes ∧ d.Lists a := by
  unfold CmdDef.isInteger CmdDef.typeAt at h
  by_cases hlt : a < d.nbTypes
  · rw [if_pos hlt] at h
    split at h
    · cases h
      have hstring := getD_string_iff d a
      have hint : (d.types.getD a .string == .integer) = true ↔ ¬ d.types.getD a .string = .string := by
        cases d.types.getD a .string <;> simp
      rw [hint, hstring, not_not]
      exact (and_iff_right hlt).symm
    · cases h
  · rw [if_neg hlt] at h
    cases h
    simp [hlt]

theorem isInteger_total (d : CmdDef) {a : Nat} (h : a < CMD_MAX_ARGS) :
    ∃ integer, d.isInteger a = .ok integer := by
  unfold CmdDef.isInteger CmdDef.typeAt
  by_cases hlt : a < d.nbTypes
  · exact ⟨_, by rw [if_pos hlt, if_pos h]; rfl⟩
  · exact ⟨_, if_neg hlt⟩

theorem transcodeArg_isInteger {integer : Bool} {s : Bytes} {arg : CmdArg}
    (h : transcodeArg integer s = .ok arg) : arg.isInteger = integer := by
  cases integer with
  | false =>
      cases h
      rfl
  | true =>
      simp only [transcodeArg, if_true] at h
      split at h
      · cases h
        rfl
      · cases h

theorem bind_ok {α β : Type} {r : Except CmdErr α} {f : α → Except CmdErr β} {y : β}
    (h : (r >>= f) = .ok y) : ∃ x, r = .ok x ∧ f x = .ok y := by
  cases r with
  | ok x => exact ⟨x, rfl, h⟩
  | error e => cases h

theorem convert_cons_ok {d : CmdDef} {a : Nat} {s : Bytes} {ss : List Bytes} {args : List CmdArg}
    (h : convert d a (s :: ss) = .ok args) :
    ∃ integer arg rest, d.isInteger a = .ok integer ∧ transcodeArg integer s = .ok arg ∧
      convert d (a + 1) ss = .ok rest ∧ args = arg :: rest := by
  rcases bind_ok h with ⟨integer, hint, h⟩
  rcases bind_ok h with ⟨arg, harg, h⟩
  rcases bind_ok h with ⟨rest, hrest, h⟩
  cases h
  exact ⟨integer, arg, rest, hint, harg, hrest, rfl⟩

/-- An argument is an integer when `build_cmd` sees that it is listed as such. -/
theorem convert_isInteger {d : CmdDef} {a : Nat} {texts : List Bytes} {args : List CmdArg}
    (h : convert d a texts = .ok args) {i : Nat} {arg : CmdArg} (hi : args[i]? = some arg) :
    arg.isInteger = true ↔ a + i < d.nbTypes ∧ d.Lists (a + i) := by
  induction texts generalizing a args i with
  | nil =>
      cases h
      simp at hi
  | cons s ss ih =>
      rcases convert_cons_ok h with ⟨integer, first, rest, hint, harg, hrest, rfl⟩
      cases i with
      | zero =>
          cases hi
          rw [transcodeArg_isInteger harg]
          exact isInteger_ok hint
      | succ i =>
          have hnext := ih hrest hi
          rwa [Nat.add_assoc, Nat.add_comm 1] at hnext

/-- The words that `build_cmd` reads as numbers are numbers. -/
def CmdDef.ReadsAt (d : CmdDef) (a : Nat) (texts : List Bytes) : Prop :=
  ∀ i s, texts[i]? = some s → a + i < d.nbTypes → d.Lists (a + i) → (strtoll s).2 = []

theorem convert_total {d : CmdDef} {a : Nat} {texts : List Bytes} (h : d.ReadsAt a texts)
    (hlen : a + texts.length ≤ CMD_MAX_ARGS) : ∃ args, convert d a texts = .ok args := by
  induction texts generalizing a with
  | nil => exact ⟨[], rfl⟩
  | cons s ss ih =>
      rw [List.length_cons] at hlen
      rcases isInteger_total d (show a < CMD_MAX_ARGS by omega) with ⟨integer, hint⟩
      have harg : ∃ arg, transcodeArg integer s = .ok arg := by
        cases integer with
        | false => exact ⟨_, rfl⟩
        | true =>
            rcases (isInteger_ok hint).1 rfl with ⟨hlt, hlists⟩
            exact ⟨_, if_pos (h 0 s rfl hlt hlists)⟩
      rcases harg with ⟨arg, harg⟩
      have hnext : d.ReadsAt (a + 1) ss := by
        intro i t hi hlt hlists
        rw [Nat.add_assoc, Nat.add_comm 1] at hlt hlists
        exact h (i + 1) t hi hlt hlists
      rcases ih hnext (by omega) with ⟨rest, hrest⟩
      refine ⟨arg :: rest, ?_⟩
      rw [convert, hint, hrest]
      simp only [bind, Except.bind, harg]

theorem convert_readsAt {d : CmdDef} {a : Nat} {texts : List Bytes} {args : List CmdArg}
    (h : convert d a texts = .ok args) : d.ReadsAt a texts := by
  intro i s hi hlt hlists
  have hreads := convert_reads h
  have hin : i < args.length := by
    rw [hreads.length_eq]
    exact (List.getElem?_eq_some_iff.1 hi).1
  have harg := List.getElem?_eq_getElem hin
  have htext := hreads.get hin (List.getElem?_eq_some_iff.1 hi).1
  have hint := (convert_isInteger h harg).2 ⟨hlt, hlists⟩
  rw [List.get_eq_getElem, List.get_eq_getElem, (List.getElem?_eq_some_iff.1 hi).2] at htext
  cases hcase : args[i] with
  | string text =>
      rw [hcase] at hint
      cases hint
  | integer v =>
      rw [hcase, CmdArg.Reads] at htext
      rw [htext]

/-! ## Arity -/

/-- How many arguments are left of `n` once the last one has swallowed those in excess. -/
def CmdDef.taken (d : CmdDef) (n : Nat) : Nat :=
  if d.nbArgMax < n ∧ (d.nbTypes < d.nbArgMax ∨ ¬ d.Lists (d.nbArgMax - 1)) then d.nbArgMax else n

theorem swallows_ok {d : CmdDef} {n : Nat} (hn : n ≤ CMD_MAX_ARGS) {swallow : Bool}
    (h : swallows d n = .ok swallow) :
    swallow = true ↔
      d.nbArgMax < n ∧ (d.nbTypes < d.nbArgMax ∨ ¬ d.Lists (d.nbArgMax - 1)) := by
  have hmax : CMD_MAX_ARGS = 64 := rfl
  unfold swallows CmdDef.typeAt at h
  by_cases hlt : d.nbArgMax < n
  · rw [if_pos hlt] at h
    by_cases hfew : d.nbTypes < d.nbArgMax
    · rw [if_pos hfew] at h
      cases h
      simp [hlt, hfew]
    · rw [if_neg hfew] at h
      split at h
      · next hin =>
        cases h
        have hpos : 0 < d.nbArgMax := by
          by_contra hzero
          rw [Nat.eq_zero_of_not_pos hzero] at hin
          revert hin
          decide
        rw [unsignedPred_of_pos hpos (by omega), beq_iff_eq, getD_string_iff]
        simp [hlt, hfew]
      · cases h
  · rw [if_neg hlt] at h
    cases h
    simp [hlt]

section BuildToks

variable {d : CmdDef} {ts : List (Tok UInt8)} (hlen : ts.length ≤ CMD_MAX_ARGS)

include hlen

/-- What `build_cmd` has done when it ends well. -/
theorem buildToks_ok {args : List CmdArg} (h : buildToks d ts = .ok args) :
    d.nbArgMin ≤ ts.length ∧ args.length = d.taken ts.length ∧
      ∀ a arg, args[a]? = some arg → (arg.isInteger = true ↔ a < d.nbTypes ∧ d.Lists a) := by
  unfold buildToks at h
  split at h
  · cases h
  · next hmin =>
    rcases bind_ok h with ⟨swallow, hsw, h⟩
    have hargs : args.length = (argTexts d swallow ts).length := (convert_reads h).length_eq
    refine ⟨by omega, ?_, ?_⟩
    · rw [hargs, CmdDef.taken]
      have hok := swallows_ok hlen hsw
      cases swallow with
      | false =>
          rw [if_neg fun hc => Bool.false_ne_true (hok.2 hc)]
          simp [argTexts]
      | true =>
          have hpos := swallows_true hsw
          rw [if_pos (hok.1 rfl)]
          simp only [argTexts, if_true, List.length_append, List.length_map, List.length_take,
            List.length_singleton]
          omega
    · intro a arg ha
      have hint := convert_isInteger h ha
      rwa [Nat.zero_add] at hint

/-- The words of the arguments are enough of them, and numbers where `build_cmd` reads numbers. -/
structure CmdDef.Accepts (d : CmdDef) (ws : List Bytes) : Prop where
  min : d.nbArgMin ≤ ws.length
  reads : d.ReadsAt 0 (ws.take (d.taken ws.length))

/-- The argument that swallows others is not read as a number. -/
theorem readsAt_argTexts_iff {swallow : Bool} (hsw : swallows d ts.length = .ok swallow) :
    d.ReadsAt 0 (argTexts d swallow ts) ↔
      d.ReadsAt 0 ((ts.map Tok.word).take (d.taken (ts.map Tok.word).length)) := by
  have hok := swallows_ok hlen hsw
  rw [List.length_map, CmdDef.taken]
  cases swallow with
  | false =>
      rw [if_neg fun hc => Bool.false_ne_true (hok.2 hc), List.take_of_length_le (by simp)]
      rfl
  | true =>
      rcases hok.1 rfl with ⟨hlt, hlast⟩
      have hsame : ∀ i, i < d.nbTypes → d.Lists i →
          (argTexts d true ts)[i]? = ((ts.map Tok.word).take d.nbArgMax)[i]? := by
        intro i hint hlists
        have hne : i ≠ d.nbArgMax - 1 := by
          rintro rfl
          rcases hlast with hfew | hstring
          · omega
          · exact hstring hlists
        have hwords : ((ts.take (d.nbArgMax - 1)).map Tok.word).length = d.nbArgMax - 1 := by
          rw [List.length_map, List.length_take]
          omega
        rw [argTexts, if_pos rfl]
        by_cases hi : i < d.nbArgMax - 1
        · rw [List.getElem?_append_left (by omega), List.map_take, List.getElem?_take_of_lt hi,
            List.getElem?_take_of_lt (by omega)]
        · rw [List.getElem?_eq_none, List.getElem?_eq_none]
          · rw [List.length_take]
            omega
          · rw [List.length_append, hwords, List.length_singleton]
            omega
      rw [if_pos ⟨hlt, hlast⟩]
      simp only [CmdDef.ReadsAt, Nat.zero_add]
      constructor
      · intro h i s hi hint hlists
        exact h i s (hsame i hint hlists ▸ hi) hint hlists
      · intro h i s hi hint hlists
        exact h i s (hsame i hint hlists ▸ hi) hint hlists

theorem buildToks_total (hpos : 0 < d.nbArgMax) (h : d.Accepts (ts.map Tok.word)) :
    ∃ args, buildToks d ts = .ok args := by
  have hmin := h.min
  rw [List.length_map] at hmin
  have hfault := (noFault_swallows_iff (d := d) hlen).2 (by omega)
  have hsw : ∃ swallow, swallows d ts.length = .ok swallow := by
    rcases hfault.raised_or_ok with ⟨e, he⟩ | hok
    · unfold swallows CmdDef.typeAt at he
      split at he
      · split at he
        · cases he
        · split at he <;> cases he
      · cases he
    · exact hok
  rcases hsw with ⟨swallow, hsw⟩
  have htexts := (readsAt_argTexts_iff hlen hsw).2 h.reads
  have hle : (argTexts d swallow ts).length ≤ CMD_MAX_ARGS := (length_argTexts hsw).trans hlen
  rcases convert_total htexts (by rwa [Nat.zero_add]) with ⟨args, hargs⟩
  refine ⟨args, ?_⟩
  rw [buildToks, if_neg (by omega), hsw]
  exact hargs

/-- A command that takes no argument is built only without any. -/
theorem buildToks_none (hzero : d.nbArgMax = 0) {args : List CmdArg} (h : buildToks d ts = .ok args) :
    ts.length = 0 := by
  have hfault : NoFault (buildToks d ts) := h ▸ noFault_ok args
  have := (noFault_buildToks_iff hlen).1 hfault
  have := (buildToks_ok hlen h).1
  omega

theorem buildToks_accepts {args : List CmdArg} (h : buildToks d ts = .ok args) :
    d.Accepts (ts.map Tok.word) := by
  refine ⟨by simpa using (buildToks_ok hlen h).1, ?_⟩
  unfold buildToks at h
  split at h
  · cases h
  · rcases bind_ok h with ⟨swallow, hsw, h⟩
    exact (readsAt_argTexts_iff hlen hsw).1 (convert_readsAt h)

end BuildToks

/-- With `n` arguments on the line, one is listed as an integer and not read as such, or there are too
many of them in the command. -/
def CmdDef.Misdeclares (d : CmdDef) (n : Nat) : Prop :=
  d.nbArgMax < d.taken n ∨ ∃ a, a < d.taken n ∧ d.Lists a ∧ d.nbTypes ≤ a

/-- The three readings of a definition agree on a command exactly if they can. -/
theorem declared_iff_of_build (cmd : Cmd) {ts : List (Tok UInt8)} (hlen : ts.length ≤ CMD_MAX_ARGS)
    (hle : cmd.cmdDef.nbArgMin ≤ cmd.cmdDef.nbArgMax) (h : buildToks cmd.cmdDef ts = .ok cmd.args) :
    cmd.Declared ↔ ¬ cmd.cmdDef.Misdeclares ts.length := by
  rcases buildToks_ok hlen h with ⟨hmin, htaken, hint⟩
  constructor
  · rintro hdecl (hmax | ⟨a, ha, hlists, hpast⟩)
    · have := hdecl.max
      omega
    · rw [← htaken] at ha
      have harg := List.getElem?_eq_getElem ha
      have htyped := (hint a _ harg).1 ((hdecl.typed a _ harg).2 hlists)
      omega
  · intro hok
    have hmax : cmd.args.length ≤ cmd.cmdDef.nbArgMax := by
      rw [htaken]
      exact Nat.le_of_not_lt fun hlt => hok (.inl hlt)
    have htyped : ∀ a arg, cmd.args[a]? = some arg → (arg.isInteger = true ↔ cmd.cmdDef.Lists a) := by
      intro a arg ha
      rw [hint a arg ha]
      refine and_iff_right_of_imp fun hlists => ?_
      by_contra hpast
      have hlt := (List.getElem?_eq_some_iff.1 ha).1
      rw [htaken] at hlt
      exact hok (.inr ⟨a, hlt, hlists, Nat.le_of_not_lt hpast⟩)
    refine ⟨?_, hmax, htyped, ?_⟩
    · rw [htaken, CmdDef.taken]
      split
      · exact hle
      · exact hmin
    · intro a
      rw [mem_mdirCmdDtor]
      constructor
      · rintro ⟨ha, hfree⟩
        have harg := List.getElem?_eq_getElem ha
        have hstring : ¬ cmd.cmdDef.Lists a := hfree.resolve_left (by omega)
        rw [← htyped a _ harg] at hstring
        cases hcase : cmd.args[a] with
        | string s => exact ⟨s, by rw [harg, hcase]⟩
        | integer v => simp [hcase, CmdArg.isInteger] at hstring
      · rintro ⟨s, hs⟩
        refine ⟨(List.getElem?_eq_some_iff.1 hs).1, .inr fun hlists => ?_⟩
        have := (htyped a _ hs).2 hlists
        cases this

/-! ## Lines -/

/-- Either the line is no command, or its definition is looked for. -/
theorem parseToks_cases (defs : List CmdDef) (ts : List (Tok UInt8)) :
    (command (ts.map Tok.word) = none ∧ ∃ e, (parseToks defs ts).result = .error e) ∨
      ∃ seq keyword args, command (ts.map Tok.word) = some (seq, keyword, args.map Tok.word) ∧
        args <:+ ts ∧
        (parseToks defs ts).result = dispatch defs seq keyword fun d => buildToks d args := by
  cases ts with
  | nil => exact .inl ⟨rfl, _, rfl⟩
  | cons t ts =>
      rw [List.map_cons]
      unfold parseToks
      by_cases hseq : isSeq t.word = true
      · cases ts with
        | nil =>
            refine .inl ⟨by simp [command, hseq], ?_⟩
            simp only [hseq, if_true]
            exact ⟨_, rfl⟩
        | cons k args =>
            simp only [hseq, if_true]
            by_cases hstop : (strtoll t.word).2 = []
            · refine .inr ⟨(strtoll t.word).1, k.word, args, by simp [command, hseq, hstop], ?_, ?_⟩
              · exact (List.suffix_cons k args).trans (List.suffix_cons t _)
              · rw [readSeq_ok hstop]
                rfl
            · rcases readSeq_error hstop with ⟨e, he⟩
              refine .inl ⟨by simp [command, hseq, hstop], .raised e, ?_⟩
              rw [he]
              rfl
      · refine .inr ⟨0, t.word, ts, by simp [command, hseq], List.suffix_cons t ts, ?_⟩
        simp only [hseq, Bool.false_eq_true, if_false]

theorem string_ok {tk : Tokens} {i : Nat} {s : Bytes} (h : tk.string i = .ok s) :
    i < tk.offsets.length := by
  unfold Tokens.string at h
  split at h
  · cases h
  · next off hoff => exact (List.getElem?_eq_some_iff.1 hoff).1

theorem transcode_bound {d : CmdDef} {skip : Nat} {tk : Tokens} {n a : Nat} {args : List CmdArg}
    (h : transcode d skip tk n a = .ok args) (hn : 0 < n) : skip + (a + n) ≤ tk.offsets.length := by
  induction n generalizing a args with
  | zero => exact absurd hn (Nat.lt_irrefl 0)
  | succ n ih =>
      rcases bind_ok h with ⟨integer, -, h⟩
      rcases bind_ok h with ⟨s, hs, h⟩
      have hoff := string_ok hs
      by_cases hzero : n = 0
      · omega
      · split at h
        · cases h
        · rcases bind_ok h with ⟨arg, -, h⟩
          rcases bind_ok h with ⟨rest, hrest, -⟩
          have := ih hrest (by omega)
          omega

/-- `build_cmd` needs as many tokens as it is told there are. -/
theorem buildCmd_bound {d : CmdDef} {skip nbArgs : Nat} {tk : Tokens} {args : List CmdArg}
    (h : buildCmd d skip nbArgs tk = .ok args) (hn : 0 < nbArgs) : skip + nbArgs ≤ tk.offsets.length := by
  unfold buildCmd at h
  split at h
  · cases h
  · rcases bind_ok h with ⟨swallow, hsw, h⟩
    cases swallow with
    | false =>
        have := transcode_bound (show transcode d skip tk nbArgs 0 = .ok args from h) hn
        omega
    | true =>
        have hlt := (swallows_true hsw).2
        rcases bind_ok (show (glue skip d.nbArgMax (nbArgs - d.nbArgMax) tk >>= fun tk =>
          transcode d skip tk d.nbArgMax 0) = .ok args from h) with ⟨tk', hglue, -⟩
        rcases hn' : nbArgs - d.nbArgMax with _ | n
        · omega
        · -- the last token is the first one that is glued
          rw [hn', glue] at hglue
          split at hglue
          · cases hglue
          · next off hoff =>
            have := (List.getElem?_eq_some_iff.1 hoff).1
            omega

theorem parseTokens_ok {defs : List CmdDef} {tk : Tokens} {cmd : Cmd}
    (h : (parseTokens defs tk).result = .ok cmd) :
    ∃ skip n, (parseTokens defs tk).nbArgs = some n ∧ buildCmd cmd.cmdDef skip n tk = .ok cmd.args := by
  unfold parseTokens at h ⊢
  split at h
  · cases h
  · next hne =>
    rw [if_neg hne]
    split at h
    · cases h
    · next first hfirst =>
      simp only at h ⊢
      split at h
      · cases h
      · next hseq =>
        rw [if_neg hseq]
        rcases bind_ok h with ⟨keyword, -, h⟩
        refine ⟨if isSeq first = true then 2 else 1, _, rfl, ?_⟩
        split at h
        · next hs =>
          rcases bind_ok h with ⟨seq, -, h⟩
          simpa only [hs, if_true] using (dispatch_ok h).2.1
        · next hs =>
          rcases bind_ok h with ⟨seq, -, h⟩
          simpa only [hs, Bool.false_eq_true, if_false] using (dispatch_ok h).2.1

/-- A line that `tokenize` gives up on is never dispatched. -/
theorem parseTokens_ne_ok (defs : List CmdDef) {line : Bytes}
    (hlen : CMD_MAX_ARGS ≤ (lineToks line).length) (cmd : Cmd) :
    (parseTokens defs (tokenize line)).result ≠ .ok cmd := by
  intro h
  rcases parseTokens_ok h with ⟨skip, n, hn, hbuild⟩
  have hmany := parseTokens_of_tooMany defs hlen
  by_cases hseq : ∃ w ∈ (words isDelimiter line).head?, isSeq w = true
  · rcases hmany.1 hseq with ⟨str, hstr⟩
    rw [hstr] at hn
    cases hn
  · have hnb := hmany.2 fun w hw => by
      by_contra hw'
      exact hseq ⟨w, hw, by simpa using hw'⟩
    rw [hnb, Option.some.injEq] at hn
    rcases tokenize_spec line with ⟨tail, hlaid, -⟩
    have hoff : (tokenize line).offsets.length ≤ CMD_MAX_ARGS := by
      rw [hlaid.offsets, length_starts, List.length_take]
      exact Nat.min_le_left _ _
    have hbound := buildCmd_bound hbuild (by omega)
    have hmax : CMD_MAX_ARGS = 64 := rfl
    omega

/-- The line asks for a command that `build_cmd` accepts although it cannot be as declared. -/
def MisdeclaredLine (defs : List CmdDef) (misdeclared : CmdDef → Nat → Prop) (fd : Bytes) : Prop :=
  (varbufReadLine MAX_CMD_LINE fd).eof = false ∧ (wordsRead fd).length < CMD_MAX_ARGS ∧
    ∃ seq keyword args d, command (wordsRead fd) = some (seq, keyword, args) ∧
      defs.find? (CmdDef.selects seq keyword) = some d ∧ d.Accepts args ∧ misdeclared d args.length

/-- Under any syntax whose definitions have room for the arguments that they ask for. -/
theorem declared_iff_of_le {stx : CmdSyntax} (hle : ∀ d ∈ stx.defs, d.nbArgMin ≤ d.nbArgMax)
    (fd : Bytes) :
    (∀ cmd, (mdirCmdRead stx fd).parse.result = .ok cmd → cmd.Declared) ↔
      ¬ MisdeclaredLine stx.defs (fun d n => 0 < d.nbArgMax ∧ d.Misdeclares n) fd := by
  rw [mdirCmdRead, parseLine]
  by_cases heof : (varbufReadLine MAX_CMD_LINE fd).eof = true
  · refine iff_of_true ?_ ?_
    · intro cmd hcmd
      simp only [heof, if_true] at hcmd
      cases hcmd
    · rintro ⟨hno, -⟩
      rw [heof] at hno
      cases hno
  · simp only [heof, Bool.false_eq_true, if_false]
    have hwords : wordsRead fd = (lineToks (varbufReadLine MAX_CMD_LINE fd).line).map Tok.word := rfl
    have hcount : (wordsRead fd).length = (lineToks (varbufReadLine MAX_CMD_LINE fd).line).length :=
      List.length_map _
    by_cases hlt : (wordsRead fd).length < CMD_MAX_ARGS
    · rw [parseTokens_tokenize stx.defs (hcount ▸ hlt)]
      have hmis : MisdeclaredLine stx.defs (fun d n => 0 < d.nbArgMax ∧ d.Misdeclares n) fd ↔
          ∃ seq keyword args d, command (wordsRead fd) = some (seq, keyword, args) ∧
            stx.defs.find? (CmdDef.selects seq keyword) = some d ∧ d.Accepts args ∧
            0 < d.nbArgMax ∧ d.Misdeclares args.length := by
        unfold MisdeclaredLine
        simp only [heof, hlt, true_and]
      rw [hmis]
      -- a line without command is an error
      rcases parseToks_cases stx.defs (lineToks (varbufReadLine MAX_CMD_LINE fd).line) with
        ⟨hnone, e, he⟩ | ⟨seq, keyword, args, hcmd, hargs, hres⟩
      · rw [← hwords] at hnone
        refine iff_of_true (fun cmd hok => ?_) ?_
        · rw [he] at hok
          cases hok
        · rintro ⟨seq, keyword, args, d, hcmd, -⟩
          rw [hnone] at hcmd
          cases hcmd
      · rw [← hwords] at hcmd
        have hlen : args.length ≤ CMD_MAX_ARGS := by
          have := hargs.length_le
          omega
        rw [hres]
        constructor
        · rintro h ⟨_, _, _, d, hcmd', hfind, haccepts, hpos, hmis⟩
          rw [hcmd, Option.some.injEq, Prod.mk.injEq, Prod.mk.injEq] at hcmd'
          rcases hcmd' with ⟨rfl, rfl, rfl⟩
          -- an accepted line is built, so that `h` speaks of it
          rcases buildToks_total hlen hpos haccepts with ⟨as, has⟩
          rw [List.length_map] at hmis
          let cmd : Cmd :=
            { cmdDef := d, seq := if seq < 0 then negateSeq seq else seq, args := as }
          have hok : dispatch stx.defs seq keyword (fun d => buildToks d args) = .ok cmd := by
            simp only [dispatch, hfind, has]
            rfl
          exact (declared_iff_of_build cmd hlen (hle d (List.mem_of_find?_eq_some hfind)) has).1
            (h cmd hok) hmis
        · intro h cmd hok
          rcases dispatch_ok hok with ⟨hfind, hbuild, -⟩
          have hmem := List.mem_of_find?_eq_some hfind
          rw [declared_iff_of_build _ hlen (hle _ hmem) hbuild]
          intro hmis
          refine h ⟨seq, keyword, args.map Tok.word, cmd.cmdDef, hcmd, hfind,
            buildToks_accepts hlen hbuild, ?_, by rwa [List.length_map]⟩
          -- a definition without arguments builds none, and none is misdeclared
          by_contra hzero
          have hnone := (buildToks_none hlen (Nat.eq_zero_of_not_pos hzero) hbuild)
          rw [hnone] at hmis
          rcases hmis with hmax | ⟨a, ha, -⟩
          · simp [CmdDef.taken] at hmax
          · simp [CmdDef.taken] at ha
    -- too many words are an error
    · refine iff_of_true (fun cmd hok => ?_) fun h => hlt h.2.1
      exact absurd hok (parseTokens_ne_ok stx.defs (by omega) cmd)

/-! ## Registered definitions -/

/-- Everything that `mdir_syntax_register` is called for: the daemons, the client, the channel, and the
answer to AUTH that a client waits for. -/
def registeredSyntaxes : List CmdSyntax :=
  [mdsyncdInitSyntax, connecterBegin, smtpdInitSyntax, chnInit true, chnInit false,
    connecterBegin.register (answRegister kwAuth), (chnInit false).register (answRegister kwAuth)]

/-- "skip" and "miss" whatever their arguments, and "thx" with more than one. -/
def CmdDef.Misdeclared (d : CmdDef) (n : Nat) : Prop :=
  d.keyword = kwSkip ∨ d.keyword = kwMiss ∨ d.keyword = kwThx ∧ d.negseq = false ∧ 1 < n

/-- What the definition lists as integers is read as such, and its last argument is a string. -/
def CmdDef.wellListed (d : CmdDef) : Bool :=
  ((List.range d.types.length).all fun a => decide (d.Lists a → a < d.nbTypes)) &&
    (decide (d.nbTypes < d.nbArgMax) || decide (¬ d.Lists (d.nbArgMax - 1)))

theorem CmdDef.not_misdeclares {d : CmdDef} (h : d.wellListed = true) (n : Nat) : ¬ d.Misdeclares n := by
  rw [CmdDef.wellListed, Bool.and_eq_true, List.all_eq_true, Bool.or_eq_true, decide_eq_true_eq,
    decide_eq_true_eq] at h
  rcases h with ⟨hlists, hlast⟩
  rintro (hmax | ⟨a, -, ha, hpast⟩)
  · unfold CmdDef.taken at hmax
    split at hmax
    · omega
    · next hno => exact hno ⟨hmax, hlast⟩
  · have hin : a < d.types.length := (List.getElem?_eq_some_iff.1 ha).1
    have hlt := of_decide_eq_true (hlists a (List.mem_range.2 hin)) ha
    omega

def skipDef : CmdDef :=
  integerService kwSkip 4 2 [.integer, .integer, .integer]

def missDef : CmdDef :=
  integerService kwMiss 3 2 [.integer, .integer, .integer]

def thxDef : CmdDef :=
  { keyword := kwThx, nbArgMin := 1, nbArgMax := 1, nbTypes := 1, types := [.integer] }

theorem registered_defs : ∀ stx ∈ registeredSyntaxes, ∀ d ∈ stx.defs,
    d.nbArgMin ≤ d.nbArgMax ∧
      (d = skipDef ∨ d = missDef ∨ d = thxDef ∨
        d.wellListed = true ∧ d.keyword ≠ kwSkip ∧ d.keyword ≠ kwMiss ∧
          (d.keyword = kwThx → d.negseq = true)) := by
  decide

/-- Of what is registered only these three definitions are misread. -/
theorem misdeclares_iff {stx : CmdSyntax} (hstx : stx ∈ registeredSyntaxes) {d : CmdDef}
    (hd : d ∈ stx.defs) {n : Nat} (hn : d.nbArgMin ≤ n) :
    (0 < d.nbArgMax ∧ d.Misdeclares n) ↔ d.Misdeclared n := by
  rcases (registered_defs stx hstx d hd).2 with rfl | rfl | rfl | ⟨hlisted, hskip, hmiss, hthx⟩
  · -- the length is listed, and is the third argument
    refine iff_of_true ⟨by decide, .inr ⟨2, ?_, rfl, by decide⟩⟩ (.inl rfl)
    have hmin : 3 ≤ n := hn
    unfold CmdDef.taken
    split
    · decide
    · exact hmin
  · refine iff_of_true ⟨by decide, .inr ⟨2, ?_, rfl, by decide⟩⟩ (.inr (.inl rfl))
    have hmin : 3 ≤ n := hn
    unfold CmdDef.taken
    split
    · decide
    · exact hmin
  · have htaken : thxDef.taken n = n := if_neg fun h => absurd h.2 (by decide)
    have hlisted : ∀ a, thxDef.Lists a → a < thxDef.nbTypes := by
      intro a ha
      exact (List.getElem?_eq_some_iff.1 ha).1
    constructor
    · rintro ⟨-, hmax | ⟨a, -, ha, hpast⟩⟩
      · rw [htaken] at hmax
        exact .inr (.inr ⟨rfl, rfl, hmax⟩)
      · have := hlisted a ha
        omega
    · rintro (hkw | hkw | ⟨-, -, hmany⟩)
      · exact absurd hkw (by decide)
      · exact absurd hkw (by decide)
      · refine ⟨by decide, .inl ?_⟩
        rw [htaken]
        exact hmany
  · refine iff_of_false (fun h => d.not_misdeclares hlisted n h.2) ?_
    rintro (hkw | hkw | ⟨hkw, hneg, -⟩)
    · exact hskip hkw
    · exact hmiss hkw
    · rw [hthx hkw] at hneg
      cases hneg

/-- The commands that the registered definitions dispatch are as declared, but for those of "skip",
"miss" and "thx". -/
theorem declared_iff {stx : CmdSyntax} (hstx : stx ∈ registeredSyntaxes) (fd : Bytes) :
    (∀ cmd, (mdirCmdRead stx fd).parse.result = .ok cmd → cmd.Declared) ↔
      ¬ MisdeclaredLine stx.defs CmdDef.Misdeclared fd := by
  rw [declared_iff_of_le fun d hd => (registered_defs stx hstx d hd).1]
  unfold MisdeclaredLine
  refine not_congr (and_congr_right fun _ => and_congr_right fun _ => ?_)
  refine exists_congr fun seq => exists_congr fun keyword => exists_congr fun args =>
    exists_congr fun d => and_congr_right fun _ => and_congr_right fun hfind =>
      and_congr_right fun haccepts => ?_
  exact misdeclares_iff hstx (List.mem_of_find?_eq_some hfind) haccepts.min

/-- A read of the channel is served with its name, a string. -/
theorem declared_iff_read :
    (∀ cmd, (mdirCmdRead (chnInit true) (ascii "1 read a/b\n")).parse.result = .ok cmd → cmd.Declared) ↔
      ¬ MisdeclaredLine (chnInit true).defs CmdDef.Misdeclared (ascii "1 read a/b\n") :=
  declared_iff (by simp [registeredSyntaxes]) _

/-- The length of a hole is duplicated, read as a number by `serve_skip`, and never freed. -/
theorem not_declared :
    ¬ ∀ stx ∈ registeredSyntaxes, ∀ fd cmd, (mdirCmdRead stx fd).parse.result = .ok cmd →
      cmd.Declared := by
  intro h
  let cmd : Cmd :=
    { cmdDef := skipDef, seq := 0, args := [.integer 1, .integer 0, .string (ascii "1400")] }
  have hread : (mdirCmdRead (chnInit true) (ascii "skip 1 0 1400\n")).parse.result = .ok cmd := by
    decide
  have hdecl := h (chnInit true) (by simp [registeredSyntaxes]) _ cmd hread
  have htyped := (hdecl.typed 2 _ rfl).2 rfl
  cases htyped

end Scambio
