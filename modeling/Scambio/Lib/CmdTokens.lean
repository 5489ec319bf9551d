import Scambio.Library.Tokens
import Scambio.Lib.Cmd
import Scambio.Lib.Readback

/-!
# CmdTokens — what `parse_line` does to a line, told on its tokens

`parse_line` works on pointers into a buffer that it cuts and glues in place.  Here the same is said
on the list of the tokens of the line (`parseToks`), and the two are shown to agree as long as there
are fewer than CMD_MAX_ARGS tokens (`parseTokens_tokenize`).  Past that number `tokenize` gives up
with an error code that `parse_line` takes for a number of tokens.
-/

namespace Scambio

open Library

/-- The tokens of a line. -/
def lineToks (line : Bytes) : List (Tok UInt8) :=
  toks isDelimiter line

/-- A word at the head of a line, up to the delimiter that ends it. -/
theorem lineToks_word {w : Bytes} (hne : w ≠ []) (hw : ∀ c ∈ w, isDelimiter c = false) {c : UInt8}
    (hc : isDelimiter c = true) (line : Bytes) :
    lineToks (w ++ c :: line) = ⟨[], w, c⟩ :: lineToks line := by
  have htok : Tok.Ok isDelimiter ⟨[], w, c⟩ := ⟨by simp, hw, hne, hc⟩
  have htoks := toks_text_append htok line
  simpa [Tok.text, lineToks] using htoks

/-! ## Cutting -/

/-- A token in the buffer, once cut. -/
def cutText (t : Tok UInt8) : Bytes :=
  t.gap ++ t.word ++ [0]

/-- The offsets of tokens that are laid one after the other from `p` on. -/
def starts (p : Nat) : List (Tok UInt8) → List Nat
  | [] => []
  | t :: ts => (p + t.gap.length) :: starts (p + t.text.length) ts

@[simp] theorem length_cutText (t : Tok UInt8) : (cutText t).length = t.text.length := by
  simp [cutText, Tok.text]

@[simp] theorem length_starts (p : Nat) (ts : List (Tok UInt8)) : (starts p ts).length = ts.length := by
  induction ts generalizing p with
  | nil => rfl
  | cons t ts ih => simp [starts, ih]

theorem takeWhile_append_of_head {p : UInt8 → Bool} {l rest : Bytes} (hl : ∀ c ∈ l, p c = true)
    (hrest : ∀ c ∈ rest.head?, p c = false) : (l ++ rest).takeWhile p = l := by
  rw [List.takeWhile_append_of_pos hl]
  cases rest with
  | nil => simp
  | cons c cs =>
      have hc : p c = false := hrest c (by simp)
      simp [hc]

theorem trimLeft_eq {done gap rest : Bytes} {c : Nat} (hc : c ≤ done.length)
    (hdone : ∀ x ∈ done.drop c, isDelimiter x = true) (hgap : ∀ x ∈ gap, isDelimiter x = true)
    (hrest : ∀ x ∈ rest.head?, isDelimiter x = false) :
    trimLeft (done ++ (gap ++ rest)) c = done.length + gap.length := by
  have hdrop : (done ++ (gap ++ rest)).drop c = (done.drop c ++ gap) ++ rest := by
    rw [List.drop_append_of_le_length hc, List.append_assoc]
  have hall : ∀ x ∈ done.drop c ++ gap, isDelimiter x = true := by
    intro x hx
    rcases List.mem_append.1 hx with h | h
    · exact hdone x h
    · exact hgap x h
  rw [trimLeft, hdrop, takeWhile_append_of_head hall hrest, List.length_append, List.length_drop]
  omega

theorem endOfToken_eq (pre : Bytes) {word : Bytes} (rest : Bytes) (hword : ∀ x ∈ word, isDelimiter x = false)
    (hrest : ∀ x ∈ rest.head?, isDelimiter x = true) :
    endOfToken (pre ++ (word ++ rest)) pre.length = pre.length + word.length := by
  rw [endOfToken, List.drop_left, takeWhile_append_of_head]
  · intro x hx
    simp [hword x hx]
  · intro x hx
    simp [hrest x hx]

theorem tokenizeLoop_tail (left : Nat) {done gap word : Bytes} {c : Nat} (offsets : List Nat)
    (hc : c ≤ done.length) (hdone : ∀ x ∈ done.drop c, isDelimiter x = true)
    (hgap : ∀ x ∈ gap, isDelimiter x = true) (hword : ∀ x ∈ word, isDelimiter x = false) :
    tokenizeLoop (left + 1) (done ++ (gap ++ word)) c offsets =
      { buf := done ++ (gap ++ word), offsets := offsets, nbTokens := offsets.length } := by
  have hstart : trimLeft (done ++ (gap ++ word)) c = done.length + gap.length := by
    refine trimLeft_eq hc hdone hgap ?_
    intro x hx
    exact hword x (List.mem_of_mem_head? hx)
  have hstop : endOfToken (done ++ (gap ++ word)) (done.length + gap.length) =
      done.length + gap.length + word.length := by
    have h := endOfToken_eq (done ++ gap) [] hword (by simp)
    simpa using h
  unfold tokenizeLoop
  simp only [hstart, hstop]
  split
  · rfl
  · rw [if_pos]
    simp only [List.length_append]
    omega

/-- The loop cuts the tokens one after the other, and stops at the last one or for lack of room. -/
theorem tokenizeLoop_eq {left : Nat} {ts : List (Tok UInt8)} {done gap word : Bytes} {c : Nat}
    {offsets : List Nat} (hts : ∀ t ∈ ts, t.Ok isDelimiter) (hc : c ≤ done.length)
    (hdone : ∀ x ∈ done.drop c, isDelimiter x = true) (hgap : ∀ x ∈ gap, isDelimiter x = true)
    (hword : ∀ x ∈ word, isDelimiter x = false) :
    tokenizeLoop left (done ++ (ts.flatMap Tok.text ++ (gap ++ word))) c offsets =
      { buf := done ++ ((ts.take left).flatMap cutText ++
          ((ts.drop left).flatMap Tok.text ++ (gap ++ word)))
        offsets := offsets ++ starts done.length (ts.take left)
        nbTokens := if ts.length < left then ((offsets.length + ts.length : Nat) : Int) else -E2BIG } := by
  induction left generalizing ts done c offsets with
  | zero => simp [tokenizeLoop, starts]
  | succ left ih =>
      cases ts with
      | nil =>
          have h := tokenizeLoop_tail left offsets hc hdone hgap hword
          simpa [starts] using h
      | cons t ts =>
          have ht : t.Ok isDelimiter := hts t List.mem_cons_self
          let rest := ts.flatMap Tok.text ++ (gap ++ word)
          have hbuf : done ++ ((t :: ts).flatMap Tok.text ++ (gap ++ word)) =
              done ++ (t.gap ++ (t.word ++ t.stop :: rest)) := by
            simp [Tok.text, rest]
          have hstart : trimLeft (done ++ (t.gap ++ (t.word ++ t.stop :: rest))) c =
              (done ++ t.gap).length := by
            rw [List.length_append]
            refine trimLeft_eq hc hdone ht.gap ?_
            intro x hx
            apply ht.word x
            cases hw : t.word with
            | nil => exact absurd hw ht.ne_nil
            | cons d ds =>
                rw [hw] at hx
                simp at hx
                simp [hx]
          have hstop : endOfToken (done ++ (t.gap ++ (t.word ++ t.stop :: rest)))
              (done ++ t.gap).length = (done ++ t.gap ++ t.word).length := by
            have h := endOfToken_eq (done ++ t.gap) (t.stop :: rest) ht.word
              (by simpa using ht.stop)
            rw [List.append_assoc] at h
            rw [h]
            exact List.length_append.symm
          have hset : (done ++ (t.gap ++ (t.word ++ t.stop :: rest))).set
              (done ++ t.gap ++ t.word).length 0 = (done ++ cutText t) ++ rest := by
            have hassoc : done ++ (t.gap ++ (t.word ++ t.stop :: rest)) =
                (done ++ t.gap ++ t.word) ++ t.stop :: rest := by simp
            rw [hassoc, List.set_append_right _ _ (Nat.le_refl _)]
            simp [cutText]
          have hlen : (done ++ (t.gap ++ (t.word ++ t.stop :: rest))).length =
              (done ++ t.gap ++ t.word).length + 1 + rest.length := by
            simp only [List.length_append, List.length_cons]
            omega
          have hle : (done ++ t.gap).length ≤ (done ++ t.gap ++ t.word).length := by
            simp only [List.length_append]
            omega
          -- the NUL that was just written is the only byte between `c` and the next gap
          have hnext := @ih ts (done ++ cutText t) (done ++ t.gap ++ t.word).length
            (offsets ++ [(done ++ t.gap).length])
            (fun u hu => hts u (List.mem_cons_of_mem _ hu)) (by simp [cutText])
            (by
              have hdrop : (done ++ cutText t).drop (done ++ t.gap ++ t.word).length = [0] := by
                have hassoc : done ++ cutText t = (done ++ t.gap ++ t.word) ++ [0] := by
                  simp [cutText]
                rw [hassoc, List.drop_left]
              rw [hdrop]
              intro x hx
              rw [List.mem_singleton.1 hx]
              decide)
          rw [hbuf]
          unfold tokenizeLoop
          simp only [hstart, hstop]
          rw [if_neg (by omega), if_neg (by omega), hset, hnext]
          simp only [List.take_succ_cons, List.drop_succ_cons, List.flatMap_cons, starts,
            List.length_append, length_cutText, List.length_cons, List.append_assoc, List.cons_append,
            List.nil_append, Nat.succ_lt_succ_iff, Tokens.mk.injEq, true_and]
          split
          · push_cast
            simp only [List.length_nil]
            push_cast
            omega
          · rfl

/-- A line is its tokens and an end that is no token. -/
theorem line_eq (line : Bytes) :
    ∃ gap word, line = (lineToks line).flatMap Tok.text ++ (gap ++ word) ∧
      (∀ x ∈ gap, isDelimiter x = true) ∧ ∀ x ∈ word, isDelimiter x = false := by
  rcases tail_eq line with ⟨gap, word, htail, hgap, hword⟩
  refine ⟨gap, word, ?_, hgap, hword⟩
  rw [← htail]
  exact eq_toks_append isDelimiter line

/-- A buffer that holds cut tokens, and where they are. -/
structure Laid (tk : Tokens) (ts : List (Tok UInt8)) (tail : Bytes) : Prop where
  ok : ∀ t ∈ ts, t.Ok isDelimiter
  buf : tk.buf = ts.flatMap cutText ++ tail
  offsets : tk.offsets = starts 0 ts

/-- The tokens that there is room for are cut, and counted unless there are too many of them. -/
theorem tokenize_spec (line : Bytes) :
    ∃ tail, Laid (tokenize line) ((lineToks line).take CMD_MAX_ARGS) tail ∧
      (tokenize line).nbTokens =
        if (lineToks line).length < CMD_MAX_ARGS then ((lineToks line).length : Int) else -E2BIG := by
  have hok : ∀ t ∈ lineToks line, t.Ok isDelimiter := fun t ht => toks_ok ht
  rcases line_eq line with ⟨gap, word, hline, hgap, hword⟩
  have h := @tokenizeLoop_eq CMD_MAX_ARGS (lineToks line) [] gap word 0 [] hok
    (by simp) (by simp) hgap hword
  simp only [List.nil_append, ← hline, List.length_nil, Nat.zero_add] at h
  refine ⟨((lineToks line).drop CMD_MAX_ARGS).flatMap Tok.text ++ (gap ++ word),
    ⟨fun t ht => hok t (List.mem_of_mem_take ht), ?_, ?_⟩, ?_⟩
  · rw [tokenize, h]
  · rw [tokenize, h]
  · rw [tokenize, h]

theorem getElem?_starts (p i : Nat) (ts : List (Tok UInt8)) :
    (starts p ts)[i]? =
      ts[i]?.map (fun t => p + ((ts.take i).flatMap cutText).length + t.gap.length) := by
  induction ts generalizing p i with
  | nil => simp [starts]
  | cons t ts ih =>
      cases i with
      | zero => simp [starts]
      | succ i =>
          simp only [starts, List.getElem?_cons_succ, List.take_succ_cons, List.flatMap_cons,
            List.length_append, length_cutText, ih]
          congr 1
          funext u
          omega

theorem Laid.getElem?_offsets {tk : Tokens} {ts : List (Tok UInt8)} {tail : Bytes}
    (h : Laid tk ts tail) (i : Nat) :
    tk.offsets[i]? =
      ts[i]?.map (fun t => ((ts.take i).flatMap cutText).length + t.gap.length) := by
  rw [h.offsets, getElem?_starts]
  simp

/-! ## Strings -/

theorem zero_not_mem_word {t : Tok UInt8} (ht : t.Ok isDelimiter) : (0 : UInt8) ∉ t.word := by
  intro h0
  have h := ht.word 0 h0
  revert h
  decide

theorem cstr_word {t : Tok UInt8} (ht : t.Ok isDelimiter) (rest : Bytes) :
    cstr (t.word ++ rest) = t.word ++ cstr rest :=
  cstr_append (zero_not_mem_word ht) rest

/-- The string of a token, whatever comes after it. -/
theorem string_eq (tk : Tokens) {pre rest : Bytes} {t : Tok UInt8} {i : Nat} (ht : t.Ok isDelimiter)
    (hbuf : tk.buf = pre ++ (t.gap ++ (t.word ++ rest)))
    (hoff : tk.offsets[i]? = some (pre.length + t.gap.length)) :
    tk.string i = .ok (t.word ++ cstr rest) := by
  have hdrop : tk.buf.drop (pre.length + t.gap.length) = t.word ++ rest := by
    rw [hbuf, ← List.append_assoc, ← List.length_append, List.drop_left]
  rw [Tokens.string, hoff]
  simp only [hdrop, cstr_word ht]

theorem Laid.string {tk : Tokens} {ts : List (Tok UInt8)} {tail : Bytes} (h : Laid tk ts tail) {i : Nat}
    {t : Tok UInt8} (hi : ts[i]? = some t) : tk.string i = .ok t.word := by
  rcases List.getElem?_eq_some_iff.1 hi with ⟨hlt, rfl⟩
  have hsplit : ts = ts.take i ++ ts[i] :: ts.drop (i + 1) := by
    rw [← List.drop_eq_getElem_cons hlt, List.take_append_drop]
  have hoff := h.getElem?_offsets i
  rw [hi] at hoff
  have hbuf : tk.buf = (ts.take i).flatMap cutText ++ (ts[i].gap ++ (ts[i].word ++
      0 :: ((ts.drop (i + 1)).flatMap cutText ++ tail))) := by
    have hflat := congrArg (List.flatMap cutText) hsplit
    rw [List.flatMap_append, List.flatMap_cons] at hflat
    rw [h.buf, hflat]
    simp [cutText]
  have hs := string_eq tk (h.ok _ (List.getElem_mem hlt)) hbuf hoff
  simpa [cstr] using hs

/-! ## Glueing -/

/-- A token that follows another one, from the NUL that ends the latter. -/
def segText (t : Tok UInt8) : Bytes :=
  0 :: t.gap ++ t.word

/-- The same once the byte in front of its text was made a space. -/
def gluedText (t : Tok UInt8) : Bytes :=
  (0 :: t.gap).dropLast ++ 32 :: t.word

@[simp] theorem length_segText (t : Tok UInt8) : (segText t).length = t.text.length := by
  simp [segText, Tok.text]
  omega

/-- The NULs that end tokens are those in front of the next ones. -/
theorem zero_flatMap_cutText (ts : List (Tok UInt8)) (tail : Bytes) :
    0 :: (ts.flatMap cutText ++ tail) = ts.flatMap segText ++ 0 :: tail := by
  induction ts with
  | nil => rfl
  | cons t ts ih =>
      simp only [List.flatMap_cons, List.append_assoc, ← ih]
      simp [cutText, segText]

/-- Glueing goes from the last token to the first, hence the induction from the right. -/
theorem glue_eq (skip nbArgMax : Nat) {us : List (Tok UInt8)} {tk : Tokens} {pre tail : Bytes}
    (hbuf : tk.buf = pre ++ (us.flatMap segText ++ tail))
    (hoff : ∀ j u, us[j]? = some u → tk.offsets[skip + (nbArgMax + j)]? =
      some (pre.length + ((us.take j).flatMap segText).length + 1 + u.gap.length)) :
    glue skip nbArgMax us.length tk =
      .ok { tk with buf := pre ++ (us.flatMap gluedText ++ tail) } := by
  -- the code glues from the last token on
  induction us using List.reverseRecOn generalizing tk tail with
  | nil =>
      simp only [List.flatMap_nil, List.nil_append] at hbuf
      simp [glue, ← hbuf]
  | append_singleton us u ih =>
      have hu := hoff us.length u (by simp)
      rw [List.take_left] at hu
      -- what is before the last byte of the gap, which becomes the blank
      let before := pre ++ us.flatMap segText ++ (0 :: u.gap).dropLast
      have hlen : before.length = pre.length + (us.flatMap segText).length + u.gap.length := by
        simp only [before, List.length_append, List.length_dropLast, List.length_cons]
        omega
      have hsplit : tk.buf =
          before ++ (0 :: u.gap).getLast (List.cons_ne_nil _ _) :: (u.word ++ tail) := by
        have hgap := List.dropLast_append_getLast (List.cons_ne_nil (0 : UInt8) u.gap)
        have hseg : segText u =
            (0 :: u.gap).dropLast ++ [(0 :: u.gap).getLast (List.cons_ne_nil _ _)] ++ u.word := by
          rw [hgap]
          rfl
        rw [hbuf]
        simp only [List.flatMap_append, List.flatMap_cons, List.flatMap_nil, hseg, before]
        simp
      have hset : tk.buf.set (before.length + 1 - 1) 32 =
          pre ++ (us.flatMap segText ++ (gluedText u ++ tail)) := by
        rw [hsplit, Nat.add_sub_cancel, List.set_append_right _ _ (Nat.le_refl _)]
        simp [before, gluedText]
      have hoff' : tk.offsets[skip + (nbArgMax + us.length)]? = some (before.length + 1) := by
        rw [hu, hlen]
        congr 1
        omega
      have hin : before.length + 1 ≤ tk.buf.length := by
        rw [hsplit]
        simp
      rw [List.length_append, List.length_singleton, glue, hoff']
      simp only [Nat.succ_pos, hin, and_self, if_true, hset]
      rw [ih rfl]
      · simp
      · intro j v hj
        have hlt : j < us.length := (List.getElem?_eq_some_iff.1 hj).1
        have h := hoff j v (by rw [List.getElem?_append_left hlt, hj])
        rw [List.take_append_of_le_length (by omega)] at h
        exact h

/-- What the string in front of glued tokens goes on with: it stops where two delimiters follow each
other. -/
def gluedRest : List (Tok UInt8) → Bytes
  | [] => []
  | t :: ts => if t.gap = [] then 32 :: t.word ++ gluedRest ts else []

theorem cstr_gluedRest {ts : List (Tok UInt8)} (hts : ∀ t ∈ ts, t.Ok isDelimiter) (tail : Bytes) :
    cstr (ts.flatMap gluedText ++ 0 :: tail) = gluedRest ts := by
  induction ts with
  | nil => rfl
  | cons t ts ih =>
      have ht : t.Ok isDelimiter := hts t List.mem_cons_self
      have hnext := ih fun u hu => hts u (List.mem_cons_of_mem _ hu)
      rw [List.flatMap_cons, List.append_assoc, gluedText, gluedRest]
      by_cases hgap : t.gap = []
      · rw [if_pos hgap, hgap]
        have h := cstr_word ht (ts.flatMap gluedText ++ 0 :: tail)
        rw [hnext] at h
        rw [List.cons_append, ← h]
        rfl
      · rw [if_neg hgap, List.dropLast_cons_of_ne_nil hgap]
        rfl

/-! ## Arguments -/

/-- The text of the argument that takes all these tokens. -/
def glued : List (Tok UInt8) → Bytes
  | [] => []
  | t :: ts => t.word ++ gluedRest ts

/-- The texts of the arguments, when those in excess are glued or not. -/
def argTexts (d : CmdDef) (swallow : Bool) (args : List (Tok UInt8)) : List Bytes :=
  if swallow then
    (args.take (d.nbArgMax - 1)).map Tok.word ++ [glued (args.drop (d.nbArgMax - 1))]
  else args.map Tok.word

def convert (d : CmdDef) : Nat → List Bytes → Except CmdErr (List CmdArg)
  | _, [] => .ok []
  | a, s :: ss => do
      let integer ← d.isInteger a
      let arg ← transcodeArg integer s
      let args ← convert d (a + 1) ss
      .ok (arg :: args)

theorem transcode_eq {d : CmdDef} {skip : Nat} {tk : Tokens} {texts : List Bytes}
    (htexts : ∀ i s, texts[i]? = some s → tk.string (skip + i) = .ok s)
    (hlen : texts.length ≤ CMD_MAX_ARGS) {n a : Nat} (hn : a + n = texts.length) :
    transcode d skip tk n a = convert d a (texts.drop a) := by
  induction n generalizing a with
  | zero =>
      rw [List.drop_eq_nil_of_le (by omega)]
      rfl
  | succ n ih =>
      have hlt : a < texts.length := by omega
      have hs := htexts a texts[a] (List.getElem?_eq_getElem hlt)
      have hnext := ih (a := a + 1) (by omega)
      rw [List.drop_eq_getElem_cons hlt, transcode, convert, hs, hnext]
      have hin : ¬ CMD_MAX_ARGS ≤ a := by omega
      simp [hin, bind, Except.bind]

/-- `build_cmd` on the tokens of the arguments. -/
def buildToks (d : CmdDef) (args : List (Tok UInt8)) : Except CmdErr (List CmdArg) :=
  if args.length < d.nbArgMin then
    raise EDOM (ascii "Bad nb args (" ++ decimal args.length ++ ascii ")")
  else do
    let swallow ← swallows d args.length
    convert d 0 (argTexts d swallow args)

theorem swallows_true {d : CmdDef} {n : Nat} (h : swallows d n = .ok true) :
    0 < d.nbArgMax ∧ d.nbArgMax < n := by
  unfold swallows at h
  by_cases hn : d.nbArgMax < n
  · refine ⟨?_, hn⟩
    by_contra h0
    have hzero : d.nbArgMax = 0 := by omega
    -- `types[-1u]` is out of the array
    have hfault : d.typeAt (unsignedPred 0) = .error (.fault (.types (2 ^ 32 - 1))) := rfl
    rw [if_pos hn, hzero, if_neg (Nat.not_lt_zero _), hfault] at h
    cases h
  · rw [if_neg hn] at h
    cases h

section Build

variable {tk : Tokens} {ts : List (Tok UInt8)} {tail : Bytes}

/-- The tokens once those behind `t` are glued to it. -/
def Tokens.glued (tk : Tokens) (before : List (Tok UInt8)) (t : Tok UInt8) (us : List (Tok UInt8))
    (tail : Bytes) : Tokens :=
  { tk with buf := before.flatMap cutText ++ (t.gap ++ (t.word ++ (us.flatMap gluedText ++ 0 :: tail))) }

variable {before us : List (Tok UInt8)} {t : Tok UInt8}

theorem Laid.glue_eq (h : Laid tk (before ++ t :: us) tail) {skip nbArgMax : Nat}
    (hk : before.length + 1 = skip + nbArgMax) :
    glue skip nbArgMax us.length tk = .ok (tk.glued before t us tail) := by
  have hbuf : tk.buf =
      (before.flatMap cutText ++ (t.gap ++ t.word)) ++ (us.flatMap segText ++ 0 :: tail) := by
    rw [h.buf, ← zero_flatMap_cutText]
    simp [cutText]
  have hglue := Scambio.glue_eq skip nbArgMax hbuf
    (by
      intro j u hj
      have hidx : skip + (nbArgMax + j) = before.length + (j + 1) := by omega
      have hget : (before ++ t :: us)[before.length + (j + 1)]? = some u := by
        rw [List.getElem?_append_right (by omega), Nat.add_sub_cancel_left, List.getElem?_cons_succ,
          hj]
      have htake : (before ++ t :: us).take (before.length + (j + 1)) = before ++ t :: us.take j := by
        rw [List.take_append, Nat.add_sub_cancel_left, List.take_of_length_le (by omega),
          List.take_succ_cons]
      have hseg : ((us.take j).flatMap cutText).length = ((us.take j).flatMap segText).length := by
        simp [List.length_flatMap]
      rw [hidx, h.getElem?_offsets, hget, htake, Option.map_some]
      simp only [List.flatMap_append, List.flatMap_cons, List.length_append, hseg, cutText,
        List.length_singleton]
      congr 1
      omega)
  rw [hglue]
  simp [Tokens.glued]

/-- In front of the token that swallows nothing has changed. -/
theorem Laid.string_before (h : Laid tk (before ++ t :: us) tail) {i : Nat} {u : Tok UInt8}
    (hi : before[i]? = some u) : (tk.glued before t us tail).string i = .ok u.word := by
  rcases List.getElem?_eq_some_iff.1 hi with ⟨hlt, rfl⟩
  have hsplit : before = before.take i ++ before[i] :: before.drop (i + 1) := by
    rw [← List.drop_eq_getElem_cons hlt, List.take_append_drop]
  have hoff := h.getElem?_offsets i
  rw [List.getElem?_append_left hlt, hi, List.take_append_of_le_length (by omega)] at hoff
  have hok : before[i].Ok isDelimiter :=
    h.ok _ (List.mem_append_left _ (List.getElem_mem hlt))
  have hbuf : (tk.glued before t us tail).buf = (before.take i).flatMap cutText ++
      (before[i].gap ++ (before[i].word ++ 0 :: ((before.drop (i + 1)).flatMap cutText ++
        (t.gap ++ (t.word ++ (us.flatMap gluedText ++ 0 :: tail)))))) := by
    have hflat := congrArg (List.flatMap cutText) hsplit
    rw [List.flatMap_append, List.flatMap_cons] at hflat
    rw [Tokens.glued, hflat]
    simp [cutText]
  have hs := string_eq (tk.glued before t us tail) hok hbuf hoff
  simpa [cstr] using hs

theorem Laid.string_glued (h : Laid tk (before ++ t :: us) tail) :
    (tk.glued before t us tail).string before.length = .ok (Scambio.glued (t :: us)) := by
  have hoff := h.getElem?_offsets before.length
  rw [List.getElem?_append_right (Nat.le_refl _), Nat.sub_self, List.getElem?_cons_zero,
    List.take_left] at hoff
  have hok : t.Ok isDelimiter := h.ok t (by simp)
  have hus : ∀ u ∈ us, u.Ok isDelimiter := fun u hu => h.ok u (by simp [hu])
  have hs := string_eq (tk.glued before t us tail) hok rfl hoff
  rw [hs, Scambio.glued, cstr_gluedRest hus]

/-- The strings of the arguments once glued. -/
theorem Laid.glue_args (h : Laid tk ts tail) {skip nbArgMax : Nat} (hpos : 0 < nbArgMax)
    (hlt : nbArgMax < (ts.drop skip).length) :
    ∃ tk', glue skip nbArgMax ((ts.drop skip).length - nbArgMax) tk = .ok tk' ∧
      ∀ i s, (((ts.drop skip).take (nbArgMax - 1)).map Tok.word ++
        [Scambio.glued ((ts.drop skip).drop (nbArgMax - 1))])[i]? = some s →
          tk'.string (skip + i) = .ok s := by
  have hlen : skip + nbArgMax < ts.length := by
    rw [List.length_drop] at hlt
    omega
  have hk : skip + (nbArgMax - 1) < ts.length := by omega
  have hdrop := List.drop_eq_getElem_cons hk
  have hbefore : (ts.take (skip + (nbArgMax - 1))).length = skip + (nbArgMax - 1) := by
    rw [List.length_take]
    omega
  have hlaid : Laid tk (ts.take (skip + (nbArgMax - 1)) ++
      ts[skip + (nbArgMax - 1)] :: ts.drop (skip + (nbArgMax - 1) + 1)) tail := by
    rw [← hdrop, List.take_append_drop]
    exact h
  have hn : (ts.drop skip).length - nbArgMax = (ts.drop (skip + (nbArgMax - 1) + 1)).length := by
    simp only [List.length_drop]
    omega
  have hwords : (((ts.drop skip).take (nbArgMax - 1)).map Tok.word).length = nbArgMax - 1 := by
    rw [List.length_map, List.length_take]
    omega
  refine ⟨_, hn ▸ hlaid.glue_eq (by omega), ?_⟩
  intro i s hi
  by_cases hlast : i < nbArgMax - 1
  · rw [List.getElem?_append_left (by omega), List.getElem?_map, List.getElem?_take_of_lt hlast,
      List.getElem?_drop] at hi
    rcases Option.map_eq_some_iff.1 hi with ⟨u, hu, rfl⟩
    apply hlaid.string_before
    rw [List.getElem?_take_of_lt (by omega), hu]
  · have hi' : i = nbArgMax - 1 := by
      have hsome := (List.getElem?_eq_some_iff.1 hi).1
      rw [List.length_append, hwords, List.length_singleton] at hsome
      omega
    have hstr := hlaid.string_glued
    rw [hbefore] at hstr
    rw [hi', List.getElem?_append_right (by omega), hwords, Nat.sub_self, List.getElem?_cons_zero,
      List.drop_drop, hdrop, Option.some.injEq] at hi
    rw [hi', hstr, hi]

theorem Laid.buildCmd_eq (h : Laid tk ts tail) (hlen : ts.length ≤ CMD_MAX_ARGS) (d : CmdDef)
    (skip : Nat) : buildCmd d skip (ts.drop skip).length tk = buildToks d (ts.drop skip) := by
  have hargs : (ts.drop skip).length ≤ CMD_MAX_ARGS := by
    rw [List.length_drop]
    omega
  unfold buildCmd buildToks
  by_cases hmin : (ts.drop skip).length < d.nbArgMin
  · rw [if_pos hmin, if_pos hmin]
  · rw [if_neg hmin, if_neg hmin]
    rcases hsw : swallows d (ts.drop skip).length with e | _ | _
    · rfl
    · -- nothing to glue
      have hstr : ∀ i s, ((ts.drop skip).map Tok.word)[i]? = some s →
          tk.string (skip + i) = .ok s := by
        intro i s hi
        rw [List.getElem?_map, List.getElem?_drop] at hi
        rcases Option.map_eq_some_iff.1 hi with ⟨t, ht, rfl⟩
        exact h.string ht
      have htr := transcode_eq (d := d) hstr (by simpa using hargs) (n := (ts.drop skip).length)
        (a := 0) (by simp)
      simpa [argTexts, bind, Except.bind] using htr
    · rcases swallows_true hsw with ⟨hpos, hlt⟩
      rcases h.glue_args hpos hlt with ⟨tk', hglue, hstr⟩
      have htr := transcode_eq (d := d) hstr
        (by
          simp only [List.length_append, List.length_map, List.length_take, List.length_singleton]
          omega)
        (n := d.nbArgMax) (a := 0)
        (by
          simp only [List.length_append, List.length_map, List.length_take, List.length_singleton]
          omega)
      simp only [bind, Except.bind, if_true, hglue, argTexts]
      exact htr

end Build

/-! ## Lines -/

/-- `parse_line` on the tokens of the line. -/
def parseToks (defs : List CmdDef) : List (Tok UInt8) → Parse
  | [] => { nbArgs := none, result := raise EINVAL (ascii "No token found on line") }
  | t :: ts =>
      if isSeq t.word then
        match ts with
        | [] => { nbArgs := none, result := raise EINVAL (ascii "Bad number of tokens (1)") }
        | k :: args =>
            { nbArgs := some args.length
              result := do
                let seq ← readSeq t.word
                dispatch defs seq k.word (fun d => buildToks d args) }
      else
        { nbArgs := some ts.length
          result := dispatch defs 0 t.word (fun d => buildToks d ts) }

/-- The buffer and its pointers do what is told on the tokens. -/
theorem parseTokens_tokenize (defs : List CmdDef) {line : Bytes}
    (hlen : (lineToks line).length < CMD_MAX_ARGS) :
    parseTokens defs (tokenize line) = parseToks defs (lineToks line) := by
  rcases tokenize_spec line with ⟨tail, hlaid, hnb⟩
  rw [if_pos hlen] at hnb
  rw [List.take_of_length_le (by omega)] at hlaid
  have hmax : (lineToks line).length < 64 := hlen
  have hbuild := fun d skip => hlaid.buildCmd_eq (by omega) d skip
  generalize lineToks line = ts at hlaid hnb hbuild hmax
  cases ts with
  | nil =>
      unfold parseTokens parseToks
      rw [if_pos (by simpa using hnb)]
  | cons t ts =>
      have hfirst : (tokenize line).string 0 = .ok t.word := hlaid.string rfl
      have hne : ¬ (tokenize line).nbTokens = 0 := by
        rw [hnb, List.length_cons]
        omega
      unfold parseTokens parseToks
      rw [if_neg hne, hfirst]
      rw [List.length_cons] at hmax
      -- with a sequence number the keyword is the second word, else the first
      by_cases hseq : isSeq t.word = true
      · cases ts with
        | nil =>
            rw [List.length_singleton] at hnb
            simp only [hseq, hnb]
            rfl
        | cons k args =>
            rw [List.length_cons] at hmax
            have htwo : ¬ (tokenize line).nbTokens < 2 := by
              rw [hnb, List.length_cons, List.length_cons]
              omega
            have hargs : (((tokenize line).nbTokens - (2 : Nat)) % 2 ^ 32).toNat = args.length := by
              rw [hnb, List.length_cons, List.length_cons]
              omega
            have hkw : (tokenize line).string 1 = .ok k.word := hlaid.string rfl
            simp only [hseq, htwo, and_false, if_false, if_true, hargs, hkw]
            have hb : ∀ d, buildCmd d 2 args.length (tokenize line) = buildToks d args :=
              fun d => hbuild d 2
            simp only [hb]
            rfl
      · have hseq' : isSeq t.word = false := by simpa using hseq
        have hargs : (((tokenize line).nbTokens - (1 : Nat)) % 2 ^ 32).toNat = ts.length := by
          rw [hnb, List.length_cons]
          omega
        have hb : ∀ d, buildCmd d 1 ts.length (tokenize line) = buildToks d ts := fun d => hbuild d 1
        simp only [hseq', Bool.false_eq_true, false_and, if_false, hargs, Nat.sub_self, hfirst, hb]
        rfl

end Scambio
