import Mathlib.Algebra.BigOperators.Group.List.Basic
import Scambio.Sendmail.Forwarder

/-!
# SmtpLines — the lines that are sent to the relay (`sendmail/forwarder.c`)

`send_smtp_nstrs` gives each of its strings to `snprintf` as the format, and adds up what is returned.

* `formatted`        : what a format makes that comes without arguments;
* `sendSmtpNstrs`    : what is written, or the error;
* `sentAsGiven_iff`  : the strings that are sent as they are given.
-/

namespace Scambio

def INT_MAX : Nat := 2147483647

/-- A conversion for which no argument is given, or one that does not exist. -/
inductive FormatFault
  | undefined
  deriving DecidableEq, Repr

/-- What a format makes without arguments; `%%` is the only conversion that needs none. -/
def formatted : Bytes → Option Bytes
  | [] => some []
  | [c] => if c = 37 then none else some [c]
  | c :: d :: fmt =>
      if c = 37 then if d = 37 then (formatted fmt).map (37 :: ·) else none
      else (formatted (d :: fmt)).map (c :: ·)

/-- The error of `send_smtp_nstrs`, with what is in `cmd`. -/
def commandTooLong (cmd : Bytes) : Err :=
  .push 0 (ascii "Command too long : '" ++ snprintf MAX_SMTP_LINE cmd ++ ascii "...'")

/-- The strings are printed into `cmd` one after the other, as long as there is room. -/
def printAll : Bytes → List Bytes → Except FormatFault (Except Err Bytes)
  | cmd, [] => .ok (.ok cmd)
  | cmd, arg :: args =>
      match formatted arg with
      | none => .error .undefined
      | some text =>
          if INT_MAX < text.length then
            -- `snprintf` returns -1, and `len` is unsigned
            if cmd = [] then .ok (.error (commandTooLong text)) else printAll cmd.dropLast args
          else if MAX_SMTP_LINE ≤ cmd.length + text.length then .ok (.error (commandTooLong (cmd ++ text)))
          else printAll (cmd ++ text) args

/-- `send_smtp_nstrs`: what it writes, or its error. -/
def sendSmtpNstrs (strs : List Bytes) : Except FormatFault (Except Err Bytes) :=
  printAll [] (strs ++ [ascii "\r\n"])

/-! ## Formats -/

theorem formatted_of_not_mem {fmt : Bytes} (h : (37 : UInt8) ∉ fmt) : formatted fmt = some fmt := by
  fun_induction formatted fmt with
  | case1 => rfl
  | case2 => exact absurd List.mem_cons_self h
  | case3 => rfl
  | case4 => exact absurd List.mem_cons_self h
  | case5 => exact absurd List.mem_cons_self h
  | case6 c d fmt hc ih => rw [ih (fun hmem => h (List.mem_cons_of_mem _ hmem))]; rfl

/-- Each `%%` makes the text shorter. -/
theorem length_formatted {fmt text : Bytes} (h : formatted fmt = some text) :
    text.length ≤ fmt.length ∧ (text.length = fmt.length → (37 : UInt8) ∉ fmt) := by
  fun_induction formatted fmt generalizing text with
  | case1 => cases h; simp
  | case2 => cases h
  | case3 c hc => cases h; simpa using Ne.symm hc
  | case4 fmt ih =>
      obtain ⟨rest, hrest, rfl⟩ := Option.map_eq_some_iff.1 h
      have hle := (ih hrest).1
      simp only [List.length_cons]
      exact ⟨by omega, fun heq => by omega⟩
  | case5 => cases h
  | case6 c d fmt hc ih =>
      obtain ⟨rest, hrest, rfl⟩ := Option.map_eq_some_iff.1 h
      have hle := ih hrest
      refine ⟨Nat.succ_le_succ hle.1, fun heq hmem => ?_⟩
      rcases List.mem_cons.1 hmem with hfirst | hmem
      · exact hc hfirst.symm
      · exact hle.2 (Nat.succ.inj heq) hmem

/-! ## Lines that fit -/

theorem printAll_plain {args : List Bytes} (hplain : ∀ s ∈ args, (37 : UInt8) ∉ s) {cmd : Bytes}
    (hfits : cmd.length + args.flatten.length < MAX_SMTP_LINE) :
    printAll cmd args = .ok (.ok (cmd ++ args.flatten)) := by
  induction args generalizing cmd with
  | nil => simp [printAll]
  | cons arg args ih =>
      have hlen : (arg :: args).flatten.length = arg.length + args.flatten.length := by simp
      have hsmall : ¬ INT_MAX < arg.length := by
        have hmax : MAX_SMTP_LINE ≤ INT_MAX := by decide
        omega
      have hroom : ¬ MAX_SMTP_LINE ≤ cmd.length + arg.length := by omega
      have hnext : (cmd ++ arg).length + args.flatten.length < MAX_SMTP_LINE := by
        rw [List.length_append]
        omega
      have hrest := ih (fun s hs => hplain s (List.mem_cons_of_mem _ hs)) hnext
      rw [printAll, formatted_of_not_mem (hplain arg List.mem_cons_self)]
      simp only [if_neg hsmall, if_neg hroom]
      rw [hrest, List.flatten_cons, List.append_assoc]

/-- What is printed is never longer than the strings, and as long without a `%` only. -/
theorem length_printAll {args : List Bytes} {cmd out : Bytes} (h : printAll cmd args = .ok (.ok out)) :
    out.length ≤ cmd.length + args.flatten.length ∧
      (out.length = cmd.length + args.flatten.length → ∀ s ∈ args, (37 : UInt8) ∉ s) := by
  induction args generalizing cmd with
  | nil =>
      rw [printAll, Except.ok.injEq, Except.ok.injEq] at h
      subst h
      exact ⟨Nat.le_add_right _ _, fun _ => nofun⟩
  | cons arg args ih =>
      have hlen : (arg :: args).flatten.length = arg.length + args.flatten.length := by simp
      rw [printAll] at h
      cases hformat : formatted arg with
      | none =>
          rw [hformat] at h
          cases h
      | some text =>
          rw [hformat] at h
          have htext := length_formatted hformat
          simp only at h
          split at h
          next hlong =>
            split at h
            · cases h
            next hcmd =>
              -- one byte is taken back, so the length is out of reach
              have hrest := (ih h).1
              have hdrop : cmd.dropLast.length = cmd.length - 1 := List.length_dropLast
              exact ⟨by omega, fun heq => by omega⟩
          next hlong =>
            split at h
            · cases h
            next hroom =>
              have hrest := ih h
              rw [List.length_append] at hrest
              refine ⟨by omega, fun heq s hs => ?_⟩
              rcases List.mem_cons.1 hs with rfl | hs
              · exact htext.2 (by omega)
              · exact hrest.2 (by omega) s hs

/-! ## Lines that do not fit -/

/-- What `snprintf` returns. -/
def printedSize (fmt : Bytes) : Int :=
  match formatted fmt with
  | none => 0
  | some text => if INT_MAX < text.length then -1 else text.length

/-- The sizes of some of the strings from the first on add up to something that is not in the buffer, before a
conversion is met that is not defined. -/
def OutOfLine (size : Int) (args : List Bytes) : Prop :=
  ∃ k, (∀ s ∈ args.take k, (formatted s).isSome = true) ∧
    ¬ (0 ≤ size + ((args.take k).map printedSize).sum ∧
      size + ((args.take k).map printedSize).sum < (MAX_SMTP_LINE : Nat))

theorem not_outOfLine_nil {size : Int} (h : 0 ≤ size ∧ size < (MAX_SMTP_LINE : Nat)) : ¬ OutOfLine size [] := by
  rintro ⟨k, -, hout⟩
  rw [List.take_nil, List.map_nil, List.sum_nil, Int.add_zero] at hout
  exact hout h

/-- The first string is printed: the size is out of the buffer, or the others go on from there. -/
theorem outOfLine_cons {size : Int} (h : 0 ≤ size ∧ size < (MAX_SMTP_LINE : Nat)) (arg : Bytes) (args : List Bytes) :
    OutOfLine size (arg :: args) ↔ (formatted arg).isSome = true ∧
      (¬ (0 ≤ size + printedSize arg ∧ size + printedSize arg < (MAX_SMTP_LINE : Nat)) ∨
        OutOfLine (size + printedSize arg) args) := by
  constructor
  · rintro ⟨k, hformat, hout⟩
    cases k with
    | zero => exact absurd h (by simpa using hout)
    | succ k =>
        rw [List.take_succ_cons] at hformat hout
        rw [List.map_cons, List.sum_cons, ← Int.add_assoc] at hout
        exact ⟨hformat arg List.mem_cons_self, .inr ⟨k, fun s hs => hformat s (List.mem_cons_of_mem _ hs), hout⟩⟩
  · rintro ⟨harg, hout | ⟨k, hformat, hout⟩⟩
    · exact ⟨1, by simpa using harg, by simpa using hout⟩
    · refine ⟨k + 1, ?_, ?_⟩
      · rw [List.take_succ_cons]
        exact List.forall_mem_cons.2 ⟨harg, hformat⟩
      · rw [List.take_succ_cons, List.map_cons, List.sum_cons, ← Int.add_assoc]
        exact hout

/-- The error is raised when the size leaves the buffer. -/
theorem printAll_error {args : List Bytes} {cmd : Bytes} (hcmd : cmd.length < MAX_SMTP_LINE) :
    (∃ e, printAll cmd args = .ok (.error e)) ↔ OutOfLine cmd.length args := by
  -- while no error is raised, `len` is the length of `cmd`
  induction args generalizing cmd with
  | nil =>
      constructor
      · rintro ⟨e, he⟩
        cases he
      · exact fun h => absurd h (not_outOfLine_nil (by omega))
  | cons arg args ih =>
      rw [outOfLine_cons (by omega), printAll, printedSize]
      cases formatted arg with
      | none => simp
      | some text =>
          simp only [Option.isSome_some, true_and]
          split
          next hlong =>
            split
            next hempty =>
              subst hempty
              simp
            next hnonempty =>
              -- `len` is one less, and still in the buffer
              have hpos := List.length_pos_iff.2 hnonempty
              have hdrop : cmd.dropLast.length = cmd.length - 1 := List.length_dropLast
              have hsize : (cmd.length : Int) + -1 = cmd.dropLast.length := by omega
              have hin : ¬ ¬ (0 ≤ (cmd.dropLast.length : Int) ∧ (cmd.dropLast.length : Int) < (MAX_SMTP_LINE : Nat)) := by
                omega
              rw [ih (by omega), hsize, or_iff_right hin]
          next hshort =>
            split
            next hfull =>
              have hout : ¬ (0 ≤ (cmd.length : Int) + text.length ∧
                  (cmd.length : Int) + text.length < (MAX_SMTP_LINE : Nat)) := by
                omega
              simp [hout]
            next hroom =>
              have happend : (cmd ++ text).length = cmd.length + text.length := List.length_append
              have hsize : (cmd.length : Int) + text.length = (cmd ++ text).length := by omega
              have hin : ¬ ¬ (0 ≤ ((cmd ++ text).length : Int) ∧ ((cmd ++ text).length : Int) < (MAX_SMTP_LINE : Nat)) := by
                omega
              rw [ih (by omega), hsize, or_iff_right hin]

/-! ## All lines -/

/-- The strings as a line. -/
def smtpLine (strs : List Bytes) : Bytes :=
  strs.flatten ++ ascii "\r\n"

/-- The line is written when it is short enough, and an error is raised otherwise. -/
def SentAsGiven (strs : List Bytes) : Prop :=
  if (smtpLine strs).length < MAX_SMTP_LINE then sendSmtpNstrs strs = .ok (.ok (smtpLine strs))
  else ∃ e, sendSmtpNstrs strs = .ok (.error e)

theorem flatten_append_crlf (strs : List Bytes) : (strs ++ [ascii "\r\n"]).flatten = smtpLine strs := by
  rw [List.flatten_append, List.flatten_singleton, smtpLine]

/-- The strings that are sent as they are given. -/
theorem sentAsGiven_iff (strs : List Bytes) :
    SentAsGiven strs ↔
      if (smtpLine strs).length < MAX_SMTP_LINE then ∀ s ∈ strs, (37 : UInt8) ∉ s
      else OutOfLine 0 (strs ++ [ascii "\r\n"]) := by
  rw [SentAsGiven, sendSmtpNstrs]
  split
  next hfits =>
    constructor
    · intro h s hs
      have hlen := (length_printAll h).2
      rw [flatten_append_crlf, List.length_nil, Nat.zero_add] at hlen
      exact hlen rfl s (List.mem_append_left _ hs)
    · intro hplain
      have hall : ∀ s ∈ strs ++ [ascii "\r\n"], (37 : UInt8) ∉ s := by
        intro s hs
        rcases List.mem_append.1 hs with hs | hs
        · exact hplain s hs
        · rw [List.mem_singleton.1 hs]
          decide
      rw [printAll_plain hall (by rw [flatten_append_crlf, List.length_nil]; omega), flatten_append_crlf, List.nil_append]
  next => exact printAll_error (by decide)

/-- A subject that is read as a format. -/
theorem not_sentAsGiven : ¬ SentAsGiven [ascii "Subject: ", ascii "50%% off"] := by
  have hfits : (smtpLine [ascii "Subject: ", ascii "50%% off"]).length < MAX_SMTP_LINE := by decide
  rw [SentAsGiven, if_pos hfits]
  decide

theorem sum_printedSize {args : List Bytes} (h : ∀ s ∈ args, (37 : UInt8) ∉ s ∧ s.length ≤ INT_MAX) :
    (args.map printedSize).sum = args.flatten.length := by
  induction args with
  | nil => rfl
  | cons arg args ih =>
      have harg := h arg List.mem_cons_self
      have hsize : printedSize arg = arg.length := by
        simp only [printedSize, formatted_of_not_mem harg.1, if_neg (Nat.not_lt_of_ge harg.2)]
      rw [List.map_cons, List.sum_cons, hsize, ih fun s hs => h s (List.mem_cons_of_mem _ hs)]
      simp

/-- Strings without a `%` are sent as they are given, unless there is one that `snprintf` cannot count. -/
theorem sentAsGiven_of_plain {strs : List Bytes} (h : ∀ s ∈ strs, (37 : UInt8) ∉ s ∧ s.length ≤ INT_MAX) :
    SentAsGiven strs := by
  rw [sentAsGiven_iff]
  split
  · exact fun s hs => (h s hs).1
  next hlong =>
    have hall : ∀ s ∈ strs ++ [ascii "\r\n"], (37 : UInt8) ∉ s ∧ s.length ≤ INT_MAX := by
      intro s hs
      rcases List.mem_append.1 hs with hs | hs
      · exact h s hs
      · rw [List.mem_singleton.1 hs]
        decide
    refine ⟨(strs ++ [ascii "\r\n"]).length, ?_, ?_⟩
    · rw [List.take_length]
      intro s hs
      rw [formatted_of_not_mem (hall s hs).1]
      rfl
    · rw [List.take_length, sum_printedSize hall, flatten_append_crlf]
      omega

/-- What `Fits` says of a line or a command of a mail. -/
theorem fits_line_iff {strs : List Bytes} (h : ∀ s ∈ strs, (37 : UInt8) ∉ s ∧ s.length ≤ INT_MAX) :
    (Sending.line strs).Fits ↔ sendSmtpNstrs strs = .ok (.ok (smtpLine strs)) := by
  have hsent := sentAsGiven_of_plain h
  have hlen : (smtpLine strs).length = strs.flatten.length + 2 := List.length_append
  rw [SentAsGiven] at hsent
  rw [Sending.Fits, ← hlen, imp_iff_right fun s hs => (h s hs).1]
  split at hsent
  next hfits => exact iff_of_true hfits hsent
  next hlong =>
    rcases hsent with ⟨e, he⟩
    refine iff_of_false hlong ?_
    rw [he]
    nofun

end Scambio
