import Scambio.Lib.HeaderWire
import Scambio.Lib.Mdir
import Scambio.Commons.PositionalIO

/-!
# HeaderFiles — headers that are kept in a file (`lib/header.c`)

The permissions of a folder and the state of a stribution are headers in files of their own.  `header_to_file` opens
such a file without truncating it, so that the end of a longer header stays behind a shorter one.

- `headerToFile_quiet`: a call that raises nothing has written its header over the beginning of the file.
- `headerFromFile_rewritten_iff`: the file reads back as the header that was written last, if that has room in the
  buffers of `header_read` and of `parse`.
-/

namespace Scambio

open Library

/-! ## Writing at the place of a descriptor -/

/-- A file open for writing: its content, and the place of the next byte. -/
@[ext] structure OpenFile where
  file : Bytes
  pos : Nat
  place : pos ≤ file.length

def OpenFile.put (f : OpenFile) (bytes : Bytes) : OpenFile where
  file := overwrite 0 f.file f.pos bytes
  pos := f.pos + bytes.length
  place := by
    rw [length_overwrite]
    exact Nat.le_max_right _ _

/-- Where `open` leaves a file that it does not truncate. -/
def OpenFile.atStart (file : Bytes) : OpenFile :=
  ⟨file, 0, Nat.zero_le _⟩

/-- The loop of `Write`, by what is left of the buffer: the file, the answers of `pth_write` that are left, and the
error if one is raised.  The call has not returned when there are no answers any more. -/
def writeLoop : Bytes → List IoAnswer → OpenFile → Option (OpenFile × List IoAnswer × Option Err)
  | left, [], f => if left = [] then some (f, [], none) else none
  | left, answer :: answers, f =>
      if left = [] then some (f, answer :: answers, none)
      else
        match answer with
        | .failed errno =>
            if retryable errno then writeLoop left answers f
            else some (f, answers, some (.push errno (ascii "Cannot write " ++ printInt left.length ++ ascii " bytes")))
        | .moved n => writeLoop (left.drop n) answers (f.put (left.take n))

/-- The thread that writes, and what the system answers it. -/
structure Writer where
  eb : ErrBuf
  out : OpenFile
  answers : List IoAnswer

def Writer.write (w : Writer) (buf : Bytes) : Option Writer :=
  match writeLoop buf w.answers w.out with
  | none => none
  | some (out, answers, none) => some ⟨w.eb, out, answers⟩
  | some (out, answers, some e) => some ⟨w.eb.errorPush e, out, answers⟩

/-- `Write_strs`: nothing more is written once there is an error. -/
def Writer.writeStrs (w : Writer) : List Bytes → Option Writer
  | [] => some w
  | str :: strs => if w.eb.isError then some w else (w.write str).bind fun w => w.writeStrs strs

def Writer.fieldWrite (w : Writer) (hf : HeaderField) : Option Writer :=
  w.writeStrs [hf.name, ascii ": ", hf.value, ascii "\n"]

/-- `header_write`: the last end of line is written whatever became of the fields. -/
def Writer.headerWrite (w : Writer) : Header → Option Writer
  | [] => w.write (ascii "\n")
  | hf :: h => (w.fieldWrite hf).bind fun w => w.headerWrite h

/-- What `header_to_file` meets: the errors of `Mkdir_for_file` and of `open`, if there are, and the answers to
its writes. -/
structure ToFileAnswers where
  mkdir : Option Err
  openErrno : Option Nat
  writes : List IoAnswer

/-- `header_to_file` from `open` on, if there is no error. -/
def openAndWrite (eb : ErrBuf) (file : Option Bytes) (h : Header) (filename : Bytes) (answers : ToFileAnswers) :
    Option (ErrBuf × Option Bytes) :=
  if eb.isError then some (eb, file)
  else
    match answers.openErrno with
    | some errno => some (eb.errorPush (.push errno (ascii "open(" ++ filename ++ ascii ")")), file)
    | none =>
        -- O_WRONLY | O_CREAT: what was in the file stays
        (Writer.headerWrite ⟨eb, .atStart (file.getD []), answers.writes⟩ h).map fun w => (w.eb, some w.out.file)

/-- `header_to_file`, on a file of the given content. -/
def headerToFile (eb : ErrBuf) (file : Option Bytes) (h : Header) (filename : Bytes) (answers : ToFileAnswers) :
    Option (ErrBuf × Option Bytes) :=
  match answers.mkdir with
  | some e => openAndWrite (eb.errorPush e) file h filename answers
  | none => openAndWrite eb file h filename answers

/-! ## Writes without errors -/

theorem OpenFile.put_nil (f : OpenFile) : f.put [] = f := by
  refine OpenFile.ext ?_ ?_
  · exact overwrite_nil 0 f.file f.place
  · rfl

theorem OpenFile.put_put (f : OpenFile) (a b : Bytes) : (f.put a).put b = f.put (a ++ b) := by
  refine OpenFile.ext ?_ ?_
  · exact overwrite_overwrite 0 f.file a b f.pos
  · simp only [OpenFile.put, List.length_append]
    omega

/-- From `w` to `w'` either the bytes were written and nothing was raised, or something was. -/
def Wrote (w : Writer) (bytes : Bytes) (w' : Writer) : Prop :=
  w'.eb = w.eb ∧ w'.out = w.out.put bytes ∨ w.eb.errStack.length < w'.eb.errStack.length

/-- Later writes do not take errors away. -/
def NotFewer (w w' : Writer) : Prop :=
  w.eb.errStack.length ≤ w'.eb.errStack.length

theorem Wrote.notFewer {w w' : Writer} {bytes : Bytes} (h : Wrote w bytes w') : NotFewer w w' := by
  rcases h with ⟨heb, -⟩ | hlt
  · exact Nat.le_of_eq (congrArg (fun eb => eb.errStack.length) heb.symm)
  · exact Nat.le_of_lt hlt

theorem writeLoop_ok {left : Bytes} {answers answers' : List IoAnswer} {f f' : OpenFile}
    (h : writeLoop left answers f = some (f', answers', none)) : f' = f.put left := by
  induction answers generalizing left f with
  | nil =>
      unfold writeLoop at h
      split at h
      next hleft =>
        cases h
        rw [hleft, OpenFile.put_nil]
      next => cases h
  | cons answer answers ih =>
      unfold writeLoop at h
      split at h
      next hleft =>
        cases h
        rw [hleft, OpenFile.put_nil]
      next =>
        cases answer with
        | failed errno =>
            simp only at h
            split at h
            next => exact ih h
            next => cases h
        | moved n =>
            -- what was written and what is left make the buffer up again
            rw [ih h, OpenFile.put_put, List.take_append_drop]

theorem write_wrote {w w' : Writer} {buf : Bytes} (h : w.write buf = some w') : Wrote w buf w' := by
  rw [Writer.write] at h
  rcases hloop : writeLoop buf w.answers w.out with _ | ⟨out, answers, _ | e⟩
  · rw [hloop] at h
    cases h
  · rw [hloop] at h
    cases h
    exact .inl ⟨rfl, writeLoop_ok hloop⟩
  · rw [hloop] at h
    cases h
    exact .inr (Nat.lt_succ_self _)

theorem writeStrs_notFewer {w w' : Writer} {strs : List Bytes} (h : w.writeStrs strs = some w') : NotFewer w w' := by
  induction strs generalizing w with
  | nil =>
      cases h
      exact Nat.le_refl _
  | cons str strs ih =>
      rw [Writer.writeStrs] at h
      split at h
      next =>
        cases h
        exact Nat.le_refl _
      next =>
        rcases Option.bind_eq_some_iff.1 h with ⟨w₁, hw₁, hrest⟩
        exact Nat.le_trans (write_wrote hw₁).notFewer (ih hrest)

/-- Writes one after the other, the second of which looks for errors first. -/
theorem Wrote.andThen {w w₁ w₂ : Writer} {a b : Bytes} (ha : Wrote w a w₁) (hmore : NotFewer w₁ w₂)
    (hb : w₁.eb = w.eb → Wrote w₁ b w₂) : Wrote w (a ++ b) w₂ := by
  rcases ha with ⟨heb, hout⟩ | hlt
  · rcases hb heb with ⟨heb', hout'⟩ | hlt
    · exact .inl ⟨heb'.trans heb, by rw [hout', hout, OpenFile.put_put]⟩
    · exact .inr (heb ▸ hlt)
  · exact .inr (Nat.lt_of_lt_of_le hlt hmore)

theorem writeStrs_wrote {w w' : Writer} (hclear : w.eb.isError = false) {strs : List Bytes}
    (h : w.writeStrs strs = some w') : Wrote w strs.flatten w' := by
  induction strs generalizing w with
  | nil =>
      cases h
      exact .inl ⟨rfl, (OpenFile.put_nil _).symm⟩
  | cons str strs ih =>
      rw [Writer.writeStrs, hclear, if_neg Bool.false_ne_true] at h
      rcases Option.bind_eq_some_iff.1 h with ⟨w₁, hw₁, hrest⟩
      rw [List.flatten_cons]
      exact (write_wrote hw₁).andThen (writeStrs_notFewer hrest) fun heb => ih (heb ▸ hclear) hrest

theorem fieldWrite_wrote {w w' : Writer} (hclear : w.eb.isError = false) {hf : HeaderField}
    (h : w.fieldWrite hf = some w') : Wrote w (fieldWrite hf) w' := by
  have hwrote := writeStrs_wrote hclear h
  have htext : [hf.name, ascii ": ", hf.value, ascii "\n"].flatten = fieldWrite hf := by
    simp [fieldWrite]
  rwa [htext] at hwrote

theorem headerWrite_notFewer {w w' : Writer} {h : Header} (hw : w.headerWrite h = some w') : NotFewer w w' := by
  induction h generalizing w with
  | nil => exact (write_wrote hw).notFewer
  | cons hf h ih =>
      rcases Option.bind_eq_some_iff.1 hw with ⟨w₁, hw₁, hrest⟩
      exact Nat.le_trans (writeStrs_notFewer hw₁) (ih hrest)

theorem headerWrite_wrote {w w' : Writer} (hclear : w.eb.isError = false) {h : Header}
    (hw : w.headerWrite h = some w') : Wrote w (headerWrite h) w' := by
  induction h generalizing w with
  | nil => exact write_wrote hw
  | cons hf h ih =>
      rcases Option.bind_eq_some_iff.1 hw with ⟨w₁, hw₁, hrest⟩
      have htext : headerWrite (hf :: h) = fieldWrite hf ++ headerWrite h := by
        simp [headerWrite]
      rw [htext]
      exact (fieldWrite_wrote hclear hw₁).andThen (headerWrite_notFewer hrest) fun heb => ih (heb ▸ hclear) hrest

/-! ## Files -/

section Files

variable {eb eb' : ErrBuf} {file file' : Option Bytes} {filename : Bytes} {answers : ToFileAnswers} {h : Header}

theorem openAndWrite_notFewer (hcall : openAndWrite eb file h filename answers = some (eb', file')) :
    eb.errStack.length ≤ eb'.errStack.length := by
  unfold openAndWrite at hcall
  split at hcall
  next =>
    cases hcall
    exact Nat.le_refl _
  next =>
    split at hcall
    next =>
      cases hcall
      exact Nat.le_succ _
    next =>
      rcases Option.map_eq_some_iff.1 hcall with ⟨w, hw, heq⟩
      cases heq
      exact headerWrite_notFewer hw

/-- A call that raises nothing leaves its header at the beginning of the file, and the end of a longer file behind
it. -/
theorem headerToFile_quiet (hclear : eb.isError = false)
    (hcall : headerToFile eb file h filename answers = some (eb, file')) :
    file' = some (headerWrite h ++ (file.getD []).drop (headerWrite h).length) := by
  unfold headerToFile at hcall
  split at hcall
  -- an error of Mkdir_for_file would still be pending
  next e _ => exact absurd (openAndWrite_notFewer hcall) (Nat.not_succ_le_self _)
  next =>
    unfold openAndWrite at hcall
    rw [hclear, if_neg Bool.false_ne_true] at hcall
    split at hcall
    next =>
      have hlen := congrArg (fun r => r.1.errStack.length) (Option.some.inj hcall)
      exact absurd hlen (Nat.succ_ne_self _)
    next =>
      rcases Option.map_eq_some_iff.1 hcall with ⟨w, hw, heq⟩
      rcases Prod.mk.inj heq with ⟨heb, rfl⟩
      rcases headerWrite_wrote hclear hw with ⟨-, hout⟩ | hlt
      · have hfile : w.out.file = overwrite 0 (file.getD []) 0 (headerWrite h) := congrArg OpenFile.file hout
        rw [hfile, overwrite_zero]
      · rw [heb] at hlt
        exact absurd hlt (Nat.lt_irrefl _)

/-- Whatever was in the file, and however the two writes are answered, the header that was written last is read
back without an error, although the end of the other header is left where that is longer, if and only if it has room in
the buffers it is read into. -/
theorem headerFromFile_rewritten_iff [Host] {hOld hNew : Header} {answersOld answersNew : ToFileAnswers}
    {fileOld fileNew : Option Bytes} (hclear : eb.isError = false) (hcanonical : CanonicalHeader hNew)
    (hold : headerToFile eb file hOld filename answersOld = some (eb, fileOld))
    (hnew : headerToFile eb fileOld hNew filename answersNew = some (eb, fileNew)) :
    (headerFromFile eb fileNew filename = (eb, some hNew) ↔ Receivable hNew) ∧
      ∃ more, fileNew = some (headerWrite hNew ++ (headerWrite hOld).drop (headerWrite hNew).length ++ more) := by
  rw [headerToFile_quiet hclear hnew]
  constructor
  · rw [headerFromFile, hclear, if_neg Bool.false_ne_true]
    constructor
    · intro hback
      by_contra hnot
      rcases headerRead_headerWrite_error hcanonical hnot ((fileOld.getD []).drop (headerWrite hNew).length) with ⟨e, he⟩
      rcases hread : headerRead (headerWrite hNew ++ (fileOld.getD []).drop (headerWrite hNew).length) with ⟨r, rest⟩
      rw [hread] at he hback
      simp only at he
      subst he
      cases congrArg Prod.snd hback
    -- the parser stops at the blank line of the new header, and what is left of the other one is behind it
    · intro hreceivable
      rw [(headerRead_headerWrite_iff hcanonical _).2 hreceivable]
  · rw [headerToFile_quiet hclear hold, Option.getD_some, List.drop_append]
    exact ⟨_, congrArg some (List.append_assoc ..).symm⟩

/-- Permissions with two fields, and with one. -/
def longPerms : Header :=
  [⟨ascii "sc-type", ascii "perms"⟩, ⟨ascii "deny-write", ascii "all"⟩]

@[inherit_doc longPerms]
def shortPerms : Header :=
  [⟨ascii "deny-read", ascii "bob"⟩]

/-- All goes well, and the disk takes what it is given. -/
def wellAnswered : ToFileAnswers :=
  ⟨none, none, List.replicate 10 (.moved 100)⟩

theorem headerFromFile_rewritten_iff_perms :
    let _ := plainHost
    ∃ fileOld fileNew, headerToFile .new none longPerms (ascii "perms") wellAnswered = some (.new, fileOld) ∧
      headerToFile .new fileOld shortPerms (ascii "perms") wellAnswered = some (.new, fileNew) ∧
      headerFromFile .new fileNew (ascii "perms") = (.new, some shortPerms) := by
  intro _
  have hold : headerToFile .new none longPerms (ascii "perms") wellAnswered =
      some (.new, some (headerWrite longPerms)) := by
    decide +kernel
  have hnew : headerToFile .new (some (headerWrite longPerms)) shortPerms (ascii "perms") wellAnswered =
      some (.new, some (headerWrite shortPerms ++ (headerWrite longPerms).drop (headerWrite shortPerms).length)) := by
    decide +kernel
  exact ⟨_, _, hold, hnew, (headerFromFile_rewritten_iff rfl (by decide) hold hnew).1.2 (by decide)⟩

/-- A value of 1001 characters is written, and the process of those who read it back overruns its buffer. -/
theorem not_headerFromFile_rewritten :
    CanonicalHeader [longField] ∧ ∃ fileOld fileNew,
      headerToFile .new none [longField] (ascii "perms") ⟨none, none, List.replicate 10 (.moved 2000)⟩ =
        some (.new, fileOld) ∧
      headerToFile .new fileOld [longField] (ascii "perms") ⟨none, none, List.replicate 10 (.moved 2000)⟩ =
        some (.new, fileNew) ∧
      ∀ host : Host, (@headerFromFile host .new fileNew (ascii "perms")).2 = none := by
  refine ⟨canonical_longField, some (headerWrite [longField]), some (headerWrite [longField]), by decide +kernel,
    by decide +kernel, fun host => ?_⟩
  have hnot : ¬ Receivable [longField] := fun hr => not_short_longField hr.short
  rcases @headerRead_headerWrite_error host _ canonical_longField hnot [] with ⟨e, he⟩
  rw [List.append_nil] at he
  rcases hread : @headerRead host (headerWrite [longField]) with ⟨r, rest⟩
  rw [hread] at he
  simp only at he
  rw [headerFromFile, ErrBuf.isError_new, if_neg Bool.false_ne_true, hread, he]

end Files

end Scambio
