import Scambio.Sendmail.SendFile
import Scambio.Sendmail.SmtpLines

/-!
# Wire — the bytes of a message on its way (`sendmail/forwarder.c`)

* `writeAll`    : what is written for a list of lines and files, or the first error;
* `writeAll_eq` : all of it is written, where no string is a format and no file is missing.
-/

namespace Scambio

open Library

/-! ## What is written -/

/-- `contentOf` has the files that the transfers have brought. -/
def Sending.write (contentOf : Bytes → Option Bytes) : Sending → Except FormatFault (Except Err Bytes)
  | .command _ strs | .line strs => sendSmtpNstrs strs
  | .file filename =>
      match contentOf filename with
      | none => .ok (.error (.push ENOENT (ascii "open(" ++ filename ++ ascii ")")))
      | some content => .ok (.ok (sendFile content))

/-- All of a list, up to the first error. -/
def writeAll (contentOf : Bytes → Option Bytes) : List Sending → Except FormatFault (Except Err Bytes)
  | [] => .ok (.ok [])
  | s :: rest =>
      match s.write contentOf with
      | .error fault => .error fault
      | .ok (.error e) => .ok (.error e)
      | .ok (.ok bytes) => (writeAll contentOf rest).map fun r => r.map (bytes ++ ·)

/-- What is written for it when nothing fails. -/
def Sending.text (contentOf : Bytes → Option Bytes) : Sending → Bytes
  | .command _ strs | .line strs => smtpLine strs
  | .file filename => sendFile ((contentOf filename).getD [])

/-- No string of it is a format, its line is short enough, and its file is there. -/
def Sending.Writable (contentOf : Bytes → Option Bytes) : Sending → Prop
  | .command _ strs | .line strs => (∀ s ∈ strs, (37 : UInt8) ∉ s) ∧ (smtpLine strs).length < MAX_SMTP_LINE
  | .file filename => (contentOf filename).isSome = true

instance (contentOf : Bytes → Option Bytes) : (s : Sending) → Decidable (s.Writable contentOf)
  | .command _ _ | .line _ => inferInstanceAs (Decidable (_ ∧ _))
  | .file _ => inferInstanceAs (Decidable (_ = _))

theorem sendSmtpNstrs_of_plain {strs : List Bytes} (hplain : ∀ s ∈ strs, (37 : UInt8) ∉ s)
    (hfits : (smtpLine strs).length < MAX_SMTP_LINE) : sendSmtpNstrs strs = .ok (.ok (smtpLine strs)) := by
  have hall : ∀ s ∈ strs ++ [ascii "\r\n"], (37 : UInt8) ∉ s := by
    intro s hs
    rcases List.mem_append.1 hs with hs | hs
    · exact hplain s hs
    · rw [List.mem_singleton.1 hs]
      decide
  have hlen : ([] : Bytes).length + (strs ++ [ascii "\r\n"]).flatten.length < MAX_SMTP_LINE := by
    rw [flatten_append_crlf, List.length_nil, Nat.zero_add]
    exact hfits
  rw [sendSmtpNstrs, printAll_plain hall hlen, flatten_append_crlf, List.nil_append]

theorem Sending.write_eq {contentOf : Bytes → Option Bytes} {s : Sending} (h : s.Writable contentOf) :
    s.write contentOf = .ok (.ok (s.text contentOf)) := by
  cases s with
  | command v strs => exact sendSmtpNstrs_of_plain h.1 h.2
  | line strs => exact sendSmtpNstrs_of_plain h.1 h.2
  | file filename =>
      obtain ⟨content, hcontent⟩ := Option.isSome_iff_exists.1 h
      simp only [Sending.write, Sending.text, hcontent, Option.getD_some]

theorem writeAll_eq {contentOf : Bytes → Option Bytes} {l : List Sending} (h : ∀ s ∈ l, s.Writable contentOf) :
    writeAll contentOf l = .ok (.ok (l.flatMap (Sending.text contentOf))) := by
  induction l with
  | nil => rfl
  | cons s l ih =>
      have hrest := ih fun t ht => h t (List.mem_cons_of_mem _ ht)
      simp only [writeAll, Sending.write_eq (h s List.mem_cons_self), hrest]
      rfl

end Scambio
