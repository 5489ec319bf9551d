import Scambio.Sendmail.Passage
import Scambio.Smtpd.ProcessMail

/-!
# Delivery — from a forward to the patch of the other side (`sendmail/forwarder.c`, `smtpd/queries.c`)

* `sentFiles`      : the files of a forward that the other side stores, with the parameters that it makes for them;
* `mail_delivered` : the patch that is made of a forward once it was written, read and stored.
-/

namespace Scambio

open Library

section Delivery

variable {hostname : Bytes} {contentOf mimeType2ext : Bytes → Option Bytes} {fwd : Forward}

/-- The file of a part, unless it is empty. -/
def sentFiles (mimeType2ext contentOf : Bytes → Option Bytes) (part : Part) : List (Bytes × Bytes) :=
  let data := (contentOf part.filename).getD []
  if 0 < data.length then [(data, buildParams mimeType2ext part.header)] else []

theorem filesOf_append (ts ts' : List MsgTree) : filesOf (ts ++ ts') = filesOf ts ++ filesOf ts' := by
  induction ts with
  | nil => rfl
  | cons t ts ih => rw [List.cons_append, filesOf, filesOf, ih, List.append_assoc]

/-- The files come in the reverse order, as the parts do. -/
theorem filesOf_passage (parts : List Part) :
    filesOf (parts.map (Part.tree mimeType2ext contentOf)).reverse =
      (parts.flatMap (sentFiles mimeType2ext contentOf)).reverse := by
  induction parts with
  | nil => rfl
  | cons part parts ih =>
      have hone : filesOf [part.tree mimeType2ext contentOf] = (sentFiles mimeType2ext contentOf part).reverse := by
        rw [filesOf, filesOf, List.append_nil, Part.tree, MsgTree.files, sentFiles]
        split <;> rfl
      rw [List.map_cons, List.reverse_cons, filesOf_append, ih, hone, List.flatMap_cons, List.reverse_append]

theorem headerFind_forwardHeader (hostname : Bytes) (fwd : Forward) :
    headerFind (forwardHeader hostname fwd) (ascii "subject") = some ⟨(ascii "Subject").map tolower, fwd.descr⟩ ∧
      headerFind (forwardHeader hostname fwd) (ascii "message-id") =
        some ⟨(ascii "Message-Id").map tolower, messageId hostname fwd⟩ := by
  unfold forwardHeader headerWith
  cases fwd.extid with
  | none => split <;> exact ⟨rfl, rfl⟩
  | some extid => split <;> exact ⟨rfl, rfl⟩

/-- The other side stores the header and the files that are not empty, and requests a patch with their references,
the subject and the identifier of the forward; or it requests nothing, when one of them cannot be stored. -/
theorem mail_delivered [Host] (h : Mailable hostname contentOf fwd)
    (hroom : dumpFills STORE_ROOM (forwardHeader hostname fwd) = false) (rest : Bytes)
    (sendVarbuf : Bytes → Except Err FileRef) (reversePath start : Bytes) :
    ∃ wire tree, writeAll contentOf (messageText hostname fwd ++ [dot]) = .ok (.ok wire) ∧
      (msgTreeRead mimeType2ext (wire ++ rest)).result = .ok (.ok tree) ∧
      processMail sendVarbuf reversePath start tree =
        (storeAll sendVarbuf ((headerDump (forwardHeader hostname fwd), ascii "type=text/plain") ::
          (fwd.parts.flatMap (sentFiles mimeType2ext contentOf)).reverse)).map fun values =>
            mailHeader reversePath
              { resources := values, subject := some fwd.descr, messageId := some (messageId hostname fwd)
                start := start } := by
  rcases @mail_passage hostname contentOf mimeType2ext fwd _ h rest with ⟨wire, hwire, hread⟩
  refine ⟨wire, _, hwire, hread, ?_⟩
  have hfind := headerFind_forwardHeader hostname fwd
  have hheader : ∀ parts, dumpFills STORE_ROOM (MsgTree.multipart (forwardHeader hostname fwd) parts).header = false :=
    fun _ => hroom
  rw [processMail_eq reversePath start (hheader _), MsgTree.stored, MsgTree.files, filesOf_passage, MsgTree.header,
    hfind.1, hfind.2]
  rfl

end Delivery

/-! ## A forward of two files -/

def twoFiles : Forward :=
  { sender := ascii "rixed@localhost", dests := [ascii "a@b.net", ascii "c d@e.org"], descr := ascii "two files"
    extid := some (ascii "<7@e.org>"), version := 42
    parts :=
      [{ filename := ascii "/f/1", name := some (ascii "a b.txt"), type := some (ascii "text/plain") },
        { filename := ascii "/f/2", name := none, type := none }]
    status := 0 }

def twoContents (filename : Bytes) : Option Bytes :=
  some (if filename = ascii "/f/1" then ascii ".\n--Do-Noy\n" else [])

theorem mailable_twoFiles : Mailable (ascii "mx") twoContents twoFiles where
  sender := by decide +kernel
  dests := by decide +kernel
  descr := by decide +kernel
  extid := by
    intro extid h
    rw [← Option.some.inj h]
    decide +kernel
  host := by decide +kernel
  parts := by
    have htext : MailablePart twoContents
        { filename := ascii "/f/1", name := some (ascii "a b.txt"), type := some (ascii "text/plain") } := by
      refine ⟨by decide +kernel, by decide +kernel, fun type h => ?_, fun name h => ?_, by decide +kernel⟩
      · rw [← Option.some.inj h]
        decide +kernel
      · rw [← Option.some.inj h]
        decide +kernel
    have hbare : MailablePart twoContents { filename := ascii "/f/2", name := none, type := none } :=
      ⟨by decide +kernel, by decide +kernel, nofun, nofun, by decide +kernel⟩
    exact List.forall_mem_cons.2 ⟨htext, List.forall_mem_cons.2 ⟨hbare, nofun⟩⟩
  writable := by decide +kernel
  short := by decide +kernel
  room := by decide +kernel

/-- A file server that refers to a file by its first bytes. -/
def shortRefs (data : Bytes) : Except Err FileRef :=
  .ok ⟨data.take 8, Nat.lt_of_le_of_lt (List.length_take_le _ _) (by decide)⟩

theorem mail_delivered_sample :
    ∃ wire tree, writeAll twoContents (messageText (ascii "mx") twoFiles ++ [dot]) = .ok (.ok wire) ∧
      (@msgTreeRead plainHost (fun _ => none) (wire ++ ascii "QUIT\r\n")).result = .ok (.ok tree) ∧
      processMail shortRefs (ascii "x@y") (ascii "2010 01 01") tree =
        .ok (mailHeader (ascii "x@y")
          { resources := [ascii "from: ri; type=text/plain",
              ascii ".\n--Do-N; name=\"a b.txt\"; type=\"text/plain; name=\"a b.txt\"\""]
            subject := some (ascii "two files"), messageId := some (ascii "<42@mx>"), start := ascii "2010 01 01" }) := by
  rcases @mail_delivered (ascii "mx") twoContents (fun _ => none) twoFiles plainHost mailable_twoFiles (by decide +kernel)
    (ascii "QUIT\r\n") shortRefs (ascii "x@y") (ascii "2010 01 01") with ⟨wire, tree, hwire, hread, hpatch⟩
  refine ⟨wire, tree, hwire, hread, hpatch.trans ?_⟩
  decide +kernel

end Scambio
