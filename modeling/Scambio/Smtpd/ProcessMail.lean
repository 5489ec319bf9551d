import Scambio.Smtpd.Attachments
import Scambio.Smtpd.Queries

/-!
# ProcessMail — the patch made of a mail (`smtpd/queries.c`)

The header of the mail and each of its files go to the file server, which gives a reference for each; the
references are fields of the patch.

* `processMail`      : the patch that is requested, or the first error;
* `MsgTree.stored`   : what is stored for a mail, in its order;
* `processMail_eq`   : the patch is the one of all references, and there is none when a file cannot be stored.
-/

namespace Scambio

open Library

/-- `char ref[PATH_MAX]`. -/
abbrev FileRef := { ref : Bytes // ref.length < PATH_MAX }

section Store

-- `send_varbuf`: the answer of the file server
variable (sendVarbuf : Bytes → Except Err FileRef)

/-- `store_file`: the field of the reference.  It always fits its buffer. -/
def storeResource (data params : Bytes) (globalHeader : Header) : Except Err Header :=
  match sendVarbuf data with
  | .error e => .error e
  | .ok ref => .ok (headerFieldNew globalHeader SC_RESOURCE_FIELD (storeFile ref.1 params))

mutual

def storeFileRec : MsgTree → Header → Except Err Header
  | .file _ params data, globalHeader =>
      -- many mailers add useless empty parts
      if 0 < data.length then storeResource sendVarbuf data params globalHeader else .ok globalHeader
  | .multipart _ parts, globalHeader => storeFilesRec parts globalHeader

/-- The loop over the parts. -/
def storeFilesRec : List MsgTree → Header → Except Err Header
  | [], globalHeader => .ok globalHeader
  | subtree :: rest, globalHeader =>
      match storeFileRec subtree globalHeader with
      | .error e => .error e
      | .ok globalHeader => storeFilesRec rest globalHeader

end

/-- The room in the buffer of `store_header`. -/
def STORE_ROOM : Nat := 1024

def storeHeader (toSave globalHeader : Header) : Except Err Header :=
  if dumpFills STORE_ROOM toSave then .error overrun
  else storeResource sendVarbuf (headerDump toSave) (ascii "type=text/plain") globalHeader

def MsgTree.header : MsgTree → Header
  | .file header _ _ => header
  | .multipart header _ => header

/-- "Attach some more meta informations". -/
def attachInfos (msgTree : MsgTree) (start : Bytes) (h : Header) : Header :=
  let subject := headerFind msgTree.header (ascii "subject")
  let h := subject.elim h fun hf => headerFieldNew h SC_DESCR_FIELD hf.value
  let messageId := headerFind msgTree.header (ascii "message-id")
  let h := messageId.elim h fun hf => headerFieldNew h SC_EXTID_FIELD hf.value
  headerFieldNew h SC_START_FIELD start

/-- `process_mail`, up to the request; `start` is the time. -/
def processMail (reversePath start : Bytes) (msgTree : MsgTree) : Except Err Header :=
  let h := headerFieldNew [] SC_TYPE_FIELD SC_MAIL_TYPE
  let h := headerFieldNew h SC_FROM_FIELD reversePath
  match storeHeader sendVarbuf msgTree.header h with
  | .error e => .error e
  | .ok h =>
      match storeFileRec sendVarbuf msgTree h with
      | .error e => .error e
      | .ok h => .ok (attachInfos msgTree start h)

/-! ## What is stored -/

mutual

/-- The files of a mail that are not empty, with their parameters. -/
def MsgTree.files : MsgTree → List (Bytes × Bytes)
  | .file _ params data => if 0 < data.length then [(data, params)] else []
  | .multipart _ parts => filesOf parts

def filesOf : List MsgTree → List (Bytes × Bytes)
  | [] => []
  | t :: ts => t.files ++ filesOf ts

end

def MsgTree.stored (t : MsgTree) : List (Bytes × Bytes) :=
  (headerDump t.header, ascii "type=text/plain") :: t.files

/-- All are stored, one after the other: the values of the fields, or the first error. -/
def storeAll : List (Bytes × Bytes) → Except Err (List Bytes)
  | [] => .ok []
  | (data, params) :: rest =>
      match sendVarbuf data with
      | .error e => .error e
      | .ok ref => (storeAll rest).map fun values => storeFile ref.1 params :: values

/-- The fields of the references join a header. -/
def addResources (h : Header) (values : List Bytes) : Header :=
  values.foldl (fun h value => headerFieldNew h SC_RESOURCE_FIELD value) h

variable {sendVarbuf}

theorem storeAll_append (l l' : List (Bytes × Bytes)) :
    storeAll sendVarbuf (l ++ l') =
      match storeAll sendVarbuf l with
      | .error e => .error e
      | .ok values => (storeAll sendVarbuf l').map (values ++ ·) := by
  induction l with
  | nil =>
      simp only [List.nil_append, storeAll]
      cases storeAll sendVarbuf l' <;> rfl
  | cons file l ih =>
      simp only [List.cons_append, storeAll]
      cases sendVarbuf file.1 with
      | error e => rfl
      | ok ref =>
          simp only [ih]
          cases storeAll sendVarbuf l with
          | error e => rfl
          | ok values => cases storeAll sendVarbuf l' <;> rfl

theorem storeResource_eq (data params : Bytes) (h : Header) :
    storeResource sendVarbuf data params h = (storeAll sendVarbuf [(data, params)]).map (addResources h) := by
  simp only [storeResource, storeAll]
  cases sendVarbuf data <;> rfl

/-- What is stored first, and then the rest. -/
theorem addResources_then (l l' : List (Bytes × Bytes)) (h : Header) :
    (match (storeAll sendVarbuf l).map (addResources h) with
      | .error e => .error e
      | .ok h => (storeAll sendVarbuf l').map (addResources h)) =
      (storeAll sendVarbuf (l ++ l')).map (addResources h) := by
  rw [storeAll_append]
  cases storeAll sendVarbuf l with
  | error e => rfl
  | ok values =>
      cases storeAll sendVarbuf l' with
      | error e => rfl
      | ok values' => exact congrArg Except.ok List.foldl_append.symm

mutual

/-- The references of a tree are added in the order of its files, and the first error stops it. -/
theorem storeFileRec_eq : (t : MsgTree) → (h : Header) →
    storeFileRec sendVarbuf t h = (storeAll sendVarbuf t.files).map (addResources h)
  | .file _ params data, h => by
      rw [storeFileRec, MsgTree.files]
      split
      · exact storeResource_eq data params h
      · rfl
  | .multipart _ parts, h => by
      rw [storeFileRec, MsgTree.files]
      exact storeFilesRec_eq parts h

theorem storeFilesRec_eq : (ts : List MsgTree) → (h : Header) →
    storeFilesRec sendVarbuf ts h = (storeAll sendVarbuf (filesOf ts)).map (addResources h)
  | [], h => rfl
  | t :: ts, h => by
      rw [storeFilesRec, filesOf, ← addResources_then, storeFileRec_eq t h]
      cases storeAll sendVarbuf t.files with
      | error e => rfl
      | ok values => exact storeFilesRec_eq ts _

end

/-- The patch has the references of the header and of all files, or there is none. -/
theorem processMail_eq (reversePath start : Bytes) {t : MsgTree} (hroom : dumpFills STORE_ROOM t.header = false) :
    processMail sendVarbuf reversePath start t =
      (storeAll sendVarbuf t.stored).map fun values =>
        mailHeader reversePath
          { resources := values
            subject := (headerFind t.header (ascii "subject")).map HeaderField.value
            messageId := (headerFind t.header (ascii "message-id")).map HeaderField.value
            start := start } := by
  have hsplit : t.stored = [(headerDump t.header, ascii "type=text/plain")] ++ t.files := rfl
  have hinfos : ∀ values, attachInfos t start
      (addResources (headerFieldNew (headerFieldNew [] SC_TYPE_FIELD SC_MAIL_TYPE) SC_FROM_FIELD reversePath) values) =
      mailHeader reversePath
        { resources := values
          subject := (headerFind t.header (ascii "subject")).map HeaderField.value
          messageId := (headerFind t.header (ascii "message-id")).map HeaderField.value
          start := start } := by
    intro values
    unfold attachInfos mailHeader
    cases headerFind t.header (ascii "subject") <;> cases headerFind t.header (ascii "message-id") <;> rfl
  rw [processMail, storeHeader, hroom, if_neg Bool.false_ne_true, storeResource_eq, hsplit, storeAll_append]
  -- the header is stored first
  cases storeAll sendVarbuf [(headerDump t.header, ascii "type=text/plain")] with
  | error e => rfl
  | ok first =>
      simp only [Except.map, storeFileRec_eq]
      cases storeAll sendVarbuf t.files with
      | error e => rfl
      | ok values =>
          have hall := hinfos (first ++ values)
          rw [addResources, List.foldl_append] at hall
          exact congrArg Except.ok hall

end Store

end Scambio
