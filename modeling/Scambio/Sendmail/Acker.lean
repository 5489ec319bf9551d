import Scambio.Commons.Auth
import Scambio.Lib.Dirs
import Scambio.Lib.Journal
import Scambio.Smtpd.Queries

/-!
# Acker — from to_send to the sent box (`sendmail/crawler.c`)

Once a mail was delivered, or refused, `move_fwd` requests its removal from to_send and then looks for the
folder of the sender in the sent box, to put a copy there.  The folder is looked up under
"id of the sent box/sender" from the root: an id is not the name of a folder, so that nothing is
found there, even after the folder was created in the sent box.  The removal is requested already.

A mail is safe exactly if its removal is not requested, or if the name happens to lead to the right folder and
everything succeeds (`ackSafe_iff`).
-/

namespace Scambio

open Library

def SC_STOP_FIELD : Bytes := ascii "sc-stop"
def EEXIST : Nat := 17

def ENOTDIR : Nat := 20

/-! ## Folders -/

/-- What stands under a name in the directory of a mdir: nothing, a link to a mdir, another file; or the
system refuses the name, with this code. -/
inductive FolderEntry
  | absent
  | folder (id : Bytes)
  | file
  | refused (errno : Nat)
  deriving DecidableEq, Repr

/-- The id of the next transient mdir. -/
def transientId (dirSeq : Nat) : Bytes :=
  95 :: decimal dirSeq

/-- The mdirs, by their ids, and what stands in their directories: each link leads to a mdir that exists, and
the next ids are not taken. -/
structure Folders where
  dirs : List Bytes
  entry : Bytes → Bytes → FolderEntry
  dirSeq : Nat
  exist : ∀ id name id', entry id name = .folder id' → id' ∈ dirs
  within : ∀ id name, entry id name ≠ .absent → id ∈ dirs
  fresh : ∀ n, dirSeq ≤ n → transientId n ∉ dirs

theorem transientId_injective {n m : Nat} (h : transientId n = transientId m) : n = m := by
  have hdec : decimal n = decimal m := (List.cons.inj h).2
  rw [← digitsVal_decimal n, ← digitsVal_decimal m, hdec]

namespace Folders

/-- `mdir_create(true)`. -/
def create (f : Folders) : Folders where
  dirs := transientId f.dirSeq :: f.dirs
  entry := f.entry
  dirSeq := f.dirSeq + 1
  exist := fun id name id' h => List.mem_cons_of_mem _ (f.exist id name id' h)
  within := fun id name h => List.mem_cons_of_mem _ (f.within id name h)
  fresh := by
    intro n hn hmem
    rcases List.mem_cons.1 hmem with heq | hmem
    · have := transientId_injective heq
      omega
    · exact f.fresh n (by omega) hmem

/-- `symlink`, of a mdir that exists in one that exists. -/
def symlink (f : Folders) (box name id : Bytes) (hbox : box ∈ f.dirs) (hid : id ∈ f.dirs) : Folders where
  dirs := f.dirs
  entry := fun b n => if b = box ∧ n = name then .folder id else f.entry b n
  dirSeq := f.dirSeq
  exist := by
    intro b n id' h
    split at h
    · cases h
      exact hid
    · exact f.exist b n id' h
  within := by
    intro b n h
    split at h
    · next heq => exact heq.1 ▸ hbox
    · exact f.within b n h
  fresh := f.fresh

end Folders

/-- The error that a call leaves: its code and its text. -/
abbrev Failure := Nat × Bytes

/-- `mdir_lookup("box/name")`; `load` is what the loading of the mdir gives, when the links lead to one. -/
def lookupIn (f : Folders) (mdirRoot box name : Bytes) (load : Except Failure Unit) : Except Failure Bytes :=
  let failed (errno : Nat) : Except Failure Bytes :=
    .error (errno, ascii "readlink(" ++ mdirRoot ++ ascii "/root/" ++ box ++ 47 :: name ++ ascii ")")
  match f.entry SC_ROOT_ID box with
  | .absent => failed ENOENT
  | .file => failed ENOTDIR
  | .refused errno => failed errno
  | .folder id =>
      -- the box is there: the folder in it
      match f.entry id name with
      | .absent => failed ENOENT
      | .file => failed EINVAL
      | .refused errno => failed errno
      | .folder id' => load.map fun _ => id'

/-! ## The acker -/

/-- The sent box, which was found when the sender started. -/
structure SentBox (f : Folders) where
  id : Bytes
  there : id ∈ f.dirs

structure AckerConf where
  mdirRoot : Bytes
  toSendId : Bytes
  /-- `SC_USERNAME` -/
  username : Bytes

/-- A patch for which a file was written in the `.tmp` of a mdir. -/
structure PatchRequest where
  id : Bytes
  action : Action
  header : Header
  deriving DecidableEq, Repr

/-- What the calls of `move_fwd` answer, each of which may fail. -/
structure AckAnswers where
  /-- `mdir_read` -/
  read : Except Failure Header
  /-- `mdir_patch_request` of the removal -/
  remove : Except Failure Unit
  /-- the loading of the mdir that is looked up first -/
  lookup : Except Failure Unit
  /-- the number for the id of the new mdir -/
  create : Except Failure Unit
  /-- `symlink`, where the name is free -/
  link : Except Failure Unit
  /-- the rest of `mdir_patch_request` for the folder -/
  createPatch : Except Failure Unit
  lookupNew : Except Failure Unit
  /-- `mdir_patch_request` of the permissions -/
  perm : Except Failure Unit
  /-- `mdir_patch_request` of the mail -/
  copy : Except Failure Unit

/-- What `move_fwd` leaves: the folders, the patches requested and the errors of the thread. -/
structure Moved where
  folders : Folders
  requests : List PatchRequest
  errors : List Failure

/-- What the buffer holds behind "id/": the name of the folder of a sender. -/
def subdirName (sentId sender : Bytes) : Bytes :=
  (sender.map fun c => if c = 47 then 95 else c).take (PATH_MAX - 1 - (sentId.length + 1))

def dirHeader (name : Bytes) : Header :=
  headerFieldNew (headerFieldNew [] SC_TYPE_FIELD SC_DIR_TYPE) SC_NAME_FIELD name

def permHeader (username sender : Bytes) : Header :=
  headerFieldNew (headerFieldNew (headerFieldNew (headerFieldNew [] SC_TYPE_FIELD SC_PERM_TYPE)
    SC_ALLOW_ADMIN_FIELD sender) SC_ALLOW_WRITE_FIELD username) SC_DENY_READ_FIELD (ascii "*")

/-- The header of the copy; the status is cut to the seven characters of its buffer. -/
def sentboxHeader (h : Header) (now : Bytes) (status : Int) : Header :=
  headerFieldNew (headerFieldNew h SC_STOP_FIELD now) SC_STATUS_FIELD ((printInt status).take 7)

def delRequestHeader (version : Int) : Header :=
  headerFieldNew [] SC_TARGET_FIELD (mdirVersion2str version)

variable {f : Folders}

/-- `mdir_patch_request` of a folder without dirId: a transient mdir is made, and linked if the name is
free. -/
def requestFolder (conf : AckerConf) (sent : SentBox f) (name : Bytes) (answers : AckAnswers) :
    Folders × Except Failure Unit :=
  match answers.create with
  | .error e => (f, .error e)
  | .ok () =>
      let failed (errno : Nat) : Except Failure Unit :=
        .error (errno, ascii "symlink " ++ conf.mdirRoot ++ 47 :: sent.id ++ 47 :: name ++ ascii " -> " ++
          conf.mdirRoot ++ 47 :: transientId f.dirSeq)
      match f.entry sent.id name with
      | .refused errno => (f.create, failed errno)
      -- the mdir that was made stays, without a link to it
      | .folder _ | .file => (f.create, failed EEXIST)
      | .absent =>
          match answers.link with
          | .error e => (f.create, .error e)
          | .ok () =>
              (f.create.symlink sent.id name (transientId f.dirSeq) (List.mem_cons_of_mem _ sent.there)
                List.mem_cons_self, answers.createPatch)

/-- `get_or_create_mdir`, with the patches requested on the way. -/
def getOrCreateMdir (conf : AckerConf) (sent : SentBox f) (sender : Bytes) (answers : AckAnswers) :
    Folders × List PatchRequest × Except Failure Bytes :=
  let name := subdirName sent.id sender
  match lookupIn f conf.mdirRoot sent.id name answers.lookup with
  | .ok id => (f, [], .ok id)
  -- whatever the error of the lookup, the folder is taken for missing
  | .error _ =>
      let r := requestFolder conf sent name answers
      match r.2 with
      | .error e => (r.1, [], .error e)
      | .ok () =>
          let folder : PatchRequest := ⟨sent.id, .add, dirHeader name⟩
          match lookupIn r.1 conf.mdirRoot sent.id name answers.lookupNew with
          | .error e => (r.1, [folder], .error e)
          | .ok id =>
              match answers.perm with
              | .error e => (r.1, [folder], .error e)
              -- the permissions are requested once the folder can be looked up
              | .ok () => (r.1, [folder, ⟨id, .add, permHeader conf.username sender⟩], .ok id)

/-- The copy, once the removal is requested. -/
def copyToSent (conf : AckerConf) (sent : SentBox f) (h : Header) (answers : AckAnswers) : Moved :=
  match headerFind h SC_FROM_FIELD with
  | none => ⟨f, [], []⟩
  | some hf =>
      let r := getOrCreateMdir conf sent hf.value answers
      match r.2.2 with
      | .error e => ⟨r.1, r.2.1, [e]⟩
      | .ok id =>
          match answers.copy with
          | .error e => ⟨r.1, r.2.1, [e]⟩
          | .ok () => ⟨r.1, r.2.1 ++ [⟨id, .add, h⟩], []⟩

/-- `mdir_del_request` -/
def mdirDelRequest (version : Int) (remove : Except Failure Unit) : Except Failure Unit :=
  if version ≤ 0 then .error (0, ascii "Cannot delete transient patch") else remove

/-- `move_fwd`, in a thread that has these errors already. -/
def moveFwd (conf : AckerConf) (sent : SentBox f) (version status : Int) (now : Bytes) (errors : List Failure)
    (answers : AckAnswers) : Moved :=
  match answers.read with
  | .error e => ⟨f, [], e :: errors⟩
  | .ok h =>
      if errors ≠ [] then ⟨f, [], errors⟩
      else
        match mdirDelRequest version answers.remove with
        | .error e => ⟨f, [], [e]⟩
        | .ok () =>
            let r := copyToSent conf sent (sentboxHeader h now status) answers
            { r with requests := ⟨conf.toSendId, .rem, delRequestHeader version⟩ :: r.requests }

/-! ## Where a name leads -/

theorem lookupIn_ok_iff {mdirRoot box name id : Bytes} {load : Except Failure Unit} :
    lookupIn f mdirRoot box name load = .ok id ↔
      ∃ b, f.entry SC_ROOT_ID box = .folder b ∧ f.entry b name = .folder id ∧ load = .ok () := by
  rw [lookupIn]
  cases hbox : f.entry SC_ROOT_ID box with
  | absent => simp
  | file => simp
  | refused errno => simp
  | folder b =>
      cases hname : f.entry b name with
      | absent => simp [hname]
      | file => simp [hname]
      | refused errno => simp [hname]
      | folder id' => cases load <;> simp [Except.map, hname]

/-- The number of the new mdir, the link and the patch of the folder are all there. -/
structure FolderMade (answers : AckAnswers) : Prop where
  create : answers.create = .ok ()
  link : answers.link = .ok ()
  patch : answers.createPatch = .ok ()

/-- The folder is requested if its name is free, and the new mdir is linked there. -/
theorem requestFolder_ok {conf : AckerConf} {sent : SentBox f} {name : Bytes} {answers : AckAnswers}
    (h : (requestFolder conf sent name answers).2 = .ok ()) :
    FolderMade answers ∧ f.entry sent.id name = .absent ∧
      ∀ b n, (requestFolder conf sent name answers).1.entry b n =
        if b = sent.id ∧ n = name then .folder (transientId f.dirSeq) else f.entry b n := by
  rw [requestFolder] at h ⊢
  cases hcreate : answers.create with
  | error e =>
      rw [hcreate] at h
      cases h
  | ok _ =>
      rw [hcreate] at h
      cases hentry : f.entry sent.id name with
      | folder id =>
          rw [hentry] at h
          cases h
      | file =>
          rw [hentry] at h
          cases h
      | refused errno =>
          rw [hentry] at h
          cases h
      | absent =>
          rw [hentry] at h
          cases hlink : answers.link with
          | error e =>
              rw [hlink] at h
              cases h
          | ok _ =>
              rw [hlink] at h
              exact ⟨⟨hcreate, hlink, h⟩, rfl, fun b n => rfl⟩

theorem requestFolder_made {conf : AckerConf} {sent : SentBox f} {name : Bytes} {answers : AckAnswers}
    (h : FolderMade answers) (habsent : f.entry sent.id name = .absent) :
    (requestFolder conf sent name answers).2 = .ok () := by
  simp only [requestFolder, h.create, habsent, h.link, h.patch]

/-- The folder that the links in the directory of the sent box lead to. -/
def Folders.senderFolder (f : Folders) (sentId sender : Bytes) : FolderEntry :=
  f.entry sentId (subdirName sentId sender)

/-- "id of the sent box/sender", looked up from the root, leads to the folder of the sender in the sent box:
by the links there are, or after the folder was created. -/
def LeadsToSent (sent : SentBox f) (sender : Bytes) (answers : AckAnswers) : Prop :=
  (∃ b id, f.entry SC_ROOT_ID sent.id = .folder b ∧ f.entry b (subdirName sent.id sender) = .folder id ∧
    answers.lookup = .ok () ∧ f.senderFolder sent.id sender = .folder id) ∨
  (f.entry SC_ROOT_ID sent.id = .folder sent.id ∧ f.senderFolder sent.id sender = .absent ∧
    FolderMade answers ∧ answers.lookupNew = .ok () ∧ answers.perm = .ok ())

/-- After the folder was created, the name leads to it only if the id of the sent box is also its name in
the root. -/
theorem leads_after_create {sent : SentBox f} {name : Bytes} {g : Folders}
    (hentry : ∀ b n, g.entry b n =
      if b = sent.id ∧ n = name then .folder (transientId f.dirSeq) else f.entry b n)
    (habsent : f.entry sent.id name = .absent) (id : Bytes) :
    ((∃ b, g.entry SC_ROOT_ID sent.id = .folder b ∧ g.entry b name = .folder id) ∧
        g.entry sent.id name = .folder id) ↔
      f.entry SC_ROOT_ID sent.id = .folder sent.id ∧ id = transientId f.dirSeq := by
  have hnew : g.entry sent.id name = .folder (transientId f.dirSeq) := by simp [hentry]
  have hempty : ∀ n, f.entry (transientId f.dirSeq) n = .absent := fun n => by
    by_contra hne
    exact f.fresh _ le_rfl (f.within _ _ hne)
  rw [hnew]
  constructor
  · rintro ⟨⟨b, hbox, hname⟩, hid⟩
    cases hid
    refine ⟨?_, rfl⟩
    have hroot : f.entry SC_ROOT_ID sent.id = .folder b := by
      rw [hentry] at hbox
      split at hbox
      · next heq =>
          -- the sent box would be the root, and the folder in it named so: its mdir is new, and empty
          cases hbox
          have hother : ¬ transientId f.dirSeq = sent.id := fun heq => f.fresh _ le_rfl (heq ▸ sent.there)
          rw [hentry, if_neg fun h => hother h.1, hempty] at hname
          cases hname
      · exact hbox
    rw [hentry] at hname
    split at hname
    · next heq => rw [hroot, heq.1]
    · exact absurd (f.exist _ _ _ hname) (f.fresh _ le_rfl)
  · rintro ⟨hroot, rfl⟩
    refine ⟨⟨sent.id, ?_, hnew⟩, rfl⟩
    rw [hentry, if_neg ?_, hroot]
    rintro ⟨heq, hname⟩
    rw [heq] at hroot
    rw [← hname, hroot] at habsent
    cases habsent

/-! ## The folder of the sender -/

theorem leadsToSent_found {sent : SentBox f} {mdirRoot sender id : Bytes} {answers : AckAnswers}
    (h : lookupIn f mdirRoot sent.id (subdirName sent.id sender) answers.lookup = .ok id) :
    LeadsToSent sent sender answers ↔ f.senderFolder sent.id sender = .folder id := by
  rcases lookupIn_ok_iff.1 h with ⟨b, hbox, hname, hload⟩
  constructor
  · rintro (⟨b', id', hbox', hname', -, hsender⟩ | ⟨hroot, habsent, -⟩)
    · rw [hbox] at hbox'
      cases hbox'
      rw [hname] at hname'
      cases hname'
      exact hsender
    · rw [hbox] at hroot
      cases hroot
      rw [Folders.senderFolder, hname] at habsent
      cases habsent
  · exact fun hsender => .inl ⟨b, id, hbox, hname, hload, hsender⟩

theorem leadsToSent_failed {sent : SentBox f} {mdirRoot sender : Bytes} {answers : AckAnswers} {e : Failure}
    (h : lookupIn f mdirRoot sent.id (subdirName sent.id sender) answers.lookup = .error e) :
    LeadsToSent sent sender answers ↔
      f.entry SC_ROOT_ID sent.id = .folder sent.id ∧ f.senderFolder sent.id sender = .absent ∧
        FolderMade answers ∧ answers.lookupNew = .ok () ∧ answers.perm = .ok () := by
  refine or_iff_right ?_
  rintro ⟨b, id, hbox, hname, hload, -⟩
  rw [lookupIn_ok_iff.2 ⟨b, hbox, hname, hload⟩] at h
  cases h

/-- The mdir that is returned is the folder of the sender exactly if the name leads there. -/
theorem getOrCreateMdir_iff (conf : AckerConf) (sent : SentBox f) (sender : Bytes) (answers : AckAnswers) :
    (∃ id, (getOrCreateMdir conf sent sender answers).2.2 = .ok id ∧
        (getOrCreateMdir conf sent sender answers).1.senderFolder sent.id sender = .folder id) ↔
      LeadsToSent sent sender answers := by
  cases hlookup : lookupIn f conf.mdirRoot sent.id (subdirName sent.id sender) answers.lookup with
  | ok id =>
      rw [leadsToSent_found hlookup]
      simp only [getOrCreateMdir, hlookup, Except.ok.injEq, exists_eq_left']
  | error e =>
      rw [leadsToSent_failed hlookup]
      simp only [getOrCreateMdir, hlookup, Folders.senderFolder]
      generalize subdirName sent.id sender = name
      cases hmade : (requestFolder conf sent name answers).2 with
      | error e =>
          refine iff_of_false ?_ ?_
          · rintro ⟨id, hid, -⟩
            cases hid
          · rintro ⟨-, habsent, hall, -⟩
            rw [requestFolder_made hall habsent] at hmade
            cases hmade
      | ok _ =>
          rcases requestFolder_ok hmade with ⟨hall, habsent, hentry⟩
          -- the folder is made: what matters is where the name of the box leads now
          have hleads := leads_after_create hentry habsent
          cases hnew : lookupIn (requestFolder conf sent name answers).1 conf.mdirRoot sent.id name
              answers.lookupNew with
          | error e =>
              refine iff_of_false ?_ ?_
              · rintro ⟨id, hid, -⟩
                cases hid
              · rintro ⟨hroot, -, -, hload, -⟩
                rcases ((hleads _).2 ⟨hroot, rfl⟩).1 with ⟨b, hbox, hname⟩
                rw [lookupIn_ok_iff.2 ⟨b, hbox, hname, hload⟩] at hnew
                cases hnew
          | ok id =>
              rcases lookupIn_ok_iff.1 hnew with ⟨b, hbox, hname, hload⟩
              cases hperm : answers.perm with
              | error e =>
                  refine iff_of_false ?_ ?_
                  · rintro ⟨id, hid, -⟩
                    cases hid
                  · rintro ⟨-, -, -, -, hperm'⟩
                    cases hperm'
              | ok _ =>
                  constructor
                  · rintro ⟨id', hid, hsender⟩
                    cases hid
                    exact ⟨((hleads id).1 ⟨⟨b, hbox, hname⟩, hsender⟩).1, habsent, hall, hload, rfl⟩
                  · rintro ⟨hroot, -⟩
                    have hself := (hleads _).2 ⟨hroot, rfl⟩
                    rcases hself.1 with ⟨b', hbox', hname'⟩
                    rw [hbox] at hbox'
                    cases hbox'
                    rw [hname] at hname'
                    cases hname'
                    exact ⟨_, rfl, hself.2⟩

/-- The name of the last field. -/
def lastName (h : Header) : Option Bytes :=
  h.getLast?.map HeaderField.name

theorem lastName_headerFieldNew (h : Header) (name value : Bytes) :
    lastName (headerFieldNew h name value) = some (name.map tolower) := by
  simp [lastName, headerFieldNew]

/-- What is requested for the folder is not taken for the copy of a mail. -/
theorem getOrCreateMdir_requests (conf : AckerConf) (sent : SentBox f) (sender : Bytes) (answers : AckAnswers) :
    ∀ q ∈ (getOrCreateMdir conf sent sender answers).2.1, lastName q.header ≠ some SC_STATUS_FIELD := by
  have hdir : ∀ name, lastName (dirHeader name) ≠ some SC_STATUS_FIELD := by
    intro name
    rw [dirHeader, lastName_headerFieldNew]
    decide
  have hperm : ∀ username sender, lastName (permHeader username sender) ≠ some SC_STATUS_FIELD := by
    intro username sender
    rw [permHeader, lastName_headerFieldNew]
    decide
  simp only [getOrCreateMdir]
  split
  · simp
  · split
    · simp
    · split
      · simpa using hdir _
      · split
        · simpa using hdir _
        · simpa using ⟨hdir _, hperm _ _⟩

/-! ## Mails -/

/-- The removal of the message from to_send is requested. -/
def Moved.Removed (conf : AckerConf) (version : Int) (r : Moved) : Prop :=
  ⟨conf.toSendId, .rem, delRequestHeader version⟩ ∈ r.requests

/-- A copy with this header is requested in the folder of the sender. -/
def Moved.Delivered (sentId sender : Bytes) (h : Header) (r : Moved) : Prop :=
  ∃ id, r.folders.senderFolder sentId sender = .folder id ∧ ⟨id, .add, h⟩ ∈ r.requests

theorem lastName_sentboxHeader (h : Header) (now : Bytes) (status : Int) :
    lastName (sentboxHeader h now status) = some SC_STATUS_FIELD := by
  rw [sentboxHeader, lastName_headerFieldNew]
  decide

theorem copyToSent_iff (conf : AckerConf) (sent : SentBox f) {h : Header} {hf : HeaderField}
    (hlast : lastName h = some SC_STATUS_FIELD) (hfrom : headerFind h SC_FROM_FIELD = some hf)
    (answers : AckAnswers) :
    (copyToSent conf sent h answers).Delivered sent.id hf.value h ↔
      answers.copy = .ok () ∧ LeadsToSent sent hf.value answers := by
  have hother : ∀ id, (⟨id, .add, h⟩ : PatchRequest) ∉ (getOrCreateMdir conf sent hf.value answers).2.1 :=
    fun id hmem => getOrCreateMdir_requests conf sent hf.value answers _ hmem hlast
  rw [← getOrCreateMdir_iff conf]
  simp only [copyToSent, hfrom, Moved.Delivered]
  cases hget : (getOrCreateMdir conf sent hf.value answers).2.2 with
  | error e =>
      refine iff_of_false ?_ ?_
      · rintro ⟨id, -, hmem⟩
        exact hother id hmem
      · rintro ⟨-, id, hid, -⟩
        cases hid
  | ok id =>
      cases hcopy : answers.copy with
      | error e =>
          refine iff_of_false ?_ ?_
          · rintro ⟨id', -, hmem⟩
            exact hother id' hmem
          · rintro ⟨hcopied, -⟩
            cases hcopied
      | ok _ =>
          constructor
          · rintro ⟨id', hsender, hmem⟩
            rcases List.mem_append.1 hmem with hmem | hmem
            · exact absurd hmem (hother id')
            · rcases List.mem_singleton.1 hmem with heq
              cases heq
              exact ⟨rfl, id, rfl, hsender⟩
          · rintro ⟨-, id', hid, hsender⟩
            cases hid
            exact ⟨id, hsender, List.mem_append_right _ List.mem_cons_self⟩

/-- The removal comes to be requested. -/
structure RemovalMade (version : Int) (errors : List Failure) (h : Header) (answers : AckAnswers) : Prop where
  read : answers.read = .ok h
  clean : errors = []
  positive : 0 < version
  remove : answers.remove = .ok ()

theorem moveFwd_made {conf : AckerConf} {sent : SentBox f} {version status : Int} {now : Bytes}
    {errors : List Failure} {h : Header} {answers : AckAnswers} (hmade : RemovalMade version errors h answers) :
    moveFwd conf sent version status now errors answers =
      { copyToSent conf sent (sentboxHeader h now status) answers with
        requests := ⟨conf.toSendId, .rem, delRequestHeader version⟩ ::
          (copyToSent conf sent (sentboxHeader h now status) answers).requests } := by
  have hpos : ¬ version ≤ 0 := not_le.2 hmade.positive
  simp only [moveFwd, hmade.read, hmade.clean, mdirDelRequest, if_neg hpos, hmade.remove, ne_eq,
    not_true_eq_false, if_false]

theorem moveFwd_removed_iff {conf : AckerConf} {sent : SentBox f} {version status : Int} {now : Bytes}
    {errors : List Failure} {answers : AckAnswers} :
    (moveFwd conf sent version status now errors answers).Removed conf version ↔
      ∃ h, RemovalMade version errors h answers := by
  constructor
  · intro hremoved
    cases hread : answers.read with
    | error e => simp [moveFwd, hread, Moved.Removed] at hremoved
    | ok h =>
        by_cases hclean : errors = []
        · by_cases hpos : version ≤ 0
          · simp [moveFwd, hread, hclean, mdirDelRequest, hpos, Moved.Removed] at hremoved
          · cases hremove : answers.remove with
            | error e => simp [moveFwd, hread, hclean, mdirDelRequest, hpos, hremove, Moved.Removed] at hremoved
            | ok _ => exact ⟨h, hread, hclean, not_le.1 hpos, hremove⟩
        · simp [moveFwd, hread, hclean, Moved.Removed] at hremoved
  · rintro ⟨h, hmade⟩
    rw [moveFwd_made hmade]
    exact List.mem_cons_self

/-- The copy of the mail, with its status, is requested in the folder of its sender. -/
def Copied (sent : SentBox f) (status : Int) (now : Bytes) (answers : AckAnswers) (r : Moved) : Prop :=
  ∃ h hf, answers.read = .ok h ∧ headerFind h SC_FROM_FIELD = some hf ∧
    r.Delivered sent.id hf.value (sentboxHeader h now status)

/-- A mail that was sent, and no call fails. -/
structure NoFailure (version : Int) (errors : List Failure) (answers : AckAnswers) : Prop where
  mail : ∃ h hf, RemovalMade version errors h answers ∧ headerFind h SC_FROM_FIELD = some hf
  lookup : answers.lookup = .ok ()
  made : FolderMade answers
  lookupNew : answers.lookupNew = .ok ()
  perm : answers.perm = .ok ()
  copy : answers.copy = .ok ()

/-- The mail is not lost: it stays in to_send or it is copied, and it is copied if nothing fails. -/
def AckSafe (conf : AckerConf) (sent : SentBox f) (version status : Int) (now : Bytes) (errors : List Failure)
    (answers : AckAnswers) : Prop :=
  let r := moveFwd conf sent version status now errors answers
  (r.Removed conf version → Copied sent status now answers r) ∧
    (NoFailure version errors answers → Copied sent status now answers r)

/-- The two fields that are added are no From. -/
theorem headerFind_sentboxHeader (h : Header) (now : Bytes) (status : Int) :
    headerFind (sentboxHeader h now status) SC_FROM_FIELD = headerFind h SC_FROM_FIELD := by
  have hstop : strcaseeq (SC_STOP_FIELD.map tolower) SC_FROM_FIELD = false := by decide
  have hstatus : strcaseeq (SC_STATUS_FIELD.map tolower) SC_FROM_FIELD = false := by decide
  simp [sentboxHeader, headerFieldNew, headerFind, List.find?_append, hstop, hstatus]

/-- Once the removal is requested, the mail is copied exactly if it has a sender whose name leads to the right
folder, and the last request succeeds. -/
theorem copied_iff {conf : AckerConf} {sent : SentBox f} {version status : Int} {now : Bytes}
    {errors : List Failure} {h : Header} {answers : AckAnswers} (hmade : RemovalMade version errors h answers) :
    Copied sent status now answers (moveFwd conf sent version status now errors answers) ↔
      ∃ hf, headerFind h SC_FROM_FIELD = some hf ∧ answers.copy = .ok () ∧ LeadsToSent sent hf.value answers := by
  have hdelivered : ∀ hf, headerFind h SC_FROM_FIELD = some hf →
      ((moveFwd conf sent version status now errors answers).Delivered sent.id hf.value (sentboxHeader h now status) ↔
        answers.copy = .ok () ∧ LeadsToSent sent hf.value answers) := by
    intro hf hfrom
    rw [← copyToSent_iff conf sent (lastName_sentboxHeader h now status)
      ((headerFind_sentboxHeader h now status).trans hfrom), moveFwd_made hmade]
    simp [Moved.Delivered]
  constructor
  · rintro ⟨h', hf, hread, hfrom, hcopy⟩
    rw [hmade.read] at hread
    cases hread
    exact ⟨hf, hfrom, (hdelivered hf hfrom).1 hcopy⟩
  · rintro ⟨hf, hfrom, hcopy⟩
    exact ⟨h, hf, hmade.read, hfrom, (hdelivered hf hfrom).2 hcopy⟩

/-- **No mail is lost** by the acker exactly if the removal from to_send is not requested, or if the id of the sent
box leads, from the root and with the name of the sender, to the folder of the sender in the sent box, and the
calls that are made on the way succeed. -/
theorem ackSafe_iff (conf : AckerConf) (sent : SentBox f) (version status : Int) (now : Bytes)
    (errors : List Failure) (answers : AckAnswers) :
    AckSafe conf sent version status now errors answers ↔
      ∀ h, RemovalMade version errors h answers →
        ∃ hf, headerFind h SC_FROM_FIELD = some hf ∧ answers.copy = .ok () ∧
          LeadsToSent sent hf.value answers := by
  constructor
  · intro hsafe h hmade
    exact (copied_iff hmade).1 (hsafe.1 (moveFwd_removed_iff.2 ⟨h, hmade⟩))
  · intro hall
    constructor
    · intro hremoved
      rcases moveFwd_removed_iff.1 hremoved with ⟨h, hmade⟩
      exact (copied_iff hmade).2 (hall h hmade)
    · intro hno
      rcases hno.mail with ⟨h, -, hmade, -⟩
      exact (copied_iff hmade).2 (hall h hmade)

/-! ## A mail that is lost -/

/-- The sent box is `mailboxes/Sent`, with the id 2. -/
def usualFolders : Folders where
  dirs := [SC_ROOT_ID, ascii "1", ascii "2"]
  entry := fun id name =>
    if id = SC_ROOT_ID ∧ name = ascii "mailboxes" then .folder (ascii "1")
    else if id = ascii "1" ∧ name = ascii "Sent" then .folder (ascii "2")
    else .absent
  dirSeq := 3
  exist := by
    intro id name id' h
    split at h
    · cases h
      decide
    · split at h
      · cases h
        decide
      · cases h
  within := by
    intro id name h
    split at h
    · next heq => simp [heq.1]
    · split at h
      · next heq => simp [heq.1]
      · exact absurd rfl h
  fresh := by
    intro n _ hmem
    have hhead : ∀ id ∈ [SC_ROOT_ID, ascii "1", ascii "2"], id.head? ≠ some 95 := by decide
    exact hhead _ hmem rfl

/-- A mail of joe is delivered, and no call fails; it is removed from to_send, a folder is made for joe, and the
mail is in none of them. -/
theorem not_ackSafe :
    ¬ AckSafe ⟨ascii "/var/mdir", ascii "3", ascii "sendmail"⟩
      (⟨ascii "2", by decide⟩ : SentBox usualFolders) 7 250 (ascii "2008-12-01") []
      ⟨.ok [⟨SC_TYPE_FIELD, ascii "mail"⟩, ⟨SC_FROM_FIELD, ascii "joe"⟩], .ok (), .ok (), .ok (), .ok (), .ok (),
        .ok (), .ok (), .ok ()⟩ := by
  intro hsafe
  have hmade : RemovalMade 7 [] [⟨SC_TYPE_FIELD, ascii "mail"⟩, ⟨SC_FROM_FIELD, ascii "joe"⟩]
      ⟨.ok [⟨SC_TYPE_FIELD, ascii "mail"⟩, ⟨SC_FROM_FIELD, ascii "joe"⟩], .ok (), .ok (), .ok (), .ok (), .ok (),
        .ok (), .ok (), .ok ()⟩ := ⟨rfl, rfl, by decide, rfl⟩
  rcases (copied_iff hmade).1 (hsafe.1 (moveFwd_removed_iff.2 ⟨_, hmade⟩)) with ⟨hf, -, -, hleads⟩
  have hroot : usualFolders.entry SC_ROOT_ID (ascii "2") = .absent := by decide
  rcases hleads with ⟨b, -, hbox, -⟩ | ⟨hbox, -⟩
  · exact absurd (hroot.symm.trans hbox) (by simp)
  · exact absurd (hroot.symm.trans hbox) (by simp)

end Scambio
