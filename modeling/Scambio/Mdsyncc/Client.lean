import Scambio.Lib.Cnx
import Scambio.Lib.Mdir

/-!
# Client — one mdir of the synchronisation client (`mdsyncc`)

The writer sends the transient patches found in the `.tmp` folder of a mdir and counts the answers
it waits for.  The reader handles these answers, and the PATCH commands that come with the patches of
the server: they are kept in a queue ordered by version until they can be applied to the journals.
A handler that leaves an error raised ends the reader.
-/

namespace Scambio

open Library

/-! ## Data model -/

inductive Kw
  | put
  | rem
  | sub
  | unsub
  deriving DecidableEq, Repr

/-- `struct command`: a query sent for a mdir. -/
structure Command where
  kw : Kw
  filename : Bytes
  header : Option Header
  deriving DecidableEq, Repr

structure C2lMap where
  central : Int
  local' : Int
  deriving DecidableEq, Repr

/-- `struct patch`: a patch received and not yet applied. -/
structure Patch where
  oldVersion : Int
  newVersion : Int
  header : Header
  action : Action
  deriving DecidableEq, Repr

/-- `struct mdirc` together with what its handlers use: the connection (whose queries may be those of
other mdirs), the files of the `.tmp` and `.err` folders, and whether the reader is still there. -/
structure Mdirc where
  mdir : Mdir
  commands : List Command
  c2lMaps : List C2lMap
  subscribed : Bool
  patches : List Patch
  nbPendingAcks : Nat
  quarantine : Int
  cnx : Cnx (Option Command)
  files : Bytes → Option Bytes
  reading : Bool

/-- A client that just started. -/
def Mdirc.new (mdir : Mdir) (cnx : Cnx (Option Command)) (files : Bytes → Option Bytes) : Mdirc :=
  { mdir := mdir, commands := [], c2lMaps := [], subscribed := false, patches := [],
    nbPendingAcks := 0, quarantine := 0, cnx := cnx, files := files, reading := true }

/-! ## Versions of the server and of the client -/

def c2lNew (list : List C2lMap) (central local' : Int) : List C2lMap :=
  { central := central, local' := local' } :: list

def c2lSearch (list : List C2lMap) (central : Int) : Option C2lMap :=
  list.find? fun c2l => c2l.central == central

def c2lDel (list : List C2lMap) (c2l : C2lMap) : List C2lMap :=
  list.erase c2l

/-- `remember_version_map`: the number of a transient patch follows the sign in its file name. -/
def rememberVersionMap (c2lMaps : List C2lMap) (centralStr localFile : Bytes) :
    Except Err (List C2lMap) :=
  match mdirStr2version centralStr with
  | .error e => .error e
  | .ok central =>
      if (basename localFile) = localFile then
        .error (.push 0 (ascii "Bad filename : " ++ localFile))
      else
        match mdirStr2version ((basename localFile).drop 1) with
        | .error e => .error e
        | .ok local' => .ok (c2lNew c2lMaps central local')

/-! ## Writer -/

def commandGetByPath (commands : List Command) (kw : Kw) (path : Bytes) : Option Command :=
  commands.find? fun cmd => cmd.kw == kw && cmd.filename == path

/-- `command_new`. -/
def commandNew (c : Mdirc) (kw : Kw) (filename : Bytes) (h : Option Header) (now : Int)
    (written : Option Err) : Mdirc × Except Err Unit :=
  let cmd : Command := { kw := kw, filename := snprintfPath filename, header := h }
  match cnxQuery c.cnx (some cmd) now written with
  | (cnx, .error e) => ({ c with cnx := cnx }, .error e)
  | (cnx, .ok ()) => ({ c with cnx := cnx, commands := cmd :: c.commands }, .ok ())

/-- The subscription part of `parse_dir_rec`. -/
def subscribe (c : Mdirc) (new hidden : Bool) (now : Int) (written : Option Err) :
    Mdirc × Except Err Unit :=
  if !c.subscribed && !new && !hidden && (c.quarantine == 0 || decide (c.quarantine ≤ now)) then
    if (commandGetByPath c.commands .sub []).isSome then (c, .ok ())
    else commandNew c .sub [] none now written
  else (c, .ok ())

def kwOfName (name : Bytes) : Option Kw :=
  match name with
  | 43 :: _ => some .put
  | 45 :: _ => some .rem
  | _ => none

section Handlers

variable [Host]

/-- One round of the loop of `ls_transients`. -/
def lsTransient (c : Mdirc) (name : Bytes) (now : Int) (written : Option Err) : Mdirc :=
  match kwOfName name with
  | none => c
  | some kw =>
      let filename := snprintfPath (c.mdir.path ++ ascii "/.tmp/" ++ name)
      -- there is a command for this file already
      if (commandGetByPath c.commands kw filename).isSome then c
      else
        match headerFromFile ErrBuf.new (c.files filename) filename with
        | (_, none) => c
        | (_, some h) =>
            -- no localid is sent
            let h := h.filter fun hf => !strcaseeq hf.name SC_LOCALID_FIELD
            match commandNew c kw filename (some h) now written with
            -- a command that cannot be sent is skipped, and no acknowledgement is awaited
            | (c, .error _) => c
            | (c, .ok ()) => { c with nbPendingAcks := c.nbPendingAcks + 1 }

/-- `ls_transients`.  `entries` is what `opendir` and `readdir` deliver, with the outcome of the write
of the query for each file. -/
def lsTransients (c : Mdirc) (entries : Except Nat (List (Bytes × Option Err))) (now : Int) :
    Mdirc × Except Err Unit :=
  match entries with
  | .error errno =>
      if errno = ENOENT then (c, .ok ())
      else
        (c, .error (.push errno
          (ascii "opendir(" ++ snprintfPath (c.mdir.path ++ ascii "/.tmp") ++ ascii ")")))
  | .ok names => (names.foldl (fun c e => lsTransient c e.1 now e.2) c, .ok ())

/-! ## Reader: answers -/

omit [Host] in
def retryLater (status : Int) : Bool :=
  decide (300 ≤ status) && decide (status < 400)

omit [Host] in
/-- The file under `.err` for the one under `.tmp`: the three characters after the last dot change. -/
def errFilename (filename : Bytes) : Option Bytes :=
  let pre := filename.reverse.dropWhile (· != 46)
  let post := filename.drop pre.length
  if pre ≠ [] ∧ (ascii "tmp").isPrefixOf post then some (pre.reverse ++ ascii "err" ++ post.drop 3)
  else none

omit [Host] in
/-- `fin_putrem`; the errors it meets are cleared at its end. -/
def finPutrem (c : Mdirc) (command : Command) (status : Int) (compl : Bytes) :
    Mdirc × Except Err Unit :=
  if command.filename = [] then (c, .error (.abort (ascii "command->filename[0] != '\\0'")))
  else if status = 200 then
    -- acknowledged: the file goes, its version is remembered
    let maps := (rememberVersionMap c.c2lMaps compl command.filename).toOption.getD c.c2lMaps
    ({ c with
        c2lMaps := maps
        files := Function.update c.files command.filename none
        commands := c.commands.erase command }, .ok ())
  else if !retryLater status then
    -- refused: the file is written again as an error, with the status in its header
    let files := Function.update c.files command.filename none
    let statusStr := (printInt status ++ ascii "; error=\"" ++ compl ++ ascii "\"").take 1023
    let header := headerFieldNew (command.header.getD []) SC_STATUS_FIELD statusStr
    match errFilename command.filename with
    | none =>
        ({ c with files := files },
          .error (.abort (ascii "tmp && tmp[1] == 't' && tmp[2] == 'm' && tmp[3] == 'p'")))
    | some errFile =>
        ({ c with
            files := Function.update files errFile
              (some (overwrite 0 ((files errFile).getD []) 0 (headerDump header)))
            commands := c.commands.erase command }, .ok ())
  -- left for a retry: the file stays, so that the next scan sends it again
  else ({ c with commands := c.commands.erase command }, .ok ())

omit [Host] in
def finalizeSub (c : Mdirc) (now seq status : Int) : Mdirc × Except Err Unit :=
  match cnxQueryRetrieve c.cnx now seq with
  | (cnx, .error e) => ({ c with cnx := cnx }, .error e)
  | (cnx, .ok sq) =>
      let c := { c with cnx := cnx }
      match sq.owner with
      | none => (c, .ok ())
      | some command =>
          let c := { c with commands := c.commands.erase command }
          if status = 200 then ({ c with subscribed := true }, .ok ())
          else ({ c with quarantine := now + 5 * 60 }, .ok ())

omit [Host] in
def finalizeUnsub (c : Mdirc) (now seq status : Int) : Mdirc × Except Err Unit :=
  match cnxQueryRetrieve c.cnx now seq with
  | (cnx, .error e) => ({ c with cnx := cnx }, .error e)
  | (cnx, .ok sq) =>
      let c := { c with cnx := cnx }
      match sq.owner with
      | none => (c, .ok ())
      | some command =>
          let c := { c with commands := c.commands.erase command }
          if status = 200 then ({ c with subscribed := false }, .ok ()) else (c, .ok ())

omit [Host] in
/-- What `finalize_put` and `finalize_rem` both do. -/
def finalizeAnswer (c : Mdirc) (now seq status : Int) (compl : Bytes) : Mdirc × Except Err Unit :=
  match cnxQueryRetrieve c.cnx now seq with
  | (cnx, .error e) => ({ c with cnx := cnx }, .error e)
  | (cnx, .ok sq) =>
      let c := { c with cnx := cnx }
      match sq.owner with
      -- the query was about another mdir
      | none => (c, .ok ())
      | some command =>
          if c.nbPendingAcks = 0 then
            (c, .error (.abort (ascii "command->mdirc->nb_pending_acks > 0")))
          else finPutrem { c with nbPendingAcks := c.nbPendingAcks - 1 } command status compl

omit [Host] in
def finalizePut (c : Mdirc) (now seq status : Int) (compl : Bytes) : Mdirc × Except Err Unit :=
  finalizeAnswer c now seq status compl

omit [Host] in
def finalizeRem (c : Mdirc) (now seq status : Int) (compl : Bytes) : Mdirc × Except Err Unit :=
  finalizeAnswer c now seq status compl

/-! ## Reader: patches -/

omit [Host] in
def mdirStr2action (str : Bytes) : Except Err Action :=
  match str with
  | [43] => .ok .add
  | [45] => .ok .rem
  | _ => .error (.push 0 (ascii "Invalid action : '" ++ str ++ ascii "'"))

omit [Host] in
/-- Where `patch_ctor` puts a patch: after those of the same or a smaller old version that come
first. -/
def insertPatch (patch : Patch) : List Patch → List Patch
  | [] => [patch]
  | p :: ps =>
      if p.oldVersion > patch.oldVersion then patch :: p :: ps else p :: insertPatch patch ps

omit [Host] in
/-- The header of a received patch, and the maps that are left. -/
def tieLocalId (c2lMaps : List C2lMap) (newVersion : Int) (h : Header) : Header × List C2lMap :=
  match c2lSearch c2lMaps newVersion with
  | none => (h, c2lMaps)
  | some c2l =>
      (headerFieldNew h SC_LOCALID_FIELD (mdirVersion2str c2l.local'), c2lDel c2lMaps c2l)

/-- `patch_new`, with the header read from `fd`. -/
def patchNew (c : Mdirc) (oldVersion newVersion : Int) (action : Except Err Action) (fd : Bytes) :
    Mdirc × Except Err Unit :=
  match action with
  | .error e => (c, .error e)
  | .ok action =>
      match (headerRead fd).1 with
      | .error e => (c, .error e)
      | .ok h =>
          let (header, maps) := tieLocalId c.c2lMaps newVersion h
          let patch : Patch :=
            { oldVersion := oldVersion, newVersion := newVersion, header := header, action := action }
          ({ c with c2lMaps := maps, patches := insertPatch patch c.patches }, .ok ())

omit [Host] in
/-- `unsigned nb_deleted = patch->new_version - patch->old_version - 1`. -/
def nbDeletedOf (patch : Patch) : Nat :=
  ((patch.newVersion - patch.oldVersion - 1) % 2 ^ 32).toNat

/-- The loop of `try_apply`: the mdir, the patches left and the outcome. -/
def tryApplyLoop (sys : Sys) (maxJnlSize : Nat) : Mdir → List Patch → Mdir × List Patch × Except Err Unit
  | m, [] => (m, [], .ok ())
  | m, patch :: patches =>
      -- the patch before it is not there yet
      if mdirLastVersion m ≠ patch.oldVersion then (m, patch :: patches, .ok ())
      else if ¬ patch.newVersion > patch.oldVersion then
        (m, patch :: patches, .error (.abort (ascii "patch->new_version > patch->old_version")))
      else
        let r := mdirPatch sys maxJnlSize m patch.action patch.header (nbDeletedOf patch)
        let patch := { patch with header := r.header }
        match r.result with
        | .error e => (r.mdir, patch :: patches, .error e)
        | .ok version =>
            if version ≠ patch.newVersion then
              (r.mdir, patch :: patches, .error (.abort (ascii "version == patch->new_version")))
            else tryApplyLoop sys maxJnlSize r.mdir patches

def tryApply (sys : Sys) (maxJnlSize : Nat) (c : Mdirc) : Mdirc × Except Err Unit :=
  if c.nbPendingAcks > 0 then (c, .ok ())
  else
    let (m, patches, r) := tryApplyLoop sys maxJnlSize c.mdir c.patches
    ({ c with mdir := m, patches := patches }, r)

/-- `patch_service` for this mdir. -/
def patchService (sys : Sys) (maxJnlSize : Nat) (c : Mdirc) (oldVersion newVersion : Int)
    (action fd : Bytes) : Mdirc × Except Err Unit :=
  match patchNew c oldVersion newVersion (mdirStr2action action) fd with
  | (c, .error e) => (c, .error e)
  | (c, .ok ()) => tryApply sys maxJnlSize c

/-! ## Events -/

omit [Host] in
/-- What may happen to a mdir of the client between two states. -/
inductive Event
  /-- Other processes change the transient files. -/
  | files (files : Bytes → Option Bytes)
  /-- A query is sent for another mdir. -/
  | otherQuery (now : Int) (written : Option Err)
  | subscribe (new hidden : Bool) (now : Int) (written : Option Err)
  | transients (entries : Except Nat (List (Bytes × Option Err))) (now : Int)
  | answer (kw : Kw) (now seq status : Int) (compl : Bytes)
  | patch (sys : Sys) (oldVersion newVersion : Int) (action fd : Bytes)

omit [Host] in
/-- The handler of an answer, by its keyword. -/
def finalize (c : Mdirc) (kw : Kw) (now seq status : Int) (compl : Bytes) : Mdirc × Except Err Unit :=
  match kw with
  | .put => finalizePut c now seq status compl
  | .rem => finalizeRem c now seq status compl
  | .sub => finalizeSub c now seq status
  | .unsub => finalizeUnsub c now seq status

omit [Host] in
/-- An error that is left raised ends the reader, an assertion the whole client. -/
def readerOutcome : Mdirc × Except Err Unit → Option Mdirc
  | (c, .ok ()) => some c
  | (c, .error (.push _ _)) => some { c with reading := false }
  | (_, .error (.abort _)) => none

/-- The state after an event; nothing is read any more once the reader has ended. -/
def handle (maxJnlSize : Nat) (c : Mdirc) : Event → Option Mdirc
  | .files files => some { c with files := files }
  | .otherQuery now written => some { c with cnx := (cnxQuery c.cnx none now written).1 }
  | .subscribe new hidden now written => some (subscribe c new hidden now written).1
  | .transients entries now => some (lsTransients c entries now).1
  | .answer kw now seq status compl =>
      if c.reading then readerOutcome (finalize c kw now seq status compl) else some c
  | .patch sys oldVersion newVersion action fd =>
      if c.reading then readerOutcome (patchService sys maxJnlSize c oldVersion newVersion action fd)
      else some c

end Handlers

end Scambio
