import Scambio.Lib.HeaderWire
import Scambio.Lib.Folder
import Scambio.Stribution.Rules

/-!
# Daemon — the thread of a folder (`stribution/main.c`)

`smdirThread` gives to the rules in force the messages that were not processed yet; what it requests is recorded,
with the rules, message by message.  `smdirFree` and `smdirAlloc` are a stop and a start.  The library may refuse
what is requested.
-/

namespace Scambio

open Library

def STRIB_LAST_CONF_VERSION : Bytes := ascii "strib-last-conf-version"
def STRIB_LAST_DONE_VERSION : Bytes := ascii "strib-last-done-version"
def SC_STRIB_TYPE : Bytes := ascii "stribution"

/-- The rules in memory: what `strib_new` makes of a configuration. -/
abbrev Strib := List StribTest

/-- `struct strib_mdir`, as far as it lasts between messages. -/
structure Smdir where
  conf : Header
  lastConfVersion : Int
  lastDoneVersion : Int
  stribution : Option Strib
  deriving DecidableEq, Repr

/-- A message that `mdir_patch_list` delivers. -/
structure StribMsg where
  version : Int
  header : Header
  deriving DecidableEq, Repr

/-! ## Stopping and starting -/

/-- `replace_header_field` -/
def replaceHeaderField (h : Header) (name value : Bytes) : Header :=
  headerFieldNew (h.filter fun hf => !strcaseeq hf.name name) name value

/-- The header that `smdir_free` saves. -/
def savedConf (smdir : Smdir) : Header :=
  replaceHeaderField
    (replaceHeaderField smdir.conf STRIB_LAST_CONF_VERSION (mdirVersion2str smdir.lastConfVersion))
    STRIB_LAST_DONE_VERSION (mdirVersion2str smdir.lastDoneVersion)

/-- `smdir_free`: what is in the secret file then. -/
def smdirFree (smdir : Smdir) : Bytes :=
  headerWrite (savedConf smdir)

/-- A version in the configuration, 0 if it is not there. -/
def confVersion (conf : Header) (name : Bytes) : Except Err Int :=
  match headerFind conf name with
  | none => .ok 0
  | some hf => mdirStr2version hf.value

/-- `smdir_alloc` on a configuration. -/
def smdirOfConf (conf : Header) : Except Err Smdir :=
  match confVersion conf STRIB_LAST_CONF_VERSION with
  | .error e => .error e
  | .ok lastConfVersion =>
      match confVersion conf STRIB_LAST_DONE_VERSION with
      | .error e => .error e
      | .ok lastDoneVersion =>
          .ok { conf := conf, lastConfVersion := lastConfVersion, lastDoneVersion := lastDoneVersion,
                stribution := none }

/-- `smdir_alloc`, on the contents of the secret file.  The test of the error code is never true, so that
whatever the error is the configuration is empty. -/
def smdirAlloc [Host] (file : Option Bytes) : Except Err Smdir :=
  let read := headerFromFile ErrBuf.new file []
  match read.1.errStack with
  -- the daemon does not survive the reading
  | .abort assertion :: _ => .error (.abort assertion)
  | _ => smdirOfConf (read.2.getD [])

/-! ## Actions -/

/-- What is requested of the library. -/
inductive StribRequest
  | copy (folder : Bytes) (object : Header)
  | createFolder (relname : Bytes)
  | delete (version : Int)
  | markError (version : Int) (msg : Bytes)
  deriving DecidableEq, Repr

/-- What `mdir_lookup` finds: nothing, a folder in memory, or one that it loads. -/
inductive FolderLookup
  | missing
  | cached
  | loaded
  deriving DecidableEq, Repr

/-- What the daemon depends on: the parser of configurations, the regular expressions, the name of the folder,
and, once some requests were made, the folders there are and whether `mdir_patch_request` accepts another one (a
folder that is there already cannot be linked, a disk can be full). -/
structure StribWorld where
  stribNew : Header → Option Strib
  regexec : Bytes → Bytes → Bool
  mdirName : Bytes
  lookup : List StribRequest → Bytes → FolderLookup
  grants : List StribRequest → StribRequest → Bool

/-- The requests of an action, the last of which may be refused, and whether an error is then pending. -/
structure Requested where
  requests : List StribRequest
  error : Bool
  deriving DecidableEq, Repr

section Actions

variable (world : StribWorld) (history : List StribRequest)

/-- `mdir_patch_request`, after some requests of the same action. -/
def patchRequest (before : List StribRequest) (request : StribRequest) : Requested :=
  ⟨before ++ [request], !world.grants (history ++ before) request⟩

/-- `do_delete`: with an error pending, `mdir_del_request` returns. -/
def doDelete (before : List StribRequest) (version : Int) (error : Bool) : Requested :=
  if version ≤ 0 then ⟨before, true⟩
  else if error then ⟨before, true⟩
  else patchRequest world history before (.delete version)

/-- `do_copy_string`.  An error pending is taken for one of `mdir_lookup`, unless the folder is loaded:
`smdir_alloc` clears it. -/
def doCopyString (relname : Bytes) (object : Header) (error : Bool) : Requested :=
  let absname := snprintfPath (world.mdirName ++ ascii "/" ++ relname)
  let create : Requested :=
    let created := patchRequest world history [] (.createFolder relname)
    if created.error then created
    else
      match world.lookup (history ++ created.requests) absname with
      | .missing => ⟨created.requests, true⟩
      | _ => patchRequest world history created.requests (.copy absname object)
  match world.lookup history absname with
  | .missing => create
  | .cached => if error then create else patchRequest world history [] (.copy absname object)
  | .loaded => patchRequest world history [] (.copy absname object)

/-- `do_copy` and `do_copy_deref`; `none` where there is no destination to read. -/
def doCopy (dest : Option StribDest) (subject object : Header) (error : Bool) : Option Requested :=
  match dest with
  | none => none
  | some (.string relname) => some (doCopyString world history relname object error)
  | some (.deref name) =>
      match headerFind subject name with
      | none => some ⟨[], true⟩
      | some hf => some (doCopyString world history hf.value object error)

/-- `action_cb` -/
def actionCb (action : StribAction) (subject object : Header) (version : Int) (error : Bool) : Option Requested :=
  match action.type with
  | .delete => some (doDelete world history [] version error)
  | .copy => doCopy world history action.dest subject object error
  | .move =>
      match doCopy world history action.dest subject object error with
      | none => none
      | some copy =>
          -- without its copy the message is not deleted
          if copy.error then some copy else some (doDelete world history copy.requests version false)
  | .invalid => none

/-- `strib_eval` with `action_cb`: all tests that apply, in order. -/
def stribEval : Strib → List StribRequest → Header → Header → Int → Bool → Option Requested
  | [], _, _, _, _, error => some ⟨[], error⟩
  | test :: tests, history, subject, object, version, error =>
      match conditionEval world.regexec test.condition subject with
      | none => none
      | some false => stribEval tests history subject object version error
      -- an action may fail without ending the loop: the error stays pending
      | some true =>
          match actionCb world history test.action subject object version error with
          | none => none
          | some done =>
              match stribEval tests (history ++ done.requests) subject object version done.error with
              | none => none
              | some later => some ⟨done.requests ++ later.requests, later.error⟩

end Actions

/-! ## Messages -/

/-- `mdir_get_targeted_header`, in a folder that holds these messages. -/
def mdirGetTargetedHeader (journal : List StribMsg) (h : Header) : Except Err Header :=
  match headerTarget h with
  | .error e => .error e
  | .ok version =>
      match journal.find? fun msg => msg.version == version with
      | none => .error (.push 0 (ascii "No such version"))
      | some msg => .ok msg.header

/-- What `process_put_rec` has to do for a message. -/
inductive MessageKind
  | skip
  | config
  /-- The target of a mark is not found. -/
  | noTarget
  /-- Marks that target one another. -/
  | endless
  | ruled (subject : Header)
  deriving DecidableEq, Repr

/-- The walk of `process_put_rec` from mark to target; `same` tells whether the subject is the object. -/
def messageKind (journal : List StribMsg) : Nat → Bool → Header → MessageKind
  | 0, _, _ => .endless
  | fuel + 1, same, subject =>
      match headerFind subject SC_TYPE_FIELD with
      | none => .ruled subject
      | some hfType =>
          if hfType.value = SC_DIR_TYPE then .skip
          -- rules are rules only as a message of their own, not as the target of a mark
          else if hfType.value = SC_STRIB_TYPE then if same then .config else .skip
          else if hfType.value = SC_MARK_TYPE then
            match mdirGetTargetedHeader journal subject with
            | .error _ => .noTarget
            | .ok altSubject => messageKind journal fuel false altSubject
          else .ruled subject

/-- A walk that is longer than the journal comes back to a message. -/
def kindOf (journal : List StribMsg) (h : Header) : MessageKind :=
  messageKind journal (journal.length + 1) true h

/-- What is done for a message: the rules it is given to, if it is, and what is requested. -/
structure StribEvent where
  version : Int
  rules : Option (Option Strib)
  requests : List StribRequest
  deriving DecidableEq, Repr

structure PutResult where
  smdir : Smdir
  event : StribEvent
  error : Bool

variable (world : StribWorld) (journal : List StribMsg)

/-- `process_message` -/
def processMessage (smdir : Smdir) (history : List StribRequest) (subject object : Header) (version : Int) :
    Option PutResult :=
  match smdir.stribution with
  | none => some ⟨smdir, ⟨version, some none, []⟩, false⟩
  | some tests =>
      match stribEval world tests history subject object version false with
      | none => none
      | some done => some ⟨smdir, ⟨version, some (some tests), done.requests⟩, done.error⟩

/-- `process_put_rec`; `none` when the program stops. -/
def processPutRec (smdir : Smdir) (history : List StribRequest) (msg : StribMsg) : Option PutResult :=
  match kindOf journal msg.header with
  | .skip => some ⟨smdir, ⟨msg.version, none, []⟩, false⟩
  | .config =>
      match world.stribNew msg.header with
      | none =>
          -- `mdir_mark_error`
          let marked := patchRequest world history [] (.markError msg.version (ascii "Cannot parse strib config"))
          some ⟨smdir, ⟨msg.version, none, marked.requests⟩, marked.error⟩
      | some strib =>
          some ⟨{ smdir with lastConfVersion := msg.version, conf := msg.header, stribution := some strib },
            ⟨msg.version, none, []⟩, false⟩
  | .noTarget => some ⟨smdir, ⟨msg.version, none, []⟩, true⟩
  | .endless => none
  | .ruled subject => processMessage world smdir history subject msg.header msg.version

/-- `process_put`; the transient messages, which it leaves alone, are not listed here. -/
def processPut (smdir : Smdir) (history : List StribRequest) (msg : StribMsg) : Option PutResult :=
  processPutRec world journal { smdir with lastDoneVersion := msg.version } history msg

/-- How a thread ends. -/
inductive ThreadEnd
  | waiting
  | error
  | crash
  deriving DecidableEq, Repr

structure StribRun where
  smdir : Smdir
  events : List StribEvent
  ending : ThreadEnd
  deriving DecidableEq, Repr

/-- The loop of `smdir_thread` over the messages that come; it ends when an error is left. -/
def smdirLoop : Smdir → List StribRequest → List StribMsg → StribRun
  | smdir, _, [] => ⟨smdir, [], .waiting⟩
  | smdir, history, msg :: msgs =>
      match processPut world journal smdir history msg with
      | none => ⟨smdir, [], .crash⟩
      | some done =>
          if done.error then ⟨done.smdir, [done.event], .error⟩
          else
            let later := smdirLoop done.smdir (history ++ done.event.requests) msgs
            { later with events := done.event :: later.events }

/-- `smdir_thread`: the cursor starts after the last version done. -/
def smdirThread (smdir : Smdir) (history : List StribRequest) : StribRun :=
  smdirLoop world journal smdir history (journal.filter fun msg => smdir.lastDoneVersion < msg.version)

end Scambio
