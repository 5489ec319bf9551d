import Scambio.Lib.Folder

/-!
# Mdir — patching, reading and loading a mdir (`lib/mdir.c`)

A `struct mdir` is its path, its list of journals, its permissions and the directory on disk.  A
function that may raise an error returns the state it leaves together with its outcome, since an
error does not undo what was done before it.
-/

namespace Scambio

open Library

structure Mdir where
  path : Bytes
  jnls : List Jnl
  disk : Disk
  permissions : Option Header

namespace Mdir

/-- A mdir just created: an empty directory. -/
def new (path : Bytes) : Mdir :=
  { path := path, jnls := [], disk := Disk.empty, permissions := none }

/-- Update a `struct jnl`.  `jnlInsert` refuses two journals of one version, so the version stands for
the pointer. -/
def putJnl (m : Mdir) (j : Jnl) : Mdir :=
  { m with jnls := m.jnls.map fun k => if k.version = j.version then j else k }

end Mdir

/-! ## Accessors -/

def mdirLastVersion (m : Mdir) : Int :=
  match m.jnls.getLast? with
  | none => 0
  | some j => j.version + j.nbPatches - 1

/-! ## Reading -/

section Read

variable [Host]

def mdirRead (m : Mdir) (version : Int) : Except Err (Action × Option Header) :=
  match jnlGetByVersion m.jnls version with
  | .error e => .error e
  | .ok j => jnlRead m.disk j (version - j.version).toNat

omit [Host] in
/-- `get_next_version`: the version after the given one and its journal; `none` raises ENOMSG. -/
def getNextVersion (m : Mdir) (version : Int) : Option (Int × Jnl) :=
  match m.jnls.find? fun j => j.holds (version + 1) || decide (j.version > version + 1) with
  | none => none
  | some j => some (if j.holds (version + 1) then version + 1 else j.version, j)

/-- The loop of `mdir_read_next`: deleted patches are skipped.  `none` when there is no more patch.
Versions grow at each round, so the number of patches bounds the number of rounds. -/
def mdirReadNextLoop (m : Mdir) : Nat → Int → Except Err (Option (Int × Action × Header))
  | 0, _ => .ok none
  | fuel + 1, version =>
      match getNextVersion m version with
      | none => .ok none
      | some (next, j) =>
          match jnlReadText m.disk j (next - j.version).toNat with
          -- no header: one more round, that ends on the pending error
          | .error e => if (getNextVersion m next).isNone then .ok none else .error e
          | .ok (_, none) => mdirReadNextLoop m fuel next
          | .ok (action, some text) =>
              match headerParse (cstr text) with
              | .error e => .error e
              | .ok (h, _) => .ok (some (next, action, h))

def mdirReadNext (m : Mdir) (version : Int) : Except Err (Option (Int × Action × Header)) :=
  mdirReadNextLoop m ((m.jnls.map Jnl.nbPatches).sum + m.jnls.length + 1) version

end Read

/-! ## Patching -/

/-- `jnl_new_empty`. -/
def jnlNewEmpty (m : Mdir) (startVersion : Int) : Mdir × Except Err Jnl :=
  match jnlNew m.path m.disk m.jnls (jnlStem startVersion) with
  | (d, .error e) => ({ m with disk := d }, .error e)
  | (d, .ok (jnls, j)) => ({ m with disk := d, jnls := jnls }, .ok j)

/-- `last_jnl`: the last journal, or a new one. -/
def lastJnl (maxJnlSize : Nat) (m : Mdir) : Mdir × Except Err Jnl :=
  match m.jnls.getLast? with
  | none => jnlNewEmpty m 1
  | some j =>
      if jnlTooBig maxJnlSize j then jnlNewEmpty m (j.version + j.nbPatches)
      else (m, .ok j)

/-- `last_jnl` followed by `jnl_patch` or `jnl_patch_blank`. -/
def mdirAppend (maxJnlSize : Nat) (m : Mdir) (record : Bytes) : Mdir × Except Err (Jnl × Int) :=
  match lastJnl maxJnlSize m with
  | (m, .error e) => (m, .error e)
  | (m, .ok j) =>
      let (d, j, version) := jnlAppend m.disk j record
      ({ m with disk := d }.putJnl j, .ok (j, version))

def insertBlankPatches (maxJnlSize : Nat) : Mdir → Nat → Mdir × Except Err Unit
  | m, 0 => (m, .ok ())
  | m, nb + 1 =>
      match mdirAppend maxJnlSize m blankRecord with
      | (m, .error e) => (m, .error e)
      | (m, .ok _) => insertBlankPatches maxJnlSize m nb

section Patch

variable [Host] (sys : Sys)

def mdirPrepareRem (m : Mdir) (header : Header) (transient : Bool) : Mdir × Except Err Unit :=
  match headerTarget header with
  | .error e => (m, .error e)
  | .ok toDel =>
      match m.jnls.find? fun j => j.holds toDel with
      | none =>
          (m, .error (.push 0
            (ascii "Version " ++ printInt toDel ++ ascii " does not exist")))
      | some oldJnl =>
          match jnlRead m.disk oldJnl (toDel - oldJnl.version).toNat with
          | .error e => (m, .error e)
          -- it was already removed
          | .ok (_, none) => (m, .ok ())
          | .ok (action, some target) =>
              if action ≠ .add then (m, .error (.push 0 (ascii "Bad patch type for deletion")))
              else
                match (if headerIsDirectory target then mdirUnlink sys m.path target else .ok ()) with
                | .error e => (m, .error e)
                | .ok () =>
                    if transient then (m, .ok ())
                    else
                      let (d, r) := jnlMarkDel m.disk oldJnl toDel
                      ({ m with disk := d }, r)

omit [Host] in
/-- `mdir_prepare_add`: the header as `mdir_link` leaves it. -/
def mdirPrepareAdd (m : Mdir) (header : Header) (transient : Bool) : Header × Except Err Unit :=
  if headerIsDirectory header then mdirLink sys m.path header transient else (header, .ok ())

omit [Host] in
/-- `update_permissions`: when the file cannot be written, defaults are used. -/
def updatePermissions (m : Mdir) (header : Header) : Mdir :=
  match sys.openPerms with
  | some _ => { m with permissions := none }
  | none =>
      { m with disk := m.disk.writePerms (headerDump header), permissions := some header }

omit [Host] in
def mdirConfirmAdd (m : Mdir) (header : Header) : Mdir × Except Err Unit :=
  if headerIsDirectory header then
    match headerFind header SC_NAME_FIELD with
    | none => (m, .error (.abort (ascii "name_field")))
    | some hf =>
        let path := versionOfPath m.path hf.value
        match sys.creat path with
        | some errno => (m, .error (.push errno (ascii "creat(" ++ path ++ ascii ")")))
        | none =>
            match sys.writeVersion path with
            | some (errno, left) => (m, .error (.push errno (ascii "Cannot write " ++ decimal left ++ ascii " bytes")))
            | none => (m, .ok ())
  else if headerHasType header SC_PERM_TYPE then (updatePermissions sys m header, .ok ())
  else (m, .ok ())

omit [Host] in
/-- `is_mark_for`: the version a mark refers to, 0 for a header that is no mark or has no target. -/
def isMarkFor (header : Header) : Int :=
  if headerHasType header SC_MARK_TYPE then
    match headerTarget header with
    | .ok target => target
    | .error _ => 0
  else 0

/-- The mark index part of `mdir_patch`: the new patch takes the place of the last mark of its target,
and the previous last mark becomes its own. -/
def handleMark (m : Mdir) (header : Header) (j : Jnl) (version : Int) : Mdir × Except Err Unit :=
  let marked := isMarkFor header
  if marked = 0 then (m, .ok ())
  else
    match jnlGetByVersion m.jnls marked with
    | .error e => (m, .error e)
    | .ok targetJnl =>
        match jnlReplaceLastMark m.disk targetJnl (marked - targetJnl.version).toNat version with
        | (d, .error e) => ({ m with disk := d }, .error e)
        | (d, .ok lastMark) =>
            match jnlReplaceLastMark d j (version - j.version).toNat lastMark with
            | (d, .error e) => ({ m with disk := d }, .error e)
            | (d, .ok _) => ({ m with disk := d }, .ok ())

/-- The checks `mdir_patch` makes before it appends: the mdir, the header and the outcome. -/
def mdirPrepare (m : Mdir) (action : Action) (header : Header) : Mdir × Header × Except Err Unit :=
  match action with
  | .rem => let (m, r) := mdirPrepareRem sys m header false; (m, header, r)
  | .add => let (h, r) := mdirPrepareAdd sys m header false; (m, h, r)

omit [Host] in
def mdirConfirm (m : Mdir) (action : Action) (header : Header) : Mdir × Except Err Unit :=
  match action with
  | .rem => (m, .ok ())
  | .add => mdirConfirmAdd sys m header

/-- The mdir, the caller's header and the outcome after a `mdir_patch`. -/
structure PatchResult where
  mdir : Mdir
  header : Header
  result : Except Err Int

def mdirPatch (maxJnlSize : Nat) (m : Mdir) (action : Action) (header : Header) (nbDeleted : Nat) :
    PatchResult :=
  match insertBlankPatches maxJnlSize m nbDeleted with
  | (m, .error e) => ⟨m, header, .error e⟩
  | (m, .ok ()) =>
      -- before the record is written: a link is made, or the target of a removal is tagged
      match mdirPrepare sys m action header with
      | (m, header, .error e) => ⟨m, header, .error e⟩
      | (m, header, .ok ()) =>
          match mdirAppend maxJnlSize m (patchRecord action header) with
          | (m, .error e) => ⟨m, header, .error e⟩
          | (m, .ok (j, version)) =>
              -- after it: the version of a new folder is noted, or the permissions are put in force
              match mdirConfirm sys m action header with
              | (m, .error e) => ⟨m, header, .error e⟩
              | (m, .ok ()) =>
                  match handleMark m header j version with
                  | (m, .error e) => ⟨m, header, .error e⟩
                  | (m, .ok ()) => ⟨m, header, .ok version⟩

end Patch

/-! ## Loading -/

section Reload

variable [Host]

/-- `header_from_file` on a file of the given contents, in a thread whose error stack is `eb`: with an
error already pending the header is dropped. -/
def headerFromFile (eb : ErrBuf) (file : Option Bytes) (filename : Bytes) : ErrBuf × Option Header :=
  match file with
  | none => (eb.errorPush (.push ENOENT (ascii "open(" ++ filename ++ ascii ")")), none)
  | some contents =>
      if eb.isError then (eb, none)
      else
        match headerRead contents with
        | (.error e, _) => (eb.errorPush e, none)
        | (.ok h, _) => (eb, some h)

omit [Host] in
/-- The readdir loop of `mdir_reload`: journals are loaded in the given order until one fails. -/
def loadJournals (path : Bytes) (eb : ErrBuf) (d : Disk) (jnls : List Jnl) :
    List Bytes → ErrBuf × Disk × List Jnl
  | [] => (eb, d, jnls)
  | stem :: order =>
      match jnlNew path d jnls stem with
      | (d, .error e) => (eb.errorPush e, d, jnls)
      | (d, .ok (jnls, _)) => loadJournals path eb d jnls order

/-- `mdir_reload`, in a thread whose error stack is `eb`.  `entries` is what `opendir` and `readdir`
deliver: the stems of the `.log` files in directory order, or an errno. -/
def mdirReload (eb : ErrBuf) (m : Mdir) (entries : Except Nat (List Bytes)) : ErrBuf × Mdir :=
  let m := { m with jnls := [], permissions := none }
  match entries with
  | .error errno => (eb.errorPush (.push errno (ascii "opendir " ++ m.path)), m)
  | .ok order =>
      let (eb, d, jnls) := loadJournals m.path eb m.disk [] order
      let m := { m with disk := d, jnls := jnls }
      match headerFromFile eb d.perms (snprintfPath (m.path ++ ascii "/perms")) with
      | (eb, permissions) =>
          if eb.isError then (eb.errorClear, { m with permissions := permissions })
          else (eb, { m with permissions := permissions })

end Reload

end Scambio
