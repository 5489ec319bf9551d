import Scambio.Commons.Path
import Scambio.Lib.Folder

/-!
# Dirs — the directories of the mdirs, and the structs that stand for them (`lib/mdir.c`)

`Folder` tells which fields and which error a patch of type dir leaves, from the answers of the system.  Here the
system is a file system, and the list of the `struct mdir` is kept: the functions of the same names, with all they
change.  What the journals answer is a parameter.
-/

namespace Scambio

open Library

/-- A `struct mdir` of the list `mdirs`. -/
structure CachedMdir where
  ptr : Nat
  path : Bytes
  permissions : Option Header
  deriving DecidableEq, Repr

/-- What does not change while the process runs. -/
structure DirsEnv where
  cwd : List FileName
  mdirRoot : Bytes
  /-- `mdir_reload` in a directory that could be opened: the permissions, or the error of a journal. -/
  load : FileSys → Bytes → Except Err (Option Header)

structure Dirs where
  fs : FileSys
  /-- `LIST_INSERT_HEAD`: the newest one first. -/
  mdirs : List CachedMdir
  nextPtr : Nat
  dirIdSeq : UInt64
  ptrs : (nextPtr :: mdirs.map CachedMdir.ptr).Pairwise (· > ·)

/-- What a function leaves, with its value or the error it leaves. -/
abbrev DirsResult (α : Type) := Dirs × Except Err α

/-- `if_fail (v = r) return;` -/
def DirsResult.andThen {α β : Type} (r : DirsResult α) (next : Dirs → α → DirsResult β) : DirsResult β :=
  match r.2 with
  | .error e => (r.1, .error e)
  | .ok v => next r.1 v

/-- What the files of a mdir answer while it is patched: its journals, its `perms`, its `.tmp`. -/
structure MdirAnswers where
  /-- `insert_blank_patches` -/
  blanks : Except Err Unit
  /-- The patch that a removal is about; `none` when it is removed already. -/
  target : Except Err (Option (Action × Header))
  /-- `jnl_mark_del` -/
  markDel : Except Err Unit
  /-- The version that `jnl_patch` gives; or the patch is written in `.tmp`. -/
  record : Except Err Int
  /-- The write of a version file: it fails with this errno, after so many bytes. -/
  versionFails : Option (Nat × Nat)
  /-- Whether `header_to_file` succeeds. -/
  permsSaved : Bool
  /-- The index of marks. -/
  marks : Except Err Unit

def SC_ROOT_ID : Bytes := ascii "root"

namespace Dirs

/-- `LIST_INSERT_HEAD` of a struct just allocated. -/
def insert (d : Dirs) (path : Bytes) (permissions : Option Header) : Dirs where
  fs := d.fs
  mdirs := { ptr := d.nextPtr, path := path, permissions := permissions } :: d.mdirs
  nextPtr := d.nextPtr + 1
  dirIdSeq := d.dirIdSeq
  ptrs := by
    refine List.pairwise_cons.2 ⟨?_, d.ptrs⟩
    intro ptr hptr
    rcases List.mem_cons.1 hptr with rfl | hold
    · exact Nat.lt_succ_self _
    · exact Nat.lt_succ_of_lt ((List.pairwise_cons.1 d.ptrs).1 ptr hold)

/-- A struct is written. -/
def update (d : Dirs) (ptr : Nat) (path : Bytes → Bytes) (permissions : Option Header → Option Header) : Dirs where
  fs := d.fs
  mdirs := d.mdirs.map fun mdir =>
    if mdir.ptr = ptr then ⟨mdir.ptr, path mdir.path, permissions mdir.permissions⟩ else mdir
  nextPtr := d.nextPtr
  dirIdSeq := d.dirIdSeq
  ptrs := by
    have hsame : ∀ mdir ∈ d.mdirs, CachedMdir.ptr
        (if mdir.ptr = ptr then ⟨mdir.ptr, path mdir.path, permissions mdir.permissions⟩ else mdir) = mdir.ptr := by
      intro mdir _
      split <;> rfl
    rw [List.map_map]
    exact (List.map_congr_left hsame).symm ▸ d.ptrs

/-- What a pointer to a struct reads. -/
def mdir (d : Dirs) (ptr : Nat) : Option CachedMdir :=
  d.mdirs.find? fun mdir => mdir.ptr == ptr

/-- `mdir->path` -/
def path (d : Dirs) (ptr : Nat) : Bytes :=
  ((d.mdir ptr).map CachedMdir.path).getD []

variable (env : DirsEnv)

def mdirId (path : Bytes) : Bytes :=
  path.drop (env.mdirRoot.length + 1)

def mdirIsTransient (path : Bytes) : Bool :=
  (mdirId env path).head? == some 95

/-- A call that returns 0, or an error. -/
def onFs (d : Dirs) (r : Except FsErr FileSys) (what : Bytes) : DirsResult Unit :=
  match r with
  | .error e => (d, .error (.push (fsErrno e) what))
  | .ok fs => ({ d with fs := fs }, .ok ())

/-! ## Structs -/

/-- `mdir_ctor`, once the directory is made. -/
def mdirCtor (d : Dirs) (path : Bytes) : DirsResult CachedMdir :=
  match sysStat env.cwd d.fs path with
  | .error e => (d, .error (.push (fsErrno e) (ascii "opendir " ++ path)))
  | .ok dir =>
      if d.fs.tree.isDir dir then
        match env.load d.fs path with
        | .error e => (d, .error e)
        | .ok permissions => (d.insert path permissions, .ok ⟨d.nextPtr, path, permissions⟩)
      else (d, .error (.push (fsErrno .notdir) (ascii "opendir " ++ path)))

/-- `mdir_new` -/
def mdirNew (d : Dirs) (id : Bytes) (create : Bool) : DirsResult CachedMdir :=
  let path := snprintfPath (env.mdirRoot ++ 47 :: id)
  if create then
    let made := mkdirPath env.cwd d.fs path
    match made.2 with
    | some e => ({ d with fs := made.1 }, .error e)
    | none => mdirCtor env { d with fs := made.1 } path
  else mdirCtor env d path

/-- The first struct with this id. -/
def mdirFind (d : Dirs) (id : Bytes) : Option CachedMdir :=
  d.mdirs.find? fun mdir => id == mdirId env mdir.path

def mdirLookupById (d : Dirs) (id : Bytes) (create : Bool) : DirsResult CachedMdir :=
  match mdirFind env d id with
  | some mdir => (d, .ok mdir)
  | none => mdirNew env d id create

def lookupAbs (d : Dirs) (path : Bytes) : DirsResult CachedMdir :=
  match sysReadlink env.cwd d.fs path with
  | .error e => (d, .error (.push (fsErrno e) (ascii "readlink(" ++ path ++ ascii ")")))
  | .ok slink =>
      if slink.length = 0 ∨ PATH_MAX ≤ slink.length ∨ slink.length ≤ env.mdirRoot.length + 1 then
        (d, .error (.push 0 (ascii "bad symlink for " ++ path)))
      else mdirLookupById env d (mdirId env slink) false

/-- `mdir_lookup` -/
def mdirLookup (d : Dirs) (name : Bytes) : DirsResult CachedMdir :=
  if name = ascii "/" then mdirLookupById env d SC_ROOT_ID false
  else lookupAbs env d (snprintfPath (env.mdirRoot ++ ascii "/root/" ++ name))

/-- `lookup_rename` -/
def lookupRename (d : Dirs) (oldPath newPath : Bytes) : DirsResult CachedMdir :=
  (onFs d (sysRename env.cwd d.fs oldPath newPath)
    (ascii "Cannot rename mdir from " ++ oldPath ++ ascii " to " ++ newPath)).andThen fun d _ =>
  (onFs d (sysSymlink env.cwd d.fs newPath oldPath)
    (ascii "Cannot symlink(" ++ newPath ++ ascii " <- " ++ oldPath ++ ascii ")")).andThen fun d _ =>
  (lookupAbs env d oldPath).andThen fun d mdir =>
    if mdir.path = newPath then (d, .ok mdir)
    else if mdir.path ≠ oldPath then (d, .error (.abort (ascii "0 == strcmp(mdir->path, old_path)")))
    else (d.update mdir.ptr (fun _ => newPath) id, .ok { mdir with path := newPath })

/-- The id that `mdir_create` gives. -/
def nextId (d : Dirs) (transient : Bool) : Bytes :=
  (if transient then ascii "_" else []) ++ decimal d.dirIdSeq.toNat

/-- `mdir_create` -/
def mdirCreate (d : Dirs) (transient : Bool) : DirsResult CachedMdir :=
  let r := mdirNew env { d with dirIdSeq := d.dirIdSeq + 1 } (nextId d transient) true
  match r.2 with
  -- the assertion reads through the NULL mdir
  | .error _ => (r.1, .error (.abort (ascii "transient == mdir_is_transient(mdir)")))
  | .ok mdir =>
      if mdirIsTransient env mdir.path = transient then r
      else (r.1, .error (.abort (ascii "transient == mdir_is_transient(mdir)")))

/-! ## Links -/

/-- The name of the mount point, which is added to the header if it is missing. -/
def linkName (h : Header) : Header × Bytes :=
  match headerFind h SC_NAME_FIELD with
  | some hf => (h, hf.value)
  | none => (headerFieldNew h SC_NAME_FIELD (ascii "Unnamed"), ascii "Unnamed")

def linkPath (parentPath name : Bytes) : Bytes :=
  snprintfPath (parentPath ++ 47 :: name)

/-- The last step of `mdir_link`. -/
def linkTo (d : Dirs) (childPath path : Bytes) : DirsResult Unit :=
  onFs d (sysSymlink env.cwd d.fs childPath path) (ascii "symlink " ++ path ++ ascii " -> " ++ childPath)

/-- A link to the transient mdir is there: the mdir is renamed, and the link replaced. -/
def relink (d : Dirs) (prevLink path dirId : Bytes) : DirsResult Unit :=
  let renamed := lookupRename env d prevLink (snprintfPath (env.mdirRoot ++ 47 :: dirId))
  (onFs renamed.1 (sysUnlink env.cwd renamed.1.fs path)
    (ascii "Cannot remove previous symlink " ++ path)).andThen fun d _ =>
  match renamed.2 with
  -- the error was not looked at: the path of the child is read through NULL
  | .error _ => (d, .error (.abort (ascii "child")))
  | .ok child => linkTo env d child.path path

/-- `mdir_link` of a mdir that has an id. -/
def linkToId (d : Dirs) (path dirId : Bytes) (transient : Bool) : DirsResult Unit :=
  match sysReadlink env.cwd d.fs path with
  | .error .noent => (mdirLookupById env d dirId true).andThen fun d child => linkTo env d child.path path
  | .error e => (d, .error (.push (fsErrno e) (ascii "readlink(" ++ path ++ ascii ")")))
  | .ok prevLink =>
      let prevDirid := basename prevLink
      if prevDirid = dirId then (d, .ok ())
      else if transient then
        (d, .error (.push 0 (ascii "Transient dir not allowed to overwrite previous " ++ prevDirid)))
      else if prevDirid.head? ≠ some 95 then
        (d, .error (.push 0 (ascii "Previous link for new dirId " ++ dirId ++
          ascii " points toward non transient dirId " ++ prevDirid)))
      else relink env d prevLink path dirId

/-- `mdir_link`: the header is left with the fields it lacked. -/
def mdirLink (d : Dirs) (parentPath : Bytes) (h : Header) (transient : Bool) : Dirs × Header × Except Err Unit :=
  let path := linkPath parentPath (linkName h).2
  let h := (linkName h).1
  match headerFind h SC_DIRID_FIELD with
  -- an mdir that exists
  | some dirId =>
      let r := linkToId env d path dirId.value transient
      (r.1, h, r.2)
  | none =>
      -- a new one, whose id is added to the header unless it is transient
      let created := mdirCreate env d transient
      match created.2 with
      | .error e => (created.1, h, .error e)
      | .ok child =>
          let r := linkTo env created.1 child.path path
          (r.1, if transient then h else headerFieldNew h SC_DIRID_FIELD (mdirId env child.path), r.2)

/-- `unlink`, when the file need not be there. -/
def unlinkFile (d : Dirs) (path what : Bytes) : DirsResult Unit :=
  match sysUnlink env.cwd d.fs path with
  | .error .noent => (d, .ok ())
  | r => onFs d r what

/-- `mdir_unlink` -/
def mdirUnlink (d : Dirs) (parentPath : Bytes) (h : Header) : DirsResult Unit :=
  match headerFind h SC_NAME_FIELD with
  | none => (d, .error (.push 0 (ascii "folder name ommited")))
  | some hf =>
      let path := linkPath parentPath hf.value
      (unlinkFile env d path (ascii "unlink " ++ path)).andThen fun d _ =>
        let path := versionOfPath parentPath hf.value
        unlinkFile env d path (ascii "unlink(" ++ path ++ ascii ")")

/-- The part of `mdir_confirm_add` for directories. -/
def confirmLink (d : Dirs) (parentPath : Bytes) (h : Header) (version : Int) (answers : MdirAnswers) : DirsResult Unit :=
  match headerFind h SC_NAME_FIELD with
  | none => (d, .error (.abort (ascii "name_field")))
  | some hf =>
      let path := versionOfPath parentPath hf.value
      let text := mdirVersion2str version
      let what := ascii "creat(" ++ path ++ ascii ")"
      match answers.versionFails with
      | none => onFs d (sysCreat env.cwd d.fs text path) what
      | some (errno, done) =>
          -- the file holds what was written
          (onFs d (sysCreat env.cwd d.fs (text.take done) path) what).andThen fun d _ =>
            (d, .error (.push errno (ascii "Cannot write " ++ decimal (text.length - done) ++ ascii " bytes")))

/-! ## Patches -/

def updatePermissions (d : Dirs) (ptr : Nat) (h : Header) (saved : Bool) : Dirs :=
  d.update ptr id fun _ => if saved then some h else none

def mdirPrepareRem (d : Dirs) (parentPath : Bytes) (answers : MdirAnswers) (transient : Bool) : DirsResult Unit :=
  match answers.target with
  | .error e => (d, .error e)
  | .ok none => (d, .ok ())
  | .ok (some (.rem, _)) => (d, .error (.push 0 (ascii "Bad patch type for deletion")))
  | .ok (some (.add, target)) =>
      let unlinked : DirsResult Unit := if headerIsDirectory target then mdirUnlink env d parentPath target else (d, .ok ())
      unlinked.andThen fun d _ => if transient then (d, .ok ()) else (d, answers.markDel)

/-- `mdir_prepare_rem` or `mdir_prepare_add`, with the header. -/
def mdirPrepare (d : Dirs) (parentPath : Bytes) (action : Action) (h : Header) (answers : MdirAnswers)
    (transient : Bool) : Dirs × Header × Except Err Unit :=
  match action with
  | .rem =>
      let r := mdirPrepareRem env d parentPath answers transient
      (r.1, h, r.2)
  | .add => if headerIsDirectory h then mdirLink env d parentPath h transient else (d, h, .ok ())

def mdirConfirmAdd (d : Dirs) (ptr : Nat) (h : Header) (version : Int) (answers : MdirAnswers) : DirsResult Unit :=
  if headerIsDirectory h then confirmLink env d (d.path ptr) h version answers
  else if headerHasType h SC_PERM_TYPE then (updatePermissions d ptr h answers.permsSaved, .ok ())
  else (d, .ok ())

/-- `mdir_patch` from `last_jnl` on. -/
def mdirRecord (d : Dirs) (ptr : Nat) (action : Action) (h : Header) (answers : MdirAnswers) : DirsResult Int :=
  match answers.record with
  | .error e => (d, .error e)
  | .ok version =>
      let confirmed : DirsResult Unit :=
        match action with
        | .rem => (d, .ok ())
        | .add => mdirConfirmAdd env d ptr h version answers
      confirmed.andThen fun d _ => (d, answers.marks.map fun _ => version)

/-- `mdir_patch` -/
def mdirPatch (d : Dirs) (ptr : Nat) (action : Action) (h : Header) (answers : MdirAnswers) :
    Dirs × Header × Except Err Int :=
  match answers.blanks with
  | .error e => (d, h, .error e)
  | .ok () =>
      let prepared := mdirPrepare env d (d.path ptr) action h answers false
      match prepared.2.2 with
      | .error e => (prepared.1, prepared.2.1, .error e)
      | .ok () =>
          let r := mdirRecord env prepared.1 ptr action prepared.2.1 answers
          (r.1, prepared.2.1, r.2)

def mdirPatchRequest (d : Dirs) (ptr : Nat) (action : Action) (h : Header) (answers : MdirAnswers) :
    Dirs × Header × Except Err Unit :=
  if headerIsDirectory h && ((headerFind h SC_DIRID_FIELD).any fun hf => hf.value.head? == some 95) then
    (d, h, .error (.push 0 (ascii "Cannot refer to a temporary dirId")))
  else
    let prepared := mdirPrepare env d (d.path ptr) action h answers true
    match prepared.2.2 with
    | .error e => (prepared.1, prepared.2.1, .error e)
    | .ok () => (prepared.1, prepared.2.1, answers.record.map fun _ => ())

end Dirs

end Scambio
