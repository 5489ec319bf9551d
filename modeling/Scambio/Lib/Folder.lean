import Scambio.Lib.Header
import Scambio.Lib.Journal

/-!
# Folder — mount points of a mdir (`mdir_link`, `mdir_unlink` of `lib/mdir.c`)

Patches of type dir also create, replace or remove symlinks.  These files are not part of the
journals: what matters to the journals is which of the system calls fail and which fields are added
to the header.  `Sys` holds the answers of the system during one call.
-/

namespace Scambio

open Library

/-- The answers of the system to the calls that a patch of type dir makes, each made at most once with
the same arguments; errors are given by their errno. -/
structure Sys where
  mdirRoot : Bytes
  readlink : Bytes → Except Nat Bytes
  symlink : Bytes → Bytes → Option Nat
  unlink : Bytes → Option Nat
  rename : Bytes → Bytes → Option Nat
  creat : Bytes → Option Nat
  /-- The write of a version in the file just created: the errno, and how many bytes are left. -/
  writeVersion : Bytes → Option (Nat × Nat)
  /-- `open(".../perms", O_WRONLY|O_CREAT)`. -/
  openPerms : Option Nat
  /-- `persist_read_inc_sequence(&dirid_seq)`. -/
  dirIdSeq : Except Err UInt64
  /-- `mdir_new(id, true)`: the directory is made and loaded. -/
  mdirNew : Bytes → Except Err Unit
  /-- `mdir_lookup_by_id(id, create)`: the path of the cached or loaded mdir. -/
  mdirLookupById : Bytes → Bool → Except Err Bytes

/-- A system where nothing is in the way and every call succeeds. -/
def quietSys : Sys :=
  { mdirRoot := ascii "/m"
    readlink := fun _ => .error ENOENT
    symlink := fun _ _ => none
    unlink := fun _ => none
    rename := fun _ _ => none
    creat := fun _ => none
    writeVersion := fun _ => none
    openPerms := none
    dirIdSeq := .ok 7
    mdirNew := fun _ => .ok ()
    mdirLookupById := fun id _ => .ok (ascii "/m/" ++ id) }

/-- What follows the last slash. -/
def basename (path : Bytes) : Bytes :=
  (path.reverse.takeWhile (· != 47)).reverse

/-- `lookup_abs`: the path of the mdir a symlink points to. -/
def lookupAbs (sys : Sys) (path : Bytes) : Except Err Bytes :=
  match sys.readlink path with
  | .error errno => .error (.push errno (ascii "readlink(" ++ path ++ ascii ")"))
  | .ok slink =>
      if slink.length = 0 ∨ PATH_MAX ≤ slink.length ∨ slink.length ≤ sys.mdirRoot.length + 1 then
        .error (.push 0 (ascii "bad symlink for " ++ path))
      else sys.mdirLookupById (slink.drop (sys.mdirRoot.length + 1)) false

/-- `lookup_rename`: the path of the mdir once renamed. -/
def lookupRename (sys : Sys) (oldPath newPath : Bytes) : Except Err Bytes :=
  match sys.rename oldPath newPath with
  | some errno =>
      .error (.push errno
        (ascii "Cannot rename mdir from " ++ oldPath ++ ascii " to " ++ newPath))
  | none =>
      -- the old path stays, as a link to the new one
      match sys.symlink newPath oldPath with
      | some errno =>
          .error (.push errno
            (ascii "Cannot symlink(" ++ newPath ++ ascii " <- " ++ oldPath ++ ascii ")"))
      | none =>
          match lookupAbs sys oldPath with
          | .error e => .error e
          | .ok path =>
              if path ≠ newPath ∧ path ≠ oldPath then
                .error (.abort (ascii "0 == strcmp(mdir->path, old_path)"))
              else .ok newPath

/-- `mdir_create`: the id of the new mdir. -/
def mdirCreate (sys : Sys) (transient : Bool) : Except Err Bytes :=
  match sys.dirIdSeq with
  | .error e => .error e
  | .ok id =>
      let idStr := (if transient then ascii "_" else []) ++ decimal id.toNat
      match sys.mdirNew idStr with
      -- the assertion that follows reads through the NULL mdir
      | .error _ => .error (.abort (ascii "transient == mdir_is_transient(mdir)"))
      | .ok () => .ok idStr

/-- The last step of `mdir_link`. -/
def linkTo (sys : Sys) (childPath path : Bytes) : Except Err Unit :=
  match sys.symlink childPath path with
  | some errno =>
      .error (.push errno (ascii "symlink " ++ path ++ ascii " -> " ++ childPath))
  | none => .ok ()

/-- `mdir_link`: the header with the fields it lacked, and the outcome. -/
def mdirLink (sys : Sys) (parentPath : Bytes) (h : Header) (transient : Bool) :
    Header × Except Err Unit :=
  let (h, name) :=
    match headerFind h SC_NAME_FIELD with
    | some hf => (h, hf.value)
    | none => (headerFieldNew h SC_NAME_FIELD (ascii "Unnamed"), ascii "Unnamed")
  let path := snprintfPath (parentPath ++ ascii "/" ++ name)
  match headerFind h SC_DIRID_FIELD with
  | some dirid =>
      match sys.readlink path with
      | .error errno =>
          if errno ≠ ENOENT then (h, .error (.push errno (ascii "readlink(" ++ path ++ ascii ")")))
          else
            match sys.mdirLookupById dirid.value true with
            | .error e => (h, .error e)
            | .ok childPath => (h, linkTo sys childPath path)
      | .ok prevLink =>
          let prevDirid := basename prevLink
          if prevDirid = dirid.value then (h, .ok ())
          else if transient then
            (h, .error (.push 0
              (ascii "Transient dir not allowed to overwrite previous " ++ prevDirid)))
          else if prevDirid.head? ≠ some 95 then
            (h, .error (.push 0 (ascii "Previous link for new dirId " ++ dirid.value ++
              ascii " points toward non transient dirId " ++ prevDirid)))
          else
            let newPath := snprintfPath (sys.mdirRoot ++ ascii "/" ++ dirid.value)
            match lookupRename sys prevLink newPath with
            -- not checked there, but the error stays raised
            | .error e => (h, .error e)
            | .ok childPath =>
                match sys.unlink path with
                | some errno =>
                    (h, .error (.push errno (ascii "Cannot remove previous symlink " ++ path)))
                | none => (h, linkTo sys childPath path)
  | none =>
      match mdirCreate sys transient with
      | .error e => (h, .error e)
      | .ok id =>
          let h := if transient then h else headerFieldNew h SC_DIRID_FIELD id
          (h, linkTo sys (sys.mdirRoot ++ ascii "/" ++ id) path)

/-- `.versionOf_name`. -/
def versionOfPath (parentPath name : Bytes) : Bytes :=
  snprintfPath (parentPath ++ ascii "/.versionOf_" ++ name)

/-- `mdir_unlink`; a file that is already gone is no error. -/
def mdirUnlink (sys : Sys) (parentPath : Bytes) (h : Header) : Except Err Unit :=
  match headerFind h SC_NAME_FIELD with
  | none => .error (.push 0 (ascii "folder name ommited"))
  | some hf =>
      let path := snprintfPath (parentPath ++ ascii "/" ++ hf.value)
      let versionPath := versionOfPath parentPath hf.value
      match sys.unlink path with
      | some errno =>
          if errno ≠ ENOENT then .error (.push errno (ascii "unlink " ++ path))
          else
            match sys.unlink versionPath with
            | some errno =>
                if errno ≠ ENOENT then
                  .error (.push errno (ascii "unlink(" ++ versionPath ++ ascii ")"))
                else .ok ()
            | none => .ok ()
      | none =>
          match sys.unlink versionPath with
          | some errno =>
              if errno ≠ ENOENT then
                .error (.push errno (ascii "unlink(" ++ versionPath ++ ascii ")"))
              else .ok ()
          | none => .ok ()

end Scambio
