import Scambio.Commons.Path
import Scambio.Merefs.Map

/-!
# Local — matching the local tree with the mdir (`merefs/local.c`)

`traverseLocalPath` and `createUnmatchedFiles` run on a file system, the lists of files and the two maps; what is
requested of the mdir and of the file server is recorded.  `Refs` holds what does not change during a pass.
-/

namespace Scambio

open Library

def SC_DIGEST_FIELD : Bytes := ascii "sc-digest"
def SC_FILE_TYPE : Bytes := ascii "file"

/-- What merefs depends on. -/
structure Refs where
  cwd : List FileName
  localPath : Bytes
  digest : Bytes → Bytes
  /-- `chn_get_file`: the contents of a resource. -/
  getFile : Bytes → Except Err Bytes
  /-- `chn_send_file_request`: the resource for these contents, once others were sent. -/
  sendFile : List Bytes → Bytes → Except Err Bytes
  /-- Whether a file of the cache, of these contents, can be linked to this path. -/
  hardLinks : Bytes → Bytes → Bool
  /-- The entries of a directory as `readdir` delivers them.  One of which it tells no type (`DT_UNKNOWN`) is ignored,
  as if it was not delivered. -/
  order : List FileName → List (FileName × Node Bytes Bytes) → List (FileName × Node Bytes Bytes)
  /-- Directories that can be open at a time. -/
  openMax : Nat

/-- A patch that is requested. -/
inductive MdirRequest
  | add (header : Header)
  | del (version : Int)
  deriving DecidableEq, Repr

structure Merefs where
  fs : FileSys
  unmatched : List MereFile
  matched : List MereFile
  removed : List MereFile
  currentMap : List MereFile
  nextMap : List MereFile
  requests : List MdirRequest
  sent : List Bytes
  got : List Bytes

/-- The state that a function leaves, with the error that it leaves. -/
abbrev MereResult := Merefs × Option Err

/-- `if_fail (r) return;` -/
def MereResult.ifOk (r : MereResult) (next : Merefs → MereResult) : MereResult :=
  match r.2 with
  | some _ => r
  | none => next r.1

def sysErr (e : FsErr) (what path : Bytes) : Err :=
  .push (fsErrno e) (what ++ ascii "(" ++ path ++ ascii ")")

variable (refs : Refs)

/-- `local_path_len`: the slashes at the end do not count. -/
def Refs.localPathLen : Nat :=
  (refs.localPath.reverse.dropWhile (· == 47)).length

/-- `digest_file` -/
def digestFile (fs : FileSys) (path : Bytes) : Except Err Bytes :=
  match sysStat refs.cwd fs path with
  | .error e => .error (sysErr e (ascii "open") path)
  | .ok p =>
      match fs.tree.get p with
      | some (.file content) => .ok (refs.digest content)
      | _ => .error (.push 21 (ascii "Cannot pth_read"))

/-- The contents of a file, for `chn_send_file_request`. -/
def fileContent (fs : FileSys) (path : Bytes) : Except Err Bytes :=
  match sysStat refs.cwd fs path with
  | .error e => .error (sysErr e (ascii "open") path)
  | .ok p =>
      match fs.tree.get p with
      | some (.file content) => .ok content
      | _ => .error (.push 21 (ascii "Cannot pth_read"))

/-! ## The actions -/

/-- The end of `remote_is_master`: the file is linked to the cache, or copied from it. -/
def installFile (s : Merefs) (content fpath : Bytes) : MereResult :=
  if refs.hardLinks content fpath then
    match sysLink refs.cwd s.fs content fpath with
    | .error e => (s, some (sysErr e (ascii "link") fpath))
    | .ok fs => ({ s with fs := fs }, none)
  else
    match sysCreat refs.cwd s.fs content fpath with
    | .error e => (s, some (sysErr e (ascii "creat") fpath))
    | .ok fs => ({ s with fs := fs }, none)

/-- `unlink`, when the file need not be there. -/
def unlinkIfThere (s : Merefs) (fpath : Bytes) : MereResult :=
  match sysUnlink refs.cwd s.fs fpath with
  | .ok fs => ({ s with fs := fs }, none)
  | .error .noent => (s, none)
  | .error e => (s, some (sysErr e (ascii "unlink") fpath))

/-- `remote_is_master` -/
def remoteIsMaster (s : Merefs) (file : MereFile) (fpath : Bytes) : MereResult :=
  let made := mkdirForFile refs.cwd s.fs fpath
  MereResult.ifOk ({ s with fs := made.1 }, made.2) fun s =>
    match refs.getFile file.resource with
    | .error e => (s, some e)
    | .ok content =>
        MereResult.ifOk (unlinkIfThere refs { s with got := file.resource :: s.got } fpath) fun s =>
          MereResult.ifOk (installFile refs s content fpath) fun s =>
            ({ s with nextMap := mapSet s.nextMap file.name file.digest }, none)

/-- The resource of a remote file that has the digest. -/
def knownResource (s : Merefs) (digest : Bytes) : Option Bytes :=
  ((fileSearchByDigest s.unmatched digest).or
    ((fileSearchByDigest s.matched digest).or (fileSearchByDigest s.removed digest))).map MereFile.resource

/-- The header of the patch for a local file. -/
def fileHeader (fname digest resource : Bytes) : Header :=
  headerFieldNew
    (headerFieldNew (headerFieldNew (headerFieldNew [] SC_TYPE_FIELD SC_FILE_TYPE) SC_NAME_FIELD fname)
      SC_DIGEST_FIELD digest)
    SC_RESOURCE_FIELD resource

/-- `mdir_del_request` -/
def delRequest (s : Merefs) (version : Int) : MereResult :=
  if version ≤ 0 then (s, some (.push 0 (ascii "Cannot delete transient patch")))
  else ({ s with requests := s.requests ++ [.del version] }, none)

/-- The first part of `local_is_master`: the resource, known or uploaded. -/
def uploadFile (s : Merefs) (fpath digest : Bytes) : Merefs × Except Err Bytes :=
  match knownResource s digest with
  | some resource => (s, .ok resource)
  | none =>
      match fileContent refs s.fs fpath with
      | .error e => (s, .error e)
      | .ok content =>
          match refs.sendFile s.sent content with
          | .error e => (s, .error e)
          | .ok resource => ({ s with sent := s.sent ++ [content] }, .ok resource)

/-- `local_is_master` -/
def localIsMaster (s : Merefs) (remoteFile : Option MereFile) (fpath fname digest : Bytes) : MereResult :=
  match uploadFile refs s fpath digest with
  | (s, .error e) => (s, some e)
  | (s, .ok resource) =>
      let s := { s with requests := s.requests ++ [.add (fileHeader fname digest resource)] }
      let deleted :=
        match remoteFile with
        | some file => delRequest s file.version
        | none => (s, none)
      MereResult.ifOk deleted fun s => ({ s with nextMap := mapSet s.nextMap fname digest }, none)

/-- The path of the backup: a dot before what follows the last slash, or the local path. -/
def backupPath (fpath : Bytes) : Bytes :=
  let base := (fpath.drop refs.localPathLen).reverse.takeWhile (· != 47)
  fpath.take (fpath.length - base.length) ++ 46 :: base.reverse

/-- `conflict` -/
def conflict (s : Merefs) (fpath : Bytes) : MereResult :=
  let bak := backupPath refs fpath
  let s := (unlinkIfThere refs s bak).1
  match sysRename refs.cwd s.fs fpath bak with
  | .error e => (s, some (sysErr e (ascii "rename") fpath))
  | .ok fs => ({ s with fs := fs }, none)

def removeLocalFile (s : Merefs) (fpath : Bytes) : MereResult :=
  match sysUnlink refs.cwd s.fs fpath with
  | .error e => (s, some (sysErr e (ascii "unlink") fpath))
  | .ok fs => ({ s with fs := fs }, none)

def keepMap (s : Merefs) (fname digest : Bytes) : MereResult :=
  ({ s with nextMap := mapSet s.nextMap fname digest }, none)

/-- The cases of `match_local_file`, once the remote file and the digest of the map are found. -/
def matchCases (s : Merefs) (remoteFile : Option MereFile) (mapDigest : Option Bytes) (fpath fname digest : Bytes) :
    MereResult :=
  match remoteFile, mapDigest with
  | some file, some mapDigest =>
      if digest = mapDigest then
        -- unchanged here, changed or not in the mdir
        if digest = file.digest then keepMap s fname mapDigest else remoteIsMaster refs s file fpath
      -- changed here only
      else if mapDigest = file.digest then localIsMaster refs s (some file) fpath fname digest
      -- changed on both sides
      else MereResult.ifOk (conflict refs s fpath) fun s => remoteIsMaster refs s file fpath
  | some file, none =>
      -- new on both sides
      if digest = file.digest then keepMap s fname digest
      else MereResult.ifOk (conflict refs s fpath) fun s => remoteIsMaster refs s file fpath
  | none, some mapDigest =>
      -- deleted in the mdir
      if digest = mapDigest then removeLocalFile refs s fpath
      -- deleted in the mdir, but changed here
      else MereResult.ifOk (conflict refs s fpath) fun s => removeLocalFile refs s fpath
  | none, none => localIsMaster refs s none fpath fname digest

/-- A remote file goes from the unmatched to the matched ones. -/
def matchFile (s : Merefs) (file : MereFile) : Merefs :=
  { s with unmatched := s.unmatched.erase file, matched := file :: s.matched }

/-- `match_local_file` -/
def matchLocalFile (s : Merefs) (fpath fname digest : Bytes) : MereResult :=
  let remoteFile := fileSearch s.unmatched fname
  let mapDigest := mapGetDigest s.currentMap fname
  match remoteFile with
  | some file => matchCases refs (matchFile s file) remoteFile mapDigest fpath fname digest
  | none => matchCases refs s remoteFile mapDigest fpath fname digest

/-! ## Walking through the local tree -/

/-- The `snprintf(dirpath+dirlen, sizeof(dirpath)-dirlen, "/%s", name)` of `scan_opened_dir`.  `dirpath` is a pointer
there, of eight bytes: past eight characters the size wraps and nothing is cut.  What is written behind the end of
the string does not count. -/
def dirpathWrite (dirpath : Bytes) (dirlen : Nat) (name : Bytes) : Bytes :=
  if dirlen = 8 ∨ dirpath.length < dirlen then dirpath
  else if dirlen < 8 then dirpath.take dirlen ++ (47 :: name).take (7 - dirlen)
  else dirpath.take dirlen ++ 47 :: name

/-- The entries of a directory, in the order of `readdir`. -/
def readdir (fs : FileSys) (dir : List FileName) : List (FileName × Node Bytes Bytes) :=
  refs.order dir (fs.tree.names.dedup.filterMap fun name => (fs.tree.get (dir ++ [name])).map fun node => (name, node))

/-- The loop of `scan_opened_dir`, with `traverse_dir_rec` for the directories. -/
def scanOpenedDir (traverseDirRec : Merefs → Bytes → Nat → MereResult) :
    Merefs → Bytes → Nat → List (FileName × Node Bytes Bytes) → MereResult
  | s, _, _, [] => (s, none)
  | s, dirpath, dirlen, (name, node) :: dirents =>
      -- hidden
      if name.val.head? = some 46 then scanOpenedDir traverseDirRec s dirpath dirlen dirents
      else
        let path := dirpathWrite dirpath dirlen name.val
        match node with
        | .link _ => scanOpenedDir traverseDirRec s dirpath dirlen dirents
        | .dir =>
            MereResult.ifOk (traverseDirRec s path (dirlen + 1 + name.val.length)) fun s =>
              scanOpenedDir traverseDirRec s (path.take dirlen) dirlen dirents
        | .file _ =>
            match digestFile refs s.fs path with
            | .error e => (s, some e)
            | .ok digest =>
                MereResult.ifOk (matchLocalFile refs s path (path.drop refs.localPathLen) digest) fun s =>
                  scanOpenedDir traverseDirRec s (path.take dirlen) dirlen dirents

/-- `traverse_dir_rec`; directories stay open meanwhile. -/
def traverseDirRec : Nat → Merefs → Bytes → Nat → MereResult
  | 0, s, dirpath, _ => (s, some (.push 24 (ascii "opendir(" ++ dirpath ++ ascii ")")))
  | openLeft + 1, s, dirpath, dirlen =>
      match sysStat refs.cwd s.fs dirpath with
      | .error e => (s, some (sysErr e (ascii "opendir") dirpath))
      | .ok dir =>
          if s.fs.tree.isDir dir then
            scanOpenedDir refs (traverseDirRec openLeft) s dirpath dirlen (readdir refs s.fs dir)
          else (s, some (sysErr .notdir (ascii "opendir") dirpath))

def traverseLocalPath (s : Merefs) : MereResult :=
  traverseDirRec refs refs.openMax s refs.localPath refs.localPathLen

/-! ## The remote files that are left -/

/-- The loop of `create_unmatched_files`. -/
def createUnmatchedLoop : Merefs → List MereFile → MereResult
  | s, [] => (s, none)
  | s, file :: files =>
      let fpath := snprintf PATH_MAX (refs.localPath ++ 47 :: file.name)
      match mapGetDigest s.currentMap file.name with
      | none =>
          MereResult.ifOk (remoteIsMaster refs s file fpath) fun s => createUnmatchedLoop (matchFile s file) files
      | some _ => MereResult.ifOk (delRequest s file.version) fun s => createUnmatchedLoop s files

def createUnmatchedFiles (s : Merefs) : MereResult :=
  createUnmatchedLoop refs s s.unmatched

end Scambio
