import Scambio.Lib.Listing
import Scambio.Merefs.Local

/-!
# Readmdir — the remote files (`merefs/readmdir.c`), and a pass (`merefs/merefs.c`)

`readMdir` is run on the calls that `mdir_patch_list` makes.
-/

namespace Scambio

open Library

/-- `remove_remote_file`: the file is kept aside for its resource. -/
def removeRemoteFile (s : Merefs) (toDel : Int) : Merefs :=
  match fileSearchByVersion s.unmatched toDel with
  | none => s
  | some file => { s with unmatched := s.unmatched.erase file, removed := file :: s.removed }

/-- `add_remote_file`.  A field that is missing is only logged: without a name `sanitize` reads through NULL, and
without a digest `(null)` is printed. -/
def addRemoteFile (s : Merefs) (header : Header) (version : Int) : MereResult :=
  if headerHasType header SC_FILE_TYPE then
    match headerFind header SC_NAME_FIELD with
    | none => (s, some (.abort (ascii "sanitize(NULL)")))
    | some name =>
        let digest := ((headerFind header SC_DIGEST_FIELD).map HeaderField.value).getD (ascii "(null)")
        let resource := ((headerFind header SC_RESOURCE_FIELD).map HeaderField.value).getD []
        -- a file of the same name is replaced
        let unmatched :=
          match fileSearch s.unmatched name.value with
          | some file => s.unmatched.erase file
          | none => s.unmatched
        ({ s with unmatched := fileNew unmatched name.value digest resource version }, none)
  else (s, none)

/-- `read_mdir`, on the calls of `mdir_patch_list`. -/
def readMdir : Merefs → List Callback → MereResult
  | s, [] => (s, none)
  | s, .put header version :: calls => MereResult.ifOk (addRemoteFile s header version) fun s => readMdir s calls
  | s, .rem target :: calls => readMdir (removeRemoteFile s target) calls
  | s, .err _ _ :: calls => readMdir s calls

def unmatchAll (s : Merefs) : Merefs :=
  { s with unmatched := s.unmatched ++ s.matched, matched := [] }

/-- One round of `loop`. -/
def merePass (refs : Refs) (s : Merefs) (calls : List Callback) : MereResult :=
  MereResult.ifOk (readMdir (unmatchAll s) calls) fun s =>
    MereResult.ifOk (traverseLocalPath refs { s with nextMap := [] }) fun s =>
      MereResult.ifOk (createUnmatchedFiles refs s) fun s => ({ s with currentMap := s.nextMap }, none)

end Scambio
