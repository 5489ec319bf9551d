import Scambio.Lib.Folder

/-!
# File — the lists of files of merefs (`merefs/file.c`)

A `struct file` is the C strings that its arrays hold.  The lists are in the order of the pointers: a new
file comes first, and a search finds the first one.
-/

namespace Scambio

open Library

def MAX_DIGEST_STRLEN : Nat := 64

/-- `struct file` -/
structure MereFile where
  name : Bytes
  digest : Bytes
  resource : Bytes
  version : Int
  deriving DecidableEq, Repr

/-- `sanitize`: the name without the leading slashes. -/
def sanitize (name : Bytes) : Bytes :=
  name.dropWhile (· == 47)

/-- `file_ctor` on what `malloc` gave. -/
def fileCtor (name digest resource : Bytes) (version : Int) : MereFile :=
  { name := snprintf PATH_MAX (sanitize name)
    digest := snprintf (MAX_DIGEST_STRLEN + 1) digest
    resource := snprintf PATH_MAX resource
    version := version }

def fileNew (list : List MereFile) (name digest resource : Bytes) (version : Int) : List MereFile :=
  fileCtor name digest resource version :: list

/-- `file_search` -/
def fileSearch (list : List MereFile) (name : Bytes) : Option MereFile :=
  list.find? fun file => file.name == sanitize name

def fileSearchByVersion (list : List MereFile) (version : Int) : Option MereFile :=
  list.find? fun file => file.version == version

def fileSearchByDigest (list : List MereFile) (digest : Bytes) : Option MereFile :=
  list.find? fun file => file.digest == digest

theorem sanitize_sanitize (name : Bytes) : sanitize (sanitize name) = sanitize name :=
  List.dropWhile_idempotent _ _

theorem fileSearch_name {list : List MereFile} {name : Bytes} {file : MereFile} (h : fileSearch list name = some file) :
    file.name = sanitize name := by
  unfold fileSearch at h
  simpa using List.find?_some h

theorem fileSearch_sanitize (list : List MereFile) (name : Bytes) :
    fileSearch list (sanitize name) = fileSearch list name := by
  rw [fileSearch, sanitize_sanitize, fileSearch]

end Scambio
