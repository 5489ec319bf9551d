import Scambio.Commons.Disk
import Scambio.Lib.Header
import Scambio.Library.LittleEndian

/-!
# Journal — the journal files of a mdir (`lib/jnl.c`)

A `struct jnl` is its first version, its number of patches and the stem of its two files, which
stands for the three descriptors.  The files themselves are on the `Disk`.
-/

namespace Scambio

open Library

/-- `enum mdir_action`. -/
inductive Action
  | add
  | rem
  deriving DecidableEq, Repr

/-- `mdir_action2str`. -/
def mdirAction2str : Action → Bytes
  | .add => ascii "+"
  | .rem => ascii "-"

structure Jnl where
  stem : Bytes
  version : Int
  nbPatches : Nat
  deriving DecidableEq, Repr

/-! ## Index entries -/

/-- `struct index_entry`: two 64-bit words. -/
structure IndexEntry where
  offset : Int
  lastMark : Int
  deriving DecidableEq, Repr

def wordBytes (v : Int) : Bytes :=
  leBytes 8 (v % 2 ^ 64).toNat

def indexEntryBytes (ie : IndexEntry) : Bytes :=
  wordBytes ie.offset ++ wordBytes ie.lastMark

def bytesIndexEntry (bs : Bytes) : IndexEntry :=
  { offset := toInt64 (leNat (bs.take 8))
    lastMark := toInt64 (leNat ((bs.drop 8).take 8)) }

/-! ## New journals -/

/-- `fetch_nb_patches`, the result being an `unsigned`. -/
def fetchNbPatches (idx : Bytes) : Except Err Nat :=
  if idx.length % 16 ≠ 0 then
    .error (.push 0 (ascii "Bad index file size : " ++ decimal idx.length))
  else .ok (idx.length / 16 % 2 ^ 32)

/-- `parse_version` of the file name `stem.log`. -/
def parseVersion (stem : Bytes) : Except Err Int :=
  let filename := stem ++ ascii ".log"
  let (version, rest) := strtoull filename
  if rest ≠ ascii ".log" then
    .error (.push 0 (ascii "'" ++ filename ++ ascii "' is not a journal file"))
  else .ok (toInt64 version)

/-- The insertion in version order of `jnl_ctor`; `none` for bad journals.  Only the journals that
start before the new one are checked. -/
def jnlInsert (jnl : Jnl) : List Jnl → Option (List Jnl)
  | [] => some [jnl]
  | j :: js =>
      if j.version > jnl.version then some (jnl :: j :: js)
      else if j.version ≥ jnl.version ∨ j.version + j.nbPatches > jnl.version then none
      else (jnlInsert jnl js).map (j :: ·)

/-- `jnl_ctor`, called by `jnl_new`: the files are created if need be, then the journal joins the
list of the mdir at `path`. -/
def jnlNew (path : Bytes) (d : Disk) (jnls : List Jnl) (stem : Bytes) :
    Disk × Except Err (List Jnl × Jnl) :=
  match parseVersion stem with
  | .error e => (d, .error e)
  | .ok version =>
      let d := d.creat stem
      match fetchNbPatches (d.idxOf stem) with
      | .error e => (d, .error e)
      | .ok nbPatches =>
          let jnl : Jnl := { stem := stem, version := version, nbPatches := nbPatches }
          match jnlInsert jnl jnls with
          | none => (d, .error (.push 0 (ascii "Bad journals in '" ++ path ++ ascii "'")))
          | some jnls => (d, .ok (jnls, jnl))

/-- The name `jnl_new_empty` prints, without its extension; no `int64_t` needs more than the twenty
characters the format pads to. -/
def jnlStem (startVersion : Int) : Bytes :=
  printPadded startVersion

/-! ## Appending -/

/-- What `jnl_patch` and `jnl_patch_blank` share: the index entry is written before the record. -/
def jnlAppend (d : Disk) (j : Jnl) (record : Bytes) : Disk × Jnl × Int :=
  let ie : IndexEntry := { offset := (d.logOf j.stem).length, lastMark := 0 }
  let d := d.writeIdx j.stem (indexEntryBytes ie)
  let d := d.writeLog j.stem record
  let j := { j with nbPatches := unsignedSucc j.nbPatches }
  (d, j, j.version + j.nbPatches - 1)

/-- The record of a patch in the log. -/
def patchRecord (action : Action) (header : Header) : Bytes :=
  mdirAction2str action ++ ascii "\n" ++ headerDump header

def blankRecord : Bytes :=
  ascii "%\n\n"

def jnlPatch (d : Disk) (j : Jnl) (action : Action) (header : Header) : Disk × Jnl × Int :=
  jnlAppend d j (patchRecord action header)

def jnlPatchBlank (d : Disk) (j : Jnl) : Disk × Jnl × Int :=
  jnlAppend d j blankRecord

/-! ## Index -/

def bytesIndexEntries : Nat → Bytes → List IndexEntry
  | 0, _ => []
  | n + 1, bs => bytesIndexEntry (bs.take 16) :: bytesIndexEntries n (bs.drop 16)

def jnlIdxRead (d : Disk) (j : Jnl) (index nbEntries : Nat) : Except Err (List IndexEntry) :=
  match readFrom (d.idxOf j.stem) (index * 16 : Nat) (nbEntries * 16) with
  | .error e => .error e
  | .ok bs => .ok (bytesIndexEntries nbEntries bs)

def jnlIdxWrite [Host] (d : Disk) (j : Jnl) (index : Nat) (ie : IndexEntry) : Disk :=
  d.writeIdxAt j.stem (index * 16) (indexEntryBytes ie)

/-- `jnl_offset_size`: the offset of a patch and its size, taken from the next entry or, for the last
one, from the size of the log. -/
def jnlOffsetSize (d : Disk) (j : Jnl) (index : Nat) : Except Err (Int × Nat) :=
  let bounds : Except Err (Int × Int) :=
    -- `nb_patches - 1` is unsigned
    if index < unsignedPred j.nbPatches then
      match jnlIdxRead d j index 2 with
      | .error e => .error e
      | .ok ies => .ok ((ies.getD 0 ⟨0, 0⟩).offset, (ies.getD 1 ⟨0, 0⟩).offset)
    else
      match jnlIdxRead d j index 1 with
      | .error e => .error e
      | .ok ies => .ok ((ies.getD 0 ⟨0, 0⟩).offset, (d.logOf j.stem).length)
  match bounds with
  | .error e => .error e
  | .ok (start, stop) =>
      if start < stop then .ok (start, (stop - start).toNat)
      else .error (.abort (ascii "ie[1].offset > ie[0].offset"))

/-- `jnl_replace_last_mark`: the disk and the previous mark. -/
def jnlReplaceLastMark [Host] (d : Disk) (j : Jnl) (index : Nat) (newLastMark : Int) :
    Disk × Except Err Int :=
  match jnlIdxRead d j index 1 with
  | .error e => (d, .error e)
  | .ok ies =>
      let ie := ies.getD 0 ⟨0, 0⟩
      (jnlIdxWrite d j index { ie with lastMark := newLastMark }, .ok ie.lastMark)

/-- `jnl_mark_del`: tag a patch as deleted, in place. -/
def jnlMarkDel (d : Disk) (j : Jnl) (toDel : Int) : Disk × Except Err Unit :=
  if ¬ (j.version ≤ toDel ∧ toDel - j.version < j.nbPatches) then
    (d, .error (.abort (ascii "to_del >= jnl->version && to_del - jnl->version < jnl->nb_patches")))
  else
    match jnlOffsetSize d j (toDel - j.version).toNat with
    | .error e => (d, .error e)
    | .ok (offset, _) =>
        match readFrom (d.logOf j.stem) offset 1 with
        | .error e => (d, .error e)
        | .ok tag =>
            -- already deleted, which is only logged
            if tag = ascii "%" then (d, .ok ())
            else if tag ≠ ascii "+" then
              (d, .error (.push 0 (ascii "Cannot delete version " ++ printInt toDel ++
                ascii " : tag is '" ++ tag ++ ascii "'")))
            else (d.writeLogAt j.stem offset.toNat (ascii "%"), .ok ())

/-! ## Reading -/

/-- What `jnl_read` makes of the bytes of a patch before parsing: the action, and the header text
unless the patch is deleted. -/
def readTag (offset : Int) (buf : Bytes) : Except Err (Action × Option Bytes) :=
  match buf with
  | tag :: nl :: text =>
      if nl ≠ 10 ∨ ¬ (ascii "\n\n") <:+ buf then
        .error (.push 0 (ascii "Invalid patch @" ++ printInt offset))
      else if tag = 43 then .ok (.add, some text)
      else if tag = 37 then .ok (.add, none)
      else if tag = 45 then .ok (.rem, some text)
      else .error (.push 0 (ascii "Unknown action @" ++ printInt offset))
  | _ => .error (.push 0 (ascii "Invalid patch @" ++ printInt offset))

/-- `jnl_read` up to the allocation of the header: an error here leaves no header. -/
def jnlReadText (d : Disk) (j : Jnl) (index : Nat) : Except Err (Action × Option Bytes) :=
  match jnlOffsetSize d j index with
  | .error e => .error e
  | .ok (offset, size) =>
      if size < 3 then .error (.push 0 (ascii "Invalid header at " ++ printInt offset))
      else
        match readFrom (d.logOf j.stem) offset size with
        | .error e => .error e
        | .ok buf => readTag offset buf

/-- `jnl_read`: the action, and the header unless the patch is deleted. -/
def jnlRead [Host] (d : Disk) (j : Jnl) (index : Nat) : Except Err (Action × Option Header) :=
  match jnlReadText d j index with
  | .error e => .error e
  | .ok (action, none) => .ok (action, none)
  | .ok (action, some text) =>
      match headerParse (cstr text) with
      | .error e => .error e
      | .ok (h, _) => .ok (action, some h)

/-! ## Utilities -/

def jnlTooBig (maxJnlSize : Nat) (j : Jnl) : Bool :=
  decide (maxJnlSize ≤ j.nbPatches)

/-- The test of `find_jnl` and `jnl_get_by_version`. -/
def Jnl.holds (j : Jnl) (version : Int) : Bool :=
  decide (j.version ≤ version ∧ version < j.version + j.nbPatches)

def jnlGetByVersion (jnls : List Jnl) (version : Int) : Except Err Jnl :=
  match jnls.find? fun j => j.holds version with
  | some j => .ok j
  | none => .error (.push 0 (ascii "No such version (" ++ printInt version ++ ascii ")"))

end Scambio
