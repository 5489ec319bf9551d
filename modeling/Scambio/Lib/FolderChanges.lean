import Mathlib.Logic.Relation
import Scambio.Lib.DirsFrame

/-!
# FolderChanges — what a folder patch changes in the tree

`FolderChange` tells what a patch of type dir is for: links and version files in the directory of the mdir, and
directories of `mdir_root`.  Renaming a transient directory also leaves a link where it was (`RenameLink`).

* `folderPatch_changes` : that is all, if names and ids are names of files;
* `not_folderPatch`     : the link that is left where the transient directory was.
-/

namespace Scambio

open Library

/-- The name of a version file. -/
def VersionName (file : FileName) : Prop :=
  ascii ".versionOf_" <+: file.1

/-- One change that a patch of type dir of the mdir at `parentPath` is for. -/
inductive FolderChange (env : DirsEnv) (parentPath : Bytes) : FileSys → FileSys → Prop
  /-- A symlink comes in the directory of the mdir. -/
  | linked {fs : FileSys} {dir : List FileName} {file : FileName} {target : Bytes}
      (hdir : DirAt env.cwd fs parentPath dir) (hfree : fs.tree.get (dir ++ [file]) = none) (hfile : ¬ VersionName file) :
      FolderChange env parentPath fs
        ⟨fs.tree.set (dir ++ [file]) (some (.link target)), (dir ++ [file]) :: fs.touched⟩
  /-- A symlink goes. -/
  | unlinked {fs : FileSys} {dir : List FileName} {file : FileName} {target : Bytes}
      (hdir : DirAt env.cwd fs parentPath dir) (hlink : fs.tree.get (dir ++ [file]) = some (.link target)) :
      FolderChange env parentPath fs ⟨fs.tree.set (dir ++ [file]) none, (dir ++ [file]) :: fs.touched⟩
  /-- A version file is written, or as much of it as can be. -/
  | written {fs : FileSys} {dir : List FileName} {file : FileName} {content : Bytes} {version : Int}
      (hdir : DirAt env.cwd fs parentPath dir) (hversion : VersionName file)
      (hnodir : fs.tree.get (dir ++ [file]) ≠ some .dir)
      (hnolink : fs.tree.linkAt (dir ++ [file]) = none) (hcontent : content <+: mdirVersion2str version) :
      FolderChange env parentPath fs
        ⟨fs.tree.set (dir ++ [file]) (some (.file content)), (dir ++ [file]) :: fs.touched⟩
  /-- A version file goes. -/
  | removed {fs : FileSys} {dir : List FileName} {file : FileName} {content : Bytes}
      (hdir : DirAt env.cwd fs parentPath dir) (hversion : VersionName file)
      (hold : fs.tree.get (dir ++ [file]) = some (.file content)) :
      FolderChange env parentPath fs ⟨fs.tree.set (dir ++ [file]) none, (dir ++ [file]) :: fs.touched⟩
  | made {fs : FileSys} {top : List FileName} {file : FileName} (htop : DirAt env.cwd fs env.mdirRoot top)
      (hfree : fs.tree.get (top ++ [file]) = none) :
      FolderChange env parentPath fs ⟨fs.tree.set (top ++ [file]) (some .dir), (top ++ [file]) :: fs.touched⟩
  /-- What has the name of a transient directory is renamed. -/
  | renamed {fs fs' : FileSys} {top : List FileName} {file file' : FileName}
      (htop : DirAt env.cwd fs env.mdirRoot top) (htransient : file.1.head? = some 95)
      (hmoves : FileTree.Moves (top ++ [file]) (top ++ [file']) fs.tree fs'.tree) (hname : ¬ VersionName file')
      (htouched : fs'.touched = (top ++ [file]) :: (top ++ [file']) :: fs.touched) : FolderChange env parentPath fs fs'

/-- A link at a free entry of `mdir_root`, under the name of a transient directory. -/
inductive RenameLink (env : DirsEnv) : FileSys → FileSys → Prop
  | left {fs : FileSys} {top : List FileName} {file : FileName} {target : Bytes}
      (htop : DirAt env.cwd fs env.mdirRoot top) (hfree : fs.tree.get (top ++ [file]) = none)
      (htransient : file.1.head? = some 95) :
      RenameLink env fs ⟨fs.tree.set (top ++ [file]) (some (.link target)), (top ++ [file]) :: fs.touched⟩

def FolderChanges (env : DirsEnv) (parentPath : Bytes) : FileSys → FileSys → Prop :=
  Relation.ReflTransGen fun fs fs' => FolderChange env parentPath fs fs' ∨ RenameLink env fs fs'

/-- No mount point is named as a version file. -/
def NoVersionLinks (tree : DiskTree) : Prop :=
  ∀ dir file, VersionName file → tree.linkAt (dir ++ [file]) = none

/-- A name that is the name of one file, and not of a version file, once behind a directory; and its version file. -/
structure FolderName (parentPath name : Bytes) : Prop where
  link : ∃ file, Pasted parentPath name file ∧ ¬ VersionName file
  version : ∃ file, Pasted parentPath (ascii ".versionOf_" ++ name) file ∧ VersionName file

/-- At one of two entries of a directory, or below. -/
def InEntries (top : List FileName) (file file' : FileName) (p : List FileName) : Prop :=
  top ++ [file] <+: p ∨ top ++ [file'] <+: p

/-- The path leads to its directory whatever stands at `P`. -/
def LeadsWithout (env : DirsEnv) (fs : FileSys) (path : Bytes) (P : List FileName → Prop) : Prop :=
  ∀ dir, DirAt env.cwd fs path dir → ∀ fs' : FileSys, (∀ p, ¬ P p → fs'.tree.get p = fs.tree.get p) →
    sysStat env.cwd fs' path = .ok dir

/-- The mdir is not in one of the two entries of `mdir_root`, and is not reached through them. -/
structure MdirApart (env : DirsEnv) (fs : FileSys) (parentPath : Bytes) (top : List FileName) (file file' : FileName) :
    Prop where
  root : LeadsWithout env fs env.mdirRoot (InEntries top file file')
  mdir : LeadsWithout env fs parentPath (InEntries top file file')
  outside : ∀ dir name, DirAt env.cwd fs parentPath dir → ¬ InEntries top file file' (dir ++ [name])

/-- The id that a patch gives, and the one that a previous link points to, are names of files. -/
structure FolderIds (env : DirsEnv) (d : Dirs) (parentPath : Bytes) (h : Header) : Prop where
  new : ∀ hf, headerFind h SC_DIRID_FIELD = some hf → ∃ file, Pasted env.mdirRoot hf.value file ∧ ¬ VersionName file
  /-- `symlinks points to "mdir_root/id"` -/
  old : ∀ prevLink, sysReadlink env.cwd d.fs (Dirs.linkPath parentPath (Dirs.linkName h).2) = .ok prevLink →
    ∃ left file, prevLink = env.mdirRoot ++ 47 :: left ∧ Single file left
  /-- The mdir is reached neither through the transient directory that is renamed nor through the one of the id. -/
  apart : ∀ hf left top file file', headerFind h SC_DIRID_FIELD = some hf → DirAt env.cwd d.fs env.mdirRoot top →
    sysReadlink env.cwd d.fs (Dirs.linkPath parentPath (Dirs.linkName h).2) = .ok (env.mdirRoot ++ 47 :: left) →
    Single file left → Pasted env.mdirRoot hf.value file' → MdirApart env d.fs parentPath top file file'

/-- What is asked of the patch of type dir that is added or removed. -/
structure FolderNamed (env : DirsEnv) (d : Dirs) (parentPath : Bytes) (action : Action) (h : Header)
    (answers : MdirAnswers) : Prop where
  added : action = .add → headerIsDirectory h = true →
    FolderName parentPath (Dirs.linkName h).2 ∧ FolderIds env d parentPath h
  removed : action = .rem → ∀ target hf, answers.target = .ok (some (.add, target)) →
    headerIsDirectory target = true → headerFind target SC_NAME_FIELD = some hf → FolderName parentPath hf.value ∧
      /- No regular file has the name of the folder that is removed. -/
      ∀ p, sysPlace env.cwd d.fs (Dirs.linkPath parentPath hf.value) = .ok p →
        ∀ content, d.fs.tree.get p ≠ some (.file content)

/-! ## Version files and links -/

theorem transient_not_version {file : FileName} (h : file.1.head? = some 95) : ¬ VersionName file := by
  rintro ⟨rest, heq⟩
  have hdot : file.1.head? = some 46 := heq ▸ rfl
  exact absurd (hdot.symm.trans h) (by decide)

theorem file_of_concat {dir dir' : List FileName} {file file' : FileName} (h : dir ++ [file] = dir' ++ [file']) :
    file = file' := by
  simpa using (List.append_inj' h rfl).2

theorem noVersionLinks_set {tree : DiskTree} (h : NoVersionLinks tree) {p : List FileName}
    {o : Option (Node Bytes Bytes)}
    (hlink : ∀ dir file target, p = dir ++ [file] → o = some (.link target) → ¬ VersionName file) :
    NoVersionLinks (tree.set p o) := by
  intro dir file hversion
  rw [Option.eq_none_iff_forall_ne_some]
  intro target htarget
  rw [FileTree.linkAt_eq_some] at htarget
  rcases FileTree.get_set_or p (dir ++ [file]) o with heq | ⟨rfl, heq⟩
  · rw [heq, ← FileTree.linkAt_eq_some, h dir file hversion] at htarget
    cases htarget
  · exact hlink dir file target rfl (heq.symm.trans htarget) hversion

theorem noVersionLinks_moves {tree tree' : DiskTree} (h : NoVersionLinks tree) {p top : List FileName}
    {file' : FileName} (hmoves : FileTree.Moves p (top ++ [file']) tree tree') (hname : ¬ VersionName file') :
    NoVersionLinks tree' := by
  intro dir file hversion
  have hget := h dir file hversion
  rw [Option.eq_none_iff_forall_ne_some] at hget ⊢
  intro target htarget
  rw [FileTree.linkAt_eq_some] at htarget
  by_cases hbelow : top ++ [file'] <+: dir ++ [file]
  · rcases List.prefix_concat_iff.1 hbelow with heq | ⟨rest, hrest⟩
    · -- the entry itself
      exact hname (file_of_concat heq ▸ hversion)
    · rw [← hrest, List.append_assoc, hmoves.moved, ← List.append_assoc, ← FileTree.linkAt_eq_some,
        h _ _ hversion] at htarget
      cases htarget
  · by_cases hgone : p <+: dir ++ [file]
    · by_cases hsame : p = top ++ [file']
      · exact hbelow (hsame ▸ hgone)
      · rw [hmoves.gone hsame _ hgone hbelow] at htarget
        cases htarget
    · rw [hmoves.elsewhere _ hgone hbelow] at htarget
      exact hget target (FileTree.linkAt_eq_some.2 htarget)

theorem FolderChanges.noVersionLinks {env : DirsEnv} {parentPath : Bytes} {fs fs' : FileSys}
    (h : FolderChanges env parentPath fs fs') (hfs : NoVersionLinks fs.tree) : NoVersionLinks fs'.tree := by
  induction h with
  | refl => exact hfs
  | tail _ hstep ih =>
      rcases hstep with (⟨-, -, hfile⟩ | ⟨-, -⟩ | ⟨-, -, -, -, -⟩ | ⟨-, -, -⟩ | ⟨-, -⟩ | ⟨-, -, hmoves, hname, -⟩) |
        ⟨-, -, htransient⟩
      · apply noVersionLinks_set ih
        intro dir file target heq _
        exact file_of_concat heq ▸ hfile
      · exact noVersionLinks_set ih fun _ _ _ _ => nofun
      · exact noVersionLinks_set ih fun _ _ _ _ => nofun
      · exact noVersionLinks_set ih fun _ _ _ _ => nofun
      · exact noVersionLinks_set ih fun _ _ _ _ => nofun
      · exact noVersionLinks_moves ih hmoves hname
      · apply noVersionLinks_set ih
        intro dir file target heq _
        exact file_of_concat heq ▸ transient_not_version htransient

theorem FolderChanges.one {env : DirsEnv} {parentPath : Bytes} {fs fs' : FileSys}
    (h : FolderChange env parentPath fs fs') : FolderChanges env parentPath fs fs' :=
  .single (.inl h)

theorem basename_single {file : FileName} {text : Bytes} (h : Single file text) : basename text = file.1 := by
  rcases h with ⟨n, hn⟩
  apply eq_of_stepOf
  have hlast : (pathSteps text).getLast? = some (stepOf (basename text)) := by
    rcases basename_cases text with ⟨heq, hno⟩ | ⟨start, heq, hno⟩
    · rw [heq, pathSteps_part hno]
      rfl
    · conv_lhs => rw [heq, pathSteps_append, pathSteps_part hno]
      exact List.getLast?_concat
  rw [hn, List.getLast?_concat] at hlast
  exact (Option.some.inj hlast).symm

namespace Dirs

variable {env : DirsEnv} {d : Dirs} {parentPath : Bytes}

/-! ## Calls -/

theorem changes_onFs {r : Except FsErr FileSys} (h : ∀ fs, r = .ok fs → FolderChanges env parentPath d.fs fs)
    (what : Bytes) : FolderChanges env parentPath d.fs (d.onFs r what).1.fs := by
  rcases onFs_cases d r what with ⟨e, -, heq⟩ | ⟨fs, hok, heq⟩
  · rw [heq]
    exact .refl
  · rw [heq]
    exact h fs hok

theorem changes_andThen {α β : Type} {r : DirsResult α} {next : Dirs → α → DirsResult β}
    (h : FolderChanges env parentPath d.fs r.1.fs)
    (hnext : ∀ v, r.2 = .ok v → FolderChanges env parentPath r.1.fs (next r.1 v).1.fs) :
    FolderChanges env parentPath d.fs (r.andThen next).1.fs :=
  andThen_rel (R := fun d d' => FolderChanges env parentPath d.fs d'.fs) (fun _ _ _ => .trans) h hnext

section Entry

variable {text : Bytes} {file : FileName} (hne : parentPath ≠ []) (hpasted : Pasted parentPath text file)
  {fs fs' : FileSys}

include hne hpasted

theorem changes_symlink (hfile : ¬ VersionName file) {target : Bytes}
    (h : sysSymlink env.cwd fs target (snprintfPath (parentPath ++ 47 :: text)) = .ok fs') :
    FolderChanges env parentPath fs fs' := by
  rcases sysSymlink_ok h with ⟨p, hplace, hfree, rfl⟩
  rcases (sysPlace_pasted hne hpasted).1 hplace with ⟨dir, hdir, rfl⟩
  exact .one (.linked hdir hfree hfile)

/-- A symlink, or nothing, is removed. -/
theorem changes_unlink (hnofile : ∀ p, sysPlace env.cwd fs (snprintfPath (parentPath ++ 47 :: text)) = .ok p →
      ∀ content, fs.tree.get p ≠ some (.file content))
    (h : sysUnlink env.cwd fs (snprintfPath (parentPath ++ 47 :: text)) = .ok fs') :
    FolderChanges env parentPath fs fs' := by
  rcases sysUnlink_ok h with ⟨p, hplace, hnodir, hsome, rfl⟩
  have hno := hnofile p hplace
  rcases (sysPlace_pasted hne hpasted).1 hplace with ⟨dir, hdir, rfl⟩
  cases hget : fs.tree.get (dir ++ [file]) with
  | none => exact absurd hget hsome
  | some node =>
      cases node with
      | dir => exact absurd hget hnodir
      | file content => exact absurd hget (hno content)
      | link target => exact .one (.unlinked hdir hget)

theorem changes_unlinkVersion (hversion : VersionName file) (hlinks : NoVersionLinks fs.tree)
    (h : sysUnlink env.cwd fs (snprintfPath (parentPath ++ 47 :: text)) = .ok fs') :
    FolderChanges env parentPath fs fs' := by
  rcases sysUnlink_ok h with ⟨p, hplace, hnodir, hsome, rfl⟩
  rcases (sysPlace_pasted hne hpasted).1 hplace with ⟨dir, hdir, rfl⟩
  cases hget : fs.tree.get (dir ++ [file]) with
  | none => exact absurd hget hsome
  | some node =>
      cases node with
      | dir => exact absurd hget hnodir
      | file content => exact .one (.removed hdir hversion hget)
      | link target =>
          have hlink := hlinks dir file hversion
          rw [FileTree.linkAt_eq_some.2 hget] at hlink
          cases hlink

theorem changes_creat (hversion : VersionName file) (hlinks : NoVersionLinks fs.tree) {content : Bytes} {version : Int}
    (hcontent : content <+: mdirVersion2str version)
    (h : sysCreat env.cwd fs content (snprintfPath (parentPath ++ 47 :: text)) = .ok fs') :
    FolderChanges env parentPath fs fs' := by
  have hlink : ∀ p, sysPlace env.cwd fs (snprintfPath (parentPath ++ 47 :: text)) = .ok p →
      fs.tree.linkAt p = none := by
    intro p hplace
    rcases (sysPlace_pasted hne hpasted).1 hplace with ⟨dir, -, rfl⟩
    exact hlinks dir file hversion
  rcases sysCreat_ok hlink h with ⟨p, hplace, hnodir, rfl⟩
  have hnolink := hlink p hplace
  rcases (sysPlace_pasted hne hpasted).1 hplace with ⟨dir, hdir, rfl⟩
  exact .one (.written hdir hversion hnodir hnolink hcontent)

end Entry

/-! ## Directories -/

section Made

variable {id : Bytes} {file : FileName} (htop : ∃ top, DirAt env.cwd d.fs env.mdirRoot top)
  (hid : Pasted env.mdirRoot id file)

include htop hid

theorem changes_madeFor (create : Bool) : FolderChanges env parentPath d.fs (madeFor env d id create) := by
  cases create with
  | false => exact .refl
  | true =>
      rcases htop with ⟨top, htop⟩
      rcases hid with ⟨left, heq, hsingle⟩
      have hlen := length_snprintfPath (env.mdirRoot ++ 47 :: id)
      have hmade : madeFor env d id true = (mkdirPath env.cwd d.fs (env.mdirRoot ++ 47 :: left)).1 := by
        rw [madeFor, if_pos rfl, DirsEnv.idPath, heq]
      rw [heq] at hlen
      rw [hmade]
      rcases mkdirPath_single htop hlen hsingle with hsame | ⟨hfree, hset⟩
      · rw [hsame]
        exact .refl
      · rw [hset]
        exact .one (.made htop hfree)

theorem changes_mdirNew (create : Bool) : FolderChanges env parentPath d.fs (mdirNew env d id create).1.fs := by
  rcases mdirNew_cases env d id create with ⟨e, heq⟩ | ⟨dir, permissions, -, heq⟩
  · rw [heq]
    exact changes_madeFor htop hid create
  · rw [heq]
    exact changes_madeFor htop hid create

theorem changes_mdirLookupById (create : Bool) :
    FolderChanges env parentPath d.fs (mdirLookupById env d id create).1.fs := by
  rcases mdirLookupById_cases env d id create with ⟨mdir, -, -, heq⟩ | ⟨-, heq⟩
  · rw [heq]
    exact .refl
  · rw [heq]
    exact changes_mdirNew htop hid create

end Made

/-- A lookup that makes nothing. -/
theorem mdirLookupById_fs (env : DirsEnv) (d : Dirs) (id : Bytes) : (mdirLookupById env d id false).1.fs = d.fs := by
  rcases mdirLookupById_cases env d id false with ⟨mdir, -, -, heq⟩ | ⟨-, heq⟩
  · rw [heq]
  · rw [heq]
    rcases mdirNew_cases env d id false with ⟨e, heq'⟩ | ⟨dir, permissions, -, heq'⟩
    · rw [heq']
      rfl
    · rw [heq']
      rfl

theorem changes_lookupRename (hfits : env.Fits) (h : d.Rooted env) {oldLeft id : Bytes} {oldFile file : FileName}
    (hold : Single oldFile oldLeft) (htransient : oldFile.1.head? = some 95) (hid : Pasted env.mdirRoot id file)
    (hfile : ¬ VersionName file) (hne : env.mdirRoot ≠ []) :
    FolderChanges env parentPath d.fs (lookupRename env d (env.mdirRoot ++ 47 :: oldLeft) (env.idPath id)).1.fs := by
  have hrename : ∀ fs, sysRename env.cwd d.fs (env.mdirRoot ++ 47 :: oldLeft) (env.idPath id) = .ok fs →
      FolderChanges env parentPath d.fs fs := by
    intro fs hok
    rcases sysRename_ok hok with ⟨p, q, hp, hq, hmoves, htouched⟩
    have hlen := (pathError_eq_none.1 (sysPlace_ok hp).1).2
    rcases (sysPlace_single hne hlen hold).1 hp with ⟨top, htop, rfl⟩
    rcases (sysPlace_pasted hne hid).1 hq with ⟨top', htop', rfl⟩
    cases htop.unique htop'
    exact .one (.renamed htop htransient hmoves hfile htouched)
  have hsymlink : ∀ fs fs', sysSymlink env.cwd fs (env.idPath id) (env.mdirRoot ++ 47 :: oldLeft) = .ok fs' →
      FolderChanges env parentPath fs fs' := by
    intro fs fs' hok
    rcases sysSymlink_ok hok with ⟨p, hp, hfree, rfl⟩
    have hlen := (pathError_eq_none.1 (sysPlace_ok hp).1).2
    rcases (sysPlace_single hne hlen hold).1 hp with ⟨top, htop, rfl⟩
    exact .single (.inr (.left htop hfree htransient))
  rcases lookupRename_cases hfits h (env.mdirRoot ++ 47 :: oldLeft) id with
    ⟨e, heq⟩ | ⟨fs, hok, ⟨e, heq⟩ | ⟨fs', hok', ⟨e, heq⟩ | heq⟩⟩
  · rw [heq]
    exact .refl
  · rw [heq]
    exact hrename fs hok
  · rw [heq]
    exact (hrename fs hok).trans (hsymlink fs fs' hok')
  · rw [heq, mdirLookupById_fs]
    exact (hrename fs hok).trans (hsymlink fs fs' hok')

/-- Nothing changes but at the two entries of the rename. -/
theorem lookupRename_apart (hfits : env.Fits) (h : d.Rooted env) {oldLeft id : Bytes} {oldFile file : FileName}
    {top : List FileName} (hold : Single oldFile oldLeft) (hid : Pasted env.mdirRoot id file)
    (htop : DirAt env.cwd d.fs env.mdirRoot top) (hroot : LeadsWithout env d.fs env.mdirRoot (InEntries top oldFile file))
    {p : List FileName} (hp : ¬ InEntries top oldFile file p) :
    (lookupRename env d (env.mdirRoot ++ 47 :: oldLeft) (env.idPath id)).1.fs.tree.get p = d.fs.tree.get p := by
  have hrename : ∀ fs, sysRename env.cwd d.fs (env.mdirRoot ++ 47 :: oldLeft) (env.idPath id) = .ok fs →
      ∀ q, ¬ InEntries top oldFile file q → fs.tree.get q = d.fs.tree.get q := by
    intro fs hok q hq
    rcases sysRename_ok hok with ⟨old, new, hplace, hplace', hmoves, -⟩
    have hlen := (pathError_eq_none.1 (sysPlace_ok hplace).1).2
    rcases (sysPlace_single htop.start_ne hlen hold).1 hplace with ⟨dir, hdir, rfl⟩
    rcases (sysPlace_pasted htop.start_ne hid).1 hplace' with ⟨dir', hdir', rfl⟩
    cases htop.unique hdir
    cases htop.unique hdir'
    exact hmoves.elsewhere q (fun hpre => hq (.inl hpre)) fun hpre => hq (.inr hpre)
  rcases lookupRename_cases hfits h (env.mdirRoot ++ 47 :: oldLeft) id with
    ⟨e, heq⟩ | ⟨fs, hok, ⟨e, heq⟩ | ⟨fs', hok', hrest⟩⟩
  · rw [heq]
  · rw [heq]
    exact hrename fs hok p hp
  · have hlinked : fs'.tree.get p = d.fs.tree.get p := by
      rcases sysSymlink_ok hok' with ⟨q, hplace, -, rfl⟩
      have hlen := (pathError_eq_none.1 (sysPlace_ok hplace).1).2
      rcases (sysPlace_single htop.start_ne hlen hold).1 hplace with ⟨dir, hdir, rfl⟩
      -- mdir_root still is where it was
      have hsame : sysStat env.cwd fs env.mdirRoot = .ok top := hroot top htop fs (hrename fs hok)
      cases Except.ok.inj (hsame.symm.trans hdir.stat)
      rw [← hrename fs hok p hp]
      apply FileTree.get_set_of_ne
      rintro rfl
      exact hp (.inl List.prefix_rfl)
    rcases hrest with ⟨e, heq⟩ | heq
    · rw [heq]
      exact hlinked
    · rw [heq, mdirLookupById_fs]
      exact hlinked

/-! ## Links -/

section Link

variable {name : Bytes} (hne : parentPath ≠ []) (hname : FolderName parentPath name)

include hne hname

theorem changes_linkTo (d : Dirs) (childPath : Bytes) :
    FolderChanges env parentPath d.fs (linkTo env d childPath (linkPath parentPath name)).1.fs := by
  rcases hname.link with ⟨file, hpasted, hfile⟩
  exact changes_onFs (fun _ hok => changes_symlink hne hpasted hfile hok) _

theorem changes_relink (hfits : env.Fits) (h : d.Rooted env) {top : List FileName}
    (htop : DirAt env.cwd d.fs env.mdirRoot top) {oldLeft dirId : Bytes} {oldFile file : FileName}
    (hold : Single oldFile oldLeft) (htransient : oldFile.1.head? = some 95) (hid : Pasted env.mdirRoot dirId file)
    (hfile : ¬ VersionName file) (hapart : MdirApart env d.fs parentPath top oldFile file)
    (hread : sysReadlink env.cwd d.fs (linkPath parentPath name) = .ok (env.mdirRoot ++ 47 :: oldLeft)) :
    FolderChanges env parentPath d.fs
      (relink env d (env.mdirRoot ++ 47 :: oldLeft) (linkPath parentPath name) dirId).1.fs := by
  have hrenamed : FolderChanges env parentPath d.fs
      (lookupRename env d (env.mdirRoot ++ 47 :: oldLeft) (env.idPath dirId)).1.fs :=
    changes_lookupRename hfits h hold htransient hid hfile htop.start_ne
  have hsame : ∀ p, ¬ InEntries top oldFile file p →
      (lookupRename env d (env.mdirRoot ++ 47 :: oldLeft) (env.idPath dirId)).1.fs.tree.get p = d.fs.tree.get p :=
    fun _ hp => lookupRename_apart hfits h hold hid htop hapart.root hp
  rcases hname.link with ⟨link, hpasted, hlink⟩
  -- the symlink is still the one that was read
  have hnofile : ∀ p, sysPlace env.cwd (lookupRename env d (env.mdirRoot ++ 47 :: oldLeft) (env.idPath dirId)).1.fs
      (snprintfPath (parentPath ++ 47 :: name)) = .ok p → ∀ content,
      (lookupRename env d (env.mdirRoot ++ 47 :: oldLeft) (env.idPath dirId)).1.fs.tree.get p ≠ some (.file content) := by
    intro p hplace content
    rcases (sysPlace_pasted hne hpasted).1 hplace with ⟨dir, hdir, rfl⟩
    rcases sysReadlink_iff.1 hread with ⟨q, hplace', hget⟩
    rcases (sysPlace_pasted hne hpasted).1 hplace' with ⟨dir', hdir', rfl⟩
    have hstat := hapart.mdir dir' hdir' _ hsame
    cases Except.ok.inj (hstat.symm.trans hdir.stat)
    rw [hsame _ (hapart.outside _ _ hdir'), hget]
    exact nofun
  unfold relink
  apply changes_andThen (hrenamed.trans (changes_onFs (fun _ hok => changes_unlink hne hpasted hnofile hok) _))
  intro _ _
  split
  · exact .refl
  · exact changes_linkTo hne hname _ _

theorem changes_linkToId (hfits : env.Fits) (h : d.Rooted env) (htop : ∃ top, DirAt env.cwd d.fs env.mdirRoot top)
    {dirId : Bytes} (hid : ∃ file, Pasted env.mdirRoot dirId file ∧ ¬ VersionName file)
    (hold : ∀ prevLink, sysReadlink env.cwd d.fs (linkPath parentPath name) = .ok prevLink →
      ∃ left file, prevLink = env.mdirRoot ++ 47 :: left ∧ Single file left)
    (hapart : ∀ left top file file', DirAt env.cwd d.fs env.mdirRoot top →
      sysReadlink env.cwd d.fs (linkPath parentPath name) = .ok (env.mdirRoot ++ 47 :: left) → Single file left →
      Pasted env.mdirRoot dirId file' → MdirApart env d.fs parentPath top file file') (transient : Bool) :
    FolderChanges env parentPath d.fs (linkToId env d (linkPath parentPath name) dirId transient).1.fs := by
  rcases hid with ⟨file, hid, hfile⟩
  unfold linkToId
  split
  · apply changes_andThen (changes_mdirLookupById htop hid true)
    intro _ _
    exact changes_linkTo hne hname _ _
  · exact .refl
  next prevLink hread =>
    rcases hold prevLink hread with ⟨left, oldFile, rfl, hsingle⟩
    rcases htop with ⟨top, htop⟩
    simp only
    split
    · exact .refl
    · split
      · exact .refl
      · split
        · exact .refl
        next hhead =>
          -- only a transient directory is renamed
          have htransient : oldFile.1.head? = some 95 := by
            rw [← basename_single hsingle, ← basename_append env.mdirRoot left]
            exact not_not.1 hhead
          exact changes_relink hne hname hfits h htop hsingle htransient hid hfile
            (hapart left top oldFile file htop hread hsingle hid) hread

end Link

theorem headerFind_append {h extra : Header} {name : Bytes} {hf : HeaderField} (hfind : headerFind h name = some hf) :
    headerFind (h ++ extra) name = some hf := by
  rw [headerFind, List.find?_append, ← headerFind, hfind, Option.some_or]

/-- The name that `mdir_link` uses is in the header it leaves. -/
theorem headerFind_linkName (header : Header) :
    ∃ hf, headerFind (linkName header).1 SC_NAME_FIELD = some hf ∧ hf.value = (linkName header).2 := by
  unfold linkName
  split
  next hf hfind => exact ⟨hf, hfind, rfl⟩
  next hnone =>
    refine ⟨⟨SC_NAME_FIELD.map tolower, ascii "Unnamed"⟩, ?_, rfl⟩
    unfold headerFind at hnone
    rw [headerFieldNew, headerFind, List.find?_append, hnone, Option.none_or, List.find?_cons_of_pos (by decide)]

/-- A name that is added is no id. -/
theorem headerFind_linkName_dirId (header : Header) :
    headerFind (linkName header).1 SC_DIRID_FIELD = headerFind header SC_DIRID_FIELD := by
  unfold linkName
  split
  · rfl
  · rw [headerFieldNew, headerFind, List.find?_append, List.find?_cons_of_neg (by decide), List.find?_nil,
      Option.or_none]
    rfl

theorem changes_mdirLink (hne : parentPath ≠ []) (hfits : env.Fits) (h : d.Rooted env)
    (htop : ∃ top, DirAt env.cwd d.fs env.mdirRoot top) {header : Header}
    (hname : FolderName parentPath (linkName header).2) (hids : FolderIds env d parentPath header) (transient : Bool) :
    FolderChanges env parentPath d.fs (mdirLink env d parentPath header transient).1.fs := by
  unfold mdirLink
  simp only [headerFind_linkName_dirId]
  split
  next hf hfind =>
    exact changes_linkToId hne hname hfits h htop (hids.new hf hfind) hids.old
      (fun left top file file' => hids.apart hf left top file file' hfind) transient
  · have hid : Pasted env.mdirRoot (nextId d transient) ⟨_, (nextId_file d transient).1⟩ :=
      pasted_file env.mdirRoot ⟨_, (nextId_file d transient).1⟩ (nextId_fits hfits d transient)
    have hcreated : FolderChanges env parentPath d.fs (mdirCreate env d transient).1.fs := by
      rw [(mdirCreate_cases env d transient).1]
      have htop' : ∃ top, DirAt env.cwd { d with dirIdSeq := d.dirIdSeq + 1 }.fs env.mdirRoot top := htop
      exact changes_mdirNew htop' hid true
    split
    · exact hcreated
    · exact hcreated.trans (changes_linkTo hne hname _ _)

/-- Fields are added at the end of the header. -/
theorem mdirLink_header (env : DirsEnv) (d : Dirs) (parentPath : Bytes) (header : Header) (transient : Bool) :
    ∃ extra, (mdirLink env d parentPath header transient).2.1 = (linkName header).1 ++ extra := by
  unfold mdirLink
  simp only
  split
  · exact ⟨[], (List.append_nil _).symm⟩
  · split
    · exact ⟨[], (List.append_nil _).symm⟩
    · cases transient with
      | true => exact ⟨[], (List.append_nil _).symm⟩
      | false => exact ⟨_, rfl⟩

theorem changes_unlinkFile (d : Dirs) (path what : Bytes)
    (hunlink : ∀ fs, sysUnlink env.cwd d.fs path = .ok fs → FolderChanges env parentPath d.fs fs) :
    FolderChanges env parentPath d.fs (unlinkFile env d path what).1.fs := by
  unfold unlinkFile
  split
  · exact .refl
  · exact changes_onFs hunlink what

theorem versionOfPath_eq (parentPath name : Bytes) :
    versionOfPath parentPath name = snprintfPath (parentPath ++ 47 :: (ascii ".versionOf_" ++ name)) := by
  rw [versionOfPath, List.append_assoc]
  rfl

theorem changes_mdirUnlink (hne : parentPath ≠ []) {header : Header}
    (hname : ∀ hf, headerFind header SC_NAME_FIELD = some hf → FolderName parentPath hf.value ∧
      ∀ p, sysPlace env.cwd d.fs (linkPath parentPath hf.value) = .ok p → ∀ content, d.fs.tree.get p ≠ some (.file content))
    (hlinks : NoVersionLinks d.fs.tree) :
    FolderChanges env parentPath d.fs (mdirUnlink env d parentPath header).1.fs := by
  unfold mdirUnlink
  split
  · exact .refl
  next hf hfind =>
    rcases hname hf hfind with ⟨hnamed, hnofile⟩
    rcases hnamed.link with ⟨link, hlink, -⟩
    rcases hnamed.version with ⟨version, hpasted, hversion⟩
    have hunlinked : FolderChanges env parentPath d.fs (unlinkFile env d (linkPath parentPath hf.value)
        (ascii "unlink " ++ linkPath parentPath hf.value)).1.fs :=
      changes_unlinkFile d _ _ fun _ hok => changes_unlink hne hlink hnofile hok
    apply changes_andThen hunlinked
    intro _ _
    simp only [versionOfPath_eq]
    exact changes_unlinkFile _ _ _ fun _ hok =>
      changes_unlinkVersion hne hpasted hversion (hunlinked.noVersionLinks hlinks) hok

theorem changes_confirmLink (hne : parentPath ≠ []) {header : Header}
    (hname : ∀ hf, headerFind header SC_NAME_FIELD = some hf → FolderName parentPath hf.value)
    (hlinks : NoVersionLinks d.fs.tree) (version : Int) (answers : MdirAnswers) :
    FolderChanges env parentPath d.fs (confirmLink env d parentPath header version answers).1.fs := by
  unfold confirmLink
  split
  · exact .refl
  next hf hfind =>
    rcases (hname hf hfind).version with ⟨file, hpasted, hversion⟩
    simp only
    rw [versionOfPath_eq]
    split
    · exact changes_onFs (fun _ hok => changes_creat hne hpasted hversion hlinks List.prefix_rfl hok) _
    · refine changes_andThen ?_ fun _ _ => .refl
      exact changes_onFs (fun _ hok => changes_creat hne hpasted hversion hlinks (List.take_prefix _ _) hok) _

/-! ## Patches -/

theorem changes_mdirPrepare (hne : parentPath ≠ []) (hfits : env.Fits) (h : d.Rooted env)
    (htop : ∃ top, DirAt env.cwd d.fs env.mdirRoot top) {action : Action} {header : Header} {answers : MdirAnswers}
    (hnamed : FolderNamed env d parentPath action header answers) (hlinks : NoVersionLinks d.fs.tree) (transient : Bool) :
    FolderChanges env parentPath d.fs (mdirPrepare env d parentPath action header answers transient).1.fs := by
  cases action with
  | add =>
      unfold mdirPrepare
      simp only
      split
      next hdir =>
        rcases hnamed.added rfl hdir with ⟨hname, hids⟩
        exact changes_mdirLink hne hfits h htop hname hids transient
      · exact .refl
  | rem =>
      unfold mdirPrepare mdirPrepareRem
      simp only
      split
      · exact .refl
      · exact .refl
      · exact .refl
      next target htarget =>
        have hunlinked : FolderChanges env parentPath d.fs
            (if headerIsDirectory target then mdirUnlink env d parentPath target else (d, .ok ())).1.fs := by
          split
          next hdir =>
            exact changes_mdirUnlink hne (fun hf hfind => hnamed.removed rfl target hf htarget hdir hfind) hlinks
          · exact .refl
        apply changes_andThen hunlinked
        intro _ _
        cases transient with
        | true => exact .refl
        | false => exact .refl

/-- The header of a folder keeps its name. -/
theorem mdirPrepare_name {action : Action} {header : Header} {answers : MdirAnswers} {transient : Bool}
    (haction : action = .add) (hdir : headerIsDirectory header = true) :
    ∃ hf, headerFind (mdirPrepare env d parentPath action header answers transient).2.1 SC_NAME_FIELD = some hf ∧
      hf.value = (linkName header).2 := by
  rcases headerFind_linkName header with ⟨hf, hfind, hvalue⟩
  rcases mdirLink_header env d parentPath header transient with ⟨extra, heq⟩
  subst haction
  unfold mdirPrepare
  simp only
  rw [if_pos hdir, heq]
  exact ⟨hf, headerFind_append hfind, hvalue⟩

theorem changes_mdirRecord {mdir : CachedMdir} (hmdir : mdir ∈ d.mdirs) (hne : mdir.path ≠ []) {action : Action}
    {header : Header} {answers : MdirAnswers}
    (hname : action = .add → headerIsDirectory header = true →
      ∀ hf, headerFind header SC_NAME_FIELD = some hf → FolderName mdir.path hf.value)
    (hlinks : NoVersionLinks d.fs.tree) :
    FolderChanges env mdir.path d.fs (mdirRecord env d mdir.ptr action header answers).1.fs := by
  unfold mdirRecord
  split
  · exact .refl
  next version _ =>
    refine changes_andThen ?_ fun _ _ => .refl
    cases action with
    | rem => exact .refl
    | add =>
        simp only
        unfold mdirConfirmAdd
        split
        next hdir =>
          rw [path_of_mem hmdir]
          exact changes_confirmLink hne (hname rfl hdir) hlinks version answers
        · split
          · exact .refl
          · exact .refl

end Dirs

/-- A patch or a request, on a mdir that has a path below `mdir_root`: the links and the version files that come and
go are entries of the mdir, the directories that are made and what is renamed are entries of `mdir_root`, and a rename
leaves a link there. -/
theorem folderPatch_changes (env : DirsEnv) (d : Dirs) (mdir : CachedMdir) (action : Action) (header : Header)
    (answers : MdirAnswers) (hmdir : mdir ∈ d.mdirs) (hfits : env.Fits) (hrooted : d.Rooted env)
    (htop : ∃ top, DirAt env.cwd d.fs env.mdirRoot top) (hlinks : NoVersionLinks d.fs.tree)
    (hnamed : FolderNamed env d mdir.path action header answers) :
    FolderChanges env mdir.path d.fs (d.mdirPatch env mdir.ptr action header answers).1.fs ∧
      FolderChanges env mdir.path d.fs (d.mdirPatchRequest env mdir.ptr action header answers).1.fs := by
  have hne : mdir.path ≠ [] := by
    intro hnil
    have hpre := hrooted mdir hmdir
    rw [hnil, List.prefix_nil] at hpre
    exact absurd hpre (by simp)
  have hprepare := Dirs.changes_mdirPrepare hne hfits hrooted htop hnamed hlinks
  have hgrows := Dirs.grows_mdirPrepare hfits hrooted mdir.path action header answers
  constructor
  · unfold Dirs.mdirPatch
    rw [Dirs.path_of_mem hmdir]
    split
    · exact .refl
    · simp only
      split
      · exact hprepare false
      · -- the header is written down after it was changed, under the same name
        apply (hprepare false).trans
        apply Dirs.changes_mdirRecord ((hgrows false).mem hmdir) hne
        · intro haction hdir hf hfind
          have hdir' : headerIsDirectory header = true := by
            subst haction
            by_contra hno
            unfold Dirs.mdirPrepare at hdir
            simp only [if_neg hno] at hdir
            exact hno hdir
          rcases Dirs.mdirPrepare_name haction hdir' with ⟨hf', hfind', hvalue⟩
          rw [hfind] at hfind'
          cases hfind'
          rw [hvalue]
          exact (hnamed.added haction hdir').1
        · exact (hprepare false).noVersionLinks hlinks
  · unfold Dirs.mdirPatchRequest
    rw [Dirs.path_of_mem hmdir]
    split
    · exact .refl
    · simp only
      split
      · exact hprepare true
      · exact hprepare true

/-! ## A folder that gets its id -/

def mFile : FileName := ⟨ascii "m", by decide⟩
def rootFile : FileName := ⟨ascii "root", by decide⟩

def aFile : FileName := ⟨ascii "a", by decide⟩
def transientFile : FileName := ⟨ascii "_5", by decide⟩

/-- The root folder, and the directory `_5`. -/
def madeFs : FileSys :=
  (mkdirForFile [] (mkdirForFile [] ⟨FileTree.empty, []⟩ (ascii "/m/root/x")).1 (ascii "/m/_5/x")).1

/-- The transient folder `_5` is mounted on the root folder, as `a`. -/
def transientFs : FileSys where
  tree := madeFs.tree.set [mFile, rootFile, aFile] (some (.link (ascii "/m/_5")))
  touched := madeFs.touched

def folderEnv : DirsEnv where
  cwd := []
  mdirRoot := ascii "/m"
  load := fun _ _ => .ok none

def transientDirs : Dirs where
  fs := transientFs
  mdirs := [⟨0, ascii "/m/root", none⟩]
  nextPtr := 1
  dirIdSeq := 6
  ptrs := by simp

def folderPatchHeader : Header :=
  [⟨SC_TYPE_FIELD, SC_DIR_TYPE⟩, ⟨SC_NAME_FIELD, ascii "a"⟩, ⟨SC_DIRID_FIELD, ascii "7"⟩]

def folderAnswers : MdirAnswers where
  blanks := .ok ()
  target := .ok none
  markDel := .ok ()
  record := .ok 3
  versionFails := none
  permsSaved := true
  marks := .ok ()

/-- `mdir_root` and the root folder are no links, and nothing beside them is one. -/
structure PlainTop (fs : FileSys) : Prop where
  isDir : fs.tree.get [mFile] = some .dir
  noLinks : ∀ p : List FileName, p.length ≤ 2 → fs.tree.linkAt p = none

section PlainTop

variable {fs fs' : FileSys}

theorem PlainTop.dirAt {path : Bytes} {dir : List FileName} (h : PlainTop fs) (hdir : DirAt [] fs path dir)
    (hsteps : pathSteps path = [.stay, .down mFile] ∨ pathSteps path = [.stay, .down mFile, .down rootFile]) :
    dir = FileTree.lexical [] (pathSteps path) := by
  have hheads := sysStat_heading hdir.stat
  have hstart : pathStart [] path = [] := ite_self _
  have harrived : fs.tree.heads [] (pathSteps path) = .arrived (FileTree.lexical [] (pathSteps path)) := by
    have hm : fs.tree.linkAt [mFile] = none := h.noLinks _ (by decide)
    have hroot : fs.tree.linkAt [mFile, rootFile] = none := h.noLinks _ (by decide)
    rcases hsteps with heq | heq
    · rw [heq]
      simp [FileTree.heads, FileTree.lexical, hm]
    · rw [heq]
      simp [FileTree.heads, FileTree.lexical, hm, hroot]
  rw [heading, hstart, FileTree.headsFor, harrived] at hheads
  exact (Option.some.inj hheads).symm

/-- An entry that is written is not a link beside the root folder. -/
theorem PlainTop.set (h : PlainTop fs) {p : List FileName} {o : Option (Node Bytes Bytes)} {touched : List (List FileName)}
    (hp : p ≠ [mFile]) (ho : p.length ≤ 2 → ∀ target, o ≠ some (.link target)) :
    PlainTop ⟨fs.tree.set p o, touched⟩ := by
  refine ⟨?_, ?_⟩
  · rw [FileTree.get_set_of_ne hp.symm]
    exact h.isDir
  · intro q hq
    rw [Option.eq_none_iff_forall_ne_some]
    intro target htarget
    rw [FileTree.linkAt_eq_some] at htarget
    rcases FileTree.get_set_or p q o with heq | ⟨rfl, heq⟩
    · rw [heq, ← FileTree.linkAt_eq_some, h.noLinks q hq] at htarget
      cases htarget
    · exact ho hq target (heq.symm.trans htarget)

theorem PlainTop.moves (h : PlainTop fs) {file file' : FileName}
    (hmoves : FileTree.Moves ([mFile] ++ [file]) ([mFile] ++ [file']) fs.tree fs'.tree) : PlainTop fs' := by
  have hbelow : ∀ (name : FileName) (q : List FileName), q.length ≤ 2 → [mFile] ++ [name] <+: q → q = [mFile, name] := by
    rintro name q hq hpre
    exact (hpre.eq_of_length_le (by simpa using hq)).symm
  refine ⟨?_, ?_⟩
  · rw [hmoves.elsewhere [mFile] (by simp [List.cons_prefix_cons]) (by simp [List.cons_prefix_cons])]
    exact h.isDir
  · intro q hq
    rw [Option.eq_none_iff_forall_ne_some]
    intro target htarget
    rw [FileTree.linkAt_eq_some] at htarget
    by_cases hto : [mFile] ++ [file'] <+: q
    · have hmoved := hmoves.moved []
      rw [List.append_nil, List.append_nil] at hmoved
      rw [hbelow file' q hq hto] at htarget
      have hlink := FileTree.linkAt_eq_some.2 (hmoved.symm.trans htarget)
      rw [h.noLinks _ (by simp)] at hlink
      cases hlink
    · by_cases hfrom : [mFile] ++ [file] <+: q
      · have hne : [mFile] ++ [file] ≠ [mFile] ++ [file'] := fun heq => hto (heq ▸ hfrom)
        rw [hmoves.gone hne q hfrom hto] at htarget
        cases htarget
      · rw [hmoves.elsewhere q hfrom hto] at htarget
        have hlink := FileTree.linkAt_eq_some.2 htarget
        rw [h.noLinks q hq] at hlink
        cases hlink

theorem PlainTop.change (h : PlainTop fs) (hchange : FolderChange folderEnv (ascii "/m/root") fs fs') :
    PlainTop fs' := by
  have hmdirRoot : pathSteps (ascii "/m") = [.stay, .down mFile] := by decide
  have hparent : pathSteps (ascii "/m/root") = [.stay, .down mFile, .down rootFile] := by decide
  have htop : ∀ {top}, DirAt folderEnv.cwd fs folderEnv.mdirRoot top → top = [mFile] := by
    intro top hdir
    exact (h.dirAt hdir (.inl hmdirRoot)).trans (congrArg (FileTree.lexical []) hmdirRoot)
  -- an entry of the root folder
  have hentry : ∀ {dir : List FileName} {file : FileName} {o : Option (Node Bytes Bytes)} {touched : List (List FileName)},
      DirAt folderEnv.cwd fs (ascii "/m/root") dir → PlainTop ⟨fs.tree.set (dir ++ [file]) o, touched⟩ := by
    intro dir file o touched hdir
    have heq : dir = [mFile, rootFile] := (h.dirAt hdir (.inr hparent)).trans (congrArg (FileTree.lexical []) hparent)
    rw [heq]
    exact h.set (by simp) fun hlen => absurd hlen (by simp)
  cases hchange with
  | linked hdir hfree hfile => exact hentry hdir
  | unlinked hdir hlink => exact hentry hdir
  | written hdir hversion hnodir hnolink hcontent => exact hentry hdir
  | removed hdir hversion hold => exact hentry hdir
  | made hdir hfree =>
      rw [htop hdir]
      exact h.set (by simp) fun _ _ => nofun
  | renamed hdir htransient hmoves hname htouched =>
      rw [htop hdir] at hmoves
      exact h.moves hmoves

theorem PlainTop.changes (h : PlainTop fs)
    (hchanges : Relation.ReflTransGen (FolderChange folderEnv (ascii "/m/root")) fs fs') : PlainTop fs' := by
  induction hchanges with
  | refl => exact h
  | tail _ hchange ih => exact ih.change hchange

end PlainTop

theorem madeFs_noLinks (p : List FileName) : madeFs.tree.linkAt p = none := by
  have hempty : (FileTree.empty : DiskTree).NoLinks fun _ => True := by
    intro p _
    cases p <;> rfl
  have hfirst : FileSys.Within (fun _ => True) ⟨FileTree.empty, []⟩
      (mkdirForFile [] ⟨FileTree.empty, []⟩ (ascii "/m/root/x")).1 :=
    mkdirForFile_within FileSys.clear_anywhere (by decide) fun _ _ _ _ _ _ => .inr (.inr trivial)
  have hmade : FileSys.Within (fun _ => True) (mkdirForFile [] ⟨FileTree.empty, []⟩ (ascii "/m/root/x")).1 madeFs :=
    mkdirForFile_within FileSys.clear_anywhere (by decide) fun _ _ _ _ _ _ => .inr (.inr trivial)
  exact (hfirst.trans hmade).tree.noLinks hempty p trivial

theorem plainTop_transientFs : PlainTop transientFs := by
  have hmade : PlainTop madeFs := ⟨by decide, fun p _ => madeFs_noLinks p⟩
  exact hmade.set (by decide) fun hlen => absurd hlen (by decide)

/-- Giving the transient folder its id. -/
def namedFolder : Dirs × Header × Except Err Int :=
  transientDirs.mdirPatch folderEnv 0 .add folderPatchHeader folderAnswers

/-- The patch is accepted, and leaves a link beside the root folder. -/
theorem not_folderPatch :
    namedFolder.2.2 = .ok 3 ∧
      ¬ Relation.ReflTransGen (FolderChange folderEnv (ascii "/m/root")) transientDirs.fs namedFolder.1.fs := by
  refine ⟨by rfl, ?_⟩
  intro hchanges
  have hleft : namedFolder.1.fs.tree.linkAt [mFile, transientFile] = some (ascii "/m/7") := by decide
  rw [(plainTop_transientFs.changes hchanges).noLinks _ (by decide)] at hleft
  cases hleft

/-- The root folder is reached through neither of the two directories. -/
theorem apart_transientFs {file file' : FileName} (hfile : file.1.length = 1 ∨ file.1.length = 2)
    (hfile' : file'.1.length = 1 ∨ file'.1.length = 2) :
    MdirApart folderEnv transientFs (ascii "/m/root") [mFile] file file' := by
  have hne : ∀ name : FileName, name.1.length = 1 ∨ name.1.length = 2 → name ≠ rootFile := by
    rintro name hlen rfl
    exact absurd hlen (by decide)
  have houtside : ∀ rest : List FileName, rest.head? = none ∨ rest.head? = some rootFile →
      ¬ InEntries [mFile] file file' (mFile :: rest) := by
    have hpre : ∀ name : FileName, name ≠ rootFile → ∀ rest : List FileName,
        rest.head? = none ∨ rest.head? = some rootFile → ¬ [mFile] ++ [name] <+: mFile :: rest := by
      rintro name hname rest hrest ⟨more, heq⟩
      have htail : name :: more = rest := (List.cons_eq_cons.1 heq).2
      rw [← htail, List.head?_cons, Option.some.injEq] at hrest
      rcases hrest with hnone | hroot
      · cases hnone
      · exact hname hroot
    rintro rest hrest (h | h)
    · exact hpre file (hne file hfile) rest hrest h
    · exact hpre file' (hne file' hfile') rest hrest h
  have hm : transientFs.tree.get [mFile] = some .dir := by decide
  have hroot : transientFs.tree.get [mFile, rootFile] = some .dir := by decide
  have hdirM : DirAt folderEnv.cwd transientFs (ascii "/m") [mFile] := ⟨by rfl, by decide⟩
  have hdirRoot : DirAt folderEnv.cwd transientFs (ascii "/m/root") [mFile, rootFile] := ⟨by rfl, by decide⟩
  have hsame : ∀ fs' : FileSys, (∀ p, ¬ InEntries [mFile] file file' p → fs'.tree.get p = transientFs.tree.get p) →
      fs'.tree.get [mFile] = some .dir ∧ fs'.tree.get [mFile, rootFile] = some .dir := by
    intro fs' hfs
    exact ⟨(hfs _ (houtside [] (.inl rfl))).trans hm, (hfs _ (houtside [rootFile] (.inr rfl))).trans hroot⟩
  refine ⟨?_, ?_, ?_⟩
  · intro dir hdir fs' hfs
    rw [hdir.unique hdirM]
    have hstat : sysStat [] fs' (ascii "/m") =
        fs'.tree.resolve followLink MAXSYMLINKS [] [.stay, .down mFile] := rfl
    rw [show folderEnv.cwd = [] from rfl, show folderEnv.mdirRoot = ascii "/m" from rfl, hstat]
    simp [FileTree.resolve, FileTree.walk, fs'.tree.root, (hsame fs' hfs).1]
  · intro dir hdir fs' hfs
    rw [hdir.unique hdirRoot]
    have hstat : sysStat [] fs' (ascii "/m/root") =
        fs'.tree.resolve followLink MAXSYMLINKS [] [.stay, .down mFile, .down rootFile] := rfl
    rw [show folderEnv.cwd = [] from rfl, hstat]
    simp [FileTree.resolve, FileTree.walk, fs'.tree.root, hsame fs' hfs]
  · intro dir name hdir
    rw [hdir.unique hdirRoot]
    exact houtside [rootFile, name] (.inr rfl)

theorem folderPatch_changes_named :
    FolderChanges folderEnv (ascii "/m/root") transientDirs.fs namedFolder.1.fs := by
  have htop : DirAt folderEnv.cwd transientFs folderEnv.mdirRoot [mFile] := ⟨by rfl, by decide⟩
  have hplain : ∀ file : FileName, file.1.head? ≠ some 46 → ¬ VersionName file := by
    rintro file hhead ⟨rest, heq⟩
    exact hhead (heq ▸ rfl)
  have hlinks : NoVersionLinks transientFs.tree := by
    change NoVersionLinks (madeFs.tree.set [mFile, rootFile, aFile] (some (.link (ascii "/m/_5"))))
    refine noVersionLinks_set (fun _ _ _ => madeFs_noLinks _) ?_
    intro dir file target heq _
    have hsplit : [mFile, rootFile] ++ [aFile] = dir ++ [file] := heq
    exact file_of_concat hsplit ▸ hplain aFile (by decide)
  have hname : FolderName (ascii "/m/root") (ascii "a") :=
    ⟨⟨aFile, pasted_file (ascii "/m/root") aFile (by decide), hplain aFile (by decide)⟩,
      ⟨⟨ascii ".versionOf_a", by decide⟩, pasted_file (ascii "/m/root") ⟨ascii ".versionOf_a", by decide⟩ (by decide),
        ⟨ascii "a", rfl⟩⟩⟩
  have hids : FolderIds folderEnv transientDirs (ascii "/m/root") folderPatchHeader := by
    constructor
    · intro hf hfind
      have hvalue : (headerFind folderPatchHeader SC_DIRID_FIELD).map HeaderField.value = some (ascii "7") := by decide
      rw [hfind, Option.map_some, Option.some.injEq] at hvalue
      rw [hvalue]
      exact ⟨⟨ascii "7", by decide⟩, pasted_file (ascii "/m") ⟨ascii "7", by decide⟩ (by decide), hplain _ (by decide)⟩
    · intro prevLink hprev
      have hlink : sysReadlink folderEnv.cwd transientDirs.fs
          (Dirs.linkPath (ascii "/m/root") (Dirs.linkName folderPatchHeader).2) = .ok (ascii "/m/_5") := by rfl
      rw [hlink] at hprev
      exact ⟨transientFile.1, transientFile, (Except.ok.inj hprev).symm, single_file transientFile⟩
    · intro hf left top file file' hfind htop' hprev hsingle hpasted
      cases htop.unique htop'
      have hvalue : (headerFind folderPatchHeader SC_DIRID_FIELD).map HeaderField.value = some (ascii "7") := by decide
      rw [hfind, Option.map_some, Option.some.injEq] at hvalue
      have hlink : sysReadlink folderEnv.cwd transientDirs.fs
          (Dirs.linkPath (ascii "/m/root") (Dirs.linkName folderPatchHeader).2) =
            .ok (folderEnv.mdirRoot ++ 47 :: ascii "_5") := by rfl
      have hleft : ascii "_5" = left := by
        rw [hlink, Except.ok.injEq] at hprev
        exact (List.cons_eq_cons.1 (List.append_cancel_left hprev)).2
      have hold : file.1 = ascii "_5" := by
        rw [← basename_single hsingle, ← hleft]
        rfl
      have hnew : file'.1 = ascii "7" := by
        rcases hpasted with ⟨left', heq, hsingle'⟩
        rw [hvalue] at heq
        rw [snprintfPath_eq (by decide)] at heq
        have hseven : ascii "7" = left' := (List.cons_eq_cons.1 (List.append_cancel_left heq)).2
        rw [← basename_single hsingle', ← hseven]
        rfl
      exact apart_transientFs (.inr (hold ▸ rfl)) (.inl (hnew ▸ rfl))
  have hrooted : transientDirs.Rooted folderEnv := by
    intro mdir hmdir
    rw [List.mem_singleton.1 hmdir]
    exact ⟨ascii "root", rfl⟩
  have hfits : folderEnv.Fits := by
    unfold DirsEnv.Fits
    decide
  exact (folderPatch_changes folderEnv transientDirs ⟨0, ascii "/m/root", none⟩ .add folderPatchHeader folderAnswers
    (by decide) hfits hrooted ⟨_, htop⟩ hlinks ⟨fun _ _ => ⟨hname, hids⟩, nofun⟩).1

end Scambio
