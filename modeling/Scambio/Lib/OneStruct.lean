import Mathlib.Data.List.Nodup
import Scambio.Lib.FolderChanges

/-!
# OneStruct — one struct for each directory (`lib/mdir.c`)

A struct is found by comparing ids.  When a folder gets its definitive id, `lookup_rename` looks the directory up
after the old path became a link to the new one, so that the struct of the old path is not the one that is found.

* `DirsCall`, `Dirs.run`       : what a client calls, one after the other;
* `Dirs.FineRun`               : no id arrives for a folder that has a struct, and ids are names of directories;
* `Dirs.oneStruct_of_fineRun`  : then there is one struct for each directory, and lookups give it;
* `Dirs.not_oneStruct_renamed` : a folder that gets its id while it has a struct.
-/

namespace Scambio

open Library

/-- What a client calls. -/
inductive DirsCall
  | lookup (name : Bytes)
  | lookupById (id : Bytes) (create : Bool)
  | request (ptr : Nat) (action : Action) (h : Header) (answers : MdirAnswers)
  | patch (ptr : Nat) (action : Action) (h : Header) (answers : MdirAnswers)

namespace Dirs

def call (env : DirsEnv) (d : Dirs) : DirsCall → Dirs
  | .lookup name => (mdirLookup env d name).1
  | .lookupById id create => (mdirLookupById env d id create).1
  | .request ptr action h answers => (mdirPatchRequest env d ptr action h answers).1
  | .patch ptr action h answers => (mdirPatch env d ptr action h answers).1

def run (env : DirsEnv) (d : Dirs) (calls : List DirsCall) : Dirs :=
  calls.foldl (call env) d

/-- The path that a name stands for: it is in the link, but for the root. -/
def namedPath (env : DirsEnv) (d : Dirs) (name : Bytes) : Option Bytes :=
  if name = ascii "/" then some (env.idPath SC_ROOT_ID)
  else (sysReadlink env.cwd d.fs (snprintfPath (env.mdirRoot ++ ascii "/root/" ++ name))).toOption

/-- No two structs stand for one directory. -/
def OneStruct (env : DirsEnv) (d : Dirs) : Prop :=
  ∀ m ∈ d.mdirs, ∀ m' ∈ d.mdirs, ∀ p, sysStat env.cwd d.fs m.path = .ok p → sysStat env.cwd d.fs m'.path = .ok p → m = m'

/-- The struct at `ptr` is what a lookup gives, if it stands for the directory that the name leads to. -/
def FoundAgain (env : DirsEnv) (d : Dirs) (ptr : Nat) (name : Bytes) : Prop :=
  ∀ path p, namedPath env d name = some path → sysStat env.cwd d.fs path = .ok p →
    sysStat env.cwd d.fs (d.path ptr) = .ok p → ∃ m, (mdirLookup env d name).2 = .ok m ∧ m.ptr = ptr

/-! ## The condition -/

section Fine

variable (env : DirsEnv) (top : List FileName)

/-- An id is the name of an entry of `mdir_root`, and not that of a link which is left there. -/
def PlainId (fs : FileSys) (id : Bytes) : Prop :=
  ∃ file : FileName, file.val = id ∧ (env.mdirRoot ++ 47 :: id).length < PATH_MAX ∧ fs.tree.linkAt (top ++ [file]) = none

/-- What is asked of the folder that `mdir_link` mounts. -/
structure FineLink (d : Dirs) (parentPath : Bytes) (h : Header) (transient : Bool) : Prop where
  given : ∀ hf, headerFind h SC_DIRID_FIELD = some hf → PlainId env top d.fs hf.value
  drawn : headerFind h SC_DIRID_FIELD = none →
    PlainId env top d.fs (nextId d transient) ∧ mdirFind env d (nextId d transient) = none
  /-- There is no struct for the transient directory that gets its id. -/
  renamed : ∀ hf prevLink, headerFind h SC_DIRID_FIELD = some hf → transient = false →
    sysReadlink env.cwd d.fs (linkPath parentPath (linkName h).2) = .ok prevLink → basename prevLink ≠ hf.value →
      (basename prevLink).head? = some 95 →
        ∃ file : FileName, prevLink = env.mdirRoot ++ 47 :: file.val ∧ d.fs.tree.get (top ++ [file]) = some .dir ∧
          mdirFind env d file.val = none

/-- A link holds the path of an id. -/
def FineName (d : Dirs) (name : Bytes) : Prop :=
  ∀ path, namedPath env d name = some path → ∃ id, path = env.mdirRoot ++ 47 :: id ∧ PlainId env top d.fs id

def FineCall (d : Dirs) : DirsCall → Prop
  | .lookup name => FineName env top d name
  | .lookupById id _ => PlainId env top d.fs id
  | .request ptr action h _ => action = .add → headerIsDirectory h = true → FineLink env top d (d.path ptr) h true
  | .patch ptr action h _ => action = .add → headerIsDirectory h = true → FineLink env top d (d.path ptr) h false

/-- All calls are fine, and `mdir_root` leads to `top` all the time. -/
def FineRun : Dirs → List DirsCall → Prop
  | d, [] => DirAt env.cwd d.fs env.mdirRoot top
  | d, c :: calls => DirAt env.cwd d.fs env.mdirRoot top ∧ FineCall env top d c ∧ FineRun (call env d c) calls

end Fine

/-! ## Directories stay -/

/-- What is a directory still is one. -/
def KeepsDirs (fs fs' : FileSys) : Prop :=
  ∀ p, fs.tree.get p = some .dir → fs'.tree.get p = some .dir

section KeepsDirs

variable {cwd : List FileName} {fs fs' fs'' : FileSys} {path : Bytes}

theorem KeepsDirs.refl (fs : FileSys) : KeepsDirs fs fs :=
  fun _ hp => hp

theorem KeepsDirs.trans (h : KeepsDirs fs fs') (h' : KeepsDirs fs' fs'') : KeepsDirs fs fs'' :=
  fun p hp => h' p (h p hp)

theorem keepsDirs_set {p : List FileName} (hp : fs.tree.get p ≠ some .dir) (o : Option (Node Bytes Bytes))
    (touched : List (List FileName)) : KeepsDirs fs ⟨fs.tree.set p o, touched⟩ := by
  intro q hq
  have hne : q ≠ p := by
    rintro rfl
    exact hp hq
  exact (FileTree.get_set_of_ne hne o).trans hq

theorem keepsDirs_symlink {target : Bytes} (h : sysSymlink cwd fs target path = .ok fs') : KeepsDirs fs fs' := by
  rcases sysSymlink_ok h with ⟨p, -, hnone, rfl⟩
  exact keepsDirs_set (hnone ▸ nofun) _ _

theorem keepsDirs_unlink (h : sysUnlink cwd fs path = .ok fs') : KeepsDirs fs fs' := by
  rcases sysUnlink_ok h with ⟨p, -, hnodir, -, rfl⟩
  exact keepsDirs_set hnodir _ _

theorem keepsDirs_creat {content : Bytes} (h : sysCreat cwd fs content path = .ok fs') : KeepsDirs fs fs' := by
  rcases sysCall_ok h with ⟨-, tree, p, hok, rfl⟩
  rcases FileTree.creat_sets hok with ⟨-, -, -, hsets⟩
  rcases hsets.eq_set with ⟨o, rfl, -⟩
  exact keepsDirs_set hsets.noDir o _

end KeepsDirs

/-! ## An entry of a directory -/

theorem stat_entry {cwd : List FileName} {fs : FileSys} {start : Bytes} {dir p : List FileName} {file : FileName}
    (hdir : DirAt cwd fs start dir) (hlink : fs.tree.linkAt (dir ++ [file]) = none)
    (h : sysStat cwd fs (start ++ 47 :: file.val) = .ok p) : p = dir ++ [file] := by
  have hhead := sysStat_heading h
  have hsteps : pathSteps (start ++ 47 :: file.val) = pathSteps start ++ [.down file] := by
    rw [pathSteps_append, pathSteps_part file.2.2.2.2, stepOf, dif_pos file.2]
  have harrived : fs.tree.heads dir [.down file] = .arrived (dir ++ [file]) := by
    rw [FileTree.heads, hlink]
    rfl
  rw [heading, hsteps, pathStart_append hdir.start_ne,
    FileTree.headsFor_append (sysStat_heading hdir.stat) harrived] at hhead
  exact (Option.some.inj hhead).symm

theorem dirAt_of_extends {cwd : List FileName} {fs fs' : FileSys} {path : Bytes} {dir : List FileName}
    (h : DirAt cwd fs path dir) (hext : fs.tree.Extends fs'.tree) : DirAt cwd fs' path dir := by
  rcases sysStat_ok h.stat with ⟨hres, hne, hlen⟩
  refine ⟨?_, ?_⟩
  · rw [sysStat, pathError_eq_none.2 ⟨hne, hlen⟩]
    exact hext.resolve hres
  · have hthere := h.isDir.trans_ne (Option.some_ne_none _)
    rw [hext dir hthere, h.isDir]

theorem mdirId_idPath (env : DirsEnv) (id : Bytes) : mdirId env (env.mdirRoot ++ 47 :: id) = id := by
  have hsplit : env.mdirRoot ++ 47 :: id = (env.mdirRoot ++ [47]) ++ id := by simp
  rw [mdirId, hsplit, List.drop_left' (by simp)]

/-! ## The invariant -/

/-- Each struct is for a directory of `mdir_root` that is no link, and no two for the same. -/
structure Kept (env : DirsEnv) (top : List FileName) (d : Dirs) : Prop where
  cached : ∀ m ∈ d.mdirs, ∃ file : FileName, m.path = env.mdirRoot ++ 47 :: file.val ∧
    d.fs.tree.get (top ++ [file]) = some .dir
  distinct : (d.mdirs.map CachedMdir.path).Nodup

variable {env : DirsEnv} {top : List FileName} {d : Dirs}

theorem Kept.rooted (h : Kept env top d) : d.Rooted env := by
  intro m hm
  rcases h.cached m hm with ⟨file, hpath, -⟩
  exact ⟨file.val, by rw [hpath, List.append_assoc]; rfl⟩

theorem Kept.eq_of_path (h : Kept env top d) {m m' : CachedMdir} (hm : m ∈ d.mdirs) (hm' : m' ∈ d.mdirs)
    (hpath : m.path = m'.path) : m = m' :=
  List.inj_on_of_nodup_map h.distinct hm hm' hpath

/-- The file system changes, but not the directories of the structs. -/
theorem Kept.write (h : Kept env top d) {fs : FileSys}
    (hdirs : ∀ m ∈ d.mdirs, ∀ file : FileName, m.path = env.mdirRoot ++ 47 :: file.val →
      d.fs.tree.get (top ++ [file]) = some .dir → fs.tree.get (top ++ [file]) = some .dir) :
    Kept env top { d with fs := fs } := by
  refine ⟨?_, h.distinct⟩
  intro m hm
  rcases h.cached m hm with ⟨file, hpath, hdir⟩
  exact ⟨file, hpath, hdirs m hm file hpath hdir⟩

theorem Kept.keeps (h : Kept env top d) {fs : FileSys} (hkeeps : KeepsDirs d.fs fs) :
    Kept env top { d with fs := fs } :=
  h.write fun _ _ _ _ hdir => hkeeps _ hdir

theorem Kept.insert (h : Kept env top d) {file : FileName} (hdir : d.fs.tree.get (top ++ [file]) = some .dir)
    (hfresh : ∀ m ∈ d.mdirs, mdirId env m.path ≠ file.val) (permissions : Option Header) :
    Kept env top (d.insert (env.mdirRoot ++ 47 :: file.val) permissions) := by
  constructor
  · intro m hm
    rcases List.mem_cons.1 hm with rfl | hm
    · exact ⟨file, rfl, hdir⟩
    · exact h.cached m hm
  · have hnotin : env.mdirRoot ++ 47 :: file.val ∉ d.mdirs.map CachedMdir.path := by
      intro hmem
      rcases List.mem_map.1 hmem with ⟨m, hm, hpath⟩
      exact hfresh m hm (by rw [hpath, mdirId_idPath])
    exact List.nodup_cons.2 ⟨hnotin, h.distinct⟩

theorem Kept.onFs (h : Kept env top d) {r : Except FsErr FileSys} (hr : ∀ fs, r = .ok fs → KeepsDirs d.fs fs)
    (what : Bytes) : Kept env top (d.onFs r what).1 := by
  rcases onFs_cases d r what with ⟨e, -, heq⟩ | ⟨fs, hok, heq⟩
  · rw [heq]
    exact h
  · rw [heq]
    exact h.keeps (hr fs hok)

theorem Kept.andThen {α β : Type} {r : DirsResult α} {next : Dirs → α → DirsResult β} (h : Kept env top r.1)
    (hnext : ∀ v, r.2 = .ok v → Kept env top (next r.1 v).1) : Kept env top (r.andThen next).1 := by
  rcases andThen_cases r next with ⟨e, -, heq⟩ | ⟨v, hv, heq⟩
  · rw [heq]
    exact h
  · rw [heq]
    exact hnext v hv

/-! ## Lookups -/

/-- A struct is made for a directory that has none. -/
theorem Kept.mdirNew {file : FileName} {create : Bool}
    (h : Kept env top { d with fs := madeFor env d file.val create })
    (hlen : (env.mdirRoot ++ 47 :: file.val).length < PATH_MAX)
    (hfresh : ∀ m ∈ d.mdirs, mdirId env m.path ≠ file.val)
    (hdir : ∀ dir, DirAt env.cwd (madeFor env d file.val create) (env.mdirRoot ++ 47 :: file.val) dir →
      (madeFor env d file.val create).tree.get (top ++ [file]) = some .dir) :
    Kept env top (Dirs.mdirNew env d file.val create).1 := by
  have hpath : env.idPath file.val = env.mdirRoot ++ 47 :: file.val := snprintfPath_eq hlen
  rcases mdirNew_cases env d file.val create with ⟨e, heq⟩ | ⟨dir, permissions, hat, heq⟩
  · rw [heq]
    exact h
  · rw [hpath] at hat heq
    rw [heq]
    exact h.insert (hdir dir hat) hfresh permissions

/-- At most the directory is made. -/
theorem extends_madeFor (htop : DirAt env.cwd d.fs env.mdirRoot top) {file : FileName}
    (hlen : (env.mdirRoot ++ 47 :: file.val).length < PATH_MAX) (create : Bool) :
    d.fs.tree.Extends (madeFor env d file.val create).tree ∧
      (d.fs.tree.linkAt (top ++ [file]) = none → (madeFor env d file.val create).tree.linkAt (top ++ [file]) = none) := by
  have hpath : env.idPath file.val = env.mdirRoot ++ 47 :: file.val := snprintfPath_eq hlen
  cases create with
  | false => exact ⟨fun _ _ => rfl, id⟩
  | true =>
      rw [madeFor, if_pos rfl, hpath]
      -- it was there, or what is made is no link
      rcases mkdirPath_single htop hlen (single_file file) with heq | ⟨hnone, heq⟩
      · rw [heq]
        exact ⟨fun _ _ => rfl, id⟩
      · rw [heq]
        refine ⟨FileTree.extends_set hnone _, fun hlink => ?_⟩
        rw [Option.eq_none_iff_forall_ne_some]
        intro target htarget
        rw [FileTree.linkAt_eq_some] at htarget
        rcases FileTree.get_set_or (top ++ [file]) (top ++ [file]) (some .dir) with hsame | ⟨-, hset⟩
        · rw [hsame, hnone] at htarget
          cases htarget
        · rw [hset] at htarget
          cases htarget

theorem Kept.mdirNew_plain (h : Kept env top d) (htop : DirAt env.cwd d.fs env.mdirRoot top) {id : Bytes}
    (hid : PlainId env top d.fs id) (hfresh : ∀ m ∈ d.mdirs, mdirId env m.path ≠ id) (create : Bool) :
    Kept env top (Dirs.mdirNew env d id create).1 := by
  rcases hid with ⟨file, rfl, hlen, hlink⟩
  rcases extends_madeFor htop hlen create with ⟨hext, hnolink⟩
  have hkeeps : KeepsDirs d.fs (madeFor env d file.val create) := fun p hp => (hext p (hp ▸ nofun)).trans hp
  refine Kept.mdirNew (h.keeps hkeeps) hlen hfresh ?_
  intro dir hat
  have hdir := stat_entry (dirAt_of_extends htop hext) (hnolink hlink) hat.stat
  exact hdir ▸ hat.isDir

theorem Kept.mdirLookupById (h : Kept env top d) (htop : DirAt env.cwd d.fs env.mdirRoot top) {id : Bytes}
    (hid : PlainId env top d.fs id) (create : Bool) : Kept env top (Dirs.mdirLookupById env d id create).1 := by
  rcases mdirLookupById_cases env d id create with ⟨m, -, -, heq⟩ | ⟨hfresh, heq⟩
  · rw [heq]
    exact h
  · rw [heq]
    exact h.mdirNew_plain htop hid hfresh create

/-- A name that leads nowhere is an error. -/
theorem mdirLookup_unnamed {name : Bytes} (h : namedPath env d name = none) :
    ∃ e, Dirs.mdirLookup env d name = (d, .error e) := by
  unfold namedPath at h
  split at h
  · cases h
  next hname =>
    unfold Dirs.mdirLookup lookupAbs
    rw [if_neg hname]
    split
    · exact ⟨_, rfl⟩
    next slink hslink =>
      rw [hslink] at h
      cases h

/-- A name that leads to the path of an id is looked up by that id. -/
theorem mdirLookup_named (hfits : env.Fits) {fs : FileSys} {name id : Bytes} (hid : PlainId env top fs id)
    (h : namedPath env d name = some (env.mdirRoot ++ 47 :: id)) :
    Dirs.mdirLookup env d name = Dirs.mdirLookupById env d id false := by
  rcases hid with ⟨file, rfl, hlen, -⟩
  unfold namedPath at h
  split at h
  next hname =>
    have hroot : env.idPath SC_ROOT_ID = env.mdirRoot ++ 47 :: SC_ROOT_ID := by
      apply snprintfPath_eq
      have hfour : SC_ROOT_ID.length = 4 := rfl
      unfold DirsEnv.Fits at hfits
      rw [List.length_append, List.length_cons]
      omega
    rw [hroot, Option.some.injEq, List.append_cancel_left_eq, List.cons.injEq] at h
    rw [Dirs.mdirLookup, if_pos hname, h.2]
  next hname =>
    have hpos := List.length_pos_of_ne_nil file.2.1
    have hread : sysReadlink env.cwd d.fs (snprintfPath (env.mdirRoot ++ ascii "/root/" ++ name)) =
        .ok (env.mdirRoot ++ 47 :: file.val) := by
      cases hlink : sysReadlink env.cwd d.fs (snprintfPath (env.mdirRoot ++ ascii "/root/" ++ name)) with
      | error e =>
          rw [hlink] at h
          cases h
      | ok slink =>
          rw [hlink] at h
          exact congrArg Except.ok (Option.some.inj h)
    have hgood : ¬ ((env.mdirRoot ++ 47 :: file.val).length = 0 ∨ PATH_MAX ≤ (env.mdirRoot ++ 47 :: file.val).length ∨
        (env.mdirRoot ++ 47 :: file.val).length ≤ env.mdirRoot.length + 1) := by
      rw [List.length_append, List.length_cons] at hlen ⊢
      omega
    rw [Dirs.mdirLookup, if_neg hname, lookupAbs, hread]
    simp only [if_neg hgood, mdirId_idPath]

theorem Kept.mdirLookup (hfits : env.Fits) (h : Kept env top d) (htop : DirAt env.cwd d.fs env.mdirRoot top)
    {name : Bytes} (hname : FineName env top d name) : Kept env top (Dirs.mdirLookup env d name).1 := by
  cases hpath : namedPath env d name with
  | none =>
      rcases mdirLookup_unnamed hpath with ⟨e, heq⟩
      rw [heq]
      exact h
  | some path =>
      rcases hname path hpath with ⟨id, rfl, hid⟩
      rw [mdirLookup_named hfits hid hpath]
      exact h.mdirLookupById htop hid false

/-! ## Links -/

/-- A directory without a struct gets another name, and the directories of the structs stay. -/
theorem Kept.rename (h : Kept env top d) (htop : DirAt env.cwd d.fs env.mdirRoot top) {file new : FileName}
    (hdir : d.fs.tree.get (top ++ [file]) = some .dir) (hnone : mdirFind env d file.val = none)
    (hlen : (env.mdirRoot ++ 47 :: new.val).length < PATH_MAX) {fs : FileSys}
    (hok : sysRename env.cwd d.fs (env.mdirRoot ++ 47 :: file.val) (env.mdirRoot ++ 47 :: new.val) = .ok fs) :
    Kept env top { d with fs := fs } ∧ fs.tree.get (top ++ [new]) = some .dir := by
  rcases sysRename_ok hok with ⟨p, q, hp, hq, hmoves, -⟩
  have hlen' := (pathError_eq_none.1 (sysPlace_ok hp).1).2
  rcases (sysPlace_single htop.start_ne hlen' (single_file file)).1 hp with ⟨dir, hat, rfl⟩
  cases hat.unique htop
  rcases (sysPlace_single htop.start_ne hlen (single_file new)).1 hq with ⟨dir, hat', rfl⟩
  cases hat'.unique htop
  have hmoved : fs.tree.get (top ++ [new]) = some .dir := by
    have hto := hmoves.moved []
    rwa [List.append_nil, List.append_nil, hdir] at hto
  refine ⟨h.write ?_, hmoved⟩
  intro m hm file' hm' hdir'
  -- the directory that moves is not the one of a struct
  have hne : file' ≠ file := by
    rintro rfl
    refine List.find?_eq_none.1 hnone m hm ?_
    rw [hm', mdirId_idPath]
    exact beq_self_eq_true _
  by_cases hnew : file' = new
  · rw [hnew]
    exact hmoved
  · have hnot : ∀ name : FileName, name ≠ file' → ¬ top ++ [name] <+: top ++ [file'] := by
      intro name hname hpre
      rw [List.prefix_append_right_inj, List.cons_prefix_cons] at hpre
      exact hname hpre.1
    rw [hmoves.elsewhere _ (hnot file hne.symm) (hnot new (Ne.symm hnew))]
    exact hdir'

/-- A directory without a struct gets its id. -/
theorem Kept.lookupRename (hfits : env.Fits) (h : Kept env top d) (htop : DirAt env.cwd d.fs env.mdirRoot top)
    {file : FileName} {id : Bytes} (hdir : d.fs.tree.get (top ++ [file]) = some .dir)
    (hnone : mdirFind env d file.val = none) (hid : PlainId env top d.fs id) :
    Kept env top (Dirs.lookupRename env d (env.mdirRoot ++ 47 :: file.val) (env.idPath id)).1 := by
  rcases hid with ⟨new, rfl, hlen, -⟩
  have hpath : env.idPath new.val = env.mdirRoot ++ 47 :: new.val := snprintfPath_eq hlen
  have hrenamed : ∀ fs, sysRename env.cwd d.fs (env.mdirRoot ++ 47 :: file.val) (env.idPath new.val) = .ok fs →
      Kept env top { d with fs := fs } ∧ fs.tree.get (top ++ [new]) = some .dir :=
    fun fs hok => h.rename htop hdir hnone hlen (hpath ▸ hok)
  -- it fails before the rename, at the symlink or after it
  rcases lookupRename_cases hfits h.rooted (env.mdirRoot ++ 47 :: file.val) new.val with
    ⟨e, heq⟩ | ⟨fs, hok, ⟨e, heq⟩ | ⟨fs', hok', ⟨e, heq⟩ | heq⟩⟩
  · rw [heq]
    exact h
  · rw [heq]
    exact (hrenamed fs hok).1
  · rw [heq]
    exact (hrenamed fs hok).1.keeps (keepsDirs_symlink hok')
  · -- the directory is looked up under its new id
    have hkept : Kept env top { d with fs := fs' } := (hrenamed fs hok).1.keeps (keepsDirs_symlink hok')
    have hnew : fs'.tree.get (top ++ [new]) = some .dir := keepsDirs_symlink hok' _ (hrenamed fs hok).2
    rw [heq, hpath, mdirId_idPath]
    rcases mdirLookupById_cases env { d with fs := fs' } new.val false with ⟨m, -, -, heq'⟩ | ⟨hfresh, heq'⟩
    · rw [heq']
      exact hkept
    · rw [heq']
      exact @Kept.mdirNew env top { d with fs := fs' } new false hkept hlen hfresh fun _ _ => hnew

theorem Kept.linkTo (h : Kept env top d) (childPath path : Bytes) :
    Kept env top (Dirs.linkTo env d childPath path).1 :=
  h.onFs (fun _ hok => keepsDirs_symlink hok) _

theorem kept_relink (path dirId : Bytes) {prevLink : Bytes}
    (hrenamed : Kept env top (Dirs.lookupRename env d prevLink (env.idPath dirId)).1) :
    Kept env top (Dirs.relink env d prevLink path dirId).1 := by
  unfold Dirs.relink
  have hunlinked := hrenamed.onFs (r := sysUnlink env.cwd (Dirs.lookupRename env d prevLink (env.idPath dirId)).1.fs path)
    (fun _ hok => keepsDirs_unlink hok) (ascii "Cannot remove previous symlink " ++ path)
  apply Kept.andThen hunlinked
  intro _ _
  split
  · exact hunlinked
  · exact hunlinked.linkTo _ _

theorem Kept.mdirLink (hfits : env.Fits) (h : Kept env top d) (htop : DirAt env.cwd d.fs env.mdirRoot top)
    {parentPath : Bytes} {header : Header} {transient : Bool} (hfine : FineLink env top d parentPath header transient) :
    Kept env top (Dirs.mdirLink env d parentPath header transient).1 := by
  unfold Dirs.mdirLink
  simp only [headerFind_linkName_dirId]
  split
  next hf hfind =>
    unfold Dirs.linkToId
    -- there is no link yet, or readlink fails, or the link is for another directory
    split
    · have hlookup := h.mdirLookupById htop (hfine.given hf hfind) true
      apply Kept.andThen hlookup
      intro _ _
      exact hlookup.linkTo _ _
    · exact h
    next prevLink hread =>
      simp only
      split
      · exact h
      next hother =>
        split
        · exact h
        next hfinal =>
          split
          · exact h
          next hhead =>
            rcases hfine.renamed hf prevLink hfind (Bool.eq_false_iff.2 hfinal) hread hother (not_not.1 hhead) with
              ⟨file, rfl, hdir, hnone⟩
            exact kept_relink _ _ (h.lookupRename hfits htop hdir hnone (hfine.given hf hfind))
  next hfind =>
    -- an id is drawn
    rcases hfine.drawn hfind with ⟨hid, hnone⟩
    have hfresh : ∀ m ∈ d.mdirs, mdirId env m.path ≠ nextId d transient := fun m hm heq =>
      List.find?_eq_none.1 hnone m hm (beq_iff_eq.2 heq.symm)
    have hcreated : Kept env top (mdirCreate env d transient).1 := by
      rw [(mdirCreate_cases env d transient).1]
      have hnext : Kept env top { d with dirIdSeq := d.dirIdSeq + 1 } := ⟨h.cached, h.distinct⟩
      exact hnext.mdirNew_plain htop hid hfresh true
    split
    · exact hcreated
    · exact hcreated.linkTo _ _

theorem Kept.unlinkFile (h : Kept env top d) (path what : Bytes) :
    Kept env top (Dirs.unlinkFile env d path what).1 := by
  unfold Dirs.unlinkFile
  split
  · exact h
  · exact h.onFs (fun _ hok => keepsDirs_unlink hok) _

theorem Kept.mdirUnlink (h : Kept env top d) (parentPath : Bytes) (header : Header) :
    Kept env top (Dirs.mdirUnlink env d parentPath header).1 := by
  unfold Dirs.mdirUnlink
  split
  · exact h
  next hf _ =>
    have hfirst := h.unlinkFile (linkPath parentPath hf.value) (ascii "unlink " ++ linkPath parentPath hf.value)
    apply Kept.andThen hfirst
    intro _ _
    exact hfirst.unlinkFile _ _

/-! ## Patches -/

theorem Kept.mdirPrepare (hfits : env.Fits) (h : Kept env top d) (htop : DirAt env.cwd d.fs env.mdirRoot top)
    {parentPath : Bytes} {action : Action} {header : Header} {transient : Bool}
    (hfine : action = .add → headerIsDirectory header = true → FineLink env top d parentPath header transient)
    (answers : MdirAnswers) : Kept env top (Dirs.mdirPrepare env d parentPath action header answers transient).1 := by
  cases action with
  | add =>
      unfold Dirs.mdirPrepare
      simp only
      split
      next hdir => exact h.mdirLink hfits htop (hfine rfl hdir)
      · exact h
  | rem =>
      unfold Dirs.mdirPrepare mdirPrepareRem
      simp only
      split
      · exact h
      · exact h
      · exact h
      next target _ =>
        have hunlinked : Kept env top
            (if headerIsDirectory target then Dirs.mdirUnlink env d parentPath target else (d, .ok ())).1 := by
          split
          · exact h.mdirUnlink _ _
          · exact h
        apply Kept.andThen hunlinked
        intro _ _
        cases transient with
        | true => exact hunlinked
        | false => exact hunlinked

theorem mdirRecord_cases (env : DirsEnv) (d : Dirs) (ptr : Nat) (action : Action) (header : Header)
    (answers : MdirAnswers) :
    (Dirs.mdirRecord env d ptr action header answers).1 = d ∨
      (∃ version, (Dirs.mdirRecord env d ptr action header answers).1 =
        (confirmLink env d (d.path ptr) header version answers).1) ∨
      (Dirs.mdirRecord env d ptr action header answers).1 = updatePermissions d ptr header answers.permsSaved := by
  have hthen : ∀ (r : DirsResult Unit) (version : Int),
      (r.andThen fun d _ => (d, answers.marks.map fun _ => version)).1 = r.1 := by
    intro r version
    rcases andThen_cases r fun d _ => (d, answers.marks.map fun _ => version) with ⟨e, -, heq⟩ | ⟨v, -, heq⟩
    · rw [heq]
    · rw [heq]
  unfold Dirs.mdirRecord
  split
  · exact .inl rfl
  next version _ =>
    rw [hthen]
    cases action with
    | rem => exact .inl rfl
    | add =>
        simp only
        unfold mdirConfirmAdd
        split
        · exact .inr (.inl ⟨version, rfl⟩)
        · split
          · exact .inr (.inr rfl)
          · exact .inl rfl

theorem confirmLink_cases (env : DirsEnv) (d : Dirs) (parentPath : Bytes) (header : Header) (version : Int)
    (answers : MdirAnswers) :
    ∃ fs, KeepsDirs d.fs fs ∧ (confirmLink env d parentPath header version answers).1 = { d with fs := fs } := by
  have hcreat : ∀ text path what, ∃ fs, KeepsDirs d.fs fs ∧
      (d.onFs (sysCreat env.cwd d.fs text path) what).1 = { d with fs := fs } := by
    intro text path what
    rcases onFs_cases d (sysCreat env.cwd d.fs text path) what with ⟨e, -, heq⟩ | ⟨fs, hok, heq⟩
    · exact ⟨d.fs, .refl _, congrArg Prod.fst heq⟩
    · exact ⟨fs, keepsDirs_creat hok, congrArg Prod.fst heq⟩
  unfold confirmLink
  split
  · exact ⟨d.fs, .refl _, rfl⟩
  next hf _ =>
    simp only
    split
    · exact hcreat _ _ _
    next errno done _ =>
      -- an error comes after the file is there
      rcases andThen_cases (d.onFs (sysCreat env.cwd d.fs ((mdirVersion2str version).take done)
        (versionOfPath parentPath hf.value)) (ascii "creat(" ++ versionOfPath parentPath hf.value ++ ascii ")"))
        (fun d _ => (d, .error (.push errno (ascii "Cannot write " ++
          decimal ((mdirVersion2str version).length - done) ++ ascii " bytes")))) with ⟨e, -, heq⟩ | ⟨v, -, heq⟩
      · rw [heq]
        exact hcreat _ _ _
      · rw [heq]
        exact hcreat _ _ _

/-- Only the permissions of a struct are written. -/
theorem map_updatePermissions {β : Type} {f : CachedMdir → β}
    (hf : ∀ m permissions, f ⟨m.ptr, m.path, permissions⟩ = f m) (d : Dirs) (ptr : Nat) (header : Header) (saved : Bool) :
    (updatePermissions d ptr header saved).mdirs.map f = d.mdirs.map f := by
  rw [updatePermissions, Dirs.update, List.map_map]
  apply List.map_congr_left
  intro m _
  rw [Function.comp]
  split
  · exact hf m _
  · rfl

theorem Kept.mdirRecord (h : Kept env top d) (ptr : Nat) (action : Action) (header : Header) (answers : MdirAnswers) :
    Kept env top (Dirs.mdirRecord env d ptr action header answers).1 := by
  rcases mdirRecord_cases env d ptr action header answers with heq | ⟨version, heq⟩ | heq
  · rw [heq]
    exact h
  · rcases confirmLink_cases env d (d.path ptr) header version answers with ⟨fs, hkeeps, heq'⟩
    rw [heq, heq']
    exact h.keeps hkeeps
  · rw [heq]
    have hpaths := map_updatePermissions (f := CachedMdir.path) (fun _ _ => rfl) d ptr header answers.permsSaved
    refine ⟨?_, hpaths.symm ▸ h.distinct⟩
    intro m hm
    have hmem := List.mem_map_of_mem (f := CachedMdir.path) hm
    rw [hpaths] at hmem
    rcases List.mem_map.1 hmem with ⟨m', hm', hpath⟩
    exact hpath ▸ h.cached m' hm'

/-! ## Runs -/

theorem Kept.call (hfits : env.Fits) (h : Kept env top d) (htop : DirAt env.cwd d.fs env.mdirRoot top) {c : DirsCall}
    (hfine : FineCall env top d c) : Kept env top (Dirs.call env d c) := by
  cases c with
  | lookup name => exact h.mdirLookup hfits htop hfine
  | lookupById id create => exact h.mdirLookupById htop hfine create
  | request ptr action header answers =>
      -- the structs are those that `mdir_prepare` leaves, whatever comes after it
      have hprepared := h.mdirPrepare hfits htop hfine answers
      unfold Dirs.call mdirPatchRequest
      simp only
      split
      · exact h
      · split
        · exact hprepared
        · exact hprepared
  | patch ptr action header answers =>
      have hprepared := h.mdirPrepare hfits htop hfine answers
      unfold Dirs.call mdirPatch
      simp only
      split
      · exact h
      · split
        · exact hprepared
        · exact hprepared.mdirRecord _ _ _ _

theorem FineRun.dirAt {calls : List DirsCall} (h : FineRun env top d calls) : DirAt env.cwd d.fs env.mdirRoot top := by
  cases calls with
  | nil => exact h
  | cons c calls => exact h.1

theorem FineRun.split {before after : List DirsCall} :
    FineRun env top d (before ++ after) → FineRun env top d before ∧ FineRun env top (run env d before) after := by
  induction before generalizing d with
  | nil => exact fun h => ⟨h.dirAt, h⟩
  | cons c before ih =>
      rintro ⟨htop, hfine, hrest⟩
      exact ⟨⟨htop, hfine, (ih hrest).1⟩, (ih hrest).2⟩

theorem Kept.run (hfits : env.Fits) (h : Kept env top d) {calls : List DirsCall} (hfine : FineRun env top d calls) :
    Kept env top (Dirs.run env d calls) := by
  induction calls generalizing d with
  | nil => exact h
  | cons c calls ih =>
      rcases hfine with ⟨htop, hcall, hrest⟩
      exact ih (h.call hfits htop hcall) hrest

/-- A pointer to a struct still is one. -/
theorem ptrs_mdirRecord (d : Dirs) (ptr : Nat) (action : Action) (header : Header) (answers : MdirAnswers) :
    (Dirs.mdirRecord env d ptr action header answers).1.mdirs.map CachedMdir.ptr = d.mdirs.map CachedMdir.ptr := by
  rcases mdirRecord_cases env d ptr action header answers with heq | ⟨version, heq⟩ | heq
  · rw [heq]
  · rcases confirmLink_cases env d (d.path ptr) header version answers with ⟨fs, -, heq'⟩
    rw [heq, heq']
  · rw [heq]
    exact map_updatePermissions (f := CachedMdir.ptr) (fun _ _ => rfl) d ptr header answers.permsSaved

theorem ptrs_call (hfits : env.Fits) (h : d.Rooted env) (c : DirsCall) :
    d.mdirs.map CachedMdir.ptr ⊆ (call env d c).mdirs.map CachedMdir.ptr := by
  have hgrows : ∀ d' : Dirs, Grows env d d' → d.mdirs.map CachedMdir.ptr ⊆ d'.mdirs.map CachedMdir.ptr :=
    fun _ hg => List.map_subset _ hg.older.subset
  cases c with
  | lookup name => exact hgrows _ (grows_mdirLookup hfits h name)
  | lookupById id create => exact hgrows _ (grows_mdirLookupById hfits h id create)
  | request ptr action header answers => exact hgrows _ (grows_mdirPatchRequest hfits h ptr action header answers)
  | patch ptr action header answers =>
      have hprepared := hgrows _ (grows_mdirPrepare hfits h (d.path ptr) action header answers false)
      unfold call mdirPatch
      simp only
      split
      · exact List.Subset.refl _
      · split
        · exact hprepared
        · rw [ptrs_mdirRecord]
          exact hprepared

theorem ptrs_run (hfits : env.Fits) (h : Kept env top d) {calls : List DirsCall} (hfine : FineRun env top d calls) :
    d.mdirs.map CachedMdir.ptr ⊆ (run env d calls).mdirs.map CachedMdir.ptr := by
  induction calls generalizing d with
  | nil => exact List.Subset.refl _
  | cons c calls ih =>
      rcases hfine with ⟨htop, hcall, hrest⟩
      exact List.Subset.trans (ptrs_call hfits h.rooted c) (ih (h.call hfits htop hcall) hrest)

/-! ## One struct for each directory -/

theorem Kept.stat (h : Kept env top d) (htop : DirAt env.cwd d.fs env.mdirRoot top) {m : CachedMdir} (hm : m ∈ d.mdirs)
    {p : List FileName} (hstat : sysStat env.cwd d.fs m.path = .ok p) :
    ∃ file : FileName, m.path = env.mdirRoot ++ 47 :: file.val ∧ p = top ++ [file] := by
  rcases h.cached m hm with ⟨file, hpath, hdir⟩
  rw [hpath] at hstat
  exact ⟨file, hpath, stat_entry htop (FileTree.linkAt_of_dir hdir) hstat⟩

theorem Kept.oneStruct (h : Kept env top d) (htop : DirAt env.cwd d.fs env.mdirRoot top) : OneStruct env d := by
  intro m hm m' hm' p hp hp'
  rcases h.stat htop hm hp with ⟨file, hpath, rfl⟩
  rcases h.stat htop hm' hp' with ⟨file', hpath', heq⟩
  have hfile : file = file' := by simpa using heq
  exact h.eq_of_path hm hm' (by rw [hpath, hpath', hfile])

theorem Kept.foundAgain (hfits : env.Fits) (h : Kept env top d) (htop : DirAt env.cwd d.fs env.mdirRoot top)
    {m : CachedMdir} (hm : m ∈ d.mdirs) {name : Bytes} (hname : FineName env top d name) :
    FoundAgain env d m.ptr name := by
  intro path p hpath hp hstat
  rcases hname path hpath with ⟨id, rfl, hid⟩
  rw [mdirLookup_named hfits hid hpath]
  rcases hid with ⟨file, rfl, -, hlink⟩
  rw [path_of_mem hm] at hstat
  -- the directory has one name in mdir_root
  rcases h.stat htop hm hstat with ⟨file', hpath', rfl⟩
  have hfile : file' = file := by simpa using stat_entry htop hlink hp
  rw [hfile] at hpath'
  rcases mdirLookupById_cases env d file.val false with ⟨m', hm', hid, heq⟩ | ⟨hfresh, -⟩
  · rw [heq]
    have hsame : m' = m := by
      apply h.eq_of_path hm' hm
      rw [hpath', path_of_mdirId (h.rooted m' hm'), hid]
    exact ⟨m', rfl, congrArg CachedMdir.ptr hsame⟩
  · exact absurd (by rw [hpath', mdirId_idPath]) (hfresh m hm)

/-- In a client that starts, as long as the calls are fine: no two structs stand for one directory, and a struct that
was made is what a later lookup gives. -/
theorem oneStruct_of_fineRun (env : DirsEnv) (hfits : env.Fits) (top : List FileName) (d : Dirs) (hstart : d.mdirs = [])
    (calls : List DirsCall) (hfine : FineRun env top d calls) :
    OneStruct env (run env d calls) ∧
      ∀ before after name, calls = before ++ after ++ [.lookup name] → ∀ m ∈ (run env d before).mdirs,
        FoundAgain env (run env d (before ++ after)) m.ptr name := by
  have hkept : Kept env top d := by
    constructor
    · rw [hstart]
      exact fun m hm => absurd hm List.not_mem_nil
    · rw [hstart]
      exact List.nodup_nil
  constructor
  · have hend := @FineRun.split env top d calls [] ((List.append_nil calls).symm ▸ hfine)
    exact (hkept.run hfits hfine).oneStruct hend.2
  · rintro before after name rfl m hm
    rcases FineRun.split hfine with ⟨hrun, htop, hname, -⟩
    rcases FineRun.split hrun with ⟨hbefore, hafter⟩
    have hend : run env d (before ++ after) = run env (run env d before) after := List.foldl_append
    have hptr := ptrs_run hfits (hkept.run hfits hbefore) hafter (List.mem_map_of_mem hm)
    rw [← hend] at hptr
    rcases List.mem_map.1 hptr with ⟨m', hm', heq⟩
    rw [← heq]
    exact (hkept.run hfits hrun).foundAgain hfits htop hm' hname

/-! ## A folder that gets its id -/

/-- A client that starts when the folder `a` is transient still. -/
def newClient : Dirs where
  fs := transientFs
  mdirs := []
  nextPtr := 0
  dirIdSeq := 6
  ptrs := by simp

/-- The root is looked up, and the folder `a` gets its id. -/
def namingCalls : List DirsCall :=
  [.lookup (ascii "/"), .patch 0 .add folderPatchHeader folderAnswers]

/-- The same, while there is a struct for the folder. -/
def renamingCalls : List DirsCall :=
  [.lookup (ascii "/"), .lookup (ascii "a"), .patch 0 .add folderPatchHeader folderAnswers]

theorem oneStruct_of_fineRun_named : OneStruct folderEnv (run folderEnv newClient namingCalls) := by
  have hfits : folderEnv.Fits := by
    unfold DirsEnv.Fits
    decide
  have hroot : FineName folderEnv [mFile] newClient (ascii "/") := by
    intro path hpath
    have hfile : ascii "/m/root" = path := Option.some.inj hpath
    exact ⟨ascii "root", hfile.symm, rootFile, rfl, by decide, by decide⟩
  have hlink : FineLink folderEnv [mFile] (run folderEnv newClient [.lookup (ascii "/")]) (ascii "/m/root")
      folderPatchHeader false := by
    have hid : headerFind folderPatchHeader SC_DIRID_FIELD = some ⟨SC_DIRID_FIELD, ascii "7"⟩ := by decide
    constructor
    · intro hf hfind
      rw [hid, Option.some.injEq] at hfind
      rw [← hfind]
      exact ⟨⟨ascii "7", by decide⟩, rfl, by decide, by decide⟩
    · intro hnone
      rw [hid] at hnone
      cases hnone
    · intro hf prevLink _ _ hread _ _
      have hprev : ascii "/m/_5" = prevLink := Except.ok.inj hread
      exact ⟨transientFile, hprev.symm, by decide, by decide⟩
  have hrun : FineRun folderEnv [mFile] newClient namingCalls :=
    ⟨⟨by rfl, by decide⟩, hroot, ⟨by rfl, by decide⟩, fun _ _ => hlink, ⟨by rfl, by decide⟩⟩
  exact (oneStruct_of_fineRun folderEnv hfits [mFile] newClient rfl namingCalls hrun).1

/-- There are two structs for the directory in the end, and the old one is not what a lookup gives. -/
theorem not_oneStruct_renamed :
    ¬ OneStruct folderEnv (run folderEnv newClient renamingCalls) ∧
      ¬ FoundAgain folderEnv (run folderEnv newClient renamingCalls) 1 (ascii "a") := by
  constructor
  · intro hone
    have hstructs : (run folderEnv newClient renamingCalls).mdirs =
        [⟨2, ascii "/m/7", none⟩, ⟨1, ascii "/m/_5", none⟩, ⟨0, ascii "/m/root", none⟩] := by rfl
    have hsame := hone ⟨2, ascii "/m/7", none⟩ (by rw [hstructs]; simp) ⟨1, ascii "/m/_5", none⟩
      (by rw [hstructs]; simp) [mFile, ⟨ascii "7", by decide⟩] (by rfl) (by rfl)
    exact absurd (congrArg CachedMdir.ptr hsame) (by decide)
  · intro hfound
    rcases hfound (ascii "/m/7") [mFile, ⟨ascii "7", by decide⟩] (by rfl) (by rfl) (by rfl) with ⟨m, hm, hptr⟩
    have hnew : (Dirs.mdirLookup folderEnv (run folderEnv newClient renamingCalls) (ascii "a")).2 =
        .ok ⟨2, ascii "/m/7", none⟩ := by rfl
    rw [hnew, Except.ok.injEq] at hm
    rw [← hm] at hptr
    cases hptr

end Dirs

end Scambio
