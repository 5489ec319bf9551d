import Scambio.Commons.CString
import Scambio.Lib.Error
import Scambio.Library.FileTree

/-!
# Path — paths as the system reads them, and `Mkdir` (`commons/misc.c`)

A path is cut at its slashes; an empty part and `.` stay where they are.  `DiskTree` is a tree whose contents and
links are strings, `FileSys` a tree with the entries that calls have created, replaced, renamed or removed.
-/

namespace Scambio

open Library

/-- What a directory can hold an entry under. -/
def IsFileName (part : Bytes) : Prop :=
  part ≠ [] ∧ part ≠ ascii "." ∧ part ≠ ascii ".." ∧ (47 : UInt8) ∉ part

instance decidableIsFileName (part : Bytes) : Decidable (IsFileName part) :=
  inferInstanceAs (Decidable (_ ∧ _ ∧ _ ∧ _))

abbrev FileName := { part : Bytes // IsFileName part }

abbrev DiskTree := FileTree FileName Bytes Bytes

def stepOf (part : Bytes) : Step FileName :=
  if h : IsFileName part then .down ⟨part, h⟩ else if part = ascii ".." then .up else .stay

def pathSteps (path : Bytes) : List (Step FileName) :=
  (path.splitOn 47).map stepOf

theorem pathSteps_append (path rest : Bytes) : pathSteps (path ++ 47 :: rest) = pathSteps path ++ pathSteps rest := by
  rw [pathSteps, List.splitOn_append_cons_self, List.map_append]
  rfl

def isAbsolute (path : Bytes) : Bool :=
  path.head? == some 47

/-- What the system does of a link. -/
def followLink (target : Bytes) : Bool × List (Step FileName) :=
  (isAbsolute target, pathSteps target)

/-- Links followed in a path before `ELOOP`. -/
def MAXSYMLINKS : Nat := 40

/-- The directory a path starts from. -/
def pathStart (cwd : List FileName) (path : Bytes) : List FileName :=
  if isAbsolute path then [] else cwd

def fsErrno : FsErr → Nat
  | .noent => 2
  | .exist => 17
  | .notdir => 20
  | .isdir => 21
  | .inval => 22
  | .nametoolong => 36
  | .notempty => 39
  | .loop => 40

/-! ## Calls on paths -/

structure FileSys where
  tree : DiskTree
  touched : List (List FileName)

/-- What a call says of its path before it follows it. -/
def pathError (path : Bytes) : Option FsErr :=
  if path = [] then some .noent else if PATH_MAX ≤ path.length then some .nametoolong else none

section Calls

variable (cwd : List FileName) (fs : FileSys)

/-- A call on the entry that a path names. -/
def sysCall (path : Bytes)
    (call : List FileName → List (Step FileName) → Except FsErr (DiskTree × List FileName)) : Except FsErr FileSys :=
  match pathError path with
  | some e => .error e
  | none =>
      match call (pathStart cwd path) (pathSteps path) with
      | .error e => .error e
      | .ok (tree, p) => .ok ⟨tree, p :: fs.touched⟩

def sysMkdir (path : Bytes) : Except FsErr FileSys :=
  sysCall cwd fs path (fs.tree.mkdir followLink MAXSYMLINKS)

def sysUnlink (path : Bytes) : Except FsErr FileSys :=
  sysCall cwd fs path (fs.tree.unlink followLink MAXSYMLINKS)

/-- `link` to a file of this content. -/
def sysLink (content path : Bytes) : Except FsErr FileSys :=
  sysCall cwd fs path fun cur => fs.tree.link followLink MAXSYMLINKS cur (.file content)

def sysSymlink (target path : Bytes) : Except FsErr FileSys :=
  sysCall cwd fs path fun cur => fs.tree.link followLink MAXSYMLINKS cur (.link target)

/-- `creat`, and the write of this content. -/
def sysCreat (content path : Bytes) : Except FsErr FileSys :=
  sysCall cwd fs path fun cur => fs.tree.creat followLink MAXSYMLINKS cur content

def sysRename (oldPath newPath : Bytes) : Except FsErr FileSys :=
  match pathError oldPath, pathError newPath with
  | some e, _ => .error e
  | _, some e => .error e
  | none, none =>
      match fs.tree.rename followLink MAXSYMLINKS (pathStart cwd oldPath) (pathStart cwd newPath) (pathSteps oldPath)
          (pathSteps newPath) with
      | .error e => .error e
      | .ok (tree, p, q) => .ok ⟨tree, p :: q :: fs.touched⟩

def sysReadlink (path : Bytes) : Except FsErr Bytes :=
  match pathError path with
  | some e => .error e
  | none => fs.tree.readlink followLink MAXSYMLINKS (pathStart cwd path) (pathSteps path)

/-- The node that a path leads to. -/
def sysStat (path : Bytes) : Except FsErr (List FileName) :=
  match pathError path with
  | some e => .error e
  | none => fs.tree.resolve followLink MAXSYMLINKS (pathStart cwd path) (pathSteps path)

end Calls

/-! ## `Mkdir` -/

/-- The beginnings of a path that end before a slash, once `done` is read. -/
def slashPrefixes : Bytes → Bytes → List Bytes
  | _, [] => []
  | done, c :: rest =>
      if c = 47 then done :: slashPrefixes (done ++ [c]) rest else slashPrefixes (done ++ [c]) rest

/-- `Mkdir_single` on each path in turn. -/
def mkdirSingles (cwd : List FileName) : FileSys → List Bytes → FileSys × Option Err
  | fs, [] => (fs, none)
  | fs, path :: paths =>
      match sysMkdir cwd fs path with
      | .ok fs => mkdirSingles cwd fs paths
      | .error .exist => mkdirSingles cwd fs paths
      | .error e => (fs, some (.push (fsErrno e) (ascii "mkdir '" ++ path ++ ascii "'")))

/-- `Mkdir` -/
def mkdirPath (cwd : List FileName) (fs : FileSys) (path : Bytes) : FileSys × Option Err :=
  match snprintfPath path with
  | [] => (fs, some (.push EINVAL (ascii "Cannot mkdir empty path")))
  | c :: rest => mkdirSingles cwd fs (slashPrefixes [c] rest ++ [c :: rest])

/-- What stands before the last slash. -/
def dirname (path : Bytes) : Option Bytes :=
  if (47 : UInt8) ∈ path then some ((path.reverse.dropWhile (· != 47)).drop 1).reverse else none

/-- `Mkdir_for_file` -/
def mkdirForFile (cwd : List FileName) (fs : FileSys) (path : Bytes) : FileSys × Option Err :=
  match dirname path with
  | none => (fs, none)
  | some dir => mkdirPath cwd fs dir

/-! ## Parts behind a path -/

/-- Each part behind a slash. -/
def slashed (parts : List Bytes) : Bytes :=
  parts.flatMap (47 :: ·)

theorem slashed_cons (part : Bytes) (parts : List Bytes) : slashed (part :: parts) = 47 :: part ++ slashed parts := rfl

theorem slashed_concat (parts : List Bytes) (part : Bytes) : slashed (parts ++ [part]) = slashed parts ++ 47 :: part := by
  simp [slashed]

theorem pathSteps_part {part : Bytes} (h : (47 : UInt8) ∉ part) : pathSteps part = [stepOf part] := by
  rw [pathSteps, List.splitOn_eq_singleton h, List.map_singleton]

theorem pathSteps_slashed (path : Bytes) {parts : List Bytes} (h : ∀ part ∈ parts, (47 : UInt8) ∉ part) :
    pathSteps (path ++ slashed parts) = pathSteps path ++ parts.map stepOf := by
  induction parts generalizing path with
  | nil => simp [slashed]
  | cons part parts ih =>
      have hsplit : path ++ slashed (part :: parts) = (path ++ 47 :: part) ++ slashed parts := by
        rw [slashed_cons, List.append_assoc]
      rw [hsplit, ih _ fun p hp => h p (List.mem_cons_of_mem part hp), pathSteps_append,
        pathSteps_part (h part List.mem_cons_self), List.append_assoc]
      rfl

theorem sum_length_splitOn (x : UInt8) (path : Bytes) : ((path.splitOn x).map List.length).sum ≤ path.length := by
  induction path with
  | nil => simp
  | cons c path ih =>
      rw [List.splitOn_cons_eq_if_modifyHead, List.length_cons]
      split
      · rw [List.map_cons, List.sum_cons, List.length_nil]
        omega
      · cases hparts : path.splitOn x with
        | nil => exact absurd hparts (List.splitOn_ne_nil x path)
        | cons part parts =>
            rw [hparts, List.map_cons, List.sum_cons] at ih
            rw [List.modifyHead_cons, List.map_cons, List.sum_cons, List.length_cons]
            omega

/-- The names in a path are not longer, together, than the path. -/
theorem sum_length_downs (path : Bytes) :
    ((FileTree.downs (pathSteps path)).map fun name => name.val.length).sum ≤ path.length := by
  have hparts : ∀ parts : List Bytes,
      ((FileTree.downs (parts.map stepOf)).map fun name => name.val.length).sum ≤ (parts.map List.length).sum := by
    intro parts
    induction parts with
    | nil => exact le_rfl
    | cons part parts ih =>
        rw [List.map_cons, List.map_cons, List.sum_cons]
        unfold stepOf
        split
        · rw [FileTree.downs, List.map_cons, List.sum_cons]
          exact Nat.add_le_add_left ih _
        · split
          · exact ih.trans (Nat.le_add_left _ _)
          · exact ih.trans (Nat.le_add_left _ _)
  exact (hparts _).trans (sum_length_splitOn 47 path)

theorem length_downs_le (path : Bytes) : (FileTree.downs (pathSteps path)).length ≤ path.length := by
  have hsum := sum_length_downs path
  have hcount : ∀ names : List FileName, names.length ≤ (names.map fun name => name.val.length).sum := by
    intro names
    induction names with
    | nil => exact le_rfl
    | cons name names ih =>
        have hpos := List.length_pos_of_ne_nil name.2.1
        rw [List.map_cons, List.sum_cons, List.length_cons]
        omega
  exact (hcount _).trans hsum

theorem length_of_mem_downs {path : Bytes} {name : FileName} (h : name ∈ FileTree.downs (pathSteps path)) :
    name.val.length ≤ path.length := by
  have hsum := sum_length_downs path
  rcases List.append_of_mem h with ⟨before, after, heq⟩
  rw [heq, List.map_append, List.map_cons, List.sum_append_nat, List.sum_cons] at hsum
  omega

/-- The beginning of a path is made of beginnings of its parts. -/
theorem slashed_prefix {Q : Bytes → Prop} (hQ : ∀ {part start}, Q part → start <+: part → Q start)
    {parts : List Bytes} {path : Bytes} (hparts : ∀ part ∈ parts, Q part) (h : path <+: slashed parts) :
    ∃ parts', path = slashed parts' ∧ ∀ part ∈ parts', Q part := by
  induction parts generalizing path with
  | nil => exact ⟨[], List.prefix_nil.1 h, nofun⟩
  | cons part parts ih =>
      rw [slashed_cons] at h
      cases path with
      | nil => exact ⟨[], rfl, nofun⟩
      | cons c path =>
          rcases List.cons_prefix_cons.1 h with ⟨rfl, hrest⟩
          have hpart : Q part := hparts part List.mem_cons_self
          rcases hrest with ⟨after, heq⟩
          rcases List.append_eq_append_iff.1 heq with ⟨more, hmore, -⟩ | ⟨path', rfl, hlong⟩
          · refine ⟨[path], by simp [slashed], ?_⟩
            rw [List.forall_mem_singleton]
            exact hQ hpart ⟨more, hmore.symm⟩
          · rcases ih (fun p hp => hparts p (List.mem_cons_of_mem part hp)) ⟨after, hlong.symm⟩ with
              ⟨parts', rfl, hparts'⟩
            exact ⟨part :: parts', rfl, List.forall_mem_cons.2 ⟨hpart, hparts'⟩⟩

/-! ## What calls touch -/

/-- Where a path heads for. -/
def heading (cwd : List FileName) (fs : FileSys) (path : Bytes) : Option (List FileName) :=
  fs.tree.headsFor followLink MAXSYMLINKS (pathStart cwd path) (pathSteps path)

/-- The entry that a path heads for. -/
def entry (cwd : List FileName) (fs : FileSys) (path : Bytes) : Option (List FileName) :=
  fs.tree.entryFor followLink MAXSYMLINKS (pathStart cwd path) (pathSteps path)

theorem pathStart_append {cwd : List FileName} {path rest : Bytes} (hne : path ≠ []) :
    pathStart cwd (path ++ rest) = pathStart cwd path := by
  cases path with
  | nil => exact absurd rfl hne
  | cons c path => rfl

theorem pathSteps_ne_nil {path : Bytes} : pathSteps path ≠ [] := by
  intro hnil
  exact List.splitOn_ne_nil 47 path (List.map_eq_nil_iff.1 hnil)

/-- From `fs` to `fs'` the entries `new` are touched, and nothing else changes. -/
structure FileSys.Touches (new : List (List FileName)) (fs fs' : FileSys) : Prop where
  touched : fs'.touched = new ++ fs.touched
  tree : fs.tree.Within (· ∈ new) fs'.tree

/-- From `fs` to `fs'` only entries of `P` are touched. -/
def FileSys.Within (P : List FileName → Prop) (fs fs' : FileSys) : Prop :=
  ∃ new, fs.Touches new fs' ∧ ∀ p ∈ new, P p

/-- What is known of the links in `P`: there are none, unless `P` is everything. -/
def FileSys.Clear (P : List FileName → Prop) (fs : FileSys) : Prop :=
  (∀ p, P p) ∨ fs.tree.NoLinks P

/-- A file that is made, renamed or removed at this path is in `P`: a directory is in its way otherwise. -/
def FileSys.Harmless (P : List FileName → Prop) (cwd : List FileName) (fs : FileSys) (path : Bytes) : Prop :=
  ∀ p ∈ entry cwd fs path, fs.tree.get p = some .dir ∨ P p

/-- A directory that is made at this path is in `P`: a directory or a link is there otherwise. -/
def FileSys.HarmlessDir (P : List FileName → Prop) (cwd : List FileName) (fs : FileSys) (path : Bytes) : Prop :=
  ∀ p ∈ entry cwd fs path, fs.tree.get p = some .dir ∨ fs.tree.linkAt p ≠ none ∨ P p

instance decidableHarmless (P : List FileName → Prop) [DecidablePred P] (cwd : List FileName) (fs : FileSys)
    (path : Bytes) : Decidable (fs.Harmless P cwd path) :=
  inferInstanceAs (Decidable (∀ p ∈ entry cwd fs path, _ ∨ _))

instance decidableHarmlessDir (P : List FileName → Prop) [DecidablePred P] (cwd : List FileName) (fs : FileSys)
    (path : Bytes) : Decidable (fs.HarmlessDir P cwd path) :=
  inferInstanceAs (Decidable (∀ p ∈ entry cwd fs path, _ ∨ _ ∨ _))

namespace FileSys

variable {P Q : List FileName → Prop} {fs fs' fs'' : FileSys}

theorem Touches.trans {new new' : List (List FileName)} (h : fs.Touches new fs') (h' : fs'.Touches new' fs'') :
    fs.Touches (new' ++ new) fs'' where
  touched := by rw [h'.touched, h.touched, List.append_assoc]
  tree := (h.tree.mono fun _ hq => List.mem_append_right new' hq).trans
    (h'.tree.mono fun _ hq => List.mem_append_left new hq)

theorem Within.refl (P : List FileName → Prop) (fs : FileSys) : fs.Within P fs :=
  ⟨[], ⟨rfl, .refl _ _⟩, nofun⟩

theorem Within.trans (h : fs.Within P fs') (h' : fs'.Within P fs'') : fs.Within P fs'' := by
  rcases h with ⟨new, htouch, hnew⟩
  rcases h' with ⟨new', htouch', hnew'⟩
  refine ⟨new' ++ new, htouch.trans htouch', ?_⟩
  intro p hp
  exact (List.mem_append.1 hp).elim (hnew' p) (hnew p)

theorem Within.mono (h : fs.Within P fs') (hPQ : ∀ p, P p → Q p) : fs.Within Q fs' := by
  rcases h with ⟨new, htouch, hnew⟩
  exact ⟨new, htouch, fun p hp => hPQ p (hnew p hp)⟩

/-- What happens on the way is known from what happens on the whole. -/
theorem Within.split (h : fs.Within P fs') (h' : fs'.Within P fs'') (hall : fs.Within Q fs'') :
    fs.Within Q fs' ∧ fs'.Within Q fs'' := by
  rcases h with ⟨new, htouch, -⟩
  rcases h' with ⟨new', htouch', -⟩
  rcases hall with ⟨all, htouchAll, hQ⟩
  have heq : all = new' ++ new :=
    List.append_cancel_right (htouchAll.touched.symm.trans (htouch.trans htouch').touched)
  rw [heq] at hQ
  exact ⟨⟨new, htouch, fun p hp => hQ p (List.mem_append_right new' hp)⟩,
    new', htouch', fun p hp => hQ p (List.mem_append_left new hp)⟩

theorem Within.tree (h : fs.Within P fs') : fs.tree.Within P fs'.tree := by
  rcases h with ⟨new, htouch, hnew⟩
  exact htouch.tree.mono hnew

theorem Clear.keeps (h : fs.Clear P) (hw : fs.Within P fs') : fs'.Clear P :=
  h.imp id hw.tree.noLinks

theorem clear_anywhere : fs.Clear fun _ => True :=
  .inl fun _ => trivial

section Harmless

variable {cwd : List FileName} {path : Bytes}

/-- Paths lead to the same entries while no link changes. -/
theorem Within.entry_eq (hw : fs.Within P fs') (hlinks : fs.tree.NoLinks P) : entry cwd fs' path = entry cwd fs path :=
  FileTree.entryFor_congr (hw.tree.linkAt_eq hlinks) _ _ _

theorem Harmless.mono (h : fs.Harmless P cwd path) (hw : fs.Within P fs') (hclear : fs.Clear P) :
    fs'.Harmless P cwd path := by
  intro p hp
  rcases hclear with hall | hlinks
  · exact .inr (hall p)
  · rw [hw.entry_eq hlinks] at hp
    exact (h p hp).imp (hw.tree.dirs p) id

theorem HarmlessDir.mono (h : fs.HarmlessDir P cwd path) (hw : fs.Within P fs') (hclear : fs.Clear P) :
    fs'.HarmlessDir P cwd path := by
  intro p hp
  rcases hclear with hall | hlinks
  · exact .inr (.inr (hall p))
  · rw [hw.entry_eq hlinks] at hp
    rw [hw.tree.linkAt_eq hlinks]
    exact (h p hp).imp (hw.tree.dirs p) id

theorem HarmlessDir.back (h : fs'.HarmlessDir P cwd path) (hw : fs.Within P fs') (hlinks : fs.tree.NoLinks P) :
    fs.HarmlessDir P cwd path := by
  intro p hp
  rw [← hw.entry_eq hlinks] at hp
  by_cases hP : P p
  · exact .inr (.inr hP)
  · rw [← hw.tree.outside p hP, ← hw.tree.linkAt_eq hlinks]
    exact h p hp

theorem Harmless.back (h : fs'.Harmless P cwd path) (hw : fs.Within P fs') (hlinks : fs.tree.NoLinks P) :
    fs.Harmless P cwd path := by
  intro p hp
  rw [← hw.entry_eq hlinks] at hp
  by_cases hP : P p
  · exact .inr hP
  · rw [← hw.tree.outside p hP]
    exact h p hp

end Harmless

end FileSys

section Calls

variable {P : List FileName → Prop} {cwd : List FileName} {fs fs' : FileSys} {path : Bytes}

theorem sysCall_ok {call : List FileName → List (Step FileName) → Except FsErr (DiskTree × List FileName)}
    (h : sysCall cwd fs path call = .ok fs') :
    pathError path = none ∧
      ∃ tree p, call (pathStart cwd path) (pathSteps path) = .ok (tree, p) ∧ fs' = ⟨tree, p :: fs.touched⟩ := by
  unfold sysCall at h
  split at h
  · cases h
  next hpath =>
    split at h
    · cases h
    next tree p hok =>
      cases h
      exact ⟨hpath, tree, p, hok, rfl⟩

theorem touches_of_sets {tree : DiskTree} {p : List FileName} (h : fs.tree.Sets p tree) :
    fs.Touches [p] ⟨tree, p :: fs.touched⟩ :=
  ⟨rfl, .of_sets h (List.mem_singleton_self p)⟩

theorem within_of_sets {tree : DiskTree} {p : List FileName} (h : fs.tree.Sets p tree) (hP : P p) :
    fs.Within P ⟨tree, p :: fs.touched⟩ :=
  ⟨[p], touches_of_sets h, List.forall_mem_singleton.2 hP⟩

theorem entry_of_place {p : List FileName}
    (h : fs.tree.place followLink MAXSYMLINKS (pathStart cwd path) (pathSteps path) = .ok p) :
    p ∈ entry cwd fs path :=
  FileTree.entryFor_of_place h

theorem sysMkdir_within (hsafe : fs.HarmlessDir P cwd path) (h : sysMkdir cwd fs path = .ok fs') : fs.Within P fs' := by
  rcases sysCall_ok h with ⟨-, tree, p, hok, rfl⟩
  rcases FileTree.mkdir_sets hok with ⟨hplace, hnone, hsets⟩
  apply within_of_sets hsets
  have hlink : fs.tree.linkAt p = none := by rw [FileTree.linkAt, hnone]
  exact ((hsafe p (entry_of_place hplace)).resolve_left hsets.noDir).resolve_left (not_not.2 hlink)

theorem sysUnlink_within (hsafe : fs.Harmless P cwd path) (h : sysUnlink cwd fs path = .ok fs') : fs.Within P fs' := by
  rcases sysCall_ok h with ⟨-, tree, p, hok, rfl⟩
  rcases FileTree.unlink_sets hok with ⟨hplace, -, hsets⟩
  exact within_of_sets hsets ((hsafe p (entry_of_place hplace)).resolve_left hsets.noDir)

/-- An entry stays, or is removed. -/
theorem sysUnlink_get (p : List FileName) (h : sysUnlink cwd fs path = .ok fs') :
    fs'.tree.get p = fs.tree.get p ∨ fs'.tree.get p = none := by
  rcases sysCall_ok h with ⟨-, tree, q, hok, rfl⟩
  rcases FileTree.unlink_sets hok with ⟨-, rfl, -⟩
  exact (FileTree.get_set_or q p none).imp id And.right

/-- Nothing was there that a file could be linked to, or that a file could be written through. -/
theorem sysUnlink_noent {p : List FileName} (h : sysUnlink cwd fs path = .error .noent) (hpath : pathError path = none)
    (hplace : fs.tree.place followLink MAXSYMLINKS (pathStart cwd path) (pathSteps path) = .ok p) :
    fs.tree.get p = none := by
  cases hget : fs.tree.get p with
  | none => rfl
  | some n =>
      cases n <;> simp [sysUnlink, sysCall, FileTree.unlink, hpath, hplace, hget] at h

theorem sysLink_within {content : Bytes} (hsafe : fs.Harmless P cwd path) (h : sysLink cwd fs content path = .ok fs') :
    fs.Within P fs' := by
  rcases sysCall_ok h with ⟨-, tree, p, hok, rfl⟩
  rcases FileTree.link_sets (by rintro _ h; cases h) hok with ⟨hplace, hnone, hsets⟩
  exact within_of_sets hsets ((hsafe p (entry_of_place hplace)).resolve_left hsets.noDir)

theorem sysCreat_within {content : Bytes} (hclear : fs.Clear P) (hsafe : fs.Harmless P cwd path)
    (h : sysCreat cwd fs content path = .ok fs') : fs.Within P fs' := by
  rcases sysCall_ok h with ⟨-, tree, p, hok, rfl⟩
  rcases FileTree.creat_sets hok with ⟨r, hplace, hr, hsets⟩
  apply within_of_sets hsets
  rcases hclear with hall | hlinks
  · exact hall p
  · rcases hr with rfl | hlink
    · exact (hsafe p (entry_of_place hplace)).resolve_left hsets.noDir
    · -- a link at the entry is no directory, and none is in `P`
      rcases hsafe r (entry_of_place hplace) with hdir | hP
      · exact absurd (FileTree.linkAt_of_dir hdir) hlink
      · exact absurd (hlinks r hP) hlink

theorem sysRename_within {newPath : Bytes}
    (hfile : ∀ p ∈ entry cwd fs path, fs.tree.get p ≠ some .dir ∧ fs.tree.linkAt p = none ∧ P p)
    (hnew : ∀ p ∈ entry cwd fs newPath, P p) (h : sysRename cwd fs path newPath = .ok fs') : fs.Within P fs' := by
  unfold sysRename at h
  split at h
  · cases h
  · cases h
  · split at h
    · cases h
    next tree p q hok =>
      cases h
      rcases FileTree.rename_sets (fun r hr => ⟨(hfile r (entry_of_place hr)).1, (hfile r (entry_of_place hr)).2.1⟩) hok
        with ⟨hp, hq, hsets⟩
      refine ⟨[p, q], ⟨rfl, ?_⟩, ?_⟩
      · rcases hsets with rfl | ⟨m, hm, hm'⟩
        · exact .refl _ _
        · have hfirst := FileTree.Within.of_sets hm (List.mem_cons_self (l := [q]))
          exact hfirst.trans (.of_sets hm' (List.mem_cons_of_mem _ (List.mem_singleton_self _)))
      · intro r hr
        rcases List.mem_pair.1 hr with rfl | rfl
        · exact (hfile r (entry_of_place hp)).2.2
        · exact hnew r (entry_of_place hq)

theorem sysStat_ok {p : List FileName} (h : sysStat cwd fs path = .ok p) :
    fs.tree.resolve followLink MAXSYMLINKS (pathStart cwd path) (pathSteps path) = .ok p ∧ path ≠ [] ∧
      path.length < PATH_MAX := by
  unfold sysStat at h
  split at h
  · cases h
  next hpath =>
    unfold pathError at hpath
    split at hpath
    · cases hpath
    next hne =>
      split at hpath
      · cases hpath
      next hlt => exact ⟨h, hne, Nat.not_le.1 hlt⟩

theorem sysStat_heading {p : List FileName} (h : sysStat cwd fs path = .ok p) : heading cwd fs path = some p :=
  FileTree.headsFor_of_resolve (sysStat_ok h).1

/-- What a path goes through is a directory, or a link to one. -/
theorem sysStat_through {p : List FileName} {start rest : Bytes} (hne : start ≠ [])
    (h : sysStat cwd fs (start ++ 47 :: rest) = .ok p) : fs.HarmlessDir P cwd start := by
  have hresolve := (sysStat_ok h).1
  rw [pathSteps_append, pathStart_append hne] at hresolve
  rcases FileTree.resolve_through pathSteps_ne_nil hresolve with ⟨q, hq, hdir⟩
  intro p hp
  exact (FileTree.entry_of_resolve hq hdir hp).imp id .inl

@[inherit_doc sysStat_through]
theorem place_through {p : List FileName} {start rest : Bytes} (hne : start ≠ [])
    (h : fs.tree.place followLink MAXSYMLINKS (pathStart cwd (start ++ 47 :: rest)) (pathSteps (start ++ 47 :: rest)) =
      .ok p) : fs.HarmlessDir P cwd start := by
  rw [pathSteps_append, pathStart_append hne] at h
  rcases FileTree.place_through pathSteps_ne_nil h with ⟨q, hq, hdir⟩
  intro p hp
  exact (FileTree.entry_of_resolve hq hdir hp).imp id .inl

theorem mem_slashPrefixes {start rest p : Bytes} (h : p ∈ slashPrefixes start rest) :
    ∃ r, start ++ rest = p ++ 47 :: r ∧ start <+: p := by
  induction rest generalizing start with
  | nil => cases h
  | cons c rest ih =>
      have hlater : p ∈ slashPrefixes (start ++ [c]) rest → ∃ r, start ++ c :: rest = p ++ 47 :: r ∧ start <+: p := by
        intro hp
        rcases ih hp with ⟨r, heq, hpre⟩
        exact ⟨r, by rw [← heq, List.append_assoc]; rfl, (List.prefix_append _ _).trans hpre⟩
      unfold slashPrefixes at h
      split at h
      next hc =>
        rcases List.mem_cons.1 h with rfl | hp
        · exact ⟨rest, by rw [hc], List.prefix_rfl⟩
        · exact hlater hp
      · exact hlater h

theorem mkdirSingles_within (hclear : fs.Clear P) {paths : List Bytes}
    (hsafe : ∀ p ∈ paths, fs.HarmlessDir P cwd p) : fs.Within P (mkdirSingles cwd fs paths).1 := by
  induction paths generalizing fs with
  | nil => exact .refl P fs
  | cons path paths ih =>
      have hrest := fun p hp => hsafe p (List.mem_cons_of_mem path hp)
      unfold mkdirSingles
      split
      next fs' hok =>
        have hw := sysMkdir_within (hsafe path List.mem_cons_self) hok
        exact hw.trans (ih (hclear.keeps hw) fun p hp => (hrest p hp).mono hw hclear)
      · exact ih hclear hrest
      · exact .refl P fs

theorem dirname_eq {dir : Bytes} (h : dirname path = some dir) : ∃ base, path = dir ++ 47 :: base := by
  unfold dirname at h
  split at h
  next hmem =>
    rcases List.eq_append_cons_of_mem (List.mem_reverse.2 hmem) with ⟨base, dir', heq, hbase⟩
    have hbase' : ∀ c ∈ base, (c != 47) = true := by
      intro c hc
      rw [bne_iff_ne]
      rintro rfl
      exact hbase hc
    rw [heq, List.dropWhile_append_of_pos hbase'] at h
    cases h
    refine ⟨base.reverse, ?_⟩
    rw [← List.reverse_reverse path, heq]
    simp
  · cases h

/-- The directories that `Mkdir_for_file` makes are those that the path goes through. -/
theorem mkdirForFile_within (hclear : fs.Clear P) (hlen : path.length < PATH_MAX)
    (hsafe : ∀ p r, path = p ++ 47 :: r → p ≠ [] → fs.HarmlessDir P cwd p) :
    fs.Within P (mkdirForFile cwd fs path).1 := by
  unfold mkdirForFile
  split
  · exact .refl P fs
  next dir hdir =>
    rcases dirname_eq hdir with ⟨base, hbase⟩
    have hcut : snprintfPath dir = dir := by
      apply List.take_of_length_le
      rw [hbase, List.length_append, List.length_cons] at hlen
      omega
    unfold mkdirPath
    rw [hcut]
    split
    · exact .refl P fs
    next c rest =>
      apply mkdirSingles_within hclear
      intro p hp
      rcases List.mem_append.1 hp with hp | hp
      · rcases mem_slashPrefixes hp with ⟨r, heq, hpre⟩
        refine hsafe p (r ++ 47 :: base) ?_ ?_
        · rw [hbase, ← List.singleton_append, heq, List.append_assoc, List.cons_append]
        · rintro rfl
          exact absurd (List.prefix_nil.1 hpre) (List.cons_ne_nil c [])
      · rw [List.mem_singleton.1 hp]
        exact hsafe _ base hbase (List.cons_ne_nil c rest)

end Calls

end Scambio
