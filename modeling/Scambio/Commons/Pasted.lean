import Scambio.Commons.Path

/-!
# Pasted — paths made of a directory, a slash and a text

What a call does at such a path is known from the directory alone when the text is the name of one file: its parts
before the last one are empty or `.`.
-/

namespace Scambio

open Library

/-- The text is the name of one file. -/
def Single (name : FileName) (text : Bytes) : Prop :=
  ∃ n, pathSteps text = List.replicate n .stay ++ [.down name]

/-- What a text leaves behind a directory, once the path is cut, is the name of one file. -/
def Pasted (start text : Bytes) (name : FileName) : Prop :=
  ∃ left, snprintfPath (start ++ 47 :: text) = start ++ 47 :: left ∧ Single name left

section Calls

variable (cwd : List FileName) (fs : FileSys)

/-- The entry that a path names. -/
def sysPlace (path : Bytes) : Except FsErr (List FileName) :=
  match pathError path with
  | some e => .error e
  | none => fs.tree.place followLink MAXSYMLINKS (pathStart cwd path) (pathSteps path)

/-- A path leads to a directory. -/
structure DirAt (path : Bytes) (dir : List FileName) : Prop where
  stat : sysStat cwd fs path = .ok dir
  isDir : fs.tree.get dir = some .dir

end Calls

variable {cwd : List FileName} {fs fs' : FileSys} {path start text : Bytes} {p dir : List FileName} {name : FileName}

theorem pathError_eq_none : pathError path = none ↔ path ≠ [] ∧ path.length < PATH_MAX := by
  unfold pathError
  split
  next hnil => exact ⟨nofun, fun h => absurd hnil h.1⟩
  next hne =>
    split
    next hlong => exact ⟨nofun, fun h => absurd h.2 (Nat.not_lt.2 hlong)⟩
    next hlong => exact ⟨fun _ => ⟨hne, Nat.lt_of_not_le hlong⟩, fun _ => rfl⟩

theorem length_snprintfPath (path : Bytes) : (snprintfPath path).length < PATH_MAX := by
  have hle := List.length_take_le (PATH_MAX - 1) path
  have hpos : 0 < PATH_MAX := by decide
  unfold snprintfPath
  omega

theorem snprintfPath_eq (h : path.length < PATH_MAX) : snprintfPath path = path :=
  List.take_of_length_le (Nat.le_sub_one_of_lt h)

theorem sysPlace_ok (h : sysPlace cwd fs path = .ok p) :
    pathError path = none ∧
      fs.tree.place followLink MAXSYMLINKS (pathStart cwd path) (pathSteps path) = .ok p := by
  unfold sysPlace at h
  split at h
  · cases h
  next hpath => exact ⟨hpath, h⟩

theorem sysPlace_of (hpath : pathError path = none)
    (h : fs.tree.place followLink MAXSYMLINKS (pathStart cwd path) (pathSteps path) = .ok p) :
    sysPlace cwd fs path = .ok p := by
  rw [sysPlace, hpath]
  exact h

theorem DirAt.start_ne (h : DirAt cwd fs start dir) : start ≠ [] :=
  (sysStat_ok h.stat).2.1

theorem single_file (file : FileName) : Single file file.1 := by
  refine ⟨0, ?_⟩
  rw [pathSteps_part file.2.2.2.2, stepOf, dif_pos file.2]
  rfl

theorem pasted_file (start : Bytes) (file : FileName) (h : (start ++ 47 :: file.1).length < PATH_MAX) :
    Pasted start file.1 file :=
  ⟨file.1, snprintfPath_eq h, single_file file⟩

/-- The entry behind a directory. -/
theorem sysPlace_single (hne : start ≠ []) (hlen : (start ++ 47 :: text).length < PATH_MAX) (h : Single name text) :
    sysPlace cwd fs (start ++ 47 :: text) = .ok p ↔ ∃ dir, DirAt cwd fs start dir ∧ p = dir ++ [name] := by
  rcases h with ⟨n, hn⟩
  have hstart : start.length < PATH_MAX := by
    rw [List.length_append] at hlen
    omega
  have hpath : pathError (start ++ 47 :: text) = none := pathError_eq_none.2 ⟨by simp, hlen⟩
  have hstat : ∀ dir, sysStat cwd fs start = .ok dir ↔
      fs.tree.resolve followLink MAXSYMLINKS (pathStart cwd start) (pathSteps start) = .ok dir := by
    intro dir
    rw [sysStat, pathError_eq_none.2 ⟨hne, hstart⟩]
  rw [sysPlace, hpath]
  simp only [pathSteps_append, pathStart_append hne, hn, FileTree.place_concat_iff]
  constructor
  · rintro ⟨dir, hres, hdir, rfl⟩
    exact ⟨dir, ⟨(hstat dir).2 hres, hdir⟩, rfl⟩
  · rintro ⟨dir, hdir, rfl⟩
    exact ⟨dir, (hstat dir).1 hdir.stat, hdir.isDir, rfl⟩

/-- The entry behind a directory, when the path is cut. -/
theorem sysPlace_pasted (hne : start ≠ []) (h : Pasted start text name) :
    sysPlace cwd fs (snprintfPath (start ++ 47 :: text)) = .ok p ↔ ∃ dir, DirAt cwd fs start dir ∧ p = dir ++ [name] := by
  rcases h with ⟨left, heq, hsingle⟩
  have hlen := length_snprintfPath (start ++ 47 :: text)
  rw [heq] at hlen ⊢
  exact sysPlace_single hne hlen hsingle

theorem DirAt.unique {dir' : List FileName} (h : DirAt cwd fs path dir) (h' : DirAt cwd fs path dir') : dir = dir' :=
  Except.ok.inj (h.stat.symm.trans h'.stat)

/-! ## Calls at an entry -/

theorem sysMkdir_ok (h : sysMkdir cwd fs path = .ok fs') :
    ∃ p, sysPlace cwd fs path = .ok p ∧ fs.tree.get p = none ∧
      fs' = ⟨fs.tree.set p (some .dir), p :: fs.touched⟩ := by
  rcases sysCall_ok h with ⟨hpath, tree, p, hok, rfl⟩
  unfold FileTree.mkdir at hok
  split at hok
  · cases hok
  · cases hok
  next hplace =>
    split at hok
    · cases hok
    next hnone =>
      cases hok
      exact ⟨p, sysPlace_of hpath hplace, hnone, rfl⟩

theorem sysUnlink_ok (h : sysUnlink cwd fs path = .ok fs') :
    ∃ p, sysPlace cwd fs path = .ok p ∧ fs.tree.get p ≠ some .dir ∧ fs.tree.get p ≠ none ∧
      fs' = ⟨fs.tree.set p none, p :: fs.touched⟩ := by
  rcases sysCall_ok h with ⟨hpath, tree, p, hok, rfl⟩
  rcases FileTree.unlink_sets hok with ⟨hplace, rfl, hsets⟩
  refine ⟨p, sysPlace_of hpath hplace, hsets.noDir, ?_, rfl⟩
  intro hnone
  unfold FileTree.unlink at hok
  rw [hplace] at hok
  simp only [hnone] at hok
  cases hok

theorem sysSymlink_ok {target : Bytes} (h : sysSymlink cwd fs target path = .ok fs') :
    ∃ p, sysPlace cwd fs path = .ok p ∧ fs.tree.get p = none ∧
      fs' = ⟨fs.tree.set p (some (.link target)), p :: fs.touched⟩ := by
  rcases sysCall_ok h with ⟨hpath, tree, p, hok, rfl⟩
  rcases FileTree.link_ok hok with ⟨hplace, hnone, rfl⟩
  exact ⟨p, sysPlace_of hpath hplace, hnone, rfl⟩

/-- The file is the entry itself when no link is there. -/
theorem sysCreat_ok {content : Bytes} (hlink : ∀ p, sysPlace cwd fs path = .ok p → fs.tree.linkAt p = none)
    (h : sysCreat cwd fs content path = .ok fs') :
    ∃ p, sysPlace cwd fs path = .ok p ∧ fs.tree.get p ≠ some .dir ∧
      fs' = ⟨fs.tree.set p (some (.file content)), p :: fs.touched⟩ := by
  rcases sysCall_ok h with ⟨hpath, tree, p, hok, rfl⟩
  unfold FileTree.creat at hok
  split at hok
  · cases hok
  next q hplace =>
    have hq := sysPlace_of hpath hplace
    split at hok
    · cases hok
    next htarget => exact absurd (FileTree.linkAt_eq_some.2 htarget) (hlink q hq ▸ nofun)
    next hdir _ =>
      cases hok
      exact ⟨p, hq, fun hp => hdir hp, rfl⟩

theorem sysRename_ok {newPath : Bytes} (h : sysRename cwd fs path newPath = .ok fs') :
    ∃ p q, sysPlace cwd fs path = .ok p ∧ sysPlace cwd fs newPath = .ok q ∧
      FileTree.Moves p q fs.tree fs'.tree ∧ fs'.touched = p :: q :: fs.touched := by
  unfold sysRename at h
  split at h
  · cases h
  · cases h
  next hpath hnewPath =>
    split at h
    · cases h
    next hok =>
      cases h
      rcases FileTree.rename_moves hok with ⟨hp, hq, hmoves⟩
      exact ⟨_, _, sysPlace_of hpath hp, sysPlace_of hnewPath hq, hmoves, rfl⟩

theorem sysReadlink_symlink {target : Bytes} (h : sysSymlink cwd fs target path = .ok fs') :
    sysReadlink cwd fs' path = .ok target := by
  rcases sysSymlink_ok h with ⟨p, hp, hnone, rfl⟩
  rcases sysPlace_ok hp with ⟨hpath, hplace⟩
  have hlink : (fs.tree.set p (some (.link target))).get p = some (.link target) := by
    rw [FileTree.get_set_of_place hplace (hnone ▸ nofun), if_pos rfl]
  rw [sysReadlink, hpath]
  simp only [FileTree.readlink, (FileTree.extends_set hnone _).place hplace, hlink]

/-- What a path goes through is not made. -/
theorem sysMkdir_through {rest : Bytes} (hne : start ≠ []) (h : sysPlace cwd fs (start ++ 47 :: rest) = .ok p) :
    sysMkdir cwd fs start ≠ .ok fs' := by
  intro hok
  have hthrough : fs.HarmlessDir (fun _ => False) cwd start := place_through hne (sysPlace_ok h).2
  rcases sysMkdir_within hthrough hok with ⟨new, htouch, hnew⟩
  rcases sysMkdir_ok hok with ⟨q, -, -, rfl⟩
  have heq : [q] = new := List.append_cancel_right htouch.touched
  exact hnew q (heq ▸ List.mem_singleton_self q)

theorem mkdirSingles_there {paths rest : List Bytes} (h : ∀ path ∈ paths, ∀ fs', sysMkdir cwd fs path ≠ .ok fs') :
    mkdirSingles cwd fs (paths ++ rest) = mkdirSingles cwd fs rest ∨ (mkdirSingles cwd fs (paths ++ rest)).1 = fs := by
  induction paths with
  | nil => exact .inl rfl
  | cons path paths ih =>
      rw [List.cons_append, mkdirSingles]
      split
      next fs' hok => exact absurd hok (h path List.mem_cons_self fs')
      · exact ih fun p hp => h p (List.mem_cons_of_mem path hp)
      · exact .inr rfl

/-- `Mkdir` behind a directory makes one entry of it at most. -/
theorem mkdirPath_single (hdir : DirAt cwd fs start dir) (hlen : (start ++ 47 :: text).length < PATH_MAX)
    (h : Single name text) :
    (mkdirPath cwd fs (start ++ 47 :: text)).1 = fs ∨
      fs.tree.get (dir ++ [name]) = none ∧ (mkdirPath cwd fs (start ++ 47 :: text)).1 =
        ⟨fs.tree.set (dir ++ [name]) (some .dir), (dir ++ [name]) :: fs.touched⟩ := by
  have hplace : sysPlace cwd fs (start ++ 47 :: text) = .ok (dir ++ [name]) :=
    (sysPlace_single hdir.start_ne hlen h).2 ⟨dir, hdir, rfl⟩
  unfold mkdirPath
  rw [snprintfPath_eq hlen]
  cases hpath : start ++ 47 :: text with
  | nil => exact .inl rfl
  | cons c rest =>
      have hthere : ∀ path ∈ slashPrefixes [c] rest, ∀ fs', sysMkdir cwd fs path ≠ .ok fs' := by
        intro path hmem fs'
        rcases mem_slashPrefixes hmem with ⟨r, heq, hpre⟩
        have hne : path ≠ [] := by
          rintro rfl
          exact absurd (List.prefix_nil.1 hpre) (List.cons_ne_nil c [])
        have hsplit : start ++ 47 :: text = path ++ 47 :: r := hpath.trans heq
        exact sysMkdir_through hne (hsplit ▸ hplace)
      have hsingles : mkdirSingles cwd fs (slashPrefixes [c] rest ++ [c :: rest]) = mkdirSingles cwd fs [c :: rest] ∨
          (mkdirSingles cwd fs (slashPrefixes [c] rest ++ [c :: rest])).1 = fs := mkdirSingles_there hthere
      rcases hsingles with heq | heq
      · simp only [heq, mkdirSingles]
        split
        next fs' hok =>
          rcases sysMkdir_ok hok with ⟨p, hp, hnone, rfl⟩
          rw [← hpath] at hp
          cases hplace.symm.trans hp
          exact .inr ⟨hnone, rfl⟩
        · exact .inl rfl
        · exact .inl rfl
      · exact .inl heq

end Scambio
