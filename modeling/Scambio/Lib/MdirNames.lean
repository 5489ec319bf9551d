import Scambio.Lib.DirsFrame

/-!
# MdirNames — the name of a mdir (`lib/mdir.c`)

`mdir_name` takes the path of the struct without `mdir_root` and six characters more, as if it was a path under
the root folder, whereas it ends in the id of the mdir.

* `mdirName`         : the name, if it is read within the path;
* `MountedAs`        : the tree has a link to the mdir, under a name below the root folder;
* `nameInverted_iff` : the mdirs that are found again by their names are those mounted as what follows the first
  five characters of their ids.
-/

namespace Scambio

open Library

namespace Dirs

variable {env : DirsEnv} {d : Dirs} {m : CachedMdir}

/-- `mdir_name`; `none` when it starts behind the end of the path. -/
def mdirName (env : DirsEnv) (path : Bytes) : Option Bytes :=
  if path.length < env.mdirRoot.length + 6 then none
  else if path.drop (env.mdirRoot.length + 6) = [] then some (ascii "/")
  else some (path.drop (env.mdirRoot.length + 6))

/-- In terms of the id. -/
theorem mdirName_eq (env : DirsEnv) (path : Bytes) :
    mdirName env path =
      if (mdirId env path).length < 5 then none
      else if (mdirId env path).length = 5 then some (ascii "/")
      else some ((mdirId env path).drop 5) := by
  have hlen : (mdirId env path).length = path.length - (env.mdirRoot.length + 1) := List.length_drop
  have hdrop : path.drop (env.mdirRoot.length + 6) = (mdirId env path).drop 5 := by
    rw [mdirId, List.drop_drop]
  have hempty : (mdirId env path).drop 5 = [] ↔ (mdirId env path).length ≤ 5 := List.drop_eq_nil_iff
  unfold mdirName
  rw [hdrop]
  by_cases hshort : (mdirId env path).length < 5
  · rw [if_pos hshort, if_pos (by omega)]
  · rw [if_neg hshort, if_neg (by omega)]
    by_cases hfive : (mdirId env path).length = 5
    · rw [if_pos hfive, if_pos (hempty.2 (Nat.le_of_eq hfive))]
    · have hlong : ¬ (mdirId env path).drop 5 = [] := by
        rw [hempty]
        omega
      rw [if_neg hfive, if_neg hlong]

/-! ## Lookups that find a struct of the list -/

theorem mdirId_of_find {id : Bytes} (h : mdirFind env d id = some m) : mdirId env m.path = id :=
  (beq_iff_eq.1 (@List.find?_some CachedMdir (fun mdir => id == mdirId env mdir.path) m d.mdirs h)).symm

theorem mem_of_find {id : Bytes} (h : mdirFind env d id = some m) : m ∈ d.mdirs :=
  List.mem_of_find?_eq_some h

/-- A struct that was there is not one that was just made. -/
theorem mdirFind_of_lookupById (hmem : m ∈ d.mdirs) {id : Bytes} (h : (mdirLookupById env d id false).2 = .ok m) :
    mdirFind env d id = some m := by
  unfold mdirLookupById at h
  cases hfind : mdirFind env d id with
  | some found =>
      rw [hfind] at h
      cases h
      rfl
  | none =>
      rw [hfind] at h
      rcases mdirNew_cases env d id false with ⟨e, heq⟩ | ⟨dir, permissions, -, heq⟩
      · rw [heq] at h
        cases h
      · rw [heq] at h
        cases h
        -- a new struct is not at the address of another
        have hlt := (List.pairwise_cons.1 d.ptrs).1 _ (List.mem_map_of_mem hmem)
        exact absurd hlt (Nat.lt_irrefl _)

/-- The list is as before: nothing was made. -/
theorem mem_of_lookupById {id : Bytes} (h : mdirLookupById env d id false = (d, .ok m)) : m ∈ d.mdirs := by
  rcases mdirLookupById_cases env d id false with ⟨mdir, hmem, -, heq⟩ | ⟨-, heq⟩
  · rw [heq, Prod.mk.injEq, Except.ok.injEq] at h
    exact h.2 ▸ hmem
  · rw [heq] at h
    rcases mdirNew_cases env d id false with ⟨e, heq'⟩ | ⟨dir, permissions, -, heq'⟩
    · rw [heq', Prod.mk.injEq] at h
      cases h.2
    · rw [heq', Prod.mk.injEq] at h
      have hmdirs := congrArg Dirs.mdirs h.1
      exact absurd hmdirs (List.cons_ne_self _ _)

theorem mdirLookup_cases (env : DirsEnv) (d : Dirs) (name : Bytes) :
    (∃ e, mdirLookup env d name = (d, .error e)) ∨
      ∃ id, mdirLookup env d name = mdirLookupById env d id false := by
  unfold mdirLookup
  split
  · exact .inr ⟨_, rfl⟩
  · rcases lookupAbs_cases env d (snprintfPath (env.mdirRoot ++ ascii "/root/" ++ name)) with herr | ⟨slink, -, heq⟩
    · exact .inl herr
    · exact .inr ⟨_, heq⟩

/-- A mdir that a name leads to is found by its id. -/
theorem mdirFind_of_lookup {name : Bytes} (h : mdirLookup env d name = (d, .ok m)) :
    mdirFind env d (mdirId env m.path) = some m := by
  rcases mdirLookup_cases env d name with ⟨e, heq⟩ | ⟨id, heq⟩
  · rw [heq, Prod.mk.injEq] at h
    cases h.2
  · rw [heq] at h
    have hfind := mdirFind_of_lookupById (mem_of_lookupById h) (congrArg Prod.snd h)
    rwa [mdirId_of_find hfind]

/-! ## Names -/

/-- The name of a mdir is read within its path, and the mdir is found by it. -/
def NameInverted (env : DirsEnv) (d : Dirs) (m : CachedMdir) : Prop :=
  ∃ name, mdirName env m.path = some name ∧ (mdirLookup env d name).2 = .ok m

/-- The tree has a link to `mdir_root/id`, in a directory, at the place that this name has below the root folder. -/
def MountedAs (env : DirsEnv) (d : Dirs) (name id : Bytes) : Prop :=
  ∃ start file dir target, snprintfPath (env.mdirRoot ++ ascii "/root/" ++ name) = start ++ 47 :: file.1 ∧
    DirAt env.cwd d.fs start dir ∧ d.fs.tree.get (dir ++ [file]) = some (.link target) ∧
    target.length < PATH_MAX ∧ mdirId env target = id

/-- What is read at a path with a slash is a link that stands behind it. -/
theorem sysReadlink_entry {cwd : List FileName} {fs : FileSys} {path target : Bytes}
    (hlen : path.length < PATH_MAX) (hslash : ∃ front rest, path = front ++ 47 :: rest ∧ front ≠ []) :
    sysReadlink cwd fs path = .ok target ↔
      ∃ start file dir, path = start ++ 47 :: file.1 ∧ DirAt cwd fs start dir ∧
        fs.tree.get (dir ++ [file]) = some (.link target) := by
  rw [sysReadlink_iff]
  constructor
  · rintro ⟨p, hplace, hlink⟩
    rcases sysPlace_ok hplace with ⟨-, hp⟩
    rcases FileTree.getLast?_of_place hp with ⟨file, hlast⟩
    rcases hslash with ⟨front, rest, hpath, hfront⟩
    rcases basename_cases path with ⟨-, hno⟩ | ⟨start, hstart, hno⟩
    · exact absurd (hpath ▸ List.mem_append_right front List.mem_cons_self) hno
    · -- what follows the last slash is the name of the entry
      have hsteps : pathSteps path = pathSteps start ++ [stepOf (basename path)] := by
        conv_lhs => rw [hstart, pathSteps_append, pathSteps_part hno]
      rw [hsteps, List.getLast?_concat, Option.some.injEq] at hlast
      rw [eq_of_stepOf hlast] at hstart
      have hne : start ≠ [] := by
        rintro rfl
        rw [hpath] at hstart
        cases front with
        | nil => exact hfront rfl
        | cons c front =>
            have htail := (List.cons_eq_cons.1 hstart).2
            exact file.2.2.2.2 (htail ▸ List.mem_append_right front List.mem_cons_self)
      rw [hstart] at hplace hlen
      rcases (sysPlace_single hne hlen (single_file file)).1 hplace with ⟨dir, hdir, rfl⟩
      exact ⟨start, file, dir, hstart, hdir, hlink⟩
  · rintro ⟨start, file, dir, rfl, hdir, hlink⟩
    refine ⟨dir ++ [file], ?_, hlink⟩
    exact (sysPlace_single hdir.start_ne hlen (single_file file)).2 ⟨dir, hdir, rfl⟩

theorem mountedAs_iff (hfits : env.Fits) (d : Dirs) (name id : Bytes) :
    MountedAs env d name id ↔
      ∃ slink, sysReadlink env.cwd d.fs (snprintfPath (env.mdirRoot ++ ascii "/root/" ++ name)) = .ok slink ∧
        slink.length < PATH_MAX ∧ mdirId env slink = id := by
  have hslash : ∃ front rest, snprintfPath (env.mdirRoot ++ ascii "/root/" ++ name) = front ++ 47 :: rest ∧ front ≠ [] := by
    refine ⟨env.mdirRoot ++ ascii "/root", name.take (PATH_MAX - 1 - (env.mdirRoot.length + 6)), ?_, by simp [ascii]⟩
    have hroot : ascii "/root/" = ascii "/root" ++ [47] := by decide
    have hlen : (env.mdirRoot ++ ascii "/root/").length = env.mdirRoot.length + 6 := List.length_append
    unfold DirsEnv.Fits at hfits
    rw [snprintfPath, List.take_append, hlen, List.take_of_length_le (by rw [hlen]; omega), hroot, List.append_assoc,
      List.append_assoc, List.append_assoc]
    rfl
  unfold MountedAs
  constructor
  · rintro ⟨start, file, dir, target, hpath, hdir, hlink, hroom, hid⟩
    exact ⟨target, (sysReadlink_entry (length_snprintfPath _) hslash).2 ⟨start, file, dir, hpath, hdir, hlink⟩, hroom, hid⟩
  · rintro ⟨slink, hread, hroom, hid⟩
    rcases (sysReadlink_entry (length_snprintfPath _) hslash).1 hread with ⟨start, file, dir, hpath, hdir, hlink⟩
    exact ⟨start, file, dir, slink, hpath, hdir, hlink, hroom, hid⟩

/-- No folder is mounted under an empty name, or under a slash. -/
theorem MountedAs.name_ne {name id : Bytes} (hfits : env.Fits) (h : MountedAs env d name id) :
    name ≠ [] ∧ name ≠ ascii "/" := by
  rcases h with ⟨start, file, dir, target, hpath, -⟩
  unfold DirsEnv.Fits at hfits
  have hlast : (start ++ 47 :: file.1).getLast? ≠ some 47 := by
    rw [List.getLast?_append_of_ne_nil _ (List.cons_ne_nil _ _), List.getLast?_cons_of_ne_nil file.2.1]
    intro hmem
    exact file.2.2.2.2 (List.mem_of_getLast? hmem)
  constructor
  · rintro rfl
    apply hlast
    rw [← hpath, snprintfPath_eq (by simp [ascii]; omega), List.append_nil]
    exact List.getLast?_append_of_ne_nil _ (by decide)
  · rintro rfl
    apply hlast
    rw [← hpath, snprintfPath_eq (by simp [ascii]; omega)]
    exact List.getLast?_append_of_ne_nil _ (by decide)

/-- `/` is the name of the root only. -/
theorem not_lookup_root (hmem : m ∈ d.mdirs) (hlen : 5 ≤ (mdirId env m.path).length) :
    (mdirLookup env d (ascii "/")).2 ≠ .ok m := by
  intro h
  rw [mdirLookup, if_pos rfl] at h
  have hid := mdirId_of_find (mdirFind_of_lookupById hmem h)
  rw [hid] at hlen
  exact absurd hlen (by decide)

/-- The mdirs that are found by their names: those that are mounted, below the root folder, under the name that
their ids have behind five characters. -/
theorem nameInverted_iff (hfits : env.Fits) (hm : ∃ name, mdirLookup env d name = (d, .ok m)) :
    NameInverted env d m ↔
      ∃ five name, five.length = 5 ∧ mdirId env m.path = five ++ name ∧ MountedAs env d name (mdirId env m.path) := by
  rcases hm with ⟨known, hknown⟩
  have hfind := mdirFind_of_lookup hknown
  have hmem := mem_of_find hfind
  unfold NameInverted
  rw [mdirName_eq]
  constructor
  · rintro ⟨name, hname, hlookup⟩
    split at hname
    · cases hname
    next hlong =>
      split at hname
      next hfive =>
        -- the name of the root, whatever the mdir
        cases hname
        exact absurd hlookup (not_lookup_root hmem (Nat.le_of_eq hfive.symm))
      next hnot =>
        cases hname
        have hslash : (mdirId env m.path).drop 5 ≠ ascii "/" := by
          intro heq
          rw [heq] at hlookup
          exact not_lookup_root hmem (Nat.le_of_not_lt hlong) hlookup
        have hsplit : mdirId env m.path = (mdirId env m.path).take 5 ++ (mdirId env m.path).drop 5 :=
          (List.take_append_drop 5 _).symm
        refine ⟨_, _, ?_, hsplit, ?_⟩
        · rw [List.length_take]
          omega
        rw [mdirLookup, if_neg hslash, lookupAbs] at hlookup
        split at hlookup
        · cases hlookup
        next slink hslink =>
          split at hlookup
          · cases hlookup
          next hgood =>
            have hid := mdirId_of_find (mdirFind_of_lookupById hmem hlookup)
            exact (mountedAs_iff hfits d _ _).2 ⟨slink, hslink, by omega, hid.symm⟩
  · rintro ⟨five, name, hfive, hsplit, hmounted⟩
    rcases hmounted.name_ne hfits with ⟨hne, hslash⟩
    rcases (mountedAs_iff hfits d _ _).1 hmounted with ⟨slink, hslink, hroom, hid⟩
    have hlong : 5 < (mdirId env m.path).length := by
      have hpos := List.length_pos_iff.2 hne
      rw [hsplit, List.length_append]
      omega
    have hdrop : (mdirId env m.path).drop 5 = name := by
      rw [hsplit, List.drop_left' hfive]
    have hlen : (mdirId env slink).length = slink.length - (env.mdirRoot.length + 1) := List.length_drop
    have hgood : ¬ (slink.length = 0 ∨ PATH_MAX ≤ slink.length ∨ slink.length ≤ env.mdirRoot.length + 1) := by
      rw [hid] at hlen
      omega
    refine ⟨name, ?_, ?_⟩
    · rw [if_neg (by omega), if_neg (by omega), hdrop]
    · rw [mdirLookup, if_neg hslash, lookupAbs, hslink]
      simp only [if_neg hgood, mdirLookupById, hid, hfind]

/-- A state in which the root was looked up. -/
def rootEnv : DirsEnv where
  cwd := []
  mdirRoot := ascii "/m"
  load := fun _ _ => .ok none

def rootStruct : CachedMdir where
  ptr := 0
  path := ascii "/m/root"
  permissions := none

def rootDirs : Dirs where
  fs := { tree := .empty, touched := [] }
  mdirs := [rootStruct]
  nextPtr := 1
  dirIdSeq := 0
  ptrs := by decide

theorem mdirLookup_rootDirs : mdirLookup rootEnv rootDirs (ascii "/") = (rootDirs, .ok rootStruct) := rfl

theorem nameInverted_iff_root :
    NameInverted rootEnv rootDirs rootStruct ↔
      ∃ five name, five.length = 5 ∧ mdirId rootEnv rootStruct.path = five ++ name ∧
        MountedAs rootEnv rootDirs name (mdirId rootEnv rootStruct.path) := by
  have hfits : rootEnv.Fits := by
    unfold DirsEnv.Fits
    decide
  exact nameInverted_iff hfits ⟨ascii "/", mdirLookup_rootDirs⟩

/-- The name of the root starts behind the end of its path. -/
theorem not_nameInverted_root :
    mdirLookup rootEnv rootDirs (ascii "/") = (rootDirs, .ok rootStruct) ∧ ¬ NameInverted rootEnv rootDirs rootStruct := by
  refine ⟨mdirLookup_rootDirs, ?_⟩
  rintro ⟨name, hname, -⟩
  have hnone : mdirName rootEnv rootStruct.path = none := by decide
  rw [hnone] at hname
  cases hname

end Dirs
end Scambio
