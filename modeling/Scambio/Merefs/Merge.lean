import Scambio.Merefs.Actions

/-!
# Merge — a pass of merefs merges the local tree, the mdir and the map

* `matchLocalFile_done`      : what `match_local_file` does of a file;
* `MergeInv`                 : what the walk has done of the files that it has matched;
* `traverseLocalPath_merges` : all of them, once the walk has ended.
-/

namespace Scambio

open Library ThreeWay

variable (refs : Refs)

/-! ## Names -/

/-- The name of the backup of a file. -/
def dotted (name : FileName) : FileName :=
  ⟨46 :: name.val, by
    refine ⟨List.cons_ne_nil _ _, ?_, ?_, ?_⟩
    · intro heq
      exact name.2.1 (List.cons.inj heq).2
    · intro heq
      exact name.2.2.1 (List.cons.inj heq).2
    · rw [List.mem_cons]
      exact not_or.2 ⟨by decide, name.2.2.2.2⟩⟩

/-- Where the backup of a file is. -/
def backup : List FileName → List FileName
  | [] => []
  | [name] => [dotted name]
  | a :: b :: r => a :: backup (b :: r)

/-- The name of a file, as the lists of files have it. -/
def nameOf (r : List FileName) : Bytes :=
  sanitize (relativePath r)

section Names

variable {refs} {r r' : List FileName} {name : FileName}

theorem backup_concat (r : List FileName) (name : FileName) : backup (r ++ [name]) = r ++ [dotted name] := by
  induction r with
  | nil => rfl
  | cons a r ih =>
      cases r with
      | nil => rfl
      | cons b r => exact congrArg (a :: ·) ih

theorem dotted_injective : Function.Injective dotted := by
  intro a b h
  exact Subtype.ext (List.cons.inj (congrArg Subtype.val h)).2

theorem backup_injective (hr : r ≠ []) (hr' : r' ≠ []) (h : backup r = backup r') : r = r' := by
  rcases List.eq_nil_or_concat' r with rfl | ⟨init, a, rfl⟩
  · exact absurd rfl hr
  rcases List.eq_nil_or_concat' r' with rfl | ⟨init', a', rfl⟩
  · exact absurd rfl hr'
  rw [backup_concat, backup_concat] at h
  rcases List.append_inj' h rfl with ⟨rfl, hlast⟩
  rw [dotted_injective (List.singleton_inj.1 hlast)]

/-- A backup is hidden. -/
theorem not_unhidden_backup (hr : r ≠ []) : ¬ Unhidden (backup r) := by
  rcases List.eq_nil_or_concat' r with rfl | ⟨init, name, rfl⟩
  · exact absurd rfl hr
  · rw [backup_concat]
    exact fun h => h (dotted name) (by simp) rfl

theorem unhidden_ne_backup (h : Unhidden r) (hr' : r' ≠ []) : r ≠ backup r' := by
  rintro rfl
  exact not_unhidden_backup hr' h

theorem level_name (name : FileName) : Level name.val := by
  refine ⟨name.2.2.2.2, ?_⟩
  rw [stepOf_val]
  exact nofun

theorem lexical_downs (base r : List FileName) : FileTree.lexical base (r.map .down) = base ++ r := by
  induction r generalizing base with
  | nil => exact (List.append_nil base).symm
  | cons a r ih =>
      rw [List.map_cons, FileTree.lexical, ih, List.append_assoc]
      rfl

theorem map_stepOf (r : List FileName) : (r.map Subtype.val).map stepOf = r.map .down := by
  rw [List.map_map]
  exact List.map_congr_left fun name _ => stepOf_val name

/-- A full path heads for the entry. -/
theorem Refs.Ready.entry_fullPath {base : List FileName} {fs : FileSys} (h : refs.Ready base fs) (hr : r ≠ []) :
    Scambio.entry refs.cwd fs (refs.fullPath r) = some (base ++ r) := by
  have hparts : ∀ part ∈ r.map Subtype.val, Level part := by
    intro part hpart
    rcases List.mem_map.1 hpart with ⟨name, -, rfl⟩
    exact level_name name
  have hentry := h.entry hparts fun hnil => hr (List.map_eq_nil_iff.1 hnil)
  rw [map_stepOf, lexical_downs] at hentry
  exact hentry

theorem backupPath_fullPath (hr : r ≠ []) : backupPath refs (refs.fullPath r) = refs.fullPath (backup r) := by
  rcases List.eq_nil_or_concat' r with rfl | ⟨init, name, rfl⟩
  · exact absurd rfl hr
  · rw [backup_concat, Refs.fullPath, Refs.fullPath, relativePath, relativePath, List.map_append, List.map_append]
    exact backupPath_slashed name.2.2.2.2

theorem relativePath_cons (name : FileName) (r : List FileName) :
    relativePath (name :: r) = 47 :: (name.val ++ relativePath r) :=
  slashed_cons _ _

theorem nameOf_cons (name : FileName) (r : List FileName) : nameOf (name :: r) = name.val ++ relativePath r := by
  rw [nameOf, relativePath_cons, sanitize, List.dropWhile_cons_of_pos (by decide)]
  rcases hname : name.val with _ | ⟨c, rest⟩
  · exact absurd hname name.2.1
  · have hc : c ≠ 47 := by
      rintro rfl
      exact name.2.2.2.2 (hname ▸ List.mem_cons_self)
    rw [List.cons_append, List.dropWhile_cons_of_neg (by simpa using hc)]

theorem relativePath_eq (hr : r ≠ []) : relativePath r = 47 :: nameOf r := by
  cases r with
  | nil => exact absurd rfl hr
  | cons name r => rw [relativePath_cons, nameOf_cons]

theorem relativePath_injective : Function.Injective relativePath := by
  intro r r' h
  have hsteps : ∀ r, pathSteps (relativePath r) = .stay :: r.map .down := by
    intro r
    have hparts : ∀ part ∈ r.map Subtype.val, (47 : UInt8) ∉ part := by
      intro part hpart
      rcases List.mem_map.1 hpart with ⟨name, -, rfl⟩
      exact name.2.2.2.2
    have h := pathSteps_slashed [] hparts
    rw [map_stepOf] at h
    exact h
  have hmap := congrArg pathSteps h
  rw [hsteps, hsteps] at hmap
  exact List.map_injective_iff.2 (fun a b hab => Step.down.inj hab) (List.cons.inj hmap).2

theorem nameOf_injective (hr : r ≠ []) (hr' : r' ≠ []) (h : nameOf r = nameOf r') : r = r' := by
  apply relativePath_injective
  rw [relativePath_eq hr, relativePath_eq hr', h]

theorem length_nameOf_le (r : List FileName) : (nameOf r).length ≤ (refs.fullPath r).length := by
  have hdrop : (nameOf r).length ≤ (relativePath r).length := (List.dropWhile_suffix _).length_le
  rw [Refs.fullPath, List.length_append]
  omega

end Names

/-! ## The map -/

section Map

variable {files : List MereFile} {fname digest : Bytes}

theorem mapSet_sanitize (files : List MereFile) (fname digest : Bytes) :
    mapSet files (sanitize fname) digest = mapSet files fname digest := by
  rw [mapSet, mapSet, fileSearch_sanitize, sanitize_sanitize, fileNew, fileNew, fileCtor, fileCtor, sanitize_sanitize]

theorem mapSet_found {file : MereFile} (h : fileSearch files fname = some file) (map : List MereFile) (digest : Bytes) :
    mapSet map file.name digest = mapSet map fname digest := by
  rw [fileSearch_name h, mapSet_sanitize]

theorem find_setDigest (name n digest : Bytes) (hmem : ∃ file ∈ files, file.name = name) :
    ((setDigest name digest files).find? fun file => file.name == n).map MereFile.digest =
      if n = name then some (snprintf (MAX_DIGEST_STRLEN + 1) digest)
      else (files.find? fun file => file.name == n).map MereFile.digest := by
  induction files with
  | nil =>
      rcases hmem with ⟨file, hfile, -⟩
      cases hfile
  | cons file files ih =>
      unfold setDigest
      by_cases hname : file.name = name
      · rw [if_pos hname]
        by_cases hn : n = name
        · rw [if_pos hn, List.find?_cons_of_pos (by simp [hname, hn])]
          rfl
        · have hne : file.name ≠ n := fun h => hn (h.symm.trans hname)
          rw [if_neg hn, List.find?_cons_of_neg (by simpa using hne), List.find?_cons_of_neg (by simpa using hne)]
      · rw [if_neg hname]
        have hrest : ∃ f ∈ files, f.name = name := by
          rcases hmem with ⟨f, hf, hfname⟩
          rcases List.mem_cons.1 hf with rfl | hf
          · exact absurd hfname hname
          · exact ⟨f, hf, hfname⟩
        by_cases hn : file.name = n
        · have hne : n ≠ name := fun h => hname (hn.trans h)
          rw [if_neg hne, List.find?_cons_of_pos (by simpa using hn), List.find?_cons_of_pos (by simpa using hn)]
        · rw [List.find?_cons_of_neg (by simpa using hn), List.find?_cons_of_neg (by simpa using hn), ih hrest]

/-- The map answers with what was set last. -/
theorem mapGetDigest_mapSet (files : List MereFile) (hname : (sanitize fname).length < PATH_MAX)
    (hdigest : digest.length ≤ MAX_DIGEST_STRLEN) (n : Bytes) :
    mapGetDigest (mapSet files fname digest) n =
      if sanitize n = sanitize fname then some digest else mapGetDigest files n := by
  have hcut : snprintf (MAX_DIGEST_STRLEN + 1) digest = digest := List.take_of_length_le (by omega)
  unfold mapSet
  split
  next file hfound =>
    have hmem : ∃ file ∈ files, file.name = sanitize fname :=
      ⟨file, List.mem_of_find?_eq_some hfound, fileSearch_name hfound⟩
    have hfind := find_setDigest (sanitize fname) (sanitize n) digest hmem
    rw [hcut] at hfind
    exact hfind
  · have hctor : (fileCtor fname digest [] 0).name = sanitize fname := List.take_of_length_le (by omega)
    rw [mapGetDigest, fileSearch, fileNew]
    by_cases hn : sanitize n = sanitize fname
    · rw [if_pos hn, List.find?_cons_of_pos (by simp [hctor, hn])]
      exact congrArg some hcut
    · rw [if_neg hn, List.find?_cons_of_neg (by simpa [hctor] using Ne.symm hn)]
      rfl

end Map

/-! ## A file -/

/-- The choice for a file of this content. -/
def Refs.choiceFor (s : Merefs) (r : List FileName) (content : Bytes) : Choice :=
  choose (refs.digest content) (mapGetDigest s.unmatched (relativePath r)) (mapGetDigest s.currentMap (relativePath r))

/-- The digest that a file of this content has on both sides once it is merged. -/
def Refs.mergedFor (s : Merefs) (r : List FileName) (content : Bytes) : Option Bytes :=
  merge (some (refs.digest content)) (mapGetDigest s.unmatched (relativePath r))
    (mapGetDigest s.currentMap (relativePath r))

/-- The file has the contents of the resource that the mdir gives it. -/
def Refs.Fetched (base : List FileName) (s : Merefs) (fs : FileSys) (r : List FileName) : Prop :=
  ∃ file ∈ fileSearch s.unmatched (relativePath r), ∃ got, refs.getFile file.resource = .ok got ∧
    fs.tree.get (base ++ r) = some (.file got)

/-- What is at the file once it is done. -/
def Refs.EntryAfter (base : List FileName) (s : Merefs) (fs : FileSys) (r : List FileName) (content : Bytes) :
    Choice → Prop
  | .keep => fs.tree.get (base ++ r) = some (.file content)
  | .give => fs.tree.get (base ++ r) = some (.file content)
  | .take => refs.Fetched base s fs r
  | .saveTake => refs.Fetched base s fs r
  | .drop => fs.tree.get (base ++ r) = none
  | .saveDrop => False

/-- What is requested of the mdir for a file. -/
def Refs.Asks (s : Merefs) (r : List FileName) (content : Bytes) (reqs : List MdirRequest) : Choice → Prop
  | .give => ∃ resource, refs.ResourceFor s content resource ∧
      (∀ file ∈ fileSearch s.unmatched (relativePath r), 0 < file.version) ∧
      reqs = .add (fileHeader (relativePath r) (refs.digest content) resource) ::
        ((fileSearch s.unmatched (relativePath r)).map fun file => MdirRequest.del file.version).toList
  | _ => reqs = []

/-- What `match_local_file` does of a file that was not done yet. -/
structure Refs.Done (base : List FileName) (s s' : Merefs) (r : List FileName) (content : Bytes) : Prop where
  within : s.fs.Within (Below base) s'.fs
  elsewhere : ∀ q, q ≠ base ++ r → q ≠ base ++ backup r → s'.fs.tree.get q = s.fs.tree.get q
  entry : refs.EntryAfter base s s'.fs r content (refs.choiceFor s r content)
  backup : s'.fs.tree.get (base ++ Scambio.backup r) =
    if refs.choiceFor s r content = .saveTake then some (.file content)
    else s.fs.tree.get (base ++ Scambio.backup r)
  short : refs.choiceFor s r content = .saveTake → (refs.fullPath (Scambio.backup r)).length < PATH_MAX
  currentMap : s'.currentMap = s.currentMap
  nextMap : s'.nextMap = match refs.mergedFor s r content with
    | some digest => mapSet s.nextMap (relativePath r) digest
    | none => s.nextMap
  requests : ∃ reqs, refs.Asks s r content reqs (refs.choiceFor s r content) ∧ s'.requests = s.requests ++ reqs
  unmatched : s'.unmatched = match fileSearch s.unmatched (relativePath r) with
    | some file => s.unmatched.erase file
    | none => s.unmatched
  matched : s'.matched = (fileSearch s.unmatched (relativePath r)).toList ++ s.matched
  removed : s'.removed = s.removed

section Done

variable {refs} {base : List FileName} {s : Merefs} {r : List FileName} {content : Bytes}

theorem inside_fullPath (hr : Unhidden r) : refs.Inside (refs.fullPath r) := by
  refine ⟨r.map Subtype.val, rfl, ?_⟩
  intro part hpart
  rcases List.mem_map.1 hpart with ⟨name, hname, rfl⟩
  exact ⟨name.2.2.2.2, hr name hname⟩

/-- The remote file of a name is matched, if there is one. -/
def taken (s : Merefs) (fname : Bytes) : Merefs :=
  { s with
    unmatched :=
      match fileSearch s.unmatched fname with
      | some file => s.unmatched.erase file
      | none => s.unmatched
    matched := (fileSearch s.unmatched fname).toList ++ s.matched }

theorem mem_taken {fname : Bytes} {file : MereFile}
    (h : file ∈ (taken s fname).unmatched ++ ((taken s fname).matched ++ (taken s fname).removed)) :
    file ∈ s.unmatched ++ (s.matched ++ s.removed) := by
  unfold taken at h
  cases hfound : fileSearch s.unmatched fname with
  | none =>
      rw [hfound] at h
      exact h
  | some found =>
      rw [hfound] at h
      have hmem : found ∈ s.unmatched := List.mem_of_find?_eq_some hfound
      simp only [List.mem_append, Option.toList_some, List.mem_singleton] at h ⊢
      rcases h with h | (rfl | h) | h
      · exact .inl (List.mem_of_mem_erase h)
      · exact .inl hmem
      · exact .inr (.inl h)
      · exact .inr (.inr h)

theorem matchLocalFile_eq_act (refs : Refs) (s : Merefs) (r : List FileName) (content : Bytes) :
    matchLocalFile refs s (refs.fullPath r) (relativePath r) (refs.digest content) =
      act refs (taken s (relativePath r)) (fileSearch s.unmatched (relativePath r)) (refs.fullPath r) (relativePath r)
        (refs.digest content) (refs.choiceFor s r content) := by
  unfold matchLocalFile taken Refs.choiceFor mapGetDigest
  cases fileSearch s.unmatched (relativePath r) with
  | none => exact matchCases_eq_act refs s none _ _ _ _
  | some file => exact matchCases_eq_act refs (matchFile s file) (some file) _ _ _ _

theorem mergedFor_eq : refs.mergedFor s r content =
    match refs.choiceFor s r content with
    | .keep => some (refs.digest content)
    | .give => some (refs.digest content)
    | .take => mapGetDigest s.unmatched (relativePath r)
    | .saveTake => mapGetDigest s.unmatched (relativePath r)
    | .drop => none
    | .saveDrop => none :=
  merge_some _ _ _

/-- A visible file, in a tree to walk through. -/
structure Refs.AtFile (base : List FileName) (s : Merefs) (r : List FileName) (content : Bytes) : Prop where
  ready : refs.Ready base s.fs
  walkable : refs.Walkable base s.fs
  unhidden : Unhidden r
  file : s.fs.tree.get (base ++ r) = some (.file content)

namespace Refs.AtFile

variable (h : refs.AtFile base s r content)
include h

theorem ne_nil : r ≠ [] := by
  rintro rfl
  have hfile := h.file
  rw [List.append_nil, h.ready.root] at hfile
  cases hfile

theorem stat : sysStat refs.cwd s.fs (refs.fullPath r) = .ok (base ++ r) :=
  h.walkable.stat h.ne_nil h.file nofun

theorem «local» : refs.Local (Below base) s.fs (refs.fullPath r) :=
  (h.ready.local (inside_fullPath h.unhidden) h.stat (h.file ▸ nofun)).1

theorem entry : Scambio.entry refs.cwd s.fs (refs.fullPath r) = some (base ++ r) :=
  h.ready.entry_fullPath h.ne_nil

theorem entry_backup :
    Scambio.entry refs.cwd s.fs (backupPath refs (refs.fullPath r)) = some (base ++ Scambio.backup r) := by
  rw [backupPath_fullPath h.ne_nil]
  apply h.ready.entry_fullPath
  intro hnil
  exact not_unhidden_backup h.ne_nil (hnil ▸ nofun)

theorem apart : base ++ r ≠ base ++ Scambio.backup r := fun heq =>
  unhidden_ne_backup h.unhidden h.ne_nil (List.append_cancel_left heq)

omit h in
theorem tells : (refs.choiceFor s r content).Tells (refs.digest content) (mapGetDigest s.unmatched (relativePath r))
    (mapGetDigest s.currentMap (relativePath r)) :=
  choose_tells _ _ _

/-- A choice that changes nothing in the tree, where no backup is made. -/
theorem done_of_same {s' : Merefs} (hfs : s'.fs = s.fs)
    (hchoice : refs.choiceFor s r content = .keep ∨ refs.choiceFor s r content = .give)
    (hmap : s'.nextMap = mapSet s.nextMap (relativePath r) (refs.digest content))
    (hreqs : ∃ reqs, refs.Asks s r content reqs (refs.choiceFor s r content) ∧ s'.requests = s.requests ++ reqs)
    (hlists : s'.currentMap = s.currentMap ∧ s'.unmatched = (taken s (relativePath r)).unmatched ∧
      s'.matched = (taken s (relativePath r)).matched ∧ s'.removed = s.removed) :
    refs.Done base s s' r content where
  within := hfs ▸ .refl _ _
  elsewhere := fun _ _ _ => by rw [hfs]
  entry := by
    rw [hfs]
    rcases hchoice with hchoice | hchoice <;> rw [hchoice] <;> exact h.file
  backup := by
    rw [hfs, if_neg]
    rcases hchoice with hchoice | hchoice <;> rw [hchoice] <;> exact nofun
  short := by rcases hchoice with hchoice | hchoice <;> rw [hchoice] <;> exact nofun
  currentMap := hlists.1
  nextMap := by
    rw [mergedFor_eq]
    rcases hchoice with hchoice | hchoice <;> rw [hchoice] <;> exact hmap
  requests := hreqs
  unmatched := hlists.2.1
  matched := hlists.2.2.1
  removed := hlists.2.2.2

/-- The file is fetched, into a tree where its directories still are. -/
theorem fetch {s₁ : Merefs} (hw : s.fs.Within (Below base) s₁.fs) {file : MereFile}
    (hok : (remoteIsMaster refs s₁ file (refs.fullPath r)).2 = none) :
    ∃ got fs, refs.getFile file.resource = .ok got ∧ s.fs.Within (Below base) fs ∧
      Puts (base ++ r) (some (.file got)) s₁.fs.tree fs.tree ∧
      (remoteIsMaster refs s₁ file (refs.fullPath r)).1 =
        { s₁ with fs := fs, got := file.resource :: s₁.got, nextMap := mapSet s₁.nextMap file.name file.digest } := by
  have hlinks := h.ready.noLinks
  have hlinks₁ := hw.tree.noLinks hlinks
  have hclear : s.fs.Clear (Below base) := .inr hlinks
  have hstays := h.local.stays.mono hw hclear
  have hentry₁ : Scambio.entry refs.cwd s₁.fs (refs.fullPath r) = some (base ++ r) :=
    (hw.entry_eq hlinks).trans h.entry
  have hpassed := (passed_of_stat h.stat).keeps hw hlinks
  have hkeeps : s₁.Keeps (Below base) (fun _ => True) (remoteIsMaster refs s₁ file (refs.fullPath r)).1 :=
    remoteIsMaster_keeps (.inr hlinks₁) h.local.length hstays file
  rcases remoteIsMaster_spec hlinks₁ h.local.length hstays hentry₁ hok with ⟨got, fs, hget, hputs, heq⟩
  have hwithin := hkeeps.within
  rw [heq] at hwithin
  refine ⟨got, fs, hget, hw.trans hwithin, ⟨hputs.entry, fun q hq => ?_⟩, heq⟩
  exact (hputs.elsewhere q hq).trans (hpassed.mkdirForFile h.local.length q)

theorem done_take {file : MereFile} (hchoice : refs.choiceFor s r content = .take)
    (hfile : fileSearch s.unmatched (relativePath r) = some file)
    (hok : (remoteIsMaster refs (taken s (relativePath r)) file (refs.fullPath r)).2 = none) :
    refs.Done base s (remoteIsMaster refs (taken s (relativePath r)) file (refs.fullPath r)).1 r content := by
  rcases @fetch refs base s r content h (taken s (relativePath r)) (.refl _ _) file hok with
    ⟨got, fs, hget, hwithin, hputs, heq⟩
  rw [heq]
  exact
    { within := hwithin
      elsewhere := fun q hq _ => hputs.elsewhere q hq
      entry := by
        rw [hchoice]
        exact ⟨file, hfile, got, hget, hputs.entry⟩
      backup := by
        rw [hchoice, if_neg nofun]
        exact hputs.elsewhere _ (Ne.symm h.apart)
      short := hchoice ▸ nofun
      currentMap := rfl
      nextMap := by
        rw [mergedFor_eq, hchoice, mapGetDigest, hfile]
        exact mapSet_found hfile _ _
      requests := ⟨[], hchoice ▸ rfl, (List.append_nil _).symm⟩
      unmatched := rfl
      matched := rfl
      removed := rfl }

theorem done_saveTake {file : MereFile} (hchoice : refs.choiceFor s r content = .saveTake)
    (hfile : fileSearch s.unmatched (relativePath r) = some file)
    (hok : (MereResult.ifOk (conflict refs (taken s (relativePath r)) (refs.fullPath r)) fun s =>
      remoteIsMaster refs s file (refs.fullPath r)).2 = none) :
    refs.Done base s (MereResult.ifOk (conflict refs (taken s (relativePath r)) (refs.fullPath r)) fun s =>
      remoteIsMaster refs s file (refs.fullPath r)).1 r content := by
  rcases ifOk_ok hok with ⟨hconflict, heq⟩
  rw [heq] at hok ⊢
  have hkeeps : (taken s (relativePath r)).Keeps (Below base) (fun _ => True)
      (conflict refs (taken s (relativePath r)) (refs.fullPath r)).1 :=
    @conflict_keeps refs _ _ (taken s (relativePath r)) _ h.ready.noLinks h.local
  rcases @conflict_spec refs _ (taken s (relativePath r)) _ _ _ h.ready.noLinks h.local h.entry h.entry_backup h.apart
    content h.file hconflict with ⟨hpath, fs₁, heq₁, -, hsaved, helse₁⟩
  have hw₁ := hkeeps.within
  rw [heq₁] at hok hw₁ ⊢
  rcases @fetch refs base s r content h { taken s (relativePath r) with fs := fs₁ } hw₁ file hok with
    ⟨got, fs, hget, hwithin, hputs, heq₂⟩
  rw [heq₂]
  exact
    { within := hwithin
      elsewhere := fun q hq hq' => (hputs.elsewhere q hq).trans (helse₁ q hq hq')
      entry := by
        rw [hchoice]
        exact ⟨file, hfile, got, hget, hputs.entry⟩
      backup := by
        rw [if_pos hchoice]
        exact (hputs.elsewhere _ (Ne.symm h.apart)).trans hsaved
      short := by
        intro _
        rw [backupPath_fullPath h.ne_nil, pathError] at hpath
        split_ifs at hpath with hnil hlong
        exact Nat.not_le.1 hlong
      currentMap := rfl
      nextMap := by
        rw [mergedFor_eq, hchoice, mapGetDigest, hfile]
        exact mapSet_found hfile _ _
      requests := ⟨[], hchoice ▸ rfl, (List.append_nil _).symm⟩
      unmatched := rfl
      matched := rfl
      removed := rfl }

theorem done_drop (hchoice : refs.choiceFor s r content = .drop)
    (hok : (removeLocalFile refs (taken s (relativePath r)) (refs.fullPath r)).2 = none) :
    refs.Done base s (removeLocalFile refs (taken s (relativePath r)) (refs.fullPath r)).1 r content := by
  have hkeeps : (taken s (relativePath r)).Keeps (Below base) (fun _ => True)
      (removeLocalFile refs (taken s (relativePath r)) (refs.fullPath r)).1 :=
    removeLocalFile_keeps h.local.stays.1
  rcases @removeLocalFile_spec refs (taken s (relativePath r)) _ _ h.entry hok with ⟨-, fs, heq, hputs⟩
  have hw := hkeeps.within
  rw [heq] at hw ⊢
  exact
    { within := hw
      elsewhere := fun q hq _ => hputs.elsewhere q hq
      entry := by
        rw [hchoice]
        exact hputs.entry
      backup := by
        rw [hchoice, if_neg nofun]
        exact hputs.elsewhere _ (Ne.symm h.apart)
      short := hchoice ▸ nofun
      currentMap := rfl
      nextMap := by
        rw [mergedFor_eq, hchoice]
        rfl
      requests := ⟨[], hchoice ▸ rfl, (List.append_nil _).symm⟩
      unmatched := rfl
      matched := rfl
      removed := rfl }

/-- A file that was moved to its backup cannot be removed. -/
theorem not_saveDrop : (MereResult.ifOk (conflict refs (taken s (relativePath r)) (refs.fullPath r)) fun s =>
    removeLocalFile refs s (refs.fullPath r)).2 ≠ none := by
  intro hok
  rcases ifOk_ok hok with ⟨hconflict, heq⟩
  rw [heq] at hok
  have hkeeps : (taken s (relativePath r)).Keeps (Below base) (fun _ => True)
      (conflict refs (taken s (relativePath r)) (refs.fullPath r)).1 :=
    @conflict_keeps refs _ _ (taken s (relativePath r)) _ h.ready.noLinks h.local
  rcases @conflict_spec refs _ (taken s (relativePath r)) _ _ _ h.ready.noLinks h.local h.entry h.entry_backup h.apart
    content h.file hconflict with ⟨-, fs₁, heq₁, hgone, -⟩
  have hw₁ := hkeeps.within
  rw [heq₁] at hok hw₁
  have hentry₁ : Scambio.entry refs.cwd fs₁ (refs.fullPath r) = some (base ++ r) :=
    (hw₁.entry_eq h.ready.noLinks).trans h.entry
  exact (@removeLocalFile_spec refs { taken s (relativePath r) with fs := fs₁ } _ _ hentry₁ hok).1 hgone

end Refs.AtFile

/-- What `match_local_file` has done of a file, when it ends without an error. -/
theorem matchLocalFile_done (h : refs.AtFile base s r content)
    (hok : (matchLocalFile refs s (refs.fullPath r) (relativePath r) (refs.digest content)).2 = none) :
    refs.Done base s (matchLocalFile refs s (refs.fullPath r) (relativePath r) (refs.digest content)).1 r content := by
  have htells := @Refs.AtFile.tells refs s r content
  have hremote : ∀ {value}, mapGetDigest s.unmatched (relativePath r) = some value →
      ∃ file, fileSearch s.unmatched (relativePath r) = some file := by
    intro value hvalue
    rcases Option.map_eq_some_iff.1 hvalue with ⟨file, hfile, -⟩
    exact ⟨file, hfile⟩
  rw [matchLocalFile_eq_act] at hok ⊢
  cases hchoice : refs.choiceFor s r content <;> rw [hchoice] at hok htells
  case keep =>
    exact h.done_of_same rfl (.inl hchoice) rfl ⟨[], hchoice ▸ rfl, (List.append_nil _).symm⟩ ⟨rfl, rfl, rfl, rfl⟩
  case give =>
    have hcontent : fileContent refs (taken s (relativePath r)).fs (refs.fullPath r) = .ok content := by
      have hstat : sysStat refs.cwd (taken s (relativePath r)).fs (refs.fullPath r) = .ok (base ++ r) := h.stat
      have hfile : (taken s (relativePath r)).fs.tree.get (base ++ r) = some (.file content) := h.file
      rw [fileContent, hstat]
      simp only [hfile]
    rcases localIsMaster_spec hcontent hok with ⟨hversion, resource, sent, hresource, heq⟩
    simp only [act]
    rw [heq]
    refine h.done_of_same rfl (.inr hchoice) rfl ⟨_, ?_, rfl⟩ ⟨rfl, rfl, rfl, rfl⟩
    rw [hchoice]
    refine ⟨resource, ?_, hversion, rfl⟩
    rcases hresource with ⟨file, hmem, hdigest⟩ | hsent
    · exact .inl ⟨file, mem_taken hmem, hdigest⟩
    · exact .inr hsent
  case take =>
    rcases htells with ⟨-, value, hvalue, -⟩
    rcases hremote hvalue with ⟨file, hfile⟩
    rw [hfile] at hok ⊢
    exact h.done_take hchoice hfile hok
  case saveTake =>
    rcases htells with ⟨-, value, hvalue⟩
    rcases hremote hvalue with ⟨file, hfile⟩
    rw [hfile] at hok ⊢
    exact h.done_saveTake hchoice hfile hok
  case drop => exact h.done_drop hchoice hok
  case saveDrop => exact absurd hok h.not_saveDrop

end Done

/-! ## The walk -/

/-- What a pass starts from: a tree to walk through, with no link in it and a local path of at least nine characters,
the files of the mdir under distinct names, and digests that fit. -/
structure Refs.Mergeable (base : List FileName) (s : Merefs) : Prop where
  nextMap : s.nextMap = []
  walkable : refs.Walkable base s.fs
  long : 9 ≤ refs.stripped.length
  noLinks : s.fs.tree.NoLinks (Below base)
  names : (s.unmatched.map MereFile.name).Nodup
  cut : ∀ file ∈ s.unmatched, file.digest.length ≤ MAX_DIGEST_STRLEN
  digests : ∀ content, (refs.digest content).length ≤ MAX_DIGEST_STRLEN

/-- What the walk has done once these files are done. -/
structure Refs.MergeInv (base : List FileName) (s₀ : Merefs) (done : List (List FileName)) (s : Merefs) : Prop where
  within : s₀.fs.Within (Below base) s.fs
  walkable : refs.Walkable base s.fs
  visible : ∀ r ∈ done, VisibleFile base s₀.fs r
  elsewhere : ∀ q, (∀ r ∈ done, q ≠ base ++ r ∧ q ≠ base ++ backup r) → s.fs.tree.get q = s₀.fs.tree.get q
  entry : ∀ r ∈ done, ∀ content, s₀.fs.tree.get (base ++ r) = some (.file content) →
    refs.EntryAfter base s₀ s.fs r content (refs.choiceFor s₀ r content)
  backup : ∀ r ∈ done, ∀ content, s₀.fs.tree.get (base ++ r) = some (.file content) →
    s.fs.tree.get (base ++ backup r) =
      if refs.choiceFor s₀ r content = .saveTake then some (.file content)
      else s₀.fs.tree.get (base ++ Scambio.backup r)
  currentMap : s.currentMap = s₀.currentMap
  unmatched : s.unmatched = s₀.unmatched.filter fun file => decide (file.name ∉ done.map nameOf)
  files : (s.unmatched ++ s.matched).Perm (s₀.unmatched ++ s₀.matched)
  removed : s.removed = s₀.removed
  nextMap : ∀ r ∈ done, ∀ content, s₀.fs.tree.get (base ++ r) = some (.file content) →
    mapGetDigest s.nextMap (relativePath r) = refs.mergedFor s₀ r content
  nextMapElse : ∀ n, sanitize n ∉ done.map nameOf → mapGetDigest s.nextMap n = mapGetDigest s₀.nextMap n
  requests : ∃ asked : List (List MdirRequest), s.requests = s₀.requests ++ asked.flatten ∧
    List.Forall₂ (fun r reqs => ∃ content, s₀.fs.tree.get (base ++ r) = some (.file content) ∧
      refs.Asks s₀ r content reqs (refs.choiceFor s₀ r content)) done asked

section Walk

variable {refs} {base : List FileName} {s₀ s : Merefs} {done : List (List FileName)} {r : List FileName}
  {content : Bytes}

/-- Taking a file away, where the names are distinct. -/
theorem erase_found {files : List MereFile} (hnames : (files.map MereFile.name).Nodup) (fname : Bytes) :
    (match fileSearch files fname with
      | some file => files.erase file
      | none => files) = files.filter fun file => decide (file.name ≠ sanitize fname) := by
  induction files with
  | nil => rfl
  | cons file files ih =>
      rw [List.map_cons, List.nodup_cons] at hnames
      unfold fileSearch at ih ⊢
      by_cases heq : file.name = sanitize fname
      · rw [List.find?_cons_of_pos (by simpa using heq), List.filter_cons_of_neg (by simpa using heq)]
        simp only [List.erase_cons_head]
        rw [eq_comm, List.filter_eq_self]
        intro file' hmem
        rw [decide_eq_true_iff]
        intro heq'
        exact hnames.1 (heq.trans heq'.symm ▸ List.mem_map_of_mem hmem)
      · rw [List.find?_cons_of_neg (by simpa using heq), List.filter_cons_of_pos (by simpa using heq), ← ih hnames.2]
        cases hfound : files.find? fun file => file.name == sanitize fname with
        | none => rfl
        | some found =>
            have hname : found.name = sanitize fname := by simpa using List.find?_some hfound
            have hne : file ≠ found := fun h => heq (h ▸ hname)
            simp only
            rw [List.erase_cons_tail (by simpa using hne)]

theorem taken_perm (s : Merefs) (fname : Bytes) :
    ((taken s fname).unmatched ++ (taken s fname).matched).Perm (s.unmatched ++ s.matched) := by
  unfold taken
  cases hfound : fileSearch s.unmatched fname with
  | none => exact .refl _
  | some file =>
      have hmem : file ∈ s.unmatched := List.mem_of_find?_eq_some hfound
      simp only [Option.toList_some, List.singleton_append]
      exact List.perm_middle.trans ((List.perm_cons_erase hmem).symm.append_right s.matched)

theorem entryAfter_congr {s' : Merefs} {fs fs' : FileSys} {choice : Choice}
    (hsearch : fileSearch s'.unmatched (relativePath r) = fileSearch s.unmatched (relativePath r))
    (hget : fs'.tree.get (base ++ r) = fs.tree.get (base ++ r)) (h : refs.EntryAfter base s fs r content choice) :
    refs.EntryAfter base s' fs' r content choice := by
  have hfetched : refs.Fetched base s fs r → refs.Fetched base s' fs' r := by
    rintro ⟨file, hfile, got, hgot, hthere⟩
    exact ⟨file, hsearch ▸ hfile, got, hgot, hget.trans hthere⟩
  cases choice with
  | keep => exact hget.trans h
  | give => exact hget.trans h
  | take => exact hfetched h
  | saveTake => exact hfetched h
  | drop => exact hget.trans h
  | saveDrop => exact h

/-- The digests that a merge gives fit. -/
theorem length_mergedFor (h : refs.Mergeable base s) {digest : Bytes} (hdigest : refs.mergedFor s r content = some digest) :
    digest.length ≤ MAX_DIGEST_STRLEN := by
  have hremote : mapGetDigest s.unmatched (relativePath r) = some digest → digest.length ≤ MAX_DIGEST_STRLEN := by
    intro hvalue
    rcases Option.map_eq_some_iff.1 hvalue with ⟨file, hfile, rfl⟩
    exact h.cut file (List.mem_of_find?_eq_some hfile)
  rw [mergedFor_eq] at hdigest
  cases hchoice : refs.choiceFor s r content <;> rw [hchoice] at hdigest
  case keep => exact Option.some.inj hdigest ▸ h.digests content
  case give => exact Option.some.inj hdigest ▸ h.digests content
  case take => exact hremote hdigest
  case saveTake => exact hremote hdigest
  case drop => cases hdigest
  case saveDrop => cases hdigest

theorem Refs.Mergeable.ready (h : refs.Mergeable base s₀) : refs.Ready base s₀.fs where
  named := (sysStat_ok h.walkable.leads).2.1
  heads := sysStat_heading h.walkable.leads
  root := h.walkable.root
  noLinks := h.noLinks

theorem VisibleFile.ne_nil {fs : FileSys} (hroot : fs.tree.get base = some .dir) (h : VisibleFile base fs r) :
    r ≠ [] := by
  rintro rfl
  rcases h.2 with ⟨content, hfile⟩
  rw [List.append_nil, hroot] at hfile
  cases hfile

theorem mergeInv_nil (h : refs.Mergeable base s₀) : refs.MergeInv base s₀ [] s₀ where
  within := .refl _ _
  walkable := h.walkable
  visible := nofun
  elsewhere := fun _ _ => rfl
  entry := nofun
  backup := nofun
  currentMap := rfl
  unmatched := by simp
  files := .refl _
  removed := rfl
  nextMap := nofun
  nextMapElse := fun _ _ => rfl
  requests := ⟨[], (List.append_nil _).symm, .nil⟩

section Step

variable (h : refs.Mergeable base s₀) (hinv : refs.MergeInv base s₀ done s) (hfresh : r ∉ done)
include h hinv hfresh

/-- A name that is not done is searched as at first. -/
theorem fileSearch_fresh (hr : r ≠ []) :
    fileSearch s.unmatched (relativePath r) = fileSearch s₀.unmatched (relativePath r) := by
  have hname : nameOf r ∉ done.map nameOf := by
    intro hmem
    rcases List.mem_map.1 hmem with ⟨r', hr', heq⟩
    have hne := (hinv.visible r' hr').ne_nil h.walkable.root
    exact hfresh (nameOf_injective hne hr heq ▸ hr')
  have hsame : ∀ l : List MereFile,
      fileSearch (l.filter fun file => decide (file.name ∉ done.map nameOf)) (relativePath r) =
        fileSearch l (relativePath r) := by
    intro l
    unfold fileSearch
    rw [List.find?_filter]
    congr 1
    funext file
    by_cases heq : file.name = sanitize (relativePath r)
    · have hnot : file.name ∉ done.map nameOf := heq ▸ hname
      rw [decide_eq_true hnot]
      simp [heq]
    · have hno : (file.name == sanitize (relativePath r)) = false := by simpa using heq
      rw [hno]
      simp
  rw [hinv.unmatched, hsame]

theorem choiceFor_fresh (hr : r ≠ []) (content : Bytes) :
    refs.choiceFor s r content = refs.choiceFor s₀ r content := by
  rw [Refs.choiceFor, Refs.choiceFor, mapGetDigest, fileSearch_fresh h hinv hfresh hr, hinv.currentMap]
  rfl

theorem mergedFor_fresh (hr : r ≠ []) (content : Bytes) :
    refs.mergedFor s r content = refs.mergedFor s₀ r content := by
  rw [Refs.mergedFor, Refs.mergedFor, mapGetDigest, fileSearch_fresh h hinv hfresh hr, hinv.currentMap]
  rfl

omit hfresh in
theorem ready_of_inv : refs.Ready base s.fs :=
  h.ready.keeps hinv.within

theorem same_of_inv (hr : Unhidden r) : s.fs.tree.get (base ++ r) = s₀.fs.tree.get (base ++ r) := by
  apply hinv.elsewhere
  intro r' hr'
  have hne := (hinv.visible r' hr').ne_nil h.walkable.root
  refine ⟨fun heq => ?_, fun heq => unhidden_ne_backup hr hne (List.append_cancel_left heq)⟩
  exact hfresh (List.append_cancel_left heq ▸ hr')

/-- The backup of a file that is not done is untouched. -/
theorem backup_of_inv (hne : r ≠ []) : s.fs.tree.get (base ++ backup r) = s₀.fs.tree.get (base ++ backup r) := by
  apply hinv.elsewhere
  intro r' hr'
  have hvisible := hinv.visible r' hr'
  have hne' := hvisible.ne_nil h.walkable.root
  refine ⟨fun heq => ?_, fun heq => ?_⟩
  · exact unhidden_ne_backup hvisible.1 hne (List.append_cancel_left heq).symm
  · exact hfresh (backup_injective hne hne' (List.append_cancel_left heq) ▸ hr')

theorem atFile_of_inv (hr : Unhidden r) (hfile : s₀.fs.tree.get (base ++ r) = some (.file content)) :
    refs.AtFile base s r content where
  ready := ready_of_inv h hinv
  walkable := hinv.walkable
  unhidden := hr
  file := (same_of_inv h hinv hfresh hr).trans hfile

theorem asks_of_inv (hne : r ≠ []) {reqs : List MdirRequest} {choice : Choice}
    (hasks : refs.Asks s r content reqs choice) : refs.Asks s₀ r content reqs choice := by
  cases choice with
  | give =>
      rcases hasks with ⟨resource, hresource, hversions, heq⟩
      rw [fileSearch_fresh h hinv hfresh hne] at hversions heq
      refine ⟨resource, ?_, hversions, heq⟩
      rcases hresource with ⟨file, hmem, hfile⟩ | hsent
      · refine .inl ⟨file, ?_, hfile⟩
        rw [← List.append_assoc, hinv.removed] at hmem
        rw [← List.append_assoc]
        exact ((hinv.files.append_right s₀.removed).mem_iff).1 hmem
      · exact .inr hsent
  | keep => exact hasks
  | take => exact hasks
  | saveTake => exact hasks
  | drop => exact hasks
  | saveDrop => exact hasks

variable {s' : Merefs} (hr : Unhidden r) (hfile : s₀.fs.tree.get (base ++ r) = some (.file content))
  (hdone : refs.Done base s s' r content)
include hr hfile hdone

/-- A tree in which a file is done can be walked through. -/
theorem walkable_of_done : refs.Walkable base s'.fs := by
  have hat := atFile_of_inv h hinv hfresh hr hfile
  have hlinks := (ready_of_inv h hinv).noLinks
  -- a merge leaves a file at its place, or nothing
  have hnodir : s'.fs.tree.get (base ++ r) ≠ some .dir := by
    intro hdir
    have hentry := hdone.entry
    cases hchoice : refs.choiceFor s r content <;> rw [hchoice] at hentry
    case keep => cases hentry.symm.trans hdir
    case give => cases hentry.symm.trans hdir
    case take =>
      rcases hentry with ⟨_, _, _, _, hget⟩
      cases hget.symm.trans hdir
    case saveTake =>
      rcases hentry with ⟨_, _, _, _, hget⟩
      cases hget.symm.trans hdir
    case drop => cases hentry.symm.trans hdir
    case saveDrop => exact hentry.elim
  refine ⟨?_, hdone.within.tree.dirs base hinv.walkable.root, ?_, hinv.walkable.listed, ?_⟩
  · have hleads := hinv.walkable.leads
    rcases sysStat_ok hleads with ⟨hresolve, hne, hlen⟩
    rw [sysStat, pathError, if_neg hne, if_neg (Nat.not_le.2 hlen)]
    exact hdone.within.tree.resolve_dir hlinks hinv.walkable.root hresolve
  · intro q hq
    by_cases hqr : q = r
    · rw [hqr]
      exact hinv.walkable.short r (hat.file.trans_ne (Option.some_ne_none _))
    · by_cases hqb : q = Scambio.backup r
      · rw [hqb] at hq ⊢
        rw [hdone.backup] at hq
        by_cases hsave : refs.choiceFor s r content = .saveTake
        · exact hdone.short hsave
        · rw [if_neg hsave] at hq
          exact hinv.walkable.short _ hq
      · rw [hdone.elsewhere _ (fun heq => hqr (List.append_cancel_left heq))
          (fun heq => hqb (List.append_cancel_left heq))] at hq
        exact hinv.walkable.short q hq
  · intro q hq
    by_cases hqr : q = r
    · rw [hqr] at hq
      exact absurd hq hnodir
    · by_cases hqb : q = Scambio.backup r
      · rw [hqb] at hq ⊢
        rw [hdone.backup] at hq
        split_ifs at hq with hsave
        · cases hq
        · exact hinv.walkable.depth _ hq
      · rw [hdone.elsewhere _ (fun heq => hqr (List.append_cancel_left heq))
          (fun heq => hqb (List.append_cancel_left heq))] at hq
        exact hinv.walkable.depth q hq

theorem mergeInv_done : refs.MergeInv base s₀ (done ++ [r]) s' := by
  have hat := atFile_of_inv h hinv hfresh hr hfile
  have hne := hat.ne_nil
  have hchoice := choiceFor_fresh h hinv hfresh hne content
  have hmerged := mergedFor_fresh h hinv hfresh hne content
  have hsearch := fileSearch_fresh h hinv hfresh hne
  -- what stands at the files that are done, and at their backups, is not touched
  have hapart : ∀ r' ∈ done, s'.fs.tree.get (base ++ r') = s.fs.tree.get (base ++ r') ∧
      s'.fs.tree.get (base ++ Scambio.backup r') = s.fs.tree.get (base ++ Scambio.backup r') := by
    intro r' hr'
    have hvisible := hinv.visible r' hr'
    have hne' := hvisible.ne_nil h.walkable.root
    have hrr : r' ≠ r := fun heq => hfresh (heq ▸ hr')
    constructor
    · apply hdone.elsewhere
      · exact fun heq => hrr (List.append_cancel_left heq)
      · exact fun heq => unhidden_ne_backup hvisible.1 hne (List.append_cancel_left heq)
    · apply hdone.elsewhere
      · exact fun heq => unhidden_ne_backup hr hne' (List.append_cancel_left heq).symm
      · exact fun heq => hrr (backup_injective hne' hne (List.append_cancel_left heq))
  have hwalkable := walkable_of_done h hinv hfresh hr hfile hdone
  have hlength : (sanitize (relativePath r)).length < PATH_MAX :=
    (length_nameOf_le r).trans_lt (h.walkable.short r (hfile ▸ nofun))
  have hnextMap : ∀ n, mapGetDigest s'.nextMap n =
      if sanitize n = nameOf r then refs.mergedFor s₀ r content else mapGetDigest s.nextMap n := by
    intro n
    rw [hdone.nextMap, hmerged]
    rcases hdigest : refs.mergedFor s₀ r content with _ | digest
    · simp only
      split_ifs with hn
      · have hnot : sanitize n ∉ done.map nameOf := by
          rw [hn]
          intro hmem
          rcases List.mem_map.1 hmem with ⟨r', hr', heq⟩
          exact hfresh (nameOf_injective ((hinv.visible r' hr').ne_nil h.walkable.root) hne heq ▸ hr')
        rw [hinv.nextMapElse n hnot, h.nextMap]
        rfl
      · rfl
    · exact mapGetDigest_mapSet _ hlength (length_mergedFor h hdigest) n
  constructor
  · exact hinv.within.trans hdone.within
  · exact hwalkable
  · intro q hq
    rcases List.mem_append.1 hq with hq | hq
    · exact hinv.visible q hq
    · exact List.mem_singleton.1 hq ▸ ⟨hr, content, hfile⟩
  · intro q hq
    have hlast := hq r (by simp)
    rw [hdone.elsewhere q hlast.1 hlast.2]
    exact hinv.elsewhere q fun r' hr' => hq r' (List.mem_append_left _ hr')
  · intro q hq content' hcontent'
    rcases List.mem_append.1 hq with hq | hq
    · exact entryAfter_congr rfl (hapart q hq).1 (hinv.entry q hq content' hcontent')
    · obtain rfl := List.mem_singleton.1 hq
      obtain rfl : content' = content := Node.file.inj (Option.some.inj (hcontent'.symm.trans hfile))
      rw [← hchoice]
      exact entryAfter_congr hsearch.symm rfl hdone.entry
  · intro q hq content' hcontent'
    rcases List.mem_append.1 hq with hq | hq
    · rw [(hapart q hq).2]
      exact hinv.backup q hq content' hcontent'
    · obtain rfl := List.mem_singleton.1 hq
      obtain rfl : content' = content := Node.file.inj (Option.some.inj (hcontent'.symm.trans hfile))
      rw [hdone.backup, hchoice, backup_of_inv h hinv hfresh hne]
  · rw [hdone.currentMap, hinv.currentMap]
  · have hnames : (s.unmatched.map MereFile.name).Nodup := by
      rw [hinv.unmatched]
      exact h.names.sublist (List.filter_sublist.map MereFile.name)
    rw [hdone.unmatched, erase_found hnames, hinv.unmatched, List.filter_filter]
    congr 1
    funext file
    rw [List.map_append, List.map_singleton, ← Bool.decide_and]
    congr 1
    rw [List.mem_append, not_or, List.mem_singleton, and_comm]
    rfl
  · have hperm := taken_perm s (relativePath r)
    have hunmatched : s'.unmatched = (taken s (relativePath r)).unmatched := hdone.unmatched
    rw [hunmatched, hdone.matched]
    exact hperm.trans hinv.files
  · rw [hdone.removed, hinv.removed]
  · intro q hq content' hcontent'
    rw [hnextMap]
    rcases List.mem_append.1 hq with hq | hq
    · have hne' := (hinv.visible q hq).ne_nil h.walkable.root
      have hname : sanitize (relativePath q) ≠ nameOf r := fun heq => hfresh (nameOf_injective hne' hne heq ▸ hq)
      rw [if_neg hname]
      exact hinv.nextMap q hq content' hcontent'
    · obtain rfl := List.mem_singleton.1 hq
      obtain rfl : content' = content := Node.file.inj (Option.some.inj (hcontent'.symm.trans hfile))
      exact if_pos rfl
  · intro n hn
    rw [List.map_append, List.mem_append, not_or, List.map_singleton, List.mem_singleton] at hn
    rw [hnextMap, if_neg hn.2]
    exact hinv.nextMapElse n hn.1
  · rcases hinv.requests with ⟨asked, hasked, hall⟩
    rcases hdone.requests with ⟨reqs, hreqs, heq⟩
    refine ⟨asked ++ [reqs], ?_, ?_⟩
    · rw [heq, hasked, List.flatten_append, List.append_assoc]
      simp
    · refine List.rel_append hall (.cons ⟨content, hfile, ?_⟩ .nil)
      rw [← hchoice]
      exact asks_of_inv h hinv hfresh hne hreqs

end Step

theorem mergeInv_walkInv (h : refs.Mergeable base s₀) : refs.WalkInv base s₀.fs (refs.MergeInv base s₀) where
  walkable := fun hinv => hinv.walkable
  same := fun hinv hr hfresh => same_of_inv h hinv hfresh hr
  step := by
    intro done s r content hinv hfresh hr hfile hok
    have hdone := matchLocalFile_done (atFile_of_inv h hinv hfresh hr hfile) hok
    exact mergeInv_done h hinv hfresh hr hfile hdone

end Walk

end Scambio
