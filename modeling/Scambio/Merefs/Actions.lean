import Scambio.Library.ThreeWay
import Scambio.Merefs.Walk

/-!
# Actions — what the actions of `match_local_file` do

The cases of `match_local_file` are those of a merge of the local digest, the one of the mdir and the one of the map.
Each action that ends without an error changes the entry of the file, the one of its backup, or nothing.

* `matchCases_eq_act` : the cases are the choices of the merge;
* `remoteIsMaster_spec`, `conflict_spec`, `removeLocalFile_spec`, `localIsMaster_spec` : what each action does.
-/

namespace Scambio

open Library ThreeWay

variable (refs : Refs)

/-! ## One entry -/

/-- Only the entry at `p` changes. -/
structure Puts (p : List FileName) (o : Option (Node Bytes Bytes)) (t t' : DiskTree) : Prop where
  entry : t'.get p = o
  elsewhere : ∀ q, q ≠ p → t'.get q = t.get q

theorem Puts.again {p : List FileName} {o o' : Option (Node Bytes Bytes)} {t t' t'' : DiskTree} (h : Puts p o t t')
    (h' : Puts p o' t' t'') : Puts p o' t t'' :=
  ⟨h'.entry, fun q hq => (h'.elsewhere q hq).trans (h.elsewhere q hq)⟩

section Calls

variable {cwd p : List FileName} {fs fs' : FileSys} {path : Bytes}

theorem sysUnlink_puts (hentry : entry cwd fs path = some p) (h : sysUnlink cwd fs path = .ok fs') :
    fs.tree.get p ≠ none ∧ Puts p none fs.tree fs'.tree := by
  rcases sysCall_ok h with ⟨-, tree, p', hok, rfl⟩
  rcases FileTree.unlink_sets hok with ⟨hplace, heq, hsets⟩
  obtain rfl : p' = p := Option.mem_unique (entry_of_place hplace) hentry
  have hget := FileTree.get_set_of_place hplace hsets.noDir none
  refine ⟨?_, ?_⟩
  · intro hnone
    unfold FileTree.unlink at hok
    rw [hplace] at hok
    simp only [hnone] at hok
    cases hok
  · rw [heq]
    exact ⟨(hget p').trans (if_pos rfl), fun q hq => (hget q).trans (if_neg hq)⟩

theorem sysLink_puts {content : Bytes} (hentry : entry cwd fs path = some p)
    (h : sysLink cwd fs content path = .ok fs') : Puts p (some (.file content)) fs.tree fs'.tree := by
  rcases sysCall_ok h with ⟨-, tree, p', hok, rfl⟩
  rcases FileTree.link_ok hok with ⟨hplace, hnone, rfl⟩
  obtain rfl : p' = p := Option.mem_unique (entry_of_place hplace) hentry
  have hget := FileTree.get_set_of_place hplace (hnone ▸ nofun) (some (.file content))
  refine ⟨(hget p').trans (if_pos rfl), fun q hq => (hget q).trans (if_neg hq)⟩

theorem sysCreat_puts {content : Bytes} (hentry : entry cwd fs path = some p) (hlink : fs.tree.linkAt p = none)
    (h : sysCreat cwd fs content path = .ok fs') : Puts p (some (.file content)) fs.tree fs'.tree := by
  rcases sysCall_ok h with ⟨-, tree, p', hok, rfl⟩
  unfold FileTree.creat at hok
  split at hok
  · cases hok
  next r hplace =>
    obtain rfl : r = p := Option.mem_unique (entry_of_place hplace) hentry
    split at hok
    · cases hok
    next target htarget =>
      rw [FileTree.linkAt_eq_some.2 htarget] at hlink
      cases hlink
    next hdir _ =>
      cases hok
      have hget := FileTree.get_set_of_place hplace (fun heq => hdir heq) (some (.file content))
      refine ⟨(hget p').trans (if_pos rfl), fun q hq => (hget q).trans (if_neg hq)⟩

/-- A file is renamed. -/
theorem sysRename_puts {newPath content : Bytes} {q : List FileName} (hentry : entry cwd fs path = some p)
    (hnew : entry cwd fs newPath = some q) (hne : p ≠ q) (hfile : fs.tree.get p = some (.file content))
    (h : sysRename cwd fs path newPath = .ok fs') :
    pathError newPath = none ∧
      ∃ t, Puts p none fs.tree t ∧ Puts q (some (.file content)) t fs'.tree := by
  unfold sysRename at h
  split at h
  · cases h
  · cases h
  next _ hnewPath =>
    refine ⟨hnewPath, ?_⟩
    split at h
    · cases h
    next tree p' q' hok =>
      cases h
      unfold FileTree.rename at hok
      split at hok
      · cases hok
      · cases hok
      next r r' hr hr' =>
        obtain rfl : r = p := Option.mem_unique (entry_of_place hr) hentry
        obtain rfl : r' = q := Option.mem_unique (entry_of_place hr') hnew
        simp only [hfile, if_neg hne] at hok
        split at hok
        · cases hok
        next hnodir =>
          cases hok
          have hdir : fs.tree.get p' ≠ some .dir := by
            rw [hfile]
            exact nofun
          have hget := FileTree.get_set_of_place hr hdir none
          refine ⟨fs.tree.set p' none, ⟨(hget p').trans (if_pos rfl), fun x hx => (hget x).trans (if_neg hx)⟩, ?_⟩
          rcases FileTree.place_ok hr' with ⟨dir, a, rfl, hto⟩
          have hto' : (fs.tree.set p' none).get dir = some .dir := by
            rw [hget, if_neg, hto]
            rintro rfl
            exact hdir hto
          have hq : (fs.tree.set p' none).get (dir ++ [a]) ≠ some .dir := by
            rw [hget, if_neg (Ne.symm hne)]
            exact fun heq => hnodir heq
          exact ⟨FileTree.get_set hto' hq _, fun x hx => FileTree.get_set_of_ne hx _⟩

end Calls

/-! ## Paths whose directories are there -/

/-- The directories that a path goes through are there. -/
def Refs.Passed (fs : FileSys) (path : Bytes) : Prop :=
  ∀ start rest, path = start ++ 47 :: rest → start ≠ [] → fs.HarmlessDir (fun _ => False) refs.cwd start

section Passed

variable {refs} {fs fs' : FileSys} {path : Bytes}

theorem passed_of_stat {p : List FileName} (h : sysStat refs.cwd fs path = .ok p) : refs.Passed fs path := by
  rintro start rest rfl hne
  exact sysStat_through hne h

theorem Refs.Passed.keeps {P : List FileName → Prop} (h : refs.Passed fs path) (hw : fs.Within P fs')
    (hlinks : fs.tree.NoLinks P) : refs.Passed fs' path := by
  intro start rest heq hne p hp
  rw [hw.entry_eq hlinks] at hp
  rcases h start rest heq hne p hp with hdir | hlink | hfalse
  · exact .inl (hw.tree.dirs p hdir)
  · rw [hw.tree.linkAt_eq hlinks]
    exact .inr (.inl hlink)
  · exact hfalse.elim

/-- Nothing is made for a path whose directories are there. -/
theorem Refs.Passed.mkdirForFile (h : refs.Passed fs path) (hlen : path.length < PATH_MAX) (q : List FileName) :
    (mkdirForFile refs.cwd fs path).1.tree.get q = fs.tree.get q := by
  have hwithin : fs.Within (fun _ => False) (Scambio.mkdirForFile refs.cwd fs path).1 :=
    mkdirForFile_within (.inr nofun) hlen h
  exact hwithin.tree.outside q not_false

end Passed

/-! ## The choices -/

/-- What `match_local_file` does for a choice of the merge. -/
def act (s : Merefs) (remoteFile : Option MereFile) (fpath fname digest : Bytes) : Choice → MereResult
  | .keep => keepMap s fname digest
  | .give => localIsMaster refs s remoteFile fpath fname digest
  | .take =>
      match remoteFile with
      | some file => remoteIsMaster refs s file fpath
      | none => (s, none)
  | .saveTake =>
      MereResult.ifOk (conflict refs s fpath) fun s =>
        match remoteFile with
        | some file => remoteIsMaster refs s file fpath
        | none => (s, none)
  | .drop => removeLocalFile refs s fpath
  | .saveDrop => MereResult.ifOk (conflict refs s fpath) fun s => removeLocalFile refs s fpath

theorem matchCases_eq_act (s : Merefs) (remoteFile : Option MereFile) (mapDigest : Option Bytes)
    (fpath fname digest : Bytes) :
    matchCases refs s remoteFile mapDigest fpath fname digest =
      act refs s remoteFile fpath fname digest (choose digest (remoteFile.map MereFile.digest) mapDigest) := by
  rcases remoteFile with _ | file <;> rcases mapDigest with _ | mapDigest
  · rfl
  · simp only [matchCases, Option.map_none, choose]
    split_ifs with h
    · rfl
    · rfl
  · simp only [matchCases, Option.map_some, choose]
    split_ifs with h
    · rfl
    · rfl
  · simp only [matchCases, Option.map_some, choose]
    split_ifs with h h' h''
    · rw [h]
      rfl
    · rfl
    · rfl
    · rfl

/-! ## What each action does -/

/-- A resource that holds this content, or is said to in the mdir. -/
def Refs.ResourceFor (s : Merefs) (content resource : Bytes) : Prop :=
  (∃ file ∈ s.unmatched ++ (s.matched ++ s.removed), file.digest = refs.digest content ∧ file.resource = resource) ∨
    ∃ sent, refs.sendFile sent content = .ok resource

section Actions

variable {refs} {P : List FileName → Prop} {s : Merefs} {p q : List FileName} {fpath : Bytes}

theorem unlinkIfThere_fs (refs : Refs) (s : Merefs) (fpath : Bytes) :
    ∃ fs, (unlinkIfThere refs s fpath).1 = { s with fs := fs } ∧
      (fs = s.fs ∨ sysUnlink refs.cwd s.fs fpath = .ok fs) := by
  unfold unlinkIfThere
  split
  next fs hok => exact ⟨fs, rfl, .inr hok⟩
  · exact ⟨s.fs, rfl, .inl rfl⟩
  · exact ⟨s.fs, rfl, .inl rfl⟩

theorem installFile_fs {content : Bytes} (hok : (installFile refs s content fpath).2 = none) :
    ∃ fs, (installFile refs s content fpath).1 = { s with fs := fs } ∧
      (sysLink refs.cwd s.fs content fpath = .ok fs ∨ sysCreat refs.cwd s.fs content fpath = .ok fs) := by
  unfold installFile at hok ⊢
  split at hok
  next hlinks =>
    rw [if_pos hlinks]
    split at hok
    · cases hok
    next fs heq => exact ⟨fs, rfl, .inl heq⟩
  next hlinks =>
    rw [if_neg hlinks]
    split at hok
    · cases hok
    next fs heq => exact ⟨fs, rfl, .inr heq⟩

theorem removeLocalFile_spec (hentry : entry refs.cwd s.fs fpath = some p)
    (hok : (removeLocalFile refs s fpath).2 = none) :
    s.fs.tree.get p ≠ none ∧
      ∃ fs, (removeLocalFile refs s fpath).1 = { s with fs := fs } ∧ Puts p none s.fs.tree fs.tree := by
  unfold removeLocalFile at hok ⊢
  split at hok
  · cases hok
  next fs heq =>
    rcases sysUnlink_puts hentry heq with ⟨hsome, hputs⟩
    exact ⟨hsome, fs, rfl, hputs⟩

/-- The file is there, with the contents of its resource, once its directories are. -/
theorem remoteIsMaster_spec (hlinks : s.fs.tree.NoLinks P) (hlen : fpath.length < PATH_MAX)
    (hstays : refs.Stays P s.fs fpath) (hentry : entry refs.cwd s.fs fpath = some p) {file : MereFile}
    (hok : (remoteIsMaster refs s file fpath).2 = none) :
    ∃ content fs, refs.getFile file.resource = .ok content ∧
      Puts p (some (.file content)) (mkdirForFile refs.cwd s.fs fpath).1.tree fs.tree ∧
      (remoteIsMaster refs s file fpath).1 =
        { s with fs := fs, got := file.resource :: s.got, nextMap := mapSet s.nextMap file.name file.digest } := by
  have hclear : s.fs.Clear P := .inr hlinks
  have hmade := mkdirForFile_within hclear hlen hstays.2
  unfold remoteIsMaster at hok ⊢
  rcases ifOk_ok hok with ⟨-, heq⟩
  rw [heq] at hok ⊢
  split at hok
  · cases hok
  next content hget =>
    simp only
    rcases ifOk_ok hok with ⟨-, heq⟩
    rw [heq] at hok ⊢
    rcases ifOk_ok hok with ⟨hinstalled, heq⟩
    rw [heq]
    generalize hfs₁ : (mkdirForFile refs.cwd s.fs fpath).1 = fs₁ at *
    rcases unlinkIfThere_fs refs { s with fs := fs₁, got := file.resource :: s.got } fpath with ⟨fs₂, heq₂, hunlink⟩
    rw [heq₂] at hinstalled ⊢
    rcases installFile_fs hinstalled with ⟨fs₃, heq₃, hinstall⟩
    rw [heq₃]
    have hentry₁ : entry refs.cwd fs₁ fpath = some p := (hmade.entry_eq hlinks).trans hentry
    -- what is there is removed first
    have hbefore : entry refs.cwd fs₂ fpath = some p ∧ fs₂.tree.linkAt p = none ∧
        ∀ x, x ≠ p → fs₂.tree.get x = fs₁.tree.get x := by
      have hlinks₁ := hmade.tree.noLinks hlinks
      have hlinkAt : fs₁.tree.linkAt p = none := by
        rcases hstays.1 p hentry with hdir | hP
        · exact FileTree.linkAt_of_dir (hmade.tree.dirs p hdir)
        · exact hlinks₁ p hP
      rcases hunlink with rfl | hunlink
      · exact ⟨hentry₁, hlinkAt, fun _ _ => rfl⟩
      · have hw : fs₁.Within P fs₂ := sysUnlink_within (hstays.1.mono hmade hclear) hunlink
        refine ⟨(hw.entry_eq hlinks₁).trans hentry₁, ?_, (sysUnlink_puts hentry₁ hunlink).2.elsewhere⟩
        rw [hw.tree.linkAt_eq hlinks₁]
        exact hlinkAt
    rcases hbefore with ⟨hentry₂, hlink₂, helse⟩
    have hputs : Puts p (some (.file content)) fs₂.tree fs₃.tree := by
      rcases hinstall with h | h
      · exact sysLink_puts hentry₂ h
      · exact sysCreat_puts hentry₂ hlink₂ h
    refine ⟨content, fs₃, hget, ⟨hputs.entry, fun x hx => ?_⟩, rfl⟩
    exact (hputs.elsewhere x hx).trans (helse x hx)

/-- The file is moved to its backup. -/
theorem conflict_spec (hlinks : s.fs.tree.NoLinks P) (hlocal : refs.Local P s.fs fpath)
    (hentry : entry refs.cwd s.fs fpath = some p) (hbackup : entry refs.cwd s.fs (backupPath refs fpath) = some q)
    (hne : p ≠ q) {content : Bytes} (hfile : s.fs.tree.get p = some (.file content))
    (hok : (conflict refs s fpath).2 = none) :
    pathError (backupPath refs fpath) = none ∧ ∃ fs, (conflict refs s fpath).1 = { s with fs := fs } ∧
      fs.tree.get p = none ∧ fs.tree.get q = some (.file content) ∧
      ∀ x, x ≠ p → x ≠ q → fs.tree.get x = s.fs.tree.get x := by
  unfold conflict at hok ⊢
  rcases unlinkIfThere_fs refs s (backupPath refs fpath) with ⟨fs₁, heq₁, hunlink⟩
  simp only [heq₁] at hok ⊢
  -- an older backup is removed
  have hbefore : s.fs.Within P fs₁ ∧ ∀ x, x ≠ q → fs₁.tree.get x = s.fs.tree.get x := by
    rcases hunlink with rfl | hunlink
    · exact ⟨.refl _ _, fun _ _ => rfl⟩
    · exact ⟨sysUnlink_within (fun x hx => .inr (hlocal.backup x hx)) hunlink,
        (sysUnlink_puts hbackup hunlink).2.elsewhere⟩
  rcases hbefore with ⟨hw, helse⟩
  split at hok
  · cases hok
  next fs₂ hrename =>
    have hfile₁ : fs₁.tree.get p = some (.file content) := (helse p hne).trans hfile
    rcases sysRename_puts ((hw.entry_eq hlinks).trans hentry) ((hw.entry_eq hlinks).trans hbackup) hne hfile₁ hrename with
      ⟨hpath, t, hgone, hputs⟩
    refine ⟨hpath, fs₂, rfl, ?_, hputs.entry, ?_⟩
    · rw [hputs.elsewhere p hne, hgone.entry]
    · intro x hxp hxq
      rw [hputs.elsewhere x hxq, hgone.elsewhere x hxp, helse x hxq]

/-- A patch with the file is requested, and the removal of the one it replaces. -/
theorem localIsMaster_spec {remoteFile : Option MereFile} {fname content : Bytes}
    (hcontent : fileContent refs s.fs fpath = .ok content)
    (hok : (localIsMaster refs s remoteFile fpath fname (refs.digest content)).2 = none) :
    (∀ file ∈ remoteFile, 0 < file.version) ∧ ∃ resource sent, refs.ResourceFor s content resource ∧
      (localIsMaster refs s remoteFile fpath fname (refs.digest content)).1 =
        { s with
          requests := s.requests ++ .add (fileHeader fname (refs.digest content) resource) ::
            (remoteFile.map fun file => MdirRequest.del file.version).toList
          sent := sent
          nextMap := mapSet s.nextMap fname (refs.digest content) } := by
  -- a known resource with that digest is used again, else the file is sent
  have hupload : ∀ s' resource, uploadFile refs s fpath (refs.digest content) = (s', .ok resource) →
      refs.ResourceFor s content resource ∧ ∃ sent, s' = { s with sent := sent } := by
    intro s' resource h
    unfold uploadFile at h
    split at h
    next known hknown =>
      cases h
      refine ⟨.inl ?_, s.sent, rfl⟩
      rcases Option.map_eq_some_iff.1 hknown with ⟨file, hfile, hresource⟩
      refine ⟨file, ?_, ?_, hresource⟩
      · rcases Option.or_eq_some_iff.1 hfile with h | ⟨-, h⟩
        · exact List.mem_append_left _ (List.mem_of_find?_eq_some h)
        · rcases Option.or_eq_some_iff.1 h with h | ⟨-, h⟩
          · exact List.mem_append_right _ (List.mem_append_left _ (List.mem_of_find?_eq_some h))
          · exact List.mem_append_right _ (List.mem_append_right _ (List.mem_of_find?_eq_some h))
      · rcases Option.or_eq_some_iff.1 hfile with h | ⟨-, h⟩
        · simpa using List.find?_some h
        · rcases Option.or_eq_some_iff.1 h with h | ⟨-, h⟩
          · simpa using List.find?_some h
          · simpa using List.find?_some h
    · rw [hcontent] at h
      simp only at h
      split at h
      · cases h
      next resource' hsend =>
        cases h
        exact ⟨.inr ⟨s.sent, hsend⟩, _, rfl⟩
  unfold localIsMaster at hok ⊢
  split at hok
  · cases hok
  next s' resource heq =>
    rcases hupload s' resource heq with ⟨hresource, sent, rfl⟩
    rcases ifOk_ok hok with ⟨hdeleted, heq⟩
    simp only
    rw [heq]
    rcases remoteFile with _ | file
    · exact ⟨nofun, resource, sent, hresource, rfl⟩
    · simp only [delRequest] at hdeleted ⊢
      split at hdeleted
      · cases hdeleted
      next hpos =>
        refine ⟨fun f hf => ?_, resource, sent, hresource, ?_⟩
        · cases hf
          omega
        · rw [if_neg hpos]
          simp

end Actions

end Scambio
