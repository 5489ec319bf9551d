import Scambio.Merefs.Readmdir

/-!
# Frames — what the actions of merefs leave as it was

`Keeps` tells what each function of a pass keeps: it touches only entries of `P`, does not change the map it reads,
and takes only files of `M` from the list of unmatched ones.
-/

namespace Scambio

open Library

variable (refs : Refs)

/-- A file that is made at a path, and the directories it is in, are in `P` unless they are there. -/
def Refs.Stays (P : List FileName → Prop) (fs : FileSys) (path : Bytes) : Prop :=
  fs.Harmless P refs.cwd path ∧
    ∀ start rest, path = start ++ 47 :: rest → start ≠ [] → fs.HarmlessDir P refs.cwd start

section Stays

variable {refs} {P : List FileName → Prop} {fs fs' : FileSys} {path : Bytes}

theorem Refs.Stays.mono (h : refs.Stays P fs path) (hw : fs.Within P fs') (hclear : fs.Clear P) :
    refs.Stays P fs' path :=
  ⟨h.1.mono hw hclear, fun start rest heq hne => (h.2 start rest heq hne).mono hw hclear⟩

theorem Refs.Stays.back (h : refs.Stays P fs' path) (hw : fs.Within P fs') (hlinks : fs.tree.NoLinks P) :
    refs.Stays P fs path :=
  ⟨h.1.back hw hlinks, fun start rest heq hne => (h.2 start rest heq hne).back hw hlinks⟩

theorem Refs.Stays.anywhere : refs.Stays (fun _ => True) fs path :=
  ⟨fun _ _ => .inr trivial, fun _ _ _ _ _ _ => .inr (.inr trivial)⟩

end Stays

/-- From `files` to `files'` only files of `M` are taken away. -/
structure Taken (M : MereFile → Prop) (files files' : List MereFile) : Prop where
  subset : files' ⊆ files
  taken : ∀ file ∈ files, file ∈ files' ∨ M file

theorem Taken.refl (M : MereFile → Prop) (files : List MereFile) : Taken M files files :=
  ⟨List.Subset.refl _, fun _ => .inl⟩

theorem Taken.trans {M : MereFile → Prop} {files files' files'' : List MereFile} (h : Taken M files files')
    (h' : Taken M files' files'') : Taken M files files'' where
  subset := List.Subset.trans h'.subset h.subset
  taken := fun file hfile => (h.taken file hfile).elim (h'.taken file) .inr

theorem Taken.erase {M : MereFile → Prop} (files : List MereFile) {file : MereFile} (h : M file) :
    Taken M files (files.erase file) where
  subset := List.erase_subset
  taken := by
    intro file' hfile'
    by_cases heq : file' = file
    · exact .inr (heq ▸ h)
    · exact .inl ((List.mem_erase_of_ne heq).2 hfile')

/-- What a function of a pass keeps. -/
structure Merefs.Keeps (P : List FileName → Prop) (M : MereFile → Prop) (s s' : Merefs) : Prop where
  within : s.fs.Within P s'.fs
  currentMap : s'.currentMap = s.currentMap
  unmatched : Taken M s.unmatched s'.unmatched

namespace Merefs.Keeps

variable {P : List FileName → Prop} {M : MereFile → Prop} {s s' s'' : Merefs}

theorem refl (s : Merefs) : s.Keeps P M s :=
  ⟨.refl _ _, rfl, .refl _ _⟩

theorem trans (h : s.Keeps P M s') (h' : s'.Keeps P M s'') : s.Keeps P M s'' :=
  ⟨h.within.trans h'.within, h'.currentMap.trans h.currentMap, h.unmatched.trans h'.unmatched⟩

/-- Only the tree changes. -/
theorem of_fs {fs : FileSys} (h : s.fs.Within P fs) : s.Keeps P M { s with fs := fs } :=
  ⟨h, rfl, .refl _ _⟩

theorem ifOk {r : MereResult} {next : Merefs → MereResult} (h : s.Keeps P M r.1)
    (hnext : ∀ s', s.Keeps P M s' → s'.Keeps P M (next s').1) : s.Keeps P M (r.ifOk next).1 := by
  unfold MereResult.ifOk
  split
  · exact h
  · exact h.trans (hnext _ h)

end Merefs.Keeps

theorem ifOk_cases (r : MereResult) (next : Merefs → MereResult) :
    r.2 ≠ none ∧ r.ifOk next = r ∨ r.2 = none ∧ r.ifOk next = next r.1 := by
  unfold MereResult.ifOk
  split
  next e he => exact .inl ⟨he ▸ Option.some_ne_none e, rfl⟩
  next hnone => exact .inr ⟨hnone, rfl⟩

theorem ifOk_ok {r : MereResult} {next : Merefs → MereResult} (h : (r.ifOk next).2 = none) :
    r.2 = none ∧ r.ifOk next = next r.1 := by
  rcases ifOk_cases r next with ⟨herr, heq⟩ | hok
  · exact absurd (heq ▸ h) herr
  · exact hok

/-! ## The actions -/

section Actions

variable {refs} {P : List FileName → Prop} {M : MereFile → Prop} {s : Merefs} {fpath : Bytes}

theorem unlinkIfThere_keeps (hsafe : s.fs.Harmless P refs.cwd fpath) :
    s.Keeps P M (unlinkIfThere refs s fpath).1 := by
  unfold unlinkIfThere
  split
  next fs hok => exact .of_fs (sysUnlink_within hsafe hok)
  · exact .refl s
  · exact .refl s

theorem installFile_keeps {content : Bytes} (hclear : s.fs.Clear P) (hsafe : s.fs.Harmless P refs.cwd fpath) :
    s.Keeps P M (installFile refs s content fpath).1 := by
  unfold installFile
  split
  · split
    · exact .refl s
    next fs hok => exact .of_fs (sysLink_within hsafe hok)
  · split
    · exact .refl s
    next fs hok => exact .of_fs (sysCreat_within hclear hsafe hok)

theorem remoteIsMaster_keeps (hclear : s.fs.Clear P) (hlen : fpath.length < PATH_MAX)
    (hstays : refs.Stays P s.fs fpath) (file : MereFile) : s.Keeps P M (remoteIsMaster refs s file fpath).1 := by
  rcases hstays with ⟨hsafe, hdirs⟩
  unfold remoteIsMaster
  have hmade : s.Keeps P M { s with fs := (mkdirForFile refs.cwd s.fs fpath).1 } :=
    .of_fs (mkdirForFile_within hclear hlen hdirs)
  apply hmade.ifOk
  intro s₁ h₁
  split
  · exact .refl _
  · apply Merefs.Keeps.ifOk
    · have hgot : s₁.Keeps P M { s₁ with got := file.resource :: s₁.got } := ⟨.refl _ _, rfl, .refl _ _⟩
      exact hgot.trans (unlinkIfThere_keeps (hsafe.mono h₁.within hclear))
    · intro s₂ h₂
      have h : s.Keeps P M s₂ := h₁.trans h₂
      apply (installFile_keeps (hclear.keeps h.within) (hsafe.mono h.within hclear)).ifOk
      intro s₃ _
      exact ⟨.refl _ _, rfl, .refl _ _⟩

/-- What a file that was installed tells of its path. -/
theorem installFile_ok {content : Bytes} (hok : (installFile refs s content fpath).2 = none) :
    ∃ p q, s.fs.tree.place followLink MAXSYMLINKS (pathStart refs.cwd fpath) (pathSteps fpath) = .ok p ∧
      pathError fpath = none ∧ (q = p ∨ s.fs.tree.linkAt p ≠ none) ∧
      (installFile refs s content fpath).1.fs.touched = q :: s.fs.touched := by
  unfold installFile at hok ⊢
  split at hok
  next hlinks =>
    rw [if_pos hlinks]
    split at hok
    · cases hok
    next fs heq =>
      rcases sysCall_ok heq with ⟨hpath, tree, p, hcall, rfl⟩
      rcases FileTree.link_sets (by rintro _ h; cases h) hcall with ⟨hplace, -, -⟩
      exact ⟨p, p, hplace, hpath, .inl rfl, rfl⟩
  next hlinks =>
    rw [if_neg hlinks]
    split at hok
    · cases hok
    next fs heq =>
      rcases sysCall_ok heq with ⟨hpath, tree, q, hcall, rfl⟩
      rcases FileTree.creat_sets hcall with ⟨p, hplace, hq, -⟩
      exact ⟨p, q, hplace, hpath, hq, rfl⟩

/-- After `unlinkIfThere` no link is at the entry, where only entries without links are touched. -/
theorem unlinkIfThere_noLink {p : List FileName} (hlinks : s.fs.tree.NoLinks P)
    (hok : (unlinkIfThere refs s fpath).2 = none) (hw : s.fs.Within P (unlinkIfThere refs s fpath).1.fs)
    (hpath : pathError fpath = none)
    (hplace : (unlinkIfThere refs s fpath).1.fs.tree.place followLink MAXSYMLINKS (pathStart refs.cwd fpath)
      (pathSteps fpath) = .ok p) : (unlinkIfThere refs s fpath).1.fs.tree.linkAt p = none := by
  have hentry := @FileSys.Within.entry_eq _ _ _ refs.cwd fpath hw hlinks
  have hlinkAt := hw.tree.linkAt_eq hlinks
  unfold unlinkIfThere at hok hw hplace hentry hlinkAt ⊢
  split at hok
  next fs heq =>
    simp only [heq] at hw hplace hentry hlinkAt ⊢
    rcases sysCall_ok heq with ⟨-, tree, q, hcall, rfl⟩
    rcases FileTree.unlink_sets hcall with ⟨hplace', -, hsets⟩
    have hpq : q = p := by
      have h := entry_of_place hplace
      rw [hentry] at h
      exact Option.mem_unique (entry_of_place hplace') h
    rcases hw with ⟨new, htouch, hnew⟩
    have hmem : q ∈ new := by
      have h : q :: s.fs.touched = new ++ s.fs.touched := htouch.touched
      have hnew : [q] = new := List.append_cancel_right h
      exact hnew ▸ List.mem_singleton_self q
    rw [hlinkAt, ← hpq]
    exact hlinks q (hnew q hmem)
  next heq =>
    simp only [heq] at hplace ⊢
    rw [FileTree.linkAt, sysUnlink_noent heq hpath hplace]
  · cases hok

theorem unlinkIfThere_noDir {p : List FileName} (hp : s.fs.tree.get p ≠ some .dir) :
    (unlinkIfThere refs s fpath).1.fs.tree.get p ≠ some .dir := by
  unfold unlinkIfThere
  split
  next fs hok =>
    rcases sysUnlink_get p hok with heq | hnone
    · exact fun h => hp (heq.symm.trans h)
    · exact fun h => nomatch hnone.symm.trans h
  · exact hp
  · exact hp

theorem remoteIsMaster_ok {file : MereFile} (hok : (remoteIsMaster refs s file fpath).2 = none) :
    ∃ s₁ content, s₁.fs = (mkdirForFile refs.cwd s.fs fpath).1 ∧ (unlinkIfThere refs s₁ fpath).2 = none ∧
      (installFile refs (unlinkIfThere refs s₁ fpath).1 content fpath).2 = none ∧
      (remoteIsMaster refs s file fpath).1.fs =
        (installFile refs (unlinkIfThere refs s₁ fpath).1 content fpath).1.fs := by
  unfold remoteIsMaster at hok ⊢
  rcases ifOk_ok hok with ⟨-, heq⟩
  rw [heq] at hok ⊢
  split at hok
  · cases hok
  next content hget =>
    simp only
    rcases ifOk_ok hok with ⟨hunlinked, heq⟩
    rw [heq] at hok ⊢
    rcases ifOk_ok hok with ⟨hinstalled, heq⟩
    rw [heq]
    exact ⟨_, content, rfl, hunlinked, hinstalled, rfl⟩

/-- Where a creation only touches entries of `P`, its path only goes through what is there and through `P`. -/
theorem remoteIsMaster_stays (hlinks : s.fs.tree.NoLinks P) (hlen : fpath.length < PATH_MAX) {file : MereFile}
    (hok : (remoteIsMaster refs s file fpath).2 = none)
    (hw : s.fs.Within P (remoteIsMaster refs s file fpath).1.fs) : refs.Stays P s.fs fpath := by
  rcases remoteIsMaster_ok hok with ⟨s₁, content, hs₁, hunlinked, hinstalled, heq⟩
  rw [heq] at hw
  have hmade : s.fs.Within (fun _ => True) s₁.fs := by
    rw [hs₁]
    exact mkdirForFile_within FileSys.clear_anywhere hlen Refs.Stays.anywhere.2
  have hunlink : s₁.Keeps (fun _ => True) (fun _ => True) (unlinkIfThere refs s₁ fpath).1 :=
    unlinkIfThere_keeps Refs.Stays.anywhere.1
  have hinstall : (unlinkIfThere refs s₁ fpath).1.Keeps (fun _ => True) (fun _ => True)
      (installFile refs (unlinkIfThere refs s₁ fpath).1 content fpath).1 :=
    installFile_keeps FileSys.clear_anywhere Refs.Stays.anywhere.1
  -- each of the three steps only touches entries of `P`
  rcases (hmade.trans hunlink.within).split hinstall.within hw with ⟨hbefore, hlast⟩
  rcases hmade.split hunlink.within hbefore with ⟨hfirst, hsecond⟩
  rcases installFile_ok hinstalled with ⟨p, q, hplace, hpath, hpq, htouched⟩
  have hnoLink := unlinkIfThere_noLink (hfirst.tree.noLinks hlinks) hunlinked hsecond hpath hplace
  constructor
  · intro r hr
    rw [← hbefore.entry_eq hlinks] at hr
    have hrp : r = p := Option.mem_unique hr (entry_of_place hplace)
    rcases hlast with ⟨new, htouch, hnew⟩
    have hnewq : new = [q] := List.append_cancel_right (htouch.touched.symm.trans htouched)
    rw [hnewq, List.forall_mem_singleton, hpq.resolve_right (not_not.2 hnoLink), ← hrp] at hnew
    exact .inr hnew
  · rintro start rest rfl hne
    exact (place_through hne hplace).back hbefore hlinks

theorem removeLocalFile_keeps (hsafe : s.fs.Harmless P refs.cwd fpath) :
    s.Keeps P M (removeLocalFile refs s fpath).1 := by
  unfold removeLocalFile
  split
  · exact .refl s
  next fs hok => exact .of_fs (sysUnlink_within hsafe hok)

theorem delRequest_keeps (version : Int) : s.Keeps P M (delRequest s version).1 := by
  unfold delRequest
  split
  · exact .refl s
  · exact ⟨.refl _ _, rfl, .refl _ _⟩

theorem localIsMaster_keeps (file : Option MereFile) (fname digest : Bytes) :
    s.Keeps P M (localIsMaster refs s file fpath fname digest).1 := by
  have hupload : s.Keeps P M (uploadFile refs s fpath digest).1 := by
    unfold uploadFile
    split
    · exact .refl s
    · split
      · exact .refl s
      · split
        · exact .refl s
        · exact ⟨.refl _ _, rfl, .refl _ _⟩
  unfold localIsMaster
  split
  next s₁ e heq =>
    rw [heq] at hupload
    exact hupload
  next s₁ resource heq =>
    rw [heq] at hupload
    apply Merefs.Keeps.ifOk
    · have hrequest : s₁.Keeps P M { s₁ with requests := s₁.requests ++ [.add (fileHeader fname digest resource)] } :=
        ⟨.refl _ _, rfl, .refl _ _⟩
      apply hupload.trans
      apply hrequest.trans
      split
      · exact delRequest_keeps _
      · exact .refl _
    · intro s₂ _
      exact ⟨.refl _ _, rfl, .refl _ _⟩

/-- A file of the local tree, at a path that the walk through it makes. -/
structure Refs.Local (refs : Refs) (P : List FileName → Prop) (fs : FileSys) (fpath : Bytes) : Prop where
  length : fpath.length < PATH_MAX
  file : ∀ p ∈ entry refs.cwd fs fpath, fs.tree.get p ≠ some .dir ∧ P p
  through : ∀ start rest, fpath = start ++ 47 :: rest → start ≠ [] → fs.HarmlessDir P refs.cwd start
  backup : ∀ p ∈ entry refs.cwd fs (backupPath refs fpath), P p

theorem Refs.Local.stays {fs : FileSys} (h : refs.Local P fs fpath) : refs.Stays P fs fpath :=
  ⟨fun p hp => .inr (h.file p hp).2, h.through⟩

variable (hlinks : s.fs.tree.NoLinks P) (hlocal : refs.Local P s.fs fpath)
include hlinks hlocal

theorem conflict_keeps : s.Keeps P M (conflict refs s fpath).1 := by
  unfold conflict
  have hunlink : s.Keeps P M (unlinkIfThere refs s (backupPath refs fpath)).1 :=
    unlinkIfThere_keeps fun p hp => .inr (hlocal.backup p hp)
  have hentry : ∀ path, entry refs.cwd (unlinkIfThere refs s (backupPath refs fpath)).1.fs path =
      entry refs.cwd s.fs path := fun _ => hunlink.within.entry_eq hlinks
  simp only
  split
  · exact hunlink
  next fs hok =>
    refine hunlink.trans (.of_fs (sysRename_within ?_ ?_ hok))
    · intro p hp
      rw [hentry] at hp
      rcases hlocal.file p hp with ⟨hdir, hP⟩
      exact ⟨unlinkIfThere_noDir hdir, hunlink.within.tree.noLinks hlinks p hP, hP⟩
    · intro p hp
      rw [hentry] at hp
      exact hlocal.backup p hp

theorem matchCases_keeps (remoteFile : Option MereFile) (mapDigest : Option Bytes) (fname digest : Bytes) :
    s.Keeps P M (matchCases refs s remoteFile mapDigest fpath fname digest).1 := by
  have hclear : s.fs.Clear P := .inr hlinks
  have hstays : ∀ {s'}, s.Keeps P M s' → refs.Stays P s'.fs fpath := fun h => hlocal.stays.mono h.within hclear
  have hremote : ∀ {s'}, s.Keeps P M s' → ∀ file, s'.Keeps P M (remoteIsMaster refs s' file fpath).1 := fun h file =>
    remoteIsMaster_keeps (hclear.keeps h.within) hlocal.length (hstays h) file
  have hconflict : s.Keeps P M (conflict refs s fpath).1 := conflict_keeps hlinks hlocal
  have hkeep : ∀ digest, s.Keeps P M (keepMap s fname digest).1 := fun _ => ⟨.refl _ _, rfl, .refl _ _⟩
  unfold matchCases
  split
  · split
    · split
      · exact hkeep _
      · exact hremote (.refl s) _
    · split
      · exact localIsMaster_keeps _ _ _
      · exact hconflict.ifOk fun s' h => hremote h _
  · split
    · exact hkeep _
    · exact hconflict.ifOk fun s' h => hremote h _
  · split
    · exact removeLocalFile_keeps hlocal.stays.1
    · exact hconflict.ifOk fun s' h => removeLocalFile_keeps (hstays h).1
  · exact localIsMaster_keeps _ _ _

omit hlinks hlocal in
theorem matchFile_keeps (s : Merefs) {file : MereFile} (h : M file) : s.Keeps P M (matchFile s file) :=
  ⟨.refl _ _, rfl, .erase _ h⟩

theorem matchLocalFile_keeps (fname digest : Bytes) (hname : ∀ file, file.name = sanitize fname → M file) :
    s.Keeps P M (matchLocalFile refs s fpath fname digest).1 := by
  unfold matchLocalFile
  simp only
  split
  next file hfound =>
    have hM : M file := hname file (fileSearch_name hfound)
    exact (matchFile_keeps s hM).trans (@matchCases_keeps refs P M (matchFile s file) fpath hlinks hlocal _ _ _ _)
  · exact matchCases_keeps hlinks hlocal _ _ _ _

end Actions

end Scambio
