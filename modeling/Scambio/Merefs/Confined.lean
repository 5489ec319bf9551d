import Scambio.Merefs.Frames

/-!
# Confined — what a pass of merefs can touch

On a tree without links a path leads where its parts say.  The walk through the local tree stays below the local
path, because it skips the names that start with a dot; the names of the mdir are only freed of their first slashes.

* `merePass_confined_iff` : a pass stays below the local path where the remote names do;
* `not_mereConfined`      : a name with `..` leads out.
-/

namespace Scambio

open Library

variable (refs : Refs)

/-- Strictly below a directory. -/
def Below (base p : List FileName) : Prop :=
  base <+: p ∧ p ≠ base

instance decidableBelow (base p : List FileName) : Decidable (Below base p) :=
  inferInstanceAs (Decidable (_ ∧ _))

/-- The path that `create_unmatched_files` gives to a remote file. -/
def Refs.remotePath (name : Bytes) : Bytes :=
  snprintf PATH_MAX (refs.localPath ++ 47 :: name)

/-- The file that a remote name asks for, and the directories it asks for, are below the local path, or directories
are there already. -/
def Refs.NameStays (base : List FileName) (fs : FileSys) (name : Bytes) : Prop :=
  fs.Harmless (Below base) refs.cwd (refs.remotePath name) ∧
    ∀ p ∈ slashPrefixes [] (refs.remotePath name), p ≠ [] → fs.HarmlessDir (Below base) refs.cwd p

instance decidableNameStays (base : List FileName) (fs : FileSys) (name : Bytes) :
    Decidable (refs.NameStays base fs name) :=
  inferInstanceAs (Decidable (_ ∧ _))

/-! ## The paths of the walk -/

/-- `local_path` without the slashes at its end. -/
def Refs.stripped : Bytes :=
  (refs.localPath.reverse.dropWhile (· == 47)).reverse

theorem length_stripped : refs.stripped.length = refs.localPathLen := by
  rw [Refs.stripped, List.length_reverse, Refs.localPathLen]

theorem localPath_eq : ∃ n, refs.localPath = refs.stripped ++ slashed (List.replicate n []) := by
  refine ⟨(refs.localPath.reverse.takeWhile (· == 47)).length, ?_⟩
  have hslashes : (refs.localPath.reverse.takeWhile (· == 47)).reverse =
      slashed (List.replicate (refs.localPath.reverse.takeWhile (· == 47)).length []) := by
    have hall : ∀ c ∈ refs.localPath.reverse.takeWhile (· == 47), c = 47 := by
      intro c hc
      simpa using List.mem_takeWhile_imp hc
    rw [List.eq_replicate_of_mem hall, List.reverse_replicate, List.length_replicate]
    simp [slashed, List.flatMap_replicate]
  rw [← hslashes, Refs.stripped, ← List.reverse_append, List.takeWhile_append_dropWhile, List.reverse_reverse]

theorem take_localPath : refs.localPath.take refs.localPathLen = refs.stripped := by
  rcases localPath_eq refs with ⟨n, hn⟩
  rw [← length_stripped]
  conv_lhs => rw [hn, List.take_left]

theorem pathSteps_localPath : ∃ n, pathSteps refs.localPath = pathSteps refs.stripped ++ List.replicate n .stay := by
  rcases localPath_eq refs with ⟨n, hn⟩
  refine ⟨n, ?_⟩
  conv_lhs => rw [hn]
  rw [pathSteps_slashed _ fun part hp => (List.mem_replicate.1 hp).2 ▸ List.not_mem_nil, List.map_replicate]
  rfl

variable {refs} in
theorem pathStart_stripped (hlocal : refs.localPath ≠ []) {parts : List Bytes}
    (hne : refs.stripped ++ slashed parts ≠ []) :
    pathStart refs.cwd (refs.stripped ++ slashed parts) = pathStart refs.cwd refs.localPath := by
  rcases localPath_eq refs with ⟨n, hn⟩
  rw [hn] at hlocal ⊢
  cases hs : refs.stripped with
  | cons c path => rfl
  | nil =>
      -- the local path is the root
      rw [hs] at hlocal hne
      cases n with
      | zero => exact absurd rfl hlocal
      | succ n =>
          cases parts with
          | nil => exact absurd rfl hne
          | cons part parts => rfl

variable {refs} in
theorem headsFor_stripped {fs : FileSys} {base : List FileName} (h : heading refs.cwd fs refs.localPath = some base) :
    fs.tree.headsFor followLink MAXSYMLINKS (pathStart refs.cwd refs.localPath) (pathSteps refs.stripped) =
      some base := by
  rcases pathSteps_localPath refs with ⟨n, hn⟩
  rw [heading, hn, FileTree.headsFor_stays] at h
  exact h

/-- What the walk adds to a path: names that do not start with a dot, or what is left of them once cut. -/
def Shown (part : Bytes) : Prop :=
  (47 : UInt8) ∉ part ∧ part.head? ≠ some 46

theorem shown_nil : Shown [] :=
  ⟨List.not_mem_nil, by simp⟩

theorem Shown.of_prefix {part start : Bytes} (h : Shown part) (hpre : start <+: part) : Shown start := by
  refine ⟨fun hmem => h.1 (hpre.subset hmem), ?_⟩
  cases start with
  | nil => exact nofun
  | cons c start =>
      rcases hpre with ⟨rest, rfl⟩
      exact h.2

/-- A part that stays or goes down. -/
def Level (part : Bytes) : Prop :=
  (47 : UInt8) ∉ part ∧ stepOf part ≠ .up

theorem stepOf_ne_up {part : Bytes} (h : part ≠ ascii "..") : stepOf part ≠ .up := by
  unfold stepOf
  split
  · exact nofun
  · exact nofun

theorem Shown.level {part : Bytes} (h : Shown part) : Level part := by
  refine ⟨h.1, stepOf_ne_up ?_⟩
  rintro rfl
  exact h.2 rfl

/-- A path that the walk makes. -/
def Refs.Inside (path : Bytes) : Prop :=
  ∃ parts, path = refs.stripped ++ slashed parts ∧ ∀ part ∈ parts, Shown part

section Inside

variable {refs}

theorem inside_localPath : refs.Inside refs.localPath := by
  rcases localPath_eq refs with ⟨n, hn⟩
  refine ⟨_, hn, ?_⟩
  intro part hpart
  rw [(List.mem_replicate.1 hpart).2]
  exact shown_nil

theorem Refs.Inside.take {path : Bytes} (h : refs.Inside path) {n : Nat} (hn : refs.localPathLen ≤ n) :
    refs.Inside (path.take n) := by
  rcases h with ⟨parts, rfl, hparts⟩
  rw [← length_stripped] at hn
  rcases slashed_prefix Shown.of_prefix hparts (List.take_prefix (n - refs.stripped.length) (slashed parts)) with
    ⟨parts', heq, hparts'⟩
  refine ⟨parts', ?_, hparts'⟩
  rw [List.take_append, List.take_of_length_le hn, heq]

theorem Refs.Inside.part {path : Bytes} (h : refs.Inside path) {part : Bytes} (hpart : Shown part) :
    refs.Inside (path ++ 47 :: part) := by
  rcases h with ⟨parts, rfl, hparts⟩
  refine ⟨parts ++ [part], ?_, ?_⟩
  · rw [slashed_concat, List.append_assoc]
  · intro p hp
    rcases List.mem_append.1 hp with hp | hp
    · exact hparts p hp
    · exact List.mem_singleton.1 hp ▸ hpart

theorem Refs.Inside.write {path : Bytes} (h : refs.Inside path) {n : Nat} (hn : refs.localPathLen ≤ n) {name : Bytes}
    (hname : Shown name) : refs.Inside (dirpathWrite path n name) := by
  unfold dirpathWrite
  split
  · exact h
  · split
    · cases hk : 7 - n with
      | zero => simpa using h.take hn
      | succ k =>
          rw [List.take_succ_cons]
          exact (h.take hn).part (hname.of_prefix (List.take_prefix k name))
    · exact (h.take hn).part hname

/-- The dot comes in front of the last part. -/
theorem backupPath_slashed {parts : List Bytes} {part : Bytes} (h : (47 : UInt8) ∉ part) :
    backupPath refs (refs.stripped ++ slashed (parts ++ [part])) =
      refs.stripped ++ slashed (parts ++ [46 :: part]) := by
  have hlast : ((refs.stripped ++ slashed (parts ++ [part])).drop refs.localPathLen).reverse.takeWhile (· != 47) =
      part.reverse := by
    rw [← length_stripped, List.drop_left, slashed_concat, List.reverse_append, List.reverse_cons, List.append_assoc,
      List.takeWhile_append_of_pos]
    · simp
    · intro c hc
      rw [bne_iff_ne]
      rintro rfl
      exact h (List.mem_reverse.1 hc)
  unfold backupPath
  simp only [hlast]
  have hsplit : refs.stripped ++ slashed (parts ++ [part]) = (refs.stripped ++ slashed parts ++ [47]) ++ part := by
    rw [slashed_concat]
    simp
  rw [hsplit, List.reverse_reverse, List.length_reverse, List.length_append, Nat.add_sub_cancel, List.take_left,
    slashed_concat]
  simp

/-- What the walk relies on: the local path heads for a directory, below which there are no links. -/
structure Refs.Ready (refs : Refs) (base : List FileName) (fs : FileSys) : Prop where
  named : refs.localPath ≠ []
  heads : heading refs.cwd fs refs.localPath = some base
  root : fs.tree.get base = some .dir
  noLinks : fs.tree.NoLinks (Below base)

section Ready

variable {base : List FileName} {fs fs' : FileSys}

theorem Refs.Ready.keeps (h : refs.Ready base fs) (hw : fs.Within (Below base) fs') : refs.Ready base fs' where
  named := h.named
  heads := (FileTree.headsFor_congr (hw.tree.linkAt_eq h.noLinks) _ _ _).trans h.heads
  root := hw.tree.dirs base h.root
  noLinks := hw.tree.noLinks h.noLinks

theorem Refs.Ready.noLinksFrom (h : refs.Ready base fs) : fs.tree.NoLinks (base <+: ·) := by
  intro p hp
  by_cases heq : p = base
  · exact heq ▸ FileTree.linkAt_of_dir h.root
  · exact h.noLinks p ⟨hp, heq⟩

theorem Refs.Ready.pathStart (h : refs.Ready base fs) {parts : List Bytes} (hne : refs.stripped ++ slashed parts ≠ []) :
    pathStart refs.cwd (refs.stripped ++ slashed parts) = pathStart refs.cwd refs.localPath :=
  pathStart_stripped h.named hne

theorem Refs.Ready.stripped (h : refs.Ready base fs) :
    fs.tree.headsFor followLink MAXSYMLINKS (Scambio.pathStart refs.cwd refs.localPath) (pathSteps refs.stripped) =
      some base :=
  headsFor_stripped h.heads

/-- Parts that do not go up head for what is below the local path. -/
theorem Refs.Ready.steps (h : refs.Ready base fs) {parts : List Bytes} (hparts : ∀ part ∈ parts, Level part) :
    fs.tree.headsFor followLink MAXSYMLINKS (Scambio.pathStart refs.cwd refs.localPath)
        (pathSteps refs.stripped ++ parts.map stepOf) = some (FileTree.lexical base (parts.map stepOf)) ∧
      base <+: FileTree.lexical base (parts.map stepOf) := by
  have hup : Step.up ∉ parts.map stepOf := by
    intro hmem
    rcases List.mem_map.1 hmem with ⟨part, hpart, heq⟩
    exact (hparts part hpart).2 heq
  rcases FileTree.heads_below h.noLinksFrom hup with ⟨hheads, hbelow⟩
  exact ⟨FileTree.headsFor_append h.stripped hheads, hbelow⟩

theorem Refs.Ready.heading (h : refs.Ready base fs) {parts : List Bytes} (hparts : ∀ part ∈ parts, Level part)
    (hne : refs.stripped ++ slashed parts ≠ []) :
    Scambio.heading refs.cwd fs (refs.stripped ++ slashed parts) =
      some (FileTree.lexical base (parts.map stepOf)) := by
  rw [Scambio.heading, h.pathStart hne, pathSteps_slashed _ fun part hp => (hparts part hp).1]
  exact (h.steps hparts).1

theorem Refs.Ready.entry (h : refs.Ready base fs) {parts : List Bytes} (hparts : ∀ part ∈ parts, Level part)
    (hne : parts ≠ []) :
    Scambio.entry refs.cwd fs (refs.stripped ++ slashed parts) = some (FileTree.lexical base (parts.map stepOf)) := by
  rcases List.eq_nil_or_concat' parts with rfl | ⟨init, last, rfl⟩
  · exact absurd rfl hne
  · have hinit : ∀ part ∈ init, Level part := fun part hp => hparts part (List.mem_append_left _ hp)
    have hnil : refs.stripped ++ slashed (init ++ [last]) ≠ [] := by simp [slashed]
    rw [Scambio.entry, FileTree.entryFor, h.pathStart hnil, pathSteps_slashed _ fun part hp => (hparts part hp).1,
      List.map_append, List.map_singleton, ← List.append_assoc, List.getLast?_concat, List.dropLast_concat]
    cases hstep : stepOf last with
    | stay =>
        have hsteps := (h.steps hparts).1
        rw [List.map_append, List.map_singleton, ← List.append_assoc, hstep] at hsteps
        exact hsteps
    | up => exact absurd hstep (hparts last (by simp)).2
    | down name =>
        simp only [(h.steps hinit).1, Option.map_some, FileTree.lexical_append]
        rfl

theorem below_dot {dir : List FileName} (hdir : base <+: dir) {last : Bytes} (hlast : Shown last)
    (h : Below base (FileTree.lexical dir ([last].map stepOf))) :
    Below base (FileTree.lexical dir ([46 :: last].map stepOf)) := by
  by_cases hnil : last = []
  · rw [hnil] at h ⊢
    exact h
  · have hname : IsFileName (46 :: last) := by
      refine ⟨List.cons_ne_nil _ _, ?_, ?_, ?_⟩
      · intro heq
        exact hnil (List.cons.inj heq).2
      · intro heq
        exact hlast.2 (congrArg List.head? (List.cons.inj heq).2)
      · rw [List.mem_cons]
        exact not_or.2 ⟨by decide, hlast.1⟩
    have hdown : [46 :: last].map stepOf = [.down ⟨46 :: last, hname⟩] := by
      rw [List.map_singleton, stepOf, dif_pos hname]
    rw [hdown]
    refine ⟨hdir.trans (List.prefix_append dir _), ?_⟩
    intro heq
    have hlen := hdir.length_le
    rw [← heq] at hlen
    simp [FileTree.lexical] at hlen

/-- A file that a path of the walk leads to. -/
theorem Refs.Ready.local (h : refs.Ready base fs) {path : Bytes} (hin : refs.Inside path) {p : List FileName}
    (hstat : sysStat refs.cwd fs path = .ok p) (hfile : fs.tree.get p ≠ some .dir) :
    refs.Local (Below base) fs path ∧ refs.localPathLen < path.length := by
  rcases sysStat_ok hstat with ⟨-, hne, hlen⟩
  rcases hin with ⟨parts, rfl, hparts⟩
  have hlevel : ∀ part ∈ parts, Level part := fun part hp => (hparts part hp).level
  have hp : p = FileTree.lexical base (parts.map stepOf) :=
    Option.some.inj ((sysStat_heading hstat).symm.trans (h.heading hlevel hne))
  rcases List.eq_nil_or_concat' parts with rfl | ⟨init, last, rfl⟩
  · -- the local path itself is a directory
    exact absurd (hp ▸ h.root) hfile
  · have hbelow : Below base p := by
      refine ⟨hp ▸ (h.steps hlevel).2, ?_⟩
      rintro rfl
      exact hfile h.root
    have hlast : Shown last := hparts last (by simp)
    have hinit : ∀ part ∈ init, Level part := fun part hmem => hlevel part (List.mem_append_left _ hmem)
    refine ⟨⟨hlen, ?_, ?_, ?_⟩, ?_⟩
    · intro q hq
      rw [h.entry hlevel (by simp), ← hp, Option.mem_some_iff] at hq
      exact hq ▸ ⟨hfile, hbelow⟩
    · intro start rest heq hstart
      rw [heq] at hstat
      exact sysStat_through hstart hstat
    · have hdot : ∀ part ∈ init ++ [46 :: last], Level part := by
        intro part hmem
        rcases List.mem_append.1 hmem with hmem | hmem
        · exact hinit part hmem
        · rw [List.mem_singleton.1 hmem]
          refine ⟨?_, stepOf_ne_up ?_⟩
          · rw [List.mem_cons]
            exact not_or.2 ⟨by decide, hlast.1⟩
          · intro heq
            exact hlast.2 (congrArg List.head? (List.cons.inj heq).2)
      intro q hq
      rw [backupPath_slashed hlast.1, h.entry hdot (by simp), Option.mem_some_iff] at hq
      rw [hp] at hbelow
      rw [List.map_append, FileTree.lexical_append] at hq hbelow
      exact hq ▸ below_dot (h.steps hinit).2 hlast hbelow
    · rw [← length_stripped, List.length_append, slashed_concat, List.length_append, List.length_cons]
      omega

end Ready

end Inside

/-! ## The walk -/

/-- The name of the file is that of a file that the walk can find. -/
def Refs.Named (file : MereFile) : Prop :=
  ∃ path, refs.Inside path ∧ file.name = sanitize (path.drop refs.localPathLen) ∧ refs.localPathLen < path.length ∧
    path.length < PATH_MAX

section Walk

variable {refs} {base : List FileName}

theorem digestFile_local {fs : FileSys} (h : refs.Ready base fs) {path digest : Bytes} (hin : refs.Inside path)
    (hok : digestFile refs fs path = .ok digest) :
    refs.Local (Below base) fs path ∧ refs.localPathLen < path.length := by
  unfold digestFile at hok
  split at hok
  · cases hok
  next p hstat =>
    split at hok
    next content hfile =>
      apply h.local hin hstat
      rw [hfile]
      exact nofun
    · cases hok

theorem scanOpenedDir_keeps {rec : Merefs → Bytes → Nat → MereResult}
    (hrec : ∀ (s : Merefs) path n, refs.Ready base s.fs → refs.Inside path → refs.localPathLen ≤ n →
      s.Keeps (Below base) refs.Named (rec s path n).1)
    {s : Merefs} (h : refs.Ready base s.fs) {dirpath : Bytes} (hin : refs.Inside dirpath) {dirlen : Nat}
    (hlen : refs.localPathLen ≤ dirlen) (dirents : List (FileName × Node Bytes Bytes)) :
    s.Keeps (Below base) refs.Named (scanOpenedDir refs rec s dirpath dirlen dirents).1 := by
  induction dirents generalizing s dirpath with
  | nil => exact .refl s
  | cons dirent dirents ih =>
      rcases dirent with ⟨name, node⟩
      unfold scanOpenedDir
      split
      · exact ih h hin
      next hshown =>
        have hwrite := hin.write hlen ⟨name.2.2.2.2, hshown⟩
        simp only
        split
        · exact ih h hin
        · apply (hrec _ _ _ h hwrite (by omega)).ifOk
          intro s' hk
          exact ih (h.keeps hk.within) (hwrite.take hlen)
        · split
          · exact .refl s
          next digest hok =>
            rcases digestFile_local h hwrite hok with ⟨hlocal, hlong⟩
            refine (matchLocalFile_keeps h.noLinks hlocal _ _ ?_).ifOk ?_
            · intro file hname
              exact ⟨_, hwrite, hname, hlong, hlocal.length⟩
            · intro s' hk
              exact ih (h.keeps hk.within) (hwrite.take hlen)

theorem traverseDirRec_keeps (openLeft : Nat) {s : Merefs} (h : refs.Ready base s.fs) {dirpath : Bytes}
    (hin : refs.Inside dirpath) {dirlen : Nat} (hlen : refs.localPathLen ≤ dirlen) :
    s.Keeps (Below base) refs.Named (traverseDirRec refs openLeft s dirpath dirlen).1 := by
  induction openLeft generalizing s dirpath dirlen with
  | zero => exact .refl s
  | succ openLeft ih =>
      unfold traverseDirRec
      split
      · exact .refl s
      · split
        · exact scanOpenedDir_keeps (fun s path n h hin hn => ih h hin hn) h hin hlen _
        · exact .refl s

theorem traverseLocalPath_keeps {s : Merefs} (h : refs.Ready base s.fs) :
    s.Keeps (Below base) refs.Named (traverseLocalPath refs s).1 :=
  traverseDirRec_keeps refs.openMax h inside_localPath le_rfl

/-- A path of the walk that goes on behind the local path, behind a slash. -/
theorem slashed_sanitize {parts : List Bytes} (hparts : ∀ part ∈ parts, Shown part) :
    ∃ parts', 47 :: sanitize (slashed parts) = slashed parts' ∧ ∀ part ∈ parts', Shown part := by
  induction parts with
  | nil =>
      refine ⟨[[]], rfl, ?_⟩
      rw [List.forall_mem_singleton]
      exact shown_nil
  | cons part parts ih =>
      have hrest := fun p hp => hparts p (List.mem_cons_of_mem part hp)
      cases part with
      | nil => exact ih hrest
      | cons c part =>
          have hpart := hparts (c :: part) List.mem_cons_self
          have hc : c ≠ 47 := by
            rintro rfl
            exact hpart.1 List.mem_cons_self
          have hname : sanitize (slashed ((c :: part) :: parts)) = c :: part ++ slashed parts := by
            rw [slashed_cons, sanitize]
            simp [hc]
          exact ⟨(c :: part) :: parts, congrArg (47 :: ·) hname, hparts⟩

/-- What is in the way to the local path is there. -/
theorem harmlessDir_of_stat {fs : FileSys} (h : refs.Ready base fs)
    (hstat : sysStat refs.cwd fs refs.localPath = .ok base) {start rest : Bytes} (hne : start ≠ [])
    (heq : refs.stripped = start ++ rest) (hrest : rest = [] ∨ rest.head? = some 47) :
    fs.HarmlessDir (Below base) refs.cwd start := by
  rcases localPath_eq refs with ⟨n, hn⟩
  have hlocal : refs.localPath = start ∨ ∃ r, refs.localPath = start ++ 47 :: r := by
    rw [hn, heq]
    rcases rest with _ | ⟨c, rest⟩
    · cases n with
      | zero => exact .inl (by simp [slashed])
      | succ n => exact .inr ⟨slashed (List.replicate n []), by simp [slashed, List.replicate_succ]⟩
    · rcases hrest with hnil | hhead
      · cases hnil
      · cases hhead
        exact .inr ⟨rest ++ slashed (List.replicate n []), by simp⟩
  rcases hlocal with hlocal | ⟨r, hlocal⟩
  · rw [hlocal] at hstat
    intro p hp
    exact (FileTree.entry_of_resolve (sysStat_ok hstat).1 h.root hp).imp id .inl
  · rw [hlocal] at hstat
    exact sysStat_through hne hstat

/-- A path of the walk heads for the local path, or below it. -/
theorem Refs.Ready.harmless {fs : FileSys} (h : refs.Ready base fs) {parts : List Bytes}
    (hparts : ∀ part ∈ parts, Shown part) (hne : parts ≠ []) :
    fs.Harmless (Below base) refs.cwd (refs.stripped ++ slashed parts) := by
  have hlevel : ∀ part ∈ parts, Level part := fun part hp => (hparts part hp).level
  intro p hp
  rw [h.entry hlevel hne, Option.mem_some_iff] at hp
  by_cases hbase : p = base
  · exact .inl (hbase ▸ h.root)
  · exact .inr ⟨hp ▸ (h.steps hlevel).2, hbase⟩

/-- The name of a file that the walk can find leads below the local path. -/
theorem stays_named {fs : FileSys} (h : refs.Ready base fs) (hstat : sysStat refs.cwd fs refs.localPath = .ok base)
    {file : MereFile} (hnamed : refs.Named file) : refs.Stays (Below base) fs (refs.remotePath file.name) := by
  rcases hnamed with ⟨path, ⟨parts, rfl, hparts⟩, hname, hlong, hlen⟩
  rw [← length_stripped] at hname hlong
  rw [List.drop_left] at hname
  rcases slashed_sanitize hparts with ⟨parts', hparts', hshown⟩
  rcases localPath_eq refs with ⟨n, hn⟩
  have hfull : refs.localPath ++ 47 :: file.name = refs.stripped ++ slashed (List.replicate n [] ++ parts') := by
    rw [hname, hparts', hn, List.append_assoc]
    simp [slashed]
  have hall : ∀ part ∈ List.replicate n [] ++ parts', Shown part := by
    intro part hp
    rcases List.mem_append.1 hp with hp | hp
    · rw [(List.mem_replicate.1 hp).2]
      exact shown_nil
    · exact hshown part hp
  -- wherever snprintf cuts the path, what is left of its last part is still shown
  have hcut : ∀ k, refs.stripped.length ≤ k → ∃ ps, (refs.localPath ++ 47 :: file.name).take k =
      refs.stripped ++ slashed ps ∧ ∀ part ∈ ps, Shown part := by
    intro k hk
    rcases slashed_prefix Shown.of_prefix hall (List.take_prefix (k - refs.stripped.length) _) with ⟨ps, hps, hshown⟩
    exact ⟨ps, by rw [hfull, List.take_append, List.take_of_length_le hk, hps], hshown⟩
  have hshort : refs.stripped.length < PATH_MAX - 1 := by omega
  have hfullLen : refs.stripped.length < (refs.localPath ++ 47 :: file.name).length := by
    rw [hn]
    simp
  constructor
  · rcases hcut (PATH_MAX - 1) hshort.le with ⟨ps, hps, hshown⟩
    have hne : ps ≠ [] := by
      rintro rfl
      have hlength := congrArg List.length hps
      rw [List.length_take, slashed, List.flatMap_nil, List.append_nil] at hlength
      omega
    rw [Refs.remotePath, snprintf, hps]
    exact h.harmless hshown hne
  · intro start rest heq hstart
    have hpre : start <+: refs.localPath ++ 47 :: file.name := by
      have htake : start <+: refs.remotePath file.name := ⟨47 :: rest, heq.symm⟩
      exact htake.trans (List.take_prefix _ _)
    by_cases hle : refs.stripped.length ≤ start.length
    · rcases hcut start.length hle with ⟨ps, hps, hshown⟩
      rw [← List.prefix_iff_eq_take.1 hpre] at hps
      by_cases hnil : ps = []
      · rw [hnil, slashed, List.flatMap_nil, List.append_nil] at hps
        exact harmlessDir_of_stat h hstat hstart (by rw [hps, List.append_nil]) (.inl rfl)
      · rw [hps]
        intro p hp
        exact (h.harmless hshown hnil p hp).imp id .inr
    · -- the beginning is one of the local path
      have hbefore : start <+: refs.stripped :=
        List.prefix_of_prefix_length_le hpre ⟨_, hfull.symm⟩ (Nat.le_of_not_le hle)
      rcases hbefore with ⟨after, hafter⟩
      refine harmlessDir_of_stat h hstat hstart hafter.symm ?_
      cases after with
      | nil => exact .inl rfl
      | cons c after =>
          have hsplit : start ++ 47 :: rest <+: start ++ c :: (after ++ slashed (List.replicate n [] ++ parts')) := by
            rw [← heq, ← List.cons_append, ← List.append_assoc, hafter, ← hfull]
            exact List.take_prefix _ _
          rw [List.prefix_append_right_inj, List.cons_prefix_cons] at hsplit
          exact .inr (by rw [hsplit.1]; rfl)

end Walk

/-! ## The remote files that are left -/

theorem append_mem_slashPrefixes (start path rest : Bytes) :
    start ++ path ∈ slashPrefixes start (path ++ 47 :: rest) := by
  induction path generalizing start with
  | nil =>
      rw [List.append_nil, List.nil_append, slashPrefixes, if_pos rfl]
      exact List.mem_cons_self
  | cons c path ih =>
      have hlater : start ++ c :: path ∈ slashPrefixes (start ++ [c]) (path ++ 47 :: rest) := by
        simpa using ih (start ++ [c])
      rw [List.cons_append, slashPrefixes]
      split
      · exact List.mem_cons_of_mem _ hlater
      · exact hlater

section Create

variable {refs} {s : Merefs}

theorem length_remotePath (name : Bytes) : (refs.remotePath name).length < PATH_MAX := by
  have h := List.length_take_le (PATH_MAX - 1) (refs.localPath ++ 47 :: name)
  unfold Refs.remotePath snprintf
  have hmax : 0 < PATH_MAX := by decide
  omega

theorem nameStays_iff {base : List FileName} {fs : FileSys} {name : Bytes} :
    refs.NameStays base fs name ↔ refs.Stays (Below base) fs (refs.remotePath name) := by
  constructor
  · rintro ⟨hpath, hdirs⟩
    refine ⟨hpath, ?_⟩
    intro start rest heq hne
    have hmem := append_mem_slashPrefixes [] start rest
    rw [← heq] at hmem
    exact hdirs start hmem hne
  · rintro ⟨hpath, hdirs⟩
    refine ⟨hpath, ?_⟩
    intro p hp hne
    rcases mem_slashPrefixes hp with ⟨rest, heq, -⟩
    exact hdirs p rest heq hne

variable {P : List FileName → Prop}

theorem createUnmatchedLoop_new {file : MereFile} {files : List MereFile}
    (h : mapGetDigest s.currentMap file.name = none) :
    createUnmatchedLoop refs s (file :: files) =
      (remoteIsMaster refs s file (refs.remotePath file.name)).ifOk fun s =>
        createUnmatchedLoop refs (matchFile s file) files := by
  rw [createUnmatchedLoop, h]
  rfl

theorem createUnmatchedLoop_removed {file : MereFile} {files : List MereFile} {digest : Bytes}
    (h : mapGetDigest s.currentMap file.name = some digest) :
    createUnmatchedLoop refs s (file :: files) =
      (delRequest s file.version).ifOk fun s => createUnmatchedLoop refs s files := by
  rw [createUnmatchedLoop, h]

theorem createUnmatchedLoop_keeps (hclear : s.fs.Clear P) {files : List MereFile}
    (h : ∀ file ∈ files, mapGetDigest s.currentMap file.name = none → refs.Stays P s.fs (refs.remotePath file.name)) :
    s.Keeps P (fun _ => True) (createUnmatchedLoop refs s files).1 := by
  induction files generalizing s with
  | nil => exact .refl s
  | cons file files ih =>
      have hrest : ∀ {s'}, s.Keeps P (fun _ => True) s' → ∀ file ∈ files, mapGetDigest s'.currentMap file.name = none →
          refs.Stays P s'.fs (refs.remotePath file.name) := by
        intro s' hk file' hfile' hmap
        rw [hk.currentMap] at hmap
        exact (h file' (List.mem_cons_of_mem _ hfile') hmap).mono hk.within hclear
      cases hmap : mapGetDigest s.currentMap file.name with
      | none =>
          rw [createUnmatchedLoop_new hmap]
          apply (remoteIsMaster_keeps hclear (length_remotePath _) (h file List.mem_cons_self hmap) file).ifOk
          intro s' hk
          have hmatch : s'.Keeps P (fun _ => True) (matchFile s' file) := matchFile_keeps s' trivial
          exact hmatch.trans (ih (s := matchFile s' file) (hclear.keeps hk.within) (hrest (hk.trans hmatch)))
      | some digest =>
          rw [createUnmatchedLoop_removed hmap]
          apply (delRequest_keeps file.version).ifOk
          intro s' hk
          exact ih (hclear.keeps hk.within) (hrest hk)

/-- Once the loop has ended, the names it has used are known from what it touched. -/
theorem createUnmatchedLoop_stays (hlinks : s.fs.tree.NoLinks P) {files : List MereFile}
    (hok : (createUnmatchedLoop refs s files).2 = none)
    (hw : s.fs.Within P (createUnmatchedLoop refs s files).1.fs) :
    ∀ file ∈ files, mapGetDigest s.currentMap file.name = none → refs.Stays P s.fs (refs.remotePath file.name) := by
  induction files generalizing s with
  | nil => exact nofun
  | cons file files ih =>
      have hlater : ∀ s' : Merefs, s'.fs.Within (fun _ => True) (createUnmatchedLoop refs s' files).1.fs := fun _ =>
        (createUnmatchedLoop_keeps FileSys.clear_anywhere fun _ _ _ => .anywhere).within
      -- what the other rounds use is known from what they touch
      have hround : ∀ {s'}, s.Keeps (fun _ => True) (fun _ => True) s' →
          s.fs.Within P s'.fs → s'.fs.Within P (createUnmatchedLoop refs s' files).1.fs →
          (createUnmatchedLoop refs s' files).2 = none →
          ∀ file ∈ files, mapGetDigest s.currentMap file.name = none →
            refs.Stays P s.fs (refs.remotePath file.name) := by
        intro s' hk hP hP' hok' file' hfile' hmap'
        rw [← hk.currentMap] at hmap'
        exact (ih (hP.tree.noLinks hlinks) hok' hP' file' hfile' hmap').back hP hlinks
      cases hmap : mapGetDigest s.currentMap file.name with
      | none =>
          rw [createUnmatchedLoop_new hmap] at hok hw
          rcases ifOk_ok hok with ⟨hmade, heq⟩
          rw [heq] at hok hw
          have hfirst : s.Keeps (fun _ => True) (fun _ => True)
              (remoteIsMaster refs s file (refs.remotePath file.name)).1 :=
            remoteIsMaster_keeps FileSys.clear_anywhere (length_remotePath _) .anywhere file
          have hmatch := hfirst.trans (@matchFile_keeps _ _ _ file trivial)
          rcases hmatch.within.split (hlater _) hw with ⟨hP, hP'⟩
          intro file' hfile' hmap'
          rcases List.mem_cons.1 hfile' with rfl | hmem
          · exact remoteIsMaster_stays hlinks (length_remotePath _) hmade hP
          · exact hround hmatch hP hP' hok file' hmem hmap'
      | some digest =>
          rw [createUnmatchedLoop_removed hmap] at hok hw
          rcases ifOk_ok hok with ⟨-, heq⟩
          rw [heq] at hok hw
          have hfirst : s.Keeps (fun _ => True) (fun _ => True) (delRequest s file.version).1 :=
            delRequest_keeps file.version
          rcases hfirst.within.split (hlater _) hw with ⟨hP, hP'⟩
          intro file' hfile' hmap'
          rcases List.mem_cons.1 hfile' with rfl | hmem
          · exact absurd (hmap.symm.trans hmap') nofun
          · exact hround hfirst hP hP' hok file' hmem hmap'

end Create

/-! ## A pass -/

section Pass

variable {refs} {base : List FileName} {s : Merefs}

/-- What the mdir holds, once the calls of `mdir_patch_list` are read. -/
def remoteFiles (s : Merefs) (calls : List Callback) : List MereFile :=
  (readMdir (unmatchAll s) calls).1.unmatched

theorem readMdir_keeps (s : Merefs) (calls : List Callback) :
    (readMdir s calls).1.fs = s.fs ∧ (readMdir s calls).1.currentMap = s.currentMap := by
  induction calls generalizing s with
  | nil => exact ⟨rfl, rfl⟩
  | cons call calls ih =>
      cases call with
      | put header version =>
          have hadd : (addRemoteFile s header version).1.fs = s.fs ∧
              (addRemoteFile s header version).1.currentMap = s.currentMap := by
            unfold addRemoteFile
            split
            · split <;> exact ⟨rfl, rfl⟩
            · exact ⟨rfl, rfl⟩
          unfold readMdir MereResult.ifOk
          split
          · exact hadd
          · exact ⟨(ih _).1.trans hadd.1, (ih _).2.trans hadd.2⟩
      | rem target =>
          have hrem : (removeRemoteFile s target).fs = s.fs ∧ (removeRemoteFile s target).currentMap = s.currentMap := by
            unfold removeRemoteFile
            split <;> exact ⟨rfl, rfl⟩
          exact ⟨(ih _).1.trans hrem.1, (ih _).2.trans hrem.2⟩
      | err _ _ => exact ih s

/-- Strictly below the local path lies every path that is created, replaced, renamed or removed, and the rest of the
tree is what it was. -/
structure MereConfined (base : List FileName) (fs fs' : FileSys) : Prop where
  touched : ∃ new, fs'.touched = new ++ fs.touched ∧ ∀ p ∈ new, Below base p
  elsewhere : ∀ p, ¬ Below base p → fs'.tree.get p = fs.tree.get p

theorem mereConfined_iff {fs fs' : FileSys} (h : fs.Within (fun _ => True) fs') :
    MereConfined base fs fs' ↔ fs.Within (Below base) fs' := by
  constructor
  · rintro ⟨⟨new, hnew, hbelow⟩, -⟩
    rcases h with ⟨new', htouch, -⟩
    have heq : new' = new := List.append_cancel_right (htouch.touched.symm.trans hnew)
    exact ⟨new', htouch, heq ▸ hbelow⟩
  · intro hw
    refine ⟨?_, fun p hp => hw.tree.outside p hp⟩
    rcases hw with ⟨new, htouch, hnew⟩
    exact ⟨new, htouch.touched, hnew⟩

/-- Whether the files of the mdir that the map does not know stay below the local path. -/
def Refs.NamesStay (refs : Refs) (base : List FileName) (s : Merefs) (calls : List Callback) : Prop :=
  ∀ file ∈ remoteFiles s calls, mapGetDigest s.currentMap file.name = none → refs.NameStays base s.fs file.name

instance decidableNamesStay (base : List FileName) (s : Merefs) (calls : List Callback) :
    Decidable (refs.NamesStay base s calls) :=
  inferInstanceAs (Decidable (∀ file ∈ remoteFiles s calls, _ → _))

/-- What the steps of a pass give, each when the one before it has not failed. -/
theorem merePass_cases (refs : Refs) (s : Merefs) (calls : List Callback) :
    (merePass refs s calls).1.fs = s.fs ∧ (merePass refs s calls).2 ≠ none ∨
      ∃ s₁, s₁.fs = s.fs ∧ s₁.currentMap = s.currentMap ∧ s₁.unmatched = remoteFiles s calls ∧
        ((merePass refs s calls).1.fs = (traverseLocalPath refs s₁).1.fs ∧ (merePass refs s calls).2 ≠ none ∨
          (merePass refs s calls).1.fs = (createUnmatchedFiles refs (traverseLocalPath refs s₁).1).1.fs ∧
            (merePass refs s calls).2 = (createUnmatchedFiles refs (traverseLocalPath refs s₁).1).2) := by
  have hread := readMdir_keeps (unmatchAll s) calls
  unfold merePass
  rcases ifOk_cases (readMdir (unmatchAll s) calls) _ with ⟨herr, heq⟩ | ⟨-, heq⟩
  · rw [heq]
    exact .inl ⟨hread.1, herr⟩
  · rw [heq]
    refine .inr ⟨{ (readMdir (unmatchAll s) calls).1 with nextMap := [] }, hread.1, hread.2, rfl, ?_⟩
    rcases ifOk_cases (traverseLocalPath refs { (readMdir (unmatchAll s) calls).1 with nextMap := [] }) _ with
      ⟨herr, heq⟩ | ⟨-, heq⟩
    · rw [heq]
      exact .inl ⟨rfl, herr⟩
    · rw [heq]
      refine .inr ?_
      rcases ifOk_cases (createUnmatchedFiles refs
        (traverseLocalPath refs { (readMdir (unmatchAll s) calls).1 with nextMap := [] }).1) _ with
        ⟨-, heq⟩ | ⟨hok, heq⟩
      · rw [heq]
        exact ⟨rfl, rfl⟩
      · rw [heq]
        exact ⟨rfl, hok.symm⟩

/-- Where the local path is a directory without links below it, a pass stays below it if the names of the mdir do;
and when a pass that has ended without an error did, so do the names. -/
theorem merePass_confined_iff (refs : Refs) (base : List FileName) (s : Merefs) (calls : List Callback)
    (hbase : sysStat refs.cwd s.fs refs.localPath = .ok base) (hdir : s.fs.tree.get base = some .dir)
    (hlinks : s.fs.tree.NoLinks (Below base)) :
    (refs.NamesStay base s calls → MereConfined base s.fs (merePass refs s calls).1.fs) ∧
      ((merePass refs s calls).2 = none → MereConfined base s.fs (merePass refs s calls).1.fs →
        refs.NamesStay base s calls) := by
  have hready : refs.Ready base s.fs := ⟨(sysStat_ok hbase).2.1, sysStat_heading hbase, hdir, hlinks⟩
  rcases merePass_cases refs s calls with ⟨hfs, herr⟩ | ⟨s₁, hfs, hmap, hfiles, hcases⟩
  · rw [hfs]
    exact ⟨fun _ => (mereConfined_iff (.refl _ _)).2 (.refl _ _), fun hok => absurd hok herr⟩
  · have hwalk : s₁.Keeps (Below base) refs.Named (traverseLocalPath refs s₁).1 :=
      traverseLocalPath_keeps (hfs.symm ▸ hready)
    have hwithin := hwalk.within
    rw [hfs] at hwithin
    rcases hcases with ⟨hend, herr⟩ | ⟨hend, hok⟩
    · rw [hend]
      exact ⟨fun _ => (mereConfined_iff (hwithin.mono fun _ _ => trivial)).2 hwithin, fun hok => absurd hok herr⟩
    · rw [hend, hok]
      have hlinks' := hwithin.tree.noLinks hlinks
      have hcreate : (traverseLocalPath refs s₁).1.fs.Within (fun _ => True)
          (createUnmatchedFiles refs (traverseLocalPath refs s₁).1).1.fs :=
        (createUnmatchedLoop_keeps FileSys.clear_anywhere fun _ _ _ => .anywhere).within
      have hall := (hwithin.mono fun _ _ => trivial).trans hcreate
      rw [mereConfined_iff hall]
      have hmap' := hwalk.currentMap.trans hmap
      constructor
      · intro hnames
        apply hwithin.trans
        apply (createUnmatchedLoop_keeps (.inr hlinks') ?_).within
        intro file hfile hnone
        rw [hmap'] at hnone
        have hmem := hwalk.unmatched.subset hfile
        rw [hfiles] at hmem
        exact (nameStays_iff.1 (hnames file hmem hnone)).mono hwithin (.inr hlinks)
      · intro hended hw file hfile hnone
        rw [nameStays_iff]
        rw [← hfiles] at hfile
        rcases hwalk.unmatched.taken file hfile with hleft | hnamed
        · have hafter := ((hwithin.mono fun _ _ => trivial).split hcreate hw).2
          rw [← hmap'] at hnone
          exact (createUnmatchedLoop_stays hlinks' hended hafter file hleft hnone).back hwithin hlinks
        · exact stays_named hready hbase hnamed

end Pass

/-! ## A name that leads out -/

/-- A file system with the directory `/h/d`. -/
def plainDirs : FileSys :=
  (mkdirForFile [] ⟨FileTree.empty, []⟩ (ascii "/h/d/f")).1

def plainRefs : Refs where
  cwd := []
  localPath := ascii "/h/d"
  digest := id
  getFile := fun _ => .ok []
  sendFile := fun _ _ => .ok (ascii "r")
  hardLinks _ _ := true
  order := fun _ entries => entries
  openMax := 8

def plainMerefs : Merefs :=
  ⟨plainDirs, [], [], [], [], [], [], [], []⟩

/-- The mdir has one file. -/
def oneFileCalls (name : String) : List Callback :=
  [.put (fileHeader (ascii name) (ascii "0") (ascii "r")) 1]

def plainBase : List FileName :=
  FileTree.lexical [] (pathSteps (ascii "/h/d"))

theorem plainDirs_noLinks : plainDirs.tree.NoLinks (Below plainBase) := by
  have hmade : FileSys.Within (fun _ => True) ⟨FileTree.empty, []⟩ plainDirs :=
    mkdirForFile_within FileSys.clear_anywhere (by decide) (@Refs.Stays.anywhere plainRefs _ _).2
  apply hmade.tree.noLinks
  intro p _
  cases p <;> rfl

theorem merePass_confined_iff_sample :
    MereConfined plainBase plainDirs (merePass plainRefs plainMerefs (oneFileCalls "a/b")).1.fs := by
  have hnames : plainRefs.NamesStay plainBase plainMerefs (oneFileCalls "a/b") := by decide
  exact (merePass_confined_iff plainRefs plainBase plainMerefs (oneFileCalls "a/b") (by rfl) (by decide)
    plainDirs_noLinks).1 hnames

theorem not_mereConfined :
    ¬ ∀ (refs : Refs) (base : List FileName) (s : Merefs) (calls : List Callback),
      sysStat refs.cwd s.fs refs.localPath = .ok base → s.fs.tree.get base = some .dir →
        s.fs.tree.NoLinks (Below base) → MereConfined base s.fs (merePass refs s calls).1.fs := by
  intro h
  have hconfined := h plainRefs plainBase plainMerefs (oneFileCalls "../x") (by rfl) (by decide) plainDirs_noLinks
  rcases hconfined.touched with ⟨new, hnew, hbelow⟩
  have htouched : (merePass plainRefs plainMerefs (oneFileCalls "../x")).1.fs.touched =
      [FileTree.lexical [] (pathSteps (ascii "/h/x"))] ++ plainDirs.touched := by decide
  rw [← List.append_cancel_right (htouched.symm.trans hnew), List.forall_mem_singleton] at hbelow
  exact absurd hbelow (by decide)

end Scambio
