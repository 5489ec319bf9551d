import Scambio.Merefs.Traversal

/-!
# Walk — a rule for the walk through the local tree

`match_local_file` changes the tree while the walk goes on.  The rule takes an invariant of the files that are done:
where it leaves the other visible entries as they were at first, and `match_local_file` keeps it, it holds of all the
visible files when the walk has ended.

* `traverseLocalPath_carries` : the rule.
-/

namespace Scambio

open Library

variable (refs : Refs)

/-- An invariant of the walk, over the files that are done: the tree can still be walked through, and the visible
entries that are not done are those of the start. -/
structure Refs.WalkInv (base : List FileName) (fs₀ : FileSys) (J : List (List FileName) → Merefs → Prop) : Prop where
  walkable : ∀ {done s}, J done s → refs.Walkable base s.fs
  same : ∀ {done s r}, J done s → Unhidden r → r ∉ done → s.fs.tree.get (base ++ r) = fs₀.tree.get (base ++ r)
  step : ∀ {done s r content}, J done s → r ∉ done → Unhidden r →
    fs₀.tree.get (base ++ r) = some (.file content) →
    (matchLocalFile refs s (refs.fullPath r) (relativePath r) (refs.digest content)).2 = none →
    J (done ++ [r]) (matchLocalFile refs s (refs.fullPath r) (relativePath r) (refs.digest content)).1

/-- No file makes the walk fail. -/
def Refs.NeverFails (base : List FileName) (fs₀ : FileSys) (J : List (List FileName) → Merefs → Prop) : Prop :=
  ∀ done s r content, J done s → r ∉ done → Unhidden r → fs₀.tree.get (base ++ r) = some (.file content) →
    (matchLocalFile refs s (refs.fullPath r) (relativePath r) (refs.digest content)).2 = none

/-- A part of the walk carries the invariant over the visible files of `P`. -/
structure Refs.Carries (base : List FileName) (fs₀ : FileSys) (J : List (List FileName) → Merefs → Prop)
    (done : List (List FileName)) (P : List FileName → Prop) (t : MereResult) : Prop where
  ends : t.2 = none → ∃ files : List (List FileName), files.Nodup ∧
    (∀ q, q ∈ files ↔ P q ∧ VisibleFile base fs₀ q) ∧ J (done ++ files) t.1
  never : refs.NeverFails base fs₀ J → t.2 = none

section Carries

variable {refs} {base : List FileName} {fs₀ : FileSys} {J : List (List FileName) → Merefs → Prop}
  {done : List (List FileName)} {P Q : List FileName → Prop} {t : MereResult} {next : Merefs → MereResult}

theorem Refs.Carries.congr (h : refs.Carries base fs₀ J done P t) (hPQ : ∀ q, VisibleFile base fs₀ q → (P q ↔ Q q)) :
    refs.Carries base fs₀ J done Q t := by
  refine ⟨fun hok => ?_, h.never⟩
  rcases h.ends hok with ⟨files, hnodup, hfiles, hJ⟩
  refine ⟨files, hnodup, fun q => ?_, hJ⟩
  rw [hfiles]
  exact and_congr_left (hPQ q)

/-- Where there is no file, nothing is done. -/
theorem carries_nothing {s : Merefs} (h : J done s) (hP : ∀ q, VisibleFile base fs₀ q → ¬ P q) :
    refs.Carries base fs₀ J done P (s, none) := by
  refine ⟨fun _ => ⟨[], List.nodup_nil, fun q => ?_, by rw [List.append_nil]; exact h⟩, fun _ => rfl⟩
  exact ⟨nofun, fun hq => absurd hq.1 (hP q hq.2)⟩

/-- Two parts, one after the other. -/
theorem Refs.Carries.ifOk (h : refs.Carries base fs₀ J done P t)
    (hnext : ∀ files s, (∀ q ∈ files, P q) → J (done ++ files) s →
      refs.Carries base fs₀ J (done ++ files) Q (next s))
    (hdisjoint : ∀ q, P q → ¬ Q q) : refs.Carries base fs₀ J done (fun q => P q ∨ Q q) (t.ifOk next) := by
  constructor
  · intro hok
    rcases ifOk_ok hok with ⟨hfirst, heq⟩
    rw [heq] at hok ⊢
    rcases h.ends hfirst with ⟨files, hnodup, hfiles, hJ⟩
    have hrest := hnext files t.1 (fun q hq => ((hfiles q).1 hq).1) hJ
    rcases hrest.ends hok with ⟨files', hnodup', hfiles', hJ'⟩
    refine ⟨files ++ files', ?_, ?_, by rw [← List.append_assoc]; exact hJ'⟩
    · refine hnodup.append hnodup' ?_
      intro q hq hq'
      exact hdisjoint q ((hfiles q).1 hq).1 ((hfiles' q).1 hq').1
    · intro q
      rw [List.mem_append, hfiles, hfiles', or_and_right]
  · intro hnever
    have hfirst := h.never hnever
    rcases h.ends hfirst with ⟨files, -, hfiles, hJ⟩
    rcases ifOk_cases t next with ⟨herr, -⟩ | ⟨-, heq⟩
    · exact absurd hfirst herr
    · rw [heq]
      exact (hnext files t.1 (fun q hq => ((hfiles q).1 hq).1) hJ).never hnever

end Carries

section Rule

variable {refs} {base : List FileName} {fs₀ : FileSys} {J : List (List FileName) → Merefs → Prop}
  {done : List (List FileName)}

theorem uncut_of_long (h : 9 ≤ refs.stripped.length) (fs : FileSys) : refs.Uncut base fs := by
  intro r name _
  rw [Refs.fullPath, List.length_append]
  exact .inl (by omega)

/-- A file. -/
theorem matchLocalFile_carries (hJ : refs.WalkInv base fs₀ J) {s : Merefs} (h : J done s) {r : List FileName}
    {content : Bytes} (hfresh : r ∉ done) (hr : Unhidden r) (hfile : fs₀.tree.get (base ++ r) = some (.file content)) :
    refs.Carries base fs₀ J done (r <+: ·)
      (matchLocalFile refs s (refs.fullPath r) (relativePath r) (refs.digest content)) := by
  refine ⟨fun hok => ⟨[r], List.nodup_singleton r, fun q => ?_, hJ.step h hfresh hr hfile hok⟩, fun hnever => ?_⟩
  · rw [List.mem_singleton]
    constructor
    · rintro rfl
      exact ⟨List.prefix_rfl, hr, content, hfile⟩
    · rintro ⟨hpre, hq⟩
      exact hq.eq_of_prefix hpre (hfile ▸ nofun)
  · exact hnever done s r content h hfresh hr hfile

theorem digestFile_visible (hJ : refs.WalkInv base fs₀ J) {s : Merefs} (h : J done s) {r : List FileName}
    {content : Bytes} (hfresh : r ∉ done) (hr : Unhidden r) (hfile : fs₀.tree.get (base ++ r) = some (.file content)) :
    digestFile refs s.fs (refs.fullPath r) = .ok (refs.digest content) := by
  have hwalkable := hJ.walkable h
  have hget : s.fs.tree.get (base ++ r) = some (.file content) := (hJ.same h hr hfresh).trans hfile
  have hne : r ≠ [] := by
    rintro rfl
    rw [List.append_nil, hwalkable.root] at hget
    cases hget
  unfold digestFile
  rw [hwalkable.stat hne hget nofun]
  simp only [hget]

/-- The entries of a directory, once the rule holds of the directories in it. -/
theorem scanOpenedDir_carries (hJ : refs.WalkInv base fs₀ J) (hlong : 9 ≤ refs.stripped.length)
    {rec : Merefs → Bytes → Nat → MereResult} {r : List FileName} (hr : Unhidden r)
    (hrec : ∀ (s : Merefs) (done : List (List FileName)) (name : FileName), J done s → Unhidden (r ++ [name]) →
      (∀ q ∈ done, ¬ r ++ [name] <+: q) → fs₀.tree.get (base ++ (r ++ [name])) = some .dir →
      refs.Carries base fs₀ J done (r ++ [name] <+: ·)
        (rec s (refs.fullPath (r ++ [name])) (refs.fullPath (r ++ [name])).length))
    {s : Merefs} (h : J done s) {dirpath : Bytes} (hpath : dirpath.take (refs.fullPath r).length = refs.fullPath r)
    {dirents : List (FileName × Node Bytes Bytes)} (hnodup : (dirents.map Prod.fst).Nodup)
    (hfresh : ∀ q ∈ done, ¬ Under r dirents q)
    (hentries : ∀ dirent ∈ dirents, dirent.1.val.head? ≠ some 46 →
      fs₀.tree.get (base ++ (r ++ [dirent.1])) = some dirent.2) :
    refs.Carries base fs₀ J done (Under r dirents)
      (scanOpenedDir refs rec s dirpath (refs.fullPath r).length dirents) := by
  induction dirents generalizing s dirpath done with
  | nil =>
      apply carries_nothing h
      rintro q - ⟨_, hmem, -⟩
      cases hmem
  | cons dirent dirents ih =>
      rcases dirent with ⟨name, node⟩
      rw [List.map_cons, List.nodup_cons] at hnodup
      rcases hnodup with ⟨hnew, hnodup⟩
      have hlater := fun dirent hmem => hentries dirent (List.mem_cons_of_mem _ hmem)
      have hbelow : ∀ q ∈ done, ¬ r ++ [name] <+: q := fun q hq hpre => hfresh q hq (under_cons.2 (.inl hpre))
      have hrest : ∀ q ∈ done, ¬ Under r dirents q := fun q hq hunder => hfresh q hq (under_cons.2 (.inr hunder))
      -- an entry that is skipped has no visible file below it
      have hskip : (∀ q, VisibleFile base fs₀ q → ¬ r ++ [name] <+: q) →
          refs.Carries base fs₀ J done (Under r ((name, node) :: dirents))
            (scanOpenedDir refs rec s dirpath (refs.fullPath r).length dirents) := by
        intro hno
        refine (ih h hpath hnodup hrest hlater).congr fun q hq => ?_
        rw [under_cons, or_iff_right (hno q hq)]
      -- the other entries, once what is below this one is done
      have hcons : ∀ {t : MereResult}, refs.Carries base fs₀ J done (r ++ [name] <+: ·) t →
          refs.Carries base fs₀ J done (Under r ((name, node) :: dirents)) (t.ifOk fun s =>
            scanOpenedDir refs rec s ((refs.fullPath (r ++ [name])).take (refs.fullPath r).length)
              (refs.fullPath r).length dirents) := by
        intro t ht
        refine (ht.ifOk ?_ fun q hq => not_under hnew hq).congr fun q _ => (@under_cons r q (name, node) dirents).symm
        intro files s' hfiles hs'
        refine ih hs' ?_ hnodup ?_ hlater
        · rw [List.take_take, Nat.min_self, fullPath_concat, List.take_left]
        · intro q hq
          rcases List.mem_append.1 hq with hq | hq
          · exact hrest q hq
          · exact not_under hnew (hfiles q hq)
      unfold scanOpenedDir
      split
      next hhidden =>
        apply hskip
        intro q hq hpre
        exact hq.1 name (hpre.subset (by simp)) hhidden
      next hshown =>
        have hget := hentries (name, node) List.mem_cons_self hshown
        have hunhidden := hr.concat hshown
        have hnotDone : r ++ [name] ∉ done := fun hmem => hbelow _ hmem List.prefix_rfl
        have hin : refs.InDir base r s.fs dirpath := ⟨hJ.walkable h, uncut_of_long hlong _, hr, hpath⟩
        have hsome : s.fs.tree.get (base ++ (r ++ [name])) ≠ none := by
          rw [hJ.same h hunhidden hnotDone, hget]
          exact Option.some_ne_none _
        simp only [hin.write hsome, ← length_fullPath_concat]
        cases node with
        | link target =>
            apply hskip
            intro q hq hpre
            have hnodir : fs₀.tree.get (base ++ (r ++ [name])) ≠ some .dir := by
              intro hdir
              cases hget.symm.trans hdir
            have heq := hq.eq_of_prefix hpre hnodir
            rcases hq.2 with ⟨content, hfile⟩
            rw [heq, hget] at hfile
            cases hfile
        | dir => exact hcons (hrec s done name h hunhidden hbelow hget)
        | file content =>
            have hname : (refs.fullPath (r ++ [name])).drop refs.localPathLen = relativePath (r ++ [name]) := by
              rw [← length_stripped, Refs.fullPath, List.drop_left]
            simp only [digestFile_visible hJ h hnotDone hunhidden hget, hname]
            exact hcons (matchLocalFile_carries hJ h hnotDone hunhidden hget)

theorem traverseDirRec_carries (hJ : refs.WalkInv base fs₀ J) (hlong : 9 ≤ refs.stripped.length) {openLeft : Nat}
    {s : Merefs} (h : J done s) {r : List FileName} (hr : Unhidden r) {dirpath : Bytes}
    (hpath : dirpath.take (refs.fullPath r).length = refs.fullPath r) (hfresh : ∀ q ∈ done, ¬ r <+: q)
    (hdir : fs₀.tree.get (base ++ r) = some .dir) (hstat : sysStat refs.cwd s.fs dirpath = .ok (base ++ r))
    (hopen : r.length + openLeft = refs.openMax) :
    refs.Carries base fs₀ J done (r <+: ·) (traverseDirRec refs openLeft s dirpath (refs.fullPath r).length) := by
  -- each level takes a directory that is left to be opened
  induction openLeft generalizing s r dirpath done with
  | zero =>
      have hsame := hJ.same h hr fun hmem => hfresh r hmem List.prefix_rfl
      exact absurd ((hJ.walkable h).depth r (hsame.trans hdir)) (by omega)
  | succ openLeft ih =>
      have hwalkable := hJ.walkable h
      have hsame := hJ.same h hr fun hmem => hfresh r hmem List.prefix_rfl
      unfold traverseDirRec
      rw [hstat]
      simp only [FileTree.isDir_iff.2 (hsame.trans hdir), if_true]
      have hunder : ∀ {dirents : List (FileName × Node Bytes Bytes)} {q}, Under r dirents q → r <+: q := by
        rintro dirents q ⟨name, -, hpre⟩
        exact (List.prefix_append r [name]).trans hpre
      have hentries : ∀ dirent ∈ readdir refs s.fs (base ++ r), dirent.1.val.head? ≠ some 46 →
          fs₀.tree.get (base ++ (r ++ [dirent.1])) = some dirent.2 := by
        intro dirent hmem hshown
        have hnotDone : r ++ [dirent.1] ∉ done := fun hmem => hfresh _ hmem (List.prefix_append r _)
        rw [← hJ.same h (hr.concat hshown) hnotDone, ← List.append_assoc]
        exact (mem_readdir hwalkable).1 hmem
      refine (scanOpenedDir_carries hJ hlong hr ?_ h hpath (readdir_nodup hwalkable _)
        (fun q hq hq' => hfresh q hq (hunder hq')) hentries).congr ?_
      · intro s' done' name hs' hname hfresh' hdir'
        have hsame' := (hJ.same hs' hname fun hmem => hfresh' _ hmem List.prefix_rfl).trans hdir'
        refine ih hs' hname List.take_length hfresh' hdir' ?_ ?_
        · refine (hJ.walkable hs').stat (by simp) hsame' ?_
          intro target hlink
          cases hlink
        · rw [List.length_append, List.length_singleton]
          omega
      · intro q hq
        refine ⟨hunder, ?_⟩
        rintro ⟨rest, rfl⟩
        cases rest with
        | nil =>
            rcases hq.2 with ⟨content, hfile⟩
            rw [List.append_nil, hdir] at hfile
            cases hfile
        | cons name rest =>
            have hpre : r ++ [name] <+: r ++ name :: rest := by
              rw [List.prefix_append_right_inj]
              exact ⟨rest, rfl⟩
            refine ⟨name, ?_, hpre⟩
            have hname : Unhidden (r ++ [name]) := fun a ha => hq.1 a (hpre.subset ha)
            have hnotDone : r ++ [name] ∉ done := fun hmem => hfresh _ hmem (List.prefix_append r _)
            -- something is at the name, since the file is there or below
            have hsome : fs₀.tree.get (base ++ (r ++ [name])) ≠ none := by
              intro hnone
              have hnodir : fs₀.tree.get (base ++ (r ++ [name])) ≠ some .dir := by
                rw [hnone]
                exact (Option.some_ne_none _).symm
              have heq := hq.eq_of_prefix hpre hnodir
              rcases hq.2 with ⟨content, hfile⟩
              rw [heq, hnone] at hfile
              cases hfile
            rw [← hJ.same h hname hnotDone, ← List.append_assoc] at hsome
            rcases Option.ne_none_iff_exists'.1 hsome with ⟨node, hnode⟩
            exact List.mem_map_of_mem ((mem_readdir hwalkable).2 hnode)

/-- The rule: an invariant that holds at first holds of all the visible files at the end. -/
theorem traverseLocalPath_carries (hJ : refs.WalkInv base fs₀ J) (hlong : 9 ≤ refs.stripped.length) {s : Merefs}
    (h : J [] s) (hroot : fs₀.tree.get base = some .dir) :
    refs.Carries base fs₀ J [] (fun _ => True) (traverseLocalPath refs s) := by
  have hbase : refs.fullPath [] = refs.stripped := List.append_nil _
  have hlen : (refs.fullPath []).length = refs.localPathLen := by rw [hbase, length_stripped]
  have hwalk := @traverseDirRec_carries refs base fs₀ J [] hJ hlong refs.openMax s h [] nofun refs.localPath
    (by rw [hlen, take_localPath, hbase]) nofun (by rw [List.append_nil]; exact hroot)
    (by rw [List.append_nil]; exact (hJ.walkable h).leads) (Nat.zero_add _)
  rw [hlen] at hwalk
  exact hwalk.congr fun q _ => iff_true_intro List.nil_prefix

end Rule

end Scambio
