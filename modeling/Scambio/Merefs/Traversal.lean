import Mathlib.Data.List.Dedup
import Scambio.Merefs.Confined

/-!
# Traversal — the files that the walk through the local tree matches

The walk is followed with what `match_local_file` is called with and with the bytes of `dirpath` that are written.
`dirpath` is a pointer where the names are added to it, so that eight bytes are taken for its size: a name is cut
unless the path before it is longer than that.

* `recordLocalPath_covers`  : while no name is cut, each visible file is matched once, under its path;
* `everyTreeVisited_iff`    : the local paths for which this is so of every tree.
-/

namespace Scambio

open Library

/-- A call of `match_local_file`, and what it leaves. -/
structure MatchCall where
  before : Merefs
  fpath : Bytes
  fname : Bytes
  result : MereResult

/-- What the walk does: the result, the calls of `match_local_file`, and where `dirpath` is written, with the number
of bytes. -/
structure Traversal where
  result : MereResult
  calls : List MatchCall
  writes : List (Nat × Nat)

/-- `if_fail` -/
def Traversal.ifOk (t : Traversal) (next : Merefs → Traversal) : Traversal :=
  match t.result.2 with
  | some _ => t
  | none =>
      let t' := next t.result.1
      ⟨t'.result, t.calls ++ t'.calls, t.writes ++ t'.writes⟩

/-- `sizeof(dirpath)-dirlen`, of the type `size_t`. -/
def dirpathRoom (dirlen : Nat) : Nat :=
  (2 ^ 64 + 8 - dirlen) % 2 ^ 64

/-- The name of an entry is printed before what is done of it, and cut off after. -/
def Traversal.entry (t : Traversal) (dirlen : Nat) (name : Bytes) : Traversal :=
  { t with writes := (dirlen, min (dirpathRoom dirlen) (name.length + 2)) :: t.writes ++ [(dirlen, 1)] }

variable (refs : Refs)

/-- `digest_file`, and `match_local_file` if it succeeds. -/
def recordFile (s : Merefs) (path : Bytes) : Traversal :=
  match digestFile refs s.fs path with
  | .error e => ⟨(s, some e), [], []⟩
  | .ok digest =>
      let fname := path.drop refs.localPathLen
      let result := matchLocalFile refs s path fname digest
      ⟨result, [⟨s, path, fname, result⟩], []⟩

/-- `scan_opened_dir` -/
def recordScan (recordDirRec : Merefs → Bytes → Nat → Traversal) :
    Merefs → Bytes → Nat → List (FileName × Node Bytes Bytes) → Traversal
  | s, _, _, [] => ⟨(s, none), [], []⟩
  | s, dirpath, dirlen, (name, node) :: dirents =>
      if name.val.head? = some 46 then recordScan recordDirRec s dirpath dirlen dirents
      else
        let path := dirpathWrite dirpath dirlen name.val
        match node with
        | .link _ => recordScan recordDirRec s dirpath dirlen dirents
        | .dir =>
            ((recordDirRec s path (dirlen + 1 + name.val.length)).entry dirlen name.val).ifOk fun s =>
              recordScan recordDirRec s (path.take dirlen) dirlen dirents
        | .file _ =>
            ((recordFile refs s path).entry dirlen name.val).ifOk fun s =>
              recordScan recordDirRec s (path.take dirlen) dirlen dirents

/-- `traverse_dir_rec` -/
def recordDirRec : Nat → Merefs → Bytes → Nat → Traversal
  | 0, s, dirpath, _ => ⟨(s, some (.push 24 (ascii "opendir(" ++ dirpath ++ ascii ")"))), [], []⟩
  | openLeft + 1, s, dirpath, dirlen =>
      match sysStat refs.cwd s.fs dirpath with
      | .error e => ⟨(s, some (sysErr e (ascii "opendir") dirpath)), [], []⟩
      | .ok dir =>
          if s.fs.tree.isDir dir then
            recordScan refs (recordDirRec openLeft) s dirpath dirlen (readdir refs s.fs dir)
          else ⟨(s, some (sysErr .notdir (ascii "opendir") dirpath)), [], []⟩

/-- `traverse_local_path`; the local path is printed to `dirpath` first. -/
def recordLocalPath (s : Merefs) : Traversal :=
  let t := recordDirRec refs refs.openMax s refs.localPath refs.localPathLen
  { t with writes := (0, min PATH_MAX (refs.localPath.length + 1)) :: t.writes }

/-! ## The walk that is followed is that of `local.c` -/

theorem ifOk_result {t : Traversal} {r : MereResult} {next : Merefs → Traversal} {next' : Merefs → MereResult}
    (h : t.result = r) (hnext : ∀ s, (next s).result = next' s) : (t.ifOk next).result = r.ifOk next' := by
  subst h
  unfold Traversal.ifOk MereResult.ifOk
  cases t.result.2 with
  | some e => rfl
  | none => exact hnext _

theorem recordScan_result {recDir : Merefs → Bytes → Nat → Traversal} {recDir' : Merefs → Bytes → Nat → MereResult}
    (hrec : ∀ s path n, (recDir s path n).result = recDir' s path n) (s : Merefs) (dirpath : Bytes) (dirlen : Nat)
    (dirents : List (FileName × Node Bytes Bytes)) :
    (recordScan refs recDir s dirpath dirlen dirents).result = scanOpenedDir refs recDir' s dirpath dirlen dirents := by
  induction dirents generalizing s dirpath with
  | nil => rfl
  | cons dirent dirents ih =>
      rcases dirent with ⟨name, node⟩
      unfold recordScan scanOpenedDir
      split
      · exact ih s dirpath
      · cases node with
        | link target => exact ih s dirpath
        | dir => exact ifOk_result (hrec _ _ _) fun s => ih s _
        | file content =>
            cases hdigest : digestFile refs s.fs (dirpathWrite dirpath dirlen name.val) with
            | error e => simp only [recordFile, hdigest]; rfl
            | ok digest =>
                simp only [recordFile, hdigest]
                exact ifOk_result rfl fun s => ih s _

theorem recordDirRec_result (openLeft : Nat) (s : Merefs) (dirpath : Bytes) (dirlen : Nat) :
    (recordDirRec refs openLeft s dirpath dirlen).result = traverseDirRec refs openLeft s dirpath dirlen := by
  induction openLeft generalizing s dirpath dirlen with
  | zero => rfl
  | succ openLeft ih =>
      unfold recordDirRec traverseDirRec
      cases sysStat refs.cwd s.fs dirpath with
      | error e => rfl
      | ok dir =>
          simp only
          split
          · exact recordScan_result refs ih _ _ _ _
          · rfl

theorem recordLocalPath_result (s : Merefs) : (recordLocalPath refs s).result = traverseLocalPath refs s :=
  recordDirRec_result refs refs.openMax s refs.localPath refs.localPathLen

/-! ## The files of a tree -/

/-- No component is hidden. -/
def Unhidden (r : List FileName) : Prop :=
  ∀ name ∈ r, name.val.head? ≠ some 46

/-- A regular file below the local path that is not hidden, and in nothing hidden. -/
def VisibleFile (base : List FileName) (fs : FileSys) (r : List FileName) : Prop :=
  Unhidden r ∧ ∃ content, fs.tree.get (base ++ r) = some (.file content)

/-- The path below the local path. -/
def relativePath (r : List FileName) : Bytes :=
  slashed (r.map Subtype.val)

def Refs.fullPath (r : List FileName) : Bytes :=
  refs.stripped ++ relativePath r

/-- A tree to walk through: the local path leads to its root, its full paths are short enough, `readdir` delivers each
entry of a directory once, with its type, and a directory can be opened at each depth. -/
structure Refs.Walkable (base : List FileName) (fs : FileSys) : Prop where
  leads : sysStat refs.cwd fs refs.localPath = .ok base
  root : fs.tree.get base = some .dir
  short : ∀ r, fs.tree.get (base ++ r) ≠ none → (refs.fullPath r).length < PATH_MAX
  listed : ∀ dir entries, (refs.order dir entries).Perm entries
  depth : ∀ r, fs.tree.get (base ++ r) = some .dir → r.length < refs.openMax

/-- `match_local_file` raises no error, and adds or removes no entry. -/
def Traversal.Calm (t : Traversal) : Prop :=
  ∀ call ∈ t.calls, call.result.2 = none ∧ call.before.fs.tree.SameKinds call.result.1.fs.tree

/-- What `match_local_file` is given for a file. -/
def Refs.argsFor (r : List FileName) : Bytes × Bytes :=
  (refs.fullPath r, relativePath r)

def MatchCall.args (call : MatchCall) : Bytes × Bytes :=
  (call.fpath, call.fname)

/-- `match_local_file` is called for each visible file once, with its full path and its path below the local path,
and for nothing else; `dirpath` is written within its size. -/
structure Refs.VisitsEach (base : List FileName) (fs : FileSys) (t : Traversal) : Prop where
  once : ∃ files : List (List FileName), files.Nodup ∧ (∀ r, r ∈ files ↔ VisibleFile base fs r) ∧
    t.calls.map MatchCall.args = files.map refs.argsFor
  within : ∀ w ∈ t.writes, w.1 + w.2 ≤ PATH_MAX

/-- No name of an entry is cut when it is added to `dirpath`. -/
def Refs.Uncut (base : List FileName) (fs : FileSys) : Prop :=
  ∀ r name, fs.tree.get (base ++ (r ++ [name])) ≠ none →
    9 ≤ (refs.fullPath r).length ∨ (refs.fullPath (r ++ [name])).length ≤ 7

section Walkable

variable {refs} {base r : List FileName} {name : FileName} {fs fs' : FileSys}

theorem relativePath_concat : relativePath (r ++ [name]) = relativePath r ++ 47 :: name.val := by
  rw [relativePath, List.map_append, List.map_singleton, slashed_concat]
  rfl

theorem fullPath_concat : refs.fullPath (r ++ [name]) = refs.fullPath r ++ 47 :: name.val := by
  rw [Refs.fullPath, relativePath_concat, ← List.append_assoc]
  rfl

theorem length_fullPath_concat :
    (refs.fullPath (r ++ [name])).length = (refs.fullPath r).length + 1 + name.val.length := by
  rw [fullPath_concat, List.length_append, List.length_cons]
  omega

theorem sysStat_congr (h : fs.tree.SameKinds fs'.tree) {cwd : List FileName} (path : Bytes) :
    sysStat cwd fs' path = sysStat cwd fs path := by
  unfold sysStat
  rw [h.resolve]

theorem Refs.Walkable.keeps (h : refs.Walkable base fs) (hsame : fs.tree.SameKinds fs'.tree) :
    refs.Walkable base fs' where
  leads := (sysStat_congr hsame _).trans h.leads
  root := (hsame.dir_iff base).2 h.root
  short := fun r hr => h.short r fun hnone => hr ((hsame.none_iff _).2 hnone)
  listed := h.listed
  depth := fun r hr => h.depth r ((hsame.dir_iff _).1 hr)

theorem Refs.Uncut.keeps (h : refs.Uncut base fs) (hsame : fs.tree.SameKinds fs'.tree) : refs.Uncut base fs' :=
  fun r name hr => h r name fun hnone => hr ((hsame.none_iff _).2 hnone)

theorem visibleFile_congr (hsame : fs.tree.SameKinds fs'.tree) : VisibleFile base fs' r ↔ VisibleFile base fs r :=
  and_congr_right fun _ => hsame.file_iff _

/-- Nothing is below what is not a directory. -/
theorem VisibleFile.eq_of_prefix {q : List FileName} (hq : VisibleFile base fs q) (hpre : r <+: q)
    (hdir : fs.tree.get (base ++ r) ≠ some .dir) : q = r := by
  by_contra hne
  rcases hq.2 with ⟨content, hcontent⟩
  have hnone := FileTree.get_below ((List.prefix_append_right_inj base).2 hpre)
    (fun heq => hne (List.append_cancel_left heq).symm) hdir
  rw [hnone] at hcontent
  cases hcontent

theorem stepOf_val (name : FileName) : stepOf name.val = .down name := by
  rw [stepOf, dif_pos name.2]

/-- The full path of what is in the tree leads there. -/
theorem Refs.Walkable.stat (h : refs.Walkable base fs) {n : Node Bytes Bytes} (hr : r ≠ [])
    (hn : fs.tree.get (base ++ r) = some n) (hlink : ∀ target, n ≠ .link target) :
    sysStat refs.cwd fs (refs.fullPath r) = .ok (base ++ r) := by
  have hne : refs.fullPath r ≠ [] := by
    rcases List.eq_nil_or_concat' r with rfl | ⟨init, name, rfl⟩
    · exact absurd rfl hr
    · simp [fullPath_concat]
  have hshort : ¬ PATH_MAX ≤ (refs.fullPath r).length :=
    Nat.not_le.2 (h.short r (hn ▸ Option.some_ne_none n))
  have hlocal := (sysStat_ok h.leads).2.1
  -- the local path without its slashes leads to the same directory
  have hbase : fs.tree.resolve followLink MAXSYMLINKS (pathStart refs.cwd refs.localPath)
      (pathSteps refs.stripped) = .ok base := by
    rcases pathSteps_localPath refs with ⟨k, hk⟩
    have hresolve := (sysStat_ok h.leads).1
    rw [hk] at hresolve
    rcases FileTree.resolve_append hresolve with ⟨q, links, hq, -⟩
    have hheads := headsFor_stripped (sysStat_heading h.leads)
    rw [FileTree.headsFor_of_resolve hq, Option.some.injEq] at hheads
    exact hheads ▸ hq
  have hparts : ∀ part ∈ r.map Subtype.val, (47 : UInt8) ∉ part := by
    intro part hpart
    rcases List.mem_map.1 hpart with ⟨name, -, rfl⟩
    exact name.2.2.2.2
  have hsteps : pathSteps (refs.fullPath r) = pathSteps refs.stripped ++ r.map .down := by
    rw [Refs.fullPath, relativePath, pathSteps_slashed _ hparts, List.map_map]
    congr 1
    exact List.map_congr_left fun name _ => stepOf_val name
  rw [sysStat, pathError, if_neg hne, if_neg hshort, hsteps]
  have hstart : pathStart refs.cwd (refs.fullPath r) = pathStart refs.cwd refs.localPath :=
    pathStart_stripped hlocal hne
  rw [hstart]
  exact FileTree.resolve_append_of_walk hbase (FileTree.walk_down hn hlink)

/-- Nothing is cut: the name stands behind the directory. -/
theorem dirpathWrite_uncut {dirpath path name : Bytes} (hpath : dirpath.take path.length = path)
    (hroom : 9 ≤ path.length ∨ path.length + 1 + name.length ≤ 7) :
    dirpathWrite dirpath path.length name = path ++ 47 :: name := by
  have hlen : path.length ≤ dirpath.length := by
    have h := congrArg List.length hpath
    rw [List.length_take] at h
    omega
  unfold dirpathWrite
  rw [hpath, if_neg (by omega)]
  split
  · rw [List.take_of_length_le]
    rw [List.length_cons]
    omega
  · rfl

theorem mem_readdir (h : refs.Walkable base fs) {dir : List FileName} {node : Node Bytes Bytes} :
    (name, node) ∈ readdir refs fs dir ↔ fs.tree.get (dir ++ [name]) = some node := by
  rw [readdir, (h.listed _ _).mem_iff, List.mem_filterMap]
  constructor
  · rintro ⟨name', -, hget⟩
    rcases Option.map_eq_some_iff.1 hget with ⟨node', hnode, heq⟩
    cases heq
    exact hnode
  · intro hget
    refine ⟨name, ?_, by rw [hget]; rfl⟩
    rw [List.mem_dedup]
    exact fs.tree.named _ _ (hget ▸ Option.some_ne_none node)

theorem readdir_nodup (h : refs.Walkable base fs) (dir : List FileName) :
    ((readdir refs fs dir).map Prod.fst).Nodup := by
  rw [readdir, ((h.listed _ _).map Prod.fst).nodup_iff, List.map_filterMap]
  apply (List.nodup_dedup _).filterMap
  intro name name' found hfound hfound'
  simp only [Option.map_map, Option.mem_def, Option.map_eq_some_iff] at hfound hfound'
  rcases hfound with ⟨_, -, rfl⟩
  rcases hfound' with ⟨_, -, heq⟩
  exact heq.symm

end Walkable

/-! ## What a part of the walk covers -/

/-- A part of the walk that ends without an error, and matches the visible files of `P`, each once. -/
structure Refs.Covers (base : List FileName) (fs : FileSys) (P : List FileName → Prop) (t : Traversal) : Prop where
  ended : t.result.2 = none
  same : fs.tree.SameKinds t.result.1.fs.tree
  once : ∃ files : List (List FileName), files.Nodup ∧ (∀ r, r ∈ files ↔ P r ∧ VisibleFile base fs r) ∧
    t.calls.map MatchCall.args = files.map refs.argsFor
  within : ∀ w ∈ t.writes, w.1 + w.2 ≤ PATH_MAX

section Covers

variable {refs} {base : List FileName} {fs : FileSys} {P Q : List FileName → Prop} {t : Traversal}
  {next : Merefs → Traversal}

theorem Refs.Covers.congr (h : refs.Covers base fs P t) (hPQ : ∀ r, VisibleFile base fs r → (P r ↔ Q r)) :
    refs.Covers base fs Q t := by
  rcases h.once with ⟨files, hnodup, hfiles, hcalls⟩
  refine ⟨h.ended, h.same, ⟨files, hnodup, ?_, hcalls⟩, h.within⟩
  intro r
  rw [hfiles]
  exact and_congr_left (hPQ r)

/-- A part of the walk where there is no file. -/
theorem covers_nothing (s : Merefs) (hP : ∀ r, VisibleFile base s.fs r → ¬ P r) :
    refs.Covers base s.fs P ⟨(s, none), [], []⟩ := by
  refine ⟨rfl, .refl _, ⟨[], List.nodup_nil, ?_, rfl⟩, nofun⟩
  intro r
  exact ⟨nofun, fun h => absurd h.1 (hP r h.2)⟩

theorem Refs.Covers.entry (h : refs.Covers base fs P t) {dirlen : Nat} {name : Bytes}
    (hfits : dirlen + (name.length + 2) ≤ PATH_MAX) : refs.Covers base fs P (t.entry dirlen name) := by
  refine ⟨h.ended, h.same, h.once, ?_⟩
  intro w hw
  rcases List.mem_append.1 hw with hw | hw
  · rcases List.mem_cons.1 hw with rfl | hw
    · have hmin := Nat.min_le_right (dirpathRoom dirlen) (name.length + 2)
      simp only
      omega
    · exact h.within w hw
  · rw [List.mem_singleton.1 hw]
    simp only
    omega

theorem Traversal.Calm.ifOk (h : (t.ifOk next).Calm) :
    t.Calm ∧ (t.result.2 = none → (next t.result.1).Calm) := by
  unfold Traversal.ifOk at h
  cases hres : t.result.2 with
  | some e =>
      rw [hres] at h
      exact ⟨h, nofun⟩
  | none =>
      rw [hres] at h
      refine ⟨fun call hcall => h call (List.mem_append_left _ hcall), fun _ call hcall => ?_⟩
      exact h call (List.mem_append_right _ hcall)

/-- Two parts of the walk cover what one of them does. -/
theorem Refs.Covers.ifOk (h : refs.Covers base fs P t)
    (hnext : refs.Covers base t.result.1.fs Q (next t.result.1)) (hdisjoint : ∀ r, P r → ¬ Q r) :
    refs.Covers base fs (fun r => P r ∨ Q r) (t.ifOk next) := by
  unfold Traversal.ifOk
  rw [h.ended]
  rcases h.once with ⟨files, hnodup, hfiles, hcalls⟩
  rcases hnext.once with ⟨files', hnodup', hfiles', hcalls'⟩
  refine ⟨hnext.ended, h.same.trans hnext.same, ⟨files ++ files', ?_, ?_, ?_⟩, ?_⟩
  · refine hnodup.append hnodup' ?_
    intro r hr hr'
    exact hdisjoint r ((hfiles r).1 hr).1 ((hfiles' r).1 hr').1
  · intro r
    rw [List.mem_append, hfiles, hfiles', visibleFile_congr h.same, or_and_right]
  · rw [List.map_append, List.map_append, hcalls, hcalls']
  · intro w hw
    exact (List.mem_append.1 hw).elim (h.within w) (hnext.within w)

/-- In one of these entries of a directory, or below it. -/
def Under (r : List FileName) (dirents : List (FileName × Node Bytes Bytes)) (q : List FileName) : Prop :=
  ∃ name ∈ dirents.map Prod.fst, r ++ [name] <+: q

theorem under_cons {r q : List FileName} {dirent : FileName × Node Bytes Bytes}
    {dirents : List (FileName × Node Bytes Bytes)} :
    Under r (dirent :: dirents) q ↔ r ++ [dirent.1] <+: q ∨ Under r dirents q := by
  unfold Under
  rw [List.map_cons]
  simp only [List.mem_cons, exists_eq_or_imp]

theorem not_under {r q : List FileName} {name : FileName} {dirents : List (FileName × Node Bytes Bytes)}
    (hfresh : name ∉ dirents.map Prod.fst) (hq : r ++ [name] <+: q) : ¬ Under r dirents q := by
  rintro ⟨name', hmem, hq'⟩
  have heq := List.prefix_of_prefix_length_le hq hq' (by simp)
  rw [List.prefix_append_right_inj, List.cons_prefix_cons] at heq
  exact hfresh (heq.1 ▸ hmem)

/-- An entry, and then the others. -/
theorem Refs.Covers.cons {r : List FileName} {dirent : FileName × Node Bytes Bytes}
    {dirents : List (FileName × Node Bytes Bytes)} {dirlen : Nat}
    (hfirst : t.Calm → refs.Covers base fs (r ++ [dirent.1] <+: ·) t)
    (hfits : dirlen + (dirent.1.val.length + 2) ≤ PATH_MAX) (hfresh : dirent.1 ∉ dirents.map Prod.fst)
    (hnext : ∀ s, fs.tree.SameKinds s.fs.tree → (next s).Calm → refs.Covers base s.fs (Under r dirents) (next s))
    (hcalm : ((t.entry dirlen dirent.1.val).ifOk next).Calm) :
    refs.Covers base fs (Under r (dirent :: dirents)) ((t.entry dirlen dirent.1.val).ifOk next) := by
  rcases hcalm.ifOk with ⟨hcalm, hcalm'⟩
  have hentry := (hfirst hcalm).entry hfits
  have hrest := hnext _ hentry.same (hcalm' hentry.ended)
  refine (hentry.ifOk hrest fun q hq => not_under hfresh hq).congr ?_
  intro q _
  exact under_cons.symm

end Covers

/-! ## The walk, while no name is cut -/

section Uncut

variable {refs} {base : List FileName}

theorem recordFile_covers {s : Merefs} (h : refs.Walkable base s.fs) {r : List FileName}
    (hr : VisibleFile base s.fs r) (hcalm : (recordFile refs s (refs.fullPath r)).Calm) :
    refs.Covers base s.fs (· = r) (recordFile refs s (refs.fullPath r)) := by
  rcases hr.2 with ⟨content, hcontent⟩
  have hne : r ≠ [] := by
    rintro rfl
    rw [List.append_nil, h.root] at hcontent
    cases hcontent
  have hdigest : digestFile refs s.fs (refs.fullPath r) = .ok (refs.digest content) := by
    unfold digestFile
    rw [h.stat hne hcontent nofun]
    simp only [hcontent]
  unfold recordFile at hcalm ⊢
  rw [hdigest] at hcalm ⊢
  rcases hcalm _ (List.mem_singleton_self _) with ⟨hended, hsame⟩
  refine ⟨hended, hsame, ⟨[r], List.nodup_singleton r, ?_, ?_⟩, nofun⟩
  · intro q
    rw [List.mem_singleton]
    constructor
    · rintro rfl
      exact ⟨rfl, hr⟩
    · exact And.left
  · have hname : (refs.fullPath r).drop refs.localPathLen = relativePath r := by
      rw [← length_stripped, Refs.fullPath, List.drop_left]
    simp only [List.map_singleton, MatchCall.args, hname]
    rfl

/-- What the walk has in hand in a directory: a tree to walk through, and the path of the directory in `dirpath`. -/
structure Refs.InDir (base r : List FileName) (fs : FileSys) (dirpath : Bytes) : Prop where
  walkable : refs.Walkable base fs
  uncut : refs.Uncut base fs
  unhidden : Unhidden r
  path : dirpath.take (refs.fullPath r).length = refs.fullPath r

section InDir

variable {r : List FileName} {name : FileName} {fs : FileSys} {dirpath : Bytes}

theorem Refs.InDir.write (h : refs.InDir base r fs dirpath) (hname : fs.tree.get (base ++ (r ++ [name])) ≠ none) :
    dirpathWrite dirpath (refs.fullPath r).length name.val = refs.fullPath (r ++ [name]) := by
  have hroom := h.uncut r name hname
  rw [length_fullPath_concat] at hroom
  rw [dirpathWrite_uncut h.path hroom, fullPath_concat]

theorem Refs.InDir.fits (h : refs.InDir base r fs dirpath) (hname : fs.tree.get (base ++ (r ++ [name])) ≠ none) :
    (refs.fullPath r).length + (name.val.length + 2) ≤ PATH_MAX := by
  have hshort := h.walkable.short _ hname
  rw [length_fullPath_concat] at hshort
  omega

/-- Once the name of an entry is cut off again. -/
theorem Refs.InDir.next (h : refs.InDir base r fs dirpath) {fs' : FileSys} (hsame : fs.tree.SameKinds fs'.tree) :
    refs.InDir base r fs' ((refs.fullPath (r ++ [name])).take (refs.fullPath r).length) where
  walkable := h.walkable.keeps hsame
  uncut := h.uncut.keeps hsame
  unhidden := h.unhidden
  path := by rw [List.take_take, Nat.min_self, fullPath_concat, List.take_left]

theorem Unhidden.concat (h : Unhidden r) (hname : name.val.head? ≠ some 46) : Unhidden (r ++ [name]) := by
  intro name' hmem
  rcases List.mem_append.1 hmem with hmem | hmem
  · exact h name' hmem
  · exact List.mem_singleton.1 hmem ▸ hname

end InDir

/-- The entries of a directory, once what is below each of them is covered. -/
theorem recordScan_covers {recDir : Merefs → Bytes → Nat → Traversal} {r : List FileName}
    (hrec : ∀ (s : Merefs) (name : FileName), refs.InDir base (r ++ [name]) s.fs (refs.fullPath (r ++ [name])) →
      s.fs.tree.get (base ++ (r ++ [name])) = some .dir →
      (recDir s (refs.fullPath (r ++ [name])) (refs.fullPath (r ++ [name])).length).Calm →
      refs.Covers base s.fs (r ++ [name] <+: ·)
        (recDir s (refs.fullPath (r ++ [name])) (refs.fullPath (r ++ [name])).length))
    {s : Merefs} {dirpath : Bytes} (h : refs.InDir base r s.fs dirpath)
    {dirents : List (FileName × Node Bytes Bytes)} (hnodup : (dirents.map Prod.fst).Nodup)
    (hentries : ∀ dirent ∈ dirents,
      (s.fs.tree.get (base ++ (r ++ [dirent.1]))).map Node.kind = some dirent.2.kind)
    (hcalm : (recordScan refs recDir s dirpath (refs.fullPath r).length dirents).Calm) :
    refs.Covers base s.fs (Under r dirents) (recordScan refs recDir s dirpath (refs.fullPath r).length dirents) := by
  induction dirents generalizing s dirpath with
  | nil =>
      apply covers_nothing
      rintro q - ⟨_, hmem, -⟩
      cases hmem
  | cons dirent dirents ih =>
      rcases dirent with ⟨name, node⟩
      rw [List.map_cons, List.nodup_cons] at hnodup
      rcases hnodup with ⟨hfresh, hnodup⟩
      rcases Option.map_eq_some_iff.1 (hentries _ List.mem_cons_self) with ⟨n, hn, hkind⟩
      have hsome : s.fs.tree.get (base ++ (r ++ [name])) ≠ none := hn ▸ Option.some_ne_none n
      have hlater := fun dirent hmem => hentries dirent (List.mem_cons_of_mem _ hmem)
      -- an entry that is skipped has no visible file below it
      have hskip : (∀ q, VisibleFile base s.fs q → ¬ r ++ [name] <+: q) →
          (recordScan refs recDir s dirpath (refs.fullPath r).length dirents).Calm →
          refs.Covers base s.fs (Under r ((name, node) :: dirents))
            (recordScan refs recDir s dirpath (refs.fullPath r).length dirents) := by
        intro hno hcalm
        refine (ih h hnodup hlater hcalm).congr ?_
        intro q hq
        rw [under_cons, or_iff_right (hno q hq)]
      have hnext : ∀ s' : Merefs, s.fs.tree.SameKinds s'.fs.tree →
          (recordScan refs recDir s' ((refs.fullPath (r ++ [name])).take (refs.fullPath r).length)
            (refs.fullPath r).length dirents).Calm →
          refs.Covers base s'.fs (Under r dirents)
            (recordScan refs recDir s' ((refs.fullPath (r ++ [name])).take (refs.fullPath r).length)
              (refs.fullPath r).length dirents) := by
        intro s' hsame hcalm
        refine ih (h.next hsame) hnodup ?_ hcalm
        intro dirent hmem
        rw [hsame]
        exact hlater dirent hmem
      unfold recordScan at hcalm ⊢
      split at hcalm
      next hhidden =>
        rw [if_pos hhidden]
        refine hskip ?_ hcalm
        intro q hq hpre
        exact hq.1 name (hpre.subset (by simp)) hhidden
      next hshown =>
        rw [if_neg hshown]
        simp only [h.write hsome, ← length_fullPath_concat] at hcalm ⊢
        have hunhidden := h.unhidden.concat hshown
        cases node with
        | link target =>
            -- the walk does not follow it, and nothing is below it
            refine hskip ?_ hcalm
            intro q hq hpre
            cases n <;> cases hkind
            have heq := hq.eq_of_prefix hpre (hn ▸ nofun)
            rcases hq.2 with ⟨content, hfile⟩
            rw [heq, hn] at hfile
            cases hfile
        | dir =>
            cases n <;> cases hkind
            have hin : refs.InDir base (r ++ [name]) s.fs (refs.fullPath (r ++ [name])) :=
              ⟨h.walkable, h.uncut, hunhidden, List.take_length⟩
            exact Refs.Covers.cons (hrec s name hin hn) (h.fits hsome) hfresh hnext hcalm
        | file content =>
            refine Refs.Covers.cons ?_ (h.fits hsome) hfresh hnext hcalm
            intro hcalm
            cases n <;> cases hkind
            have hfile : VisibleFile base s.fs (r ++ [name]) := ⟨hunhidden, _, hn⟩
            refine (recordFile_covers h.walkable hfile hcalm).congr ?_
            intro q hq
            constructor
            · rintro rfl
              exact List.prefix_rfl
            · intro hpre
              exact hq.eq_of_prefix hpre (hn ▸ nofun)

theorem recordDirRec_covers {openLeft : Nat} {s : Merefs} {r : List FileName} {dirpath : Bytes}
    (h : refs.InDir base r s.fs dirpath) (hdir : s.fs.tree.get (base ++ r) = some .dir)
    (hstat : sysStat refs.cwd s.fs dirpath = .ok (base ++ r)) (hopen : r.length + openLeft = refs.openMax)
    (hcalm : (recordDirRec refs openLeft s dirpath (refs.fullPath r).length).Calm) :
    refs.Covers base s.fs (r <+: ·) (recordDirRec refs openLeft s dirpath (refs.fullPath r).length) := by
  -- each level takes a directory that is left to be opened
  induction openLeft generalizing s r dirpath with
  | zero => exact absurd (h.walkable.depth r hdir) (by omega)
  | succ openLeft ih =>
      unfold recordDirRec at hcalm ⊢
      rw [hstat] at hcalm ⊢
      simp only [FileTree.isDir_iff.2 hdir, if_true] at hcalm ⊢
      have hentries : ∀ dirent ∈ readdir refs s.fs (base ++ r),
          (s.fs.tree.get (base ++ (r ++ [dirent.1]))).map Node.kind = some dirent.2.kind := by
        intro dirent hmem
        rw [← List.append_assoc, (mem_readdir h.walkable).1 hmem]
        rfl
      refine (recordScan_covers ?_ h (readdir_nodup h.walkable _) hentries hcalm).congr ?_
      · intro s' name hin hdir' hcalm'
        exact ih hin hdir' (hin.walkable.stat (by simp) hdir' nofun) (by rw [List.length_append]; simp; omega) hcalm'
      · intro q hq
        constructor
        · rintro ⟨name, -, hpre⟩
          exact (List.prefix_append r [name]).trans hpre
        · rintro ⟨rest, rfl⟩
          rcases hq.2 with ⟨content, hfile⟩
          cases rest with
          | nil =>
              rw [List.append_nil, hdir] at hfile
              cases hfile
          | cons name rest =>
              have hpre : r ++ [name] <+: r ++ name :: rest := by
                rw [List.prefix_append_right_inj]
                exact ⟨rest, rfl⟩
              refine ⟨name, ?_, hpre⟩
              -- something is at the name, since the file is there or below
              have hsome : s.fs.tree.get (base ++ r ++ [name]) ≠ none := by
                intro hnone
                rw [List.append_assoc] at hnone
                have heq := hq.eq_of_prefix hpre (hnone ▸ nofun)
                rw [heq, hnone] at hfile
                cases hfile
              rcases Option.ne_none_iff_exists'.1 hsome with ⟨node, hnode⟩
              exact List.mem_map_of_mem ((mem_readdir h.walkable).2 hnode)

/-- While no name is cut, the walk matches each visible file once, under its full path. -/
theorem recordLocalPath_covers {s : Merefs} (h : refs.Walkable base s.fs) (huncut : refs.Uncut base s.fs)
    (hcalm : (recordLocalPath refs s).Calm) :
    refs.Covers base s.fs (fun _ => True) (recordLocalPath refs s) := by
  have hbase : refs.fullPath [] = refs.stripped := List.append_nil _
  have hlen : (refs.fullPath []).length = refs.localPathLen := by rw [hbase, length_stripped]
  have hin : refs.InDir base [] s.fs refs.localPath := by
    refine ⟨h, huncut, nofun, ?_⟩
    rw [hlen, take_localPath, hbase]
  have hrec : refs.Covers base s.fs (fun _ => True)
      (recordDirRec refs refs.openMax s refs.localPath refs.localPathLen) := by
    rw [← hlen]
    refine (recordDirRec_covers hin ?_ ?_ (Nat.zero_add _) ?_).congr fun q _ => iff_true_intro List.nil_prefix
    · rw [List.append_nil]
      exact h.root
    · rw [List.append_nil]
      exact h.leads
    · rw [hlen]
      exact hcalm
  refine ⟨hrec.ended, hrec.same, hrec.once, List.forall_mem_cons.2 ⟨?_, hrec.within⟩⟩
  exact (Nat.zero_add _).trans_le (Nat.min_le_left _ _)

end Uncut

/-! ## A tree where a name is cut -/

/-- Every directory over some names up to a depth, and one file. -/
def crowdedTree (dirs : List FileName) (depth : Nat) (base : List FileName) (file : FileName)
    (hlen : base.length ≤ depth) (hbase : base ⊆ dirs) (hfile : file ∉ dirs) : DiskTree where
  get p :=
    if p = base ++ [file] then some (.file [])
    else if p.length ≤ depth ∧ p ⊆ dirs then some .dir else none
  names := file :: dirs
  root := by simp
  parent := by
    intro p a h
    have hp : p.length ≤ depth ∧ p ⊆ dirs := by
      split at h
      next heq =>
        rw [(List.append_inj' heq rfl).1]
        exact ⟨hlen, hbase⟩
      · split at h
        next hdir =>
          rw [List.length_append, List.append_subset] at hdir
          exact ⟨by omega, hdir.2.1⟩
        · exact absurd rfl h
    have hne : p ≠ base ++ [file] := by
      rintro rfl
      exact hfile (hp.2 (by simp))
    rw [if_neg hne, if_pos hp]
  named := by
    intro p a h
    split at h
    next heq =>
      rw [List.singleton_inj.1 (List.append_inj' heq rfl).2]
      exact List.mem_cons_self
    · split at h
      next hdir => exact List.mem_cons_of_mem _ (hdir.2 (by simp))
      · exact absurd rfl h

theorem crowdedTree_cases {dirs base p : List FileName} {depth : Nat} {file : FileName} (hlen : base.length ≤ depth)
    (hbase : base ⊆ dirs) (hfile : file ∉ dirs) {n : Node Bytes Bytes}
    (h : (crowdedTree dirs depth base file hlen hbase hfile).get p = some n) :
    p = base ++ [file] ∧ n = .file [] ∨ p.length ≤ depth ∧ p ⊆ dirs ∧ n = .dir := by
  simp only [crowdedTree] at h
  split at h
  next heq => exact .inl ⟨heq, (Option.some.inj h).symm⟩
  · split at h
    next hdir => exact .inr ⟨hdir.1, hdir.2, (Option.some.inj h).symm⟩
    · cases h

/-- A name that is longer than the pointer. -/
def longName : FileName :=
  ⟨List.replicate 9 97, by decide⟩

/-- The directories on the way of a path. -/
def pathNames (path : Bytes) : List FileName :=
  FileTree.downs (pathSteps path)

/-- Where a path leads from the root. -/
def pathBase (path : Bytes) : List FileName :=
  FileTree.lexical [] (pathSteps path)

theorem pathNames_localPath : pathNames refs.localPath = pathNames refs.stripped := by
  rcases pathSteps_localPath refs with ⟨k, hk⟩
  rw [pathNames, hk, FileTree.downs_append, FileTree.downs_stays, List.append_nil]
  rfl

theorem pathBase_subset (path : Bytes) : pathBase path ⊆ pathNames path :=
  fun _ ha => (FileTree.mem_lexical ha).resolve_left List.not_mem_nil

theorem length_pathBase (path : Bytes) : (pathBase path).length ≤ (pathNames path).length :=
  (FileTree.length_lexical_le [] _).trans (Nat.zero_add _).le

theorem longName_notMem {path : Bytes} (hpath : path.length ≤ 8) : longName ∉ pathNames path := by
  intro hmem
  have hlen := (length_of_mem_downs hmem).trans hpath
  exact absurd hlen (by decide)

/-- The local path is a directory, and a file is in it. -/
def crowdedFs (path : Bytes) (hpath : path.length ≤ 8) : FileSys where
  tree := crowdedTree (pathNames path) (pathNames path).length (pathBase path) longName (length_pathBase path)
    (pathBase_subset path) (longName_notMem hpath)
  touched := []

def isFileEntry (dirent : FileName × Node Bytes Bytes) : Bool :=
  match dirent.2 with
  | .file _ => true
  | _ => false

def filesFirst (dirents : List (FileName × Node Bytes Bytes)) : List (FileName × Node Bytes Bytes) :=
  dirents.filter isFileEntry ++ dirents.filter fun dirent => !isFileEntry dirent

/-- The only file comes first. -/
theorem filesFirst_cons {dirents : List (FileName × Node Bytes Bytes)} {file : FileName × Node Bytes Bytes}
    (hmem : file ∈ dirents) (hfile : isFileEntry file = true)
    (honly : ∀ dirent ∈ dirents, isFileEntry dirent = true → dirent = file) :
    ∃ rest, filesFirst dirents = file :: rest := by
  have hfilter : file ∈ dirents.filter isFileEntry := List.mem_filter.2 ⟨hmem, hfile⟩
  unfold filesFirst
  cases hfiles : dirents.filter isFileEntry with
  | nil => exact absurd hfilter (hfiles ▸ List.not_mem_nil)
  | cons dirent rest =>
      have hdirent : dirent ∈ dirents.filter isFileEntry := hfiles ▸ List.mem_cons_self
      rw [List.mem_filter] at hdirent
      exact ⟨_, by rw [honly dirent hdirent.1 hdirent.2, List.cons_append]⟩

/-- The files are delivered first. -/
def crowdedRefs (localPath : Bytes) : Refs where
  cwd := []
  localPath := localPath
  digest := id
  getFile := fun _ => .ok []
  sendFile := fun _ _ => .ok []
  hardLinks _ _ := true
  order := fun _ => filesFirst
  openMax := 10

section Crowded

variable {path : Bytes} (hpath : path.length ≤ 8) {p : List FileName}

theorem crowdedFs_cases {n : Node Bytes Bytes} (h : (crowdedFs path hpath).tree.get p = some n) :
    p = pathBase path ++ [longName] ∧ n = .file [] ∨
      p.length ≤ (pathNames path).length ∧ p ⊆ pathNames path ∧ n = .dir :=
  crowdedTree_cases (length_pathBase path) (pathBase_subset path) (longName_notMem hpath) h

theorem crowdedFs_file : (crowdedFs path hpath).tree.get (pathBase path ++ [longName]) = some (.file []) :=
  if_pos rfl

theorem crowdedFs_dir (hlen : p.length ≤ (pathNames path).length) (hp : p ⊆ pathNames path) :
    (crowdedFs path hpath).tree.get p = some .dir := by
  have hne : p ≠ pathBase path ++ [longName] := by
    rintro rfl
    exact longName_notMem hpath (hp (by simp))
  exact (if_neg hne).trans (if_pos ⟨hlen, hp⟩)

theorem crowdedFs_base : (crowdedFs path hpath).tree.get (pathBase path) = some .dir :=
  crowdedFs_dir hpath (length_pathBase path) (pathBase_subset path)

theorem crowdedFs_noLinks (p : List FileName) : (crowdedFs path hpath).tree.linkAt p = none := by
  rw [Option.eq_none_iff_forall_ne_some]
  intro target hlink
  rcases crowdedFs_cases hpath (FileTree.linkAt_eq_some.1 hlink) with ⟨-, h⟩ | ⟨-, -, h⟩ <;> cases h

/-- A path without the long name leads to no file. -/
theorem crowdedFs_stat {cwd : List FileName} {other : Bytes} (hcwd : cwd = [])
    (hother : longName ∉ pathNames other) {content : Bytes}
    (hstat : sysStat cwd (crowdedFs path hpath) other = .ok p) :
    (crowdedFs path hpath).tree.get p ≠ some (.file content) := by
  have hheads := sysStat_heading hstat
  have hstart : pathStart cwd other = [] := by rw [pathStart, hcwd, ite_self]
  rw [heading, FileTree.headsFor, hstart, FileTree.heads_lexical (crowdedFs_noLinks hpath), Option.some.injEq] at hheads
  intro hfile
  rcases crowdedFs_cases hpath hfile with ⟨hp, -⟩ | ⟨-, -, h⟩
  · have hmem : longName ∈ FileTree.lexical [] (pathSteps other) := hheads ▸ hp ▸ by simp
    exact hother ((FileTree.mem_lexical hmem).resolve_left List.not_mem_nil)
  · cases h

theorem length_relativePath_le {r : List FileName} {k : Nat} (h : ∀ name ∈ r, name.val.length ≤ k) :
    (relativePath r).length ≤ r.length * (k + 1) := by
  induction r with
  | nil => exact Nat.zero_le _
  | cons name r ih =>
      have hname := h name List.mem_cons_self
      have hrest := ih fun name' hmem => h name' (List.mem_cons_of_mem _ hmem)
      have hcons : relativePath (name :: r) = 47 :: name.val ++ relativePath r := slashed_cons _ _
      rw [hcons, List.length_append, List.length_cons, List.length_cons, Nat.add_mul]
      omega

end Crowded

section Short

variable {localPath : Bytes} (hshort : (crowdedRefs localPath).stripped.length ≤ 8)

theorem crowded_walkable (hne : localPath ≠ []) (hlen : localPath.length < PATH_MAX) :
    (crowdedRefs localPath).Walkable (pathBase (crowdedRefs localPath).stripped)
      (crowdedFs (crowdedRefs localPath).stripped hshort) where
  leads := by
    have herror : pathError localPath = none := by
      rw [pathError, if_neg hne, if_neg (Nat.not_le.2 hlen)]
    have hstart : pathStart (crowdedRefs localPath).cwd localPath = [] := ite_self _
    rcases pathSteps_localPath (crowdedRefs localPath) with ⟨k, hk⟩
    have hwalk : (crowdedFs (crowdedRefs localPath).stripped hshort).tree.walk [] (pathSteps localPath) =
        .arrived (pathBase (crowdedRefs localPath).stripped) := by
      change pathSteps localPath = _ at hk
      rw [hk, FileTree.walk_append,
        FileTree.walk_lexical (fun p => crowdedFs_dir hshort) (List.nil_subset _) (List.Subset.refl _) (Nat.zero_add _).le]
      exact FileTree.walk_stays (crowdedFs_base hshort) k
    change sysStat _ _ localPath = _
    rw [sysStat, herror]
    simp only [hstart]
    rw [FileTree.resolve, hwalk]
  root := crowdedFs_base hshort
  short := by
    intro r hr
    rcases Option.ne_none_iff_exists'.1 hr with ⟨n, hn⟩
    have hnames : r.length ≤ 9 ∧ ∀ name ∈ r, name.val.length ≤ 9 := by
      have hcount : (pathNames (crowdedRefs localPath).stripped).length ≤ 8 := (length_downs_le _).trans hshort
      rcases crowdedFs_cases hshort hn with ⟨heq, -⟩ | ⟨hle, hsub, -⟩
      · rw [List.append_cancel_left heq]
        exact ⟨by decide, by simp [longName]⟩
      · rw [List.length_append] at hle
        refine ⟨by omega, fun name hmem => ?_⟩
        have hname := length_of_mem_downs (hsub (List.mem_append_right _ hmem))
        omega
    have hrel := length_relativePath_le hnames.2
    have hmax : (9 : Nat) * 10 + 8 < PATH_MAX := by decide
    rw [Refs.fullPath, List.length_append]
    have hmul := Nat.mul_le_mul_right 10 hnames.1
    omega
  listed := fun _ entries => List.filter_append_perm isFileEntry entries
  depth := by
    intro r hr
    rcases crowdedFs_cases hshort hr with ⟨-, h⟩ | ⟨hle, -, -⟩
    · cases h
    · have hcount : (pathNames (crowdedRefs localPath).stripped).length ≤ 8 := (length_downs_le _).trans hshort
      rw [List.length_append] at hle
      change r.length < 10
      omega

def crowdedMerefs : Merefs :=
  ⟨crowdedFs (crowdedRefs localPath).stripped hshort, [], [], [], [], [], [], [], []⟩

/-- The file comes first. -/
theorem crowded_readdir (h : (crowdedRefs localPath).Walkable (pathBase (crowdedRefs localPath).stripped)
      (crowdedFs (crowdedRefs localPath).stripped hshort)) :
    ∃ dirents, readdir (crowdedRefs localPath) (crowdedFs (crowdedRefs localPath).stripped hshort)
      (pathBase (crowdedRefs localPath).stripped) = (longName, .file []) :: dirents := by
  have hperm := h.listed (pathBase (crowdedRefs localPath).stripped)
  refine filesFirst_cons ((hperm _).mem_iff.1 ((mem_readdir h).2 (crowdedFs_file hshort))) rfl ?_
  rintro ⟨name, node⟩ hdirent hfile
  rcases crowdedFs_cases hshort ((mem_readdir h).1 ((hperm _).mem_iff.2 hdirent)) with ⟨heq, rfl⟩ | ⟨-, -, rfl⟩
  · rw [List.singleton_inj.1 (List.append_cancel_left heq)]
  · cases hfile

/-- The name is cut, or there is no room for it. -/
theorem longName_cut (hshort : (crowdedRefs localPath).stripped.length ≤ 8) :
    longName ∉ pathNames (dirpathWrite localPath (crowdedRefs localPath).localPathLen longName.val) := by
  have hlen := length_stripped (crowdedRefs localPath)
  have hlocal : longName ∉ pathNames localPath := by
    change longName ∉ pathNames (crowdedRefs localPath).localPath
    rw [pathNames_localPath]
    exact longName_notMem hshort
  unfold dirpathWrite
  split
  · exact hlocal
  · split
    next hlt =>
      apply longName_notMem
      have htake : localPath.take (crowdedRefs localPath).localPathLen = (crowdedRefs localPath).stripped :=
        take_localPath (crowdedRefs localPath)
      rw [htake, List.length_append, List.length_take]
      omega
    next hno hge => omega

theorem crowded_calls (h : (crowdedRefs localPath).Walkable (pathBase (crowdedRefs localPath).stripped)
      (crowdedFs (crowdedRefs localPath).stripped hshort)) :
    (recordLocalPath (crowdedRefs localPath) (crowdedMerefs hshort)).calls = [] := by
  rcases crowded_readdir hshort h with ⟨dirents, hdirents⟩
  have hdigest : ∃ e, digestFile (crowdedRefs localPath) (crowdedMerefs hshort).fs
      (dirpathWrite localPath (crowdedRefs localPath).localPathLen longName.val) = .error e := by
    unfold digestFile
    split
    next e _ => exact ⟨_, rfl⟩
    next p hstat =>
      split
      next content hfile => exact absurd hfile (crowdedFs_stat hshort rfl (longName_cut hshort) hstat)
      · exact ⟨_, rfl⟩
  rcases hdigest with ⟨e, hdigest⟩
  have hstat : sysStat (crowdedRefs localPath).cwd (crowdedMerefs hshort).fs localPath =
      .ok (pathBase (crowdedRefs localPath).stripped) := h.leads
  have hdir : (crowdedMerefs hshort).fs.tree.isDir (pathBase (crowdedRefs localPath).stripped) = true :=
    FileTree.isDir_iff.2 (crowdedFs_base hshort)
  have hshown : ¬ longName.val.head? = some 46 := by decide
  have hscan : (recordDirRec (crowdedRefs localPath) 10 (crowdedMerefs hshort) localPath
      (crowdedRefs localPath).localPathLen).calls = [] := by
    unfold recordDirRec
    rw [hstat]
    simp only [hdir, if_true]
    have hentries : readdir (crowdedRefs localPath) (crowdedMerefs hshort).fs
        (pathBase (crowdedRefs localPath).stripped) = (longName, .file []) :: dirents := hdirents
    rw [hentries]
    unfold recordScan
    rw [if_neg hshown]
    simp only [recordFile, hdigest]
    rfl
  exact hscan

end Short

/-! ## The local paths that are long enough -/

/-- Every tree that the local path leads to is walked through as it should, unless `match_local_file` fails or changes
its entries. -/
def EveryTreeVisited (localPath : Bytes) : Prop :=
  ∀ (refs : Refs) (base : List FileName) (s : Merefs), refs.localPath = localPath → refs.Walkable base s.fs →
    (recordLocalPath refs s).Calm → refs.VisitsEach base s.fs (recordLocalPath refs s)

/-- The length of a path without the slashes at its end. -/
def lengthWithoutSlashes (path : Bytes) : Nat :=
  (path.reverse.dropWhile (· == 47)).length

/-- The file is not found under its name. -/
theorem not_visited_of_short {localPath : Bytes} (hne : localPath ≠ []) (hlen : localPath.length < PATH_MAX)
    (hshort : lengthWithoutSlashes localPath ≤ 8) : ¬ EveryTreeVisited localPath := by
  intro hall
  have hstripped : (crowdedRefs localPath).stripped.length ≤ 8 := (length_stripped (crowdedRefs localPath)).trans_le hshort
  have hwalkable := crowded_walkable hstripped hne hlen
  have hcalls := crowded_calls hstripped hwalkable
  have hvisits := hall (crowdedRefs localPath) _ (crowdedMerefs hstripped) rfl hwalkable
    (by rw [Traversal.Calm, hcalls]; exact nofun)
  rcases hvisits.once with ⟨files, -, hfiles, hargs⟩
  rw [hcalls, List.map_nil] at hargs
  have hnil : files = [] := List.map_eq_nil_iff.1 hargs.symm
  have hvisible : VisibleFile (pathBase (crowdedRefs localPath).stripped) (crowdedMerefs hstripped).fs
      [longName] := by
    refine ⟨?_, [], crowdedFs_file hstripped⟩
    intro name hname
    rw [List.mem_singleton.1 hname]
    decide
  exact absurd ((hfiles [longName]).2 hvisible) (hnil ▸ List.not_mem_nil)

theorem everyTreeVisited_iff (localPath : Bytes) (hne : localPath ≠ []) (hlen : localPath.length < PATH_MAX) :
    EveryTreeVisited localPath ↔ 9 ≤ lengthWithoutSlashes localPath := by
  constructor
  · intro hall
    by_contra hshort
    exact not_visited_of_short hne hlen (by omega) hall
  · rintro hlong refs base s rfl hwalkable hcalm
    have huncut : refs.Uncut base s.fs := by
      intro r name _
      have hstripped : 9 ≤ refs.stripped.length := hlong.trans_eq (length_stripped refs).symm
      rw [Refs.fullPath, List.length_append]
      exact .inl (by omega)
    have hcovers := recordLocalPath_covers hwalkable huncut hcalm
    refine ⟨?_, hcovers.within⟩
    rcases hcovers.once with ⟨files, hnodup, hfiles, hargs⟩
    exact ⟨files, hnodup, fun r => (hfiles r).trans (and_iff_right trivial), hargs⟩

theorem everyTreeVisited_iff_long : EveryTreeVisited (ascii "/srv/files/") :=
  (everyTreeVisited_iff (ascii "/srv/files/") (by decide) (by decide)).2 (by decide)

theorem not_everyTreeVisited_short : ¬ EveryTreeVisited (ascii "/r") :=
  not_visited_of_short (by decide) (by decide) (by decide)

end Scambio
