import Scambio.Commons.Pasted
import Scambio.Lib.Dirs

/-!
# DirsFrame — what the functions of `Dirs` leave of the list of structs

Lookups and folder patches only add structs, at the head: the branch of `lookup_rename` that gives a struct a new
path is never taken, because the directory is looked up once its old path is a link to the new one.
-/

namespace Scambio

open Library

/-- There is room behind `mdir_root` for the ids that `mdir_create` gives: `char id_str[1+20+1]`. -/
def DirsEnv.Fits (env : DirsEnv) : Prop :=
  env.mdirRoot.length + 22 < PATH_MAX

/-- The path of a mdir. -/
def DirsEnv.idPath (env : DirsEnv) (id : Bytes) : Bytes :=
  snprintfPath (env.mdirRoot ++ 47 :: id)

/-- `path must be mdir_root + "/" + id` -/
def Dirs.Rooted (env : DirsEnv) (d : Dirs) : Prop :=
  ∀ mdir ∈ d.mdirs, env.mdirRoot ++ [47] <+: mdir.path

/-! ## The last part of a path -/

theorem basename_append (start rest : Bytes) : basename (start ++ 47 :: rest) = basename rest := by
  have hsplit : (start ++ 47 :: rest).reverse = rest.reverse ++ 47 :: start.reverse := by simp
  unfold basename
  rw [hsplit]
  congr 1
  generalize rest.reverse = chars
  induction chars with
  | nil => rfl
  | cons c chars ih =>
      rw [List.cons_append, List.takeWhile_cons, List.takeWhile_cons, ih]

theorem basename_cases (text : Bytes) :
    basename text = text ∧ (47 : UInt8) ∉ text ∨
      ∃ start, text = start ++ 47 :: basename text ∧ (47 : UInt8) ∉ basename text := by
  by_cases hmem : (47 : UInt8) ∈ text
  · rcases List.eq_append_cons_of_mem (List.mem_reverse.2 hmem) with ⟨last, start, heq, hlast⟩
    have htext : text = start.reverse ++ 47 :: last.reverse := by
      rw [← List.reverse_reverse text, heq]
      simp
    have hlast' : (47 : UInt8) ∉ last.reverse := fun hin => hlast (List.mem_reverse.1 hin)
    have hbase : basename text = last.reverse := by
      rw [htext, basename_append, basename, List.reverse_reverse, List.takeWhile_eq_self_iff.2]
      intro c hc
      rw [bne_iff_ne]
      rintro rfl
      exact hlast hc
    rw [hbase]
    exact .inr ⟨start.reverse, htext, hlast'⟩
  · refine .inl ⟨?_, hmem⟩
    rw [basename, List.takeWhile_eq_self_iff.2, List.reverse_reverse]
    intro c hc
    rw [bne_iff_ne]
    rintro rfl
    exact hmem (List.mem_reverse.1 hc)

theorem eq_of_stepOf {part : Bytes} {file : FileName} (h : stepOf part = .down file) : part = file.1 := by
  unfold stepOf at h
  split at h
  · cases h
    rfl
  · split at h <;> cases h

theorem sysReadlink_iff {cwd : List FileName} {fs : FileSys} {path target : Bytes} :
    sysReadlink cwd fs path = .ok target ↔
      ∃ p, sysPlace cwd fs path = .ok p ∧ fs.tree.get p = some (.link target) := by
  unfold sysReadlink sysPlace
  cases pathError path with
  | some e =>
      constructor
      · intro h
        cases h
      · rintro ⟨p, hp, -⟩
        cases hp
  | none =>
      simp only [FileTree.readlink]
      constructor
      · intro h
        split at h
        · cases h
        · cases h
        next p hplace =>
          refine ⟨p, hplace, ?_⟩
          split at h
          · cases h
          next hlink =>
            cases h
            exact hlink
          · cases h
      · rintro ⟨p, hplace, hlink⟩
        simp only [hplace, hlink]

theorem andThen_cases {α β : Type} (r : DirsResult α) (next : Dirs → α → DirsResult β) :
    (∃ e, r.2 = .error e ∧ r.andThen next = (r.1, .error e)) ∨ ∃ v, r.2 = .ok v ∧ r.andThen next = next r.1 v := by
  unfold DirsResult.andThen
  cases r.2 with
  | error e => exact .inl ⟨e, rfl, rfl⟩
  | ok v => exact .inr ⟨v, rfl, rfl⟩

namespace Dirs

/-- Structs were added, and the others are the same. -/
structure Grows (env : DirsEnv) (d d' : Dirs) : Prop where
  older : d.mdirs <:+ d'.mdirs
  rooted : d'.Rooted env

variable {env : DirsEnv} {d d' d'' : Dirs}

theorem onFs_cases (d : Dirs) (r : Except FsErr FileSys) (what : Bytes) :
    (∃ e, r = .error e ∧ d.onFs r what = (d, .error (.push (fsErrno e) what))) ∨
      ∃ fs, r = .ok fs ∧ d.onFs r what = ({ d with fs := fs }, .ok ()) := by
  cases r with
  | error e => exact .inl ⟨e, rfl, rfl⟩
  | ok fs => exact .inr ⟨fs, rfl, rfl⟩

theorem mdir_of_mem {mdir : CachedMdir} (h : mdir ∈ d.mdirs) : d.mdir mdir.ptr = some mdir := by
  have hnodup : (d.mdirs.map CachedMdir.ptr).Pairwise (· > ·) := (List.pairwise_cons.1 d.ptrs).2
  unfold Dirs.mdir
  revert h hnodup
  generalize d.mdirs = mdirs
  induction mdirs with
  | nil => exact fun h => absurd h List.not_mem_nil
  | cons m mdirs ih =>
      intro h hnodup
      rw [List.map_cons, List.pairwise_cons] at hnodup
      rcases List.mem_cons.1 h with rfl | hmem
      · exact List.find?_cons_of_pos (beq_self_eq_true _)
      · have hlt := hnodup.1 mdir.ptr (List.mem_map_of_mem hmem)
        rw [List.find?_cons_of_neg (by rw [beq_iff_eq]; exact Nat.ne_of_gt hlt)]
        exact ih hmem hnodup.2

theorem path_of_mem {mdir : CachedMdir} (h : mdir ∈ d.mdirs) : d.path mdir.ptr = mdir.path := by
  rw [Dirs.path, mdir_of_mem h]
  rfl

theorem rooted_idPath (hfits : env.Fits) (id : Bytes) : env.mdirRoot ++ [47] <+: env.idPath id := by
  have hpre : env.mdirRoot ++ [47] <+: env.mdirRoot ++ 47 :: id := ⟨id, by simp⟩
  apply List.prefix_of_prefix_length_le hpre (List.take_prefix _ _)
  unfold DirsEnv.Fits at hfits
  rw [List.length_take, List.length_append, List.length_append, List.length_cons, List.length_cons, List.length_nil]
  omega

/-- A path is known from its id. -/
theorem path_of_mdirId {path : Bytes} (h : env.mdirRoot ++ [47] <+: path) :
    path = env.mdirRoot ++ 47 :: mdirId env path := by
  rcases h with ⟨id, rfl⟩
  have hdrop : mdirId env (env.mdirRoot ++ [47] ++ id) = id := by
    rw [mdirId, List.drop_left' (by simp)]
  rw [hdrop, List.append_assoc]
  rfl

theorem idPath_mdirId (hfits : env.Fits) (id : Bytes) : env.idPath (mdirId env (env.idPath id)) = env.idPath id := by
  have hpath := path_of_mdirId (rooted_idPath hfits id)
  conv_lhs => rw [DirsEnv.idPath, ← hpath]
  exact snprintfPath_eq (length_snprintfPath _)

theorem Grows.refl (h : d.Rooted env) : Grows env d d :=
  ⟨List.suffix_rfl, h⟩

theorem Grows.trans (h : Grows env d d') (h' : Grows env d' d'') : Grows env d d'' :=
  ⟨h.older.trans h'.older, h'.rooted⟩

theorem Grows.mem {mdir : CachedMdir} (h : Grows env d d') (hmem : mdir ∈ d.mdirs) : mdir ∈ d'.mdirs :=
  h.older.subset hmem

theorem grows_onFs (h : d.Rooted env) (r : Except FsErr FileSys) (what : Bytes) : Grows env d (d.onFs r what).1 := by
  rcases onFs_cases d r what with ⟨e, -, heq⟩ | ⟨fs, -, heq⟩
  · rw [heq]
    exact .refl h
  · rw [heq]
    exact ⟨List.suffix_rfl, h⟩

/-- What holds of each part holds of the whole. -/
theorem andThen_rel {R : Dirs → Dirs → Prop} (htrans : ∀ a b c, R a b → R b c → R a c) {α β : Type}
    {r : DirsResult α} {next : Dirs → α → DirsResult β} (h : R d r.1)
    (hnext : ∀ v, r.2 = .ok v → R r.1 (next r.1 v).1) : R d (r.andThen next).1 := by
  rcases andThen_cases r next with ⟨e, -, heq⟩ | ⟨v, hv, heq⟩
  · rw [heq]
    exact h
  · rw [heq]
    exact htrans d r.1 _ h (hnext v hv)

theorem grows_andThen {α β : Type} {r : DirsResult α} {next : Dirs → α → DirsResult β} (h : Grows env d r.1)
    (hnext : ∀ v, r.2 = .ok v → Grows env r.1 (next r.1 v).1) : Grows env d (r.andThen next).1 :=
  andThen_rel (R := Grows env) (fun _ _ _ => Grows.trans) h hnext

/-! ## Lookups -/

/-- A struct was made, or nothing was. -/
theorem mdirCtor_cases (env : DirsEnv) (d : Dirs) (path : Bytes) :
    (∃ e, mdirCtor env d path = (d, .error e)) ∨
      ∃ dir permissions, DirAt env.cwd d.fs path dir ∧
        mdirCtor env d path = (d.insert path permissions, .ok ⟨d.nextPtr, path, permissions⟩) := by
  unfold mdirCtor
  split
  · exact .inl ⟨_, rfl⟩
  next dir hstat =>
    split
    next hdir =>
      split
      · exact .inl ⟨_, rfl⟩
      next permissions _ => exact .inr ⟨dir, permissions, ⟨hstat, FileTree.isDir_iff.1 hdir⟩, rfl⟩
    · exact .inl ⟨_, rfl⟩

/-- The file system once the directory was asked for. -/
def madeFor (env : DirsEnv) (d : Dirs) (id : Bytes) (create : Bool) : FileSys :=
  if create then (mkdirPath env.cwd d.fs (env.idPath id)).1 else d.fs

theorem mdirNew_cases (env : DirsEnv) (d : Dirs) (id : Bytes) (create : Bool) :
    (∃ e, mdirNew env d id create = ({ d with fs := madeFor env d id create }, .error e)) ∨
      ∃ dir permissions, DirAt env.cwd (madeFor env d id create) (env.idPath id) dir ∧
        mdirNew env d id create =
          (insert { d with fs := madeFor env d id create } (env.idPath id) permissions,
            .ok ⟨d.nextPtr, env.idPath id, permissions⟩) := by
  have hctor := mdirCtor_cases env { d with fs := madeFor env d id create } (env.idPath id)
  cases create with
  | false => exact hctor
  | true =>
      unfold mdirNew
      rw [if_pos rfl]
      simp only
      split
      next e _ => exact .inl ⟨e, rfl⟩
      · exact hctor

theorem grows_mdirNew (hfits : env.Fits) (h : d.Rooted env) (id : Bytes) (create : Bool) :
    Grows env d (mdirNew env d id create).1 := by
  rcases mdirNew_cases env d id create with ⟨e, heq⟩ | ⟨dir, permissions, -, heq⟩
  · rw [heq]
    exact ⟨List.suffix_rfl, h⟩
  · rw [heq]
    refine ⟨List.suffix_cons _ _, ?_⟩
    intro mdir hmem
    rcases List.mem_cons.1 hmem with rfl | hold
    · exact rooted_idPath hfits id
    · exact h mdir hold

/-- A struct that is found has this id; the one that is made has this path. -/
theorem mdirLookupById_cases (env : DirsEnv) (d : Dirs) (id : Bytes) (create : Bool) :
    (∃ mdir ∈ d.mdirs, mdirId env mdir.path = id ∧ mdirLookupById env d id create = (d, .ok mdir)) ∨
      (∀ mdir ∈ d.mdirs, mdirId env mdir.path ≠ id) ∧ mdirLookupById env d id create = mdirNew env d id create := by
  unfold mdirLookupById
  split
  next mdir hfind =>
    have hid := @List.find?_some CachedMdir (fun mdir => id == mdirId env mdir.path) mdir d.mdirs hfind
    exact .inl ⟨mdir, List.mem_of_find?_eq_some hfind, (beq_iff_eq.1 hid).symm, rfl⟩
  next hfind =>
    refine .inr ⟨?_, rfl⟩
    intro mdir hmem heq
    exact List.find?_eq_none.1 hfind mdir hmem (beq_iff_eq.2 heq.symm)

theorem grows_mdirLookupById (hfits : env.Fits) (h : d.Rooted env) (id : Bytes) (create : Bool) :
    Grows env d (mdirLookupById env d id create).1 := by
  rcases mdirLookupById_cases env d id create with ⟨mdir, -, -, heq⟩ | ⟨-, heq⟩
  · rw [heq]
    exact .refl h
  · rw [heq]
    exact grows_mdirNew hfits h id create

/-- The path of what a lookup gives. -/
theorem mdirLookupById_path (h : d.Rooted env) {id : Bytes} {create : Bool} {mdir : CachedMdir}
    (hok : (mdirLookupById env d id create).2 = .ok mdir) :
    mdir.path = env.mdirRoot ++ 47 :: id ∨ mdir.path = env.idPath id := by
  rcases mdirLookupById_cases env d id create with ⟨m, hmem, hid, heq⟩ | ⟨-, heq⟩
  · rw [heq] at hok
    cases hok
    rw [← hid]
    exact .inl (path_of_mdirId (h _ hmem))
  · rw [heq] at hok
    rcases mdirNew_cases env d id create with ⟨e, heq'⟩ | ⟨dir, permissions, -, heq'⟩
    · rw [heq'] at hok
      cases hok
    · rw [heq'] at hok
      cases hok
      exact .inr rfl

/-- A link is read, and what follows `mdir_root` in it looked up. -/
theorem lookupAbs_cases (env : DirsEnv) (d : Dirs) (path : Bytes) :
    (∃ e, lookupAbs env d path = (d, .error e)) ∨
      ∃ slink, sysReadlink env.cwd d.fs path = .ok slink ∧
        lookupAbs env d path = mdirLookupById env d (mdirId env slink) false := by
  unfold lookupAbs
  split
  · exact .inl ⟨_, rfl⟩
  next slink hslink =>
    split
    · exact .inl ⟨_, rfl⟩
    · exact .inr ⟨slink, hslink, rfl⟩

theorem grows_lookupAbs (hfits : env.Fits) (h : d.Rooted env) (path : Bytes) :
    Grows env d (lookupAbs env d path).1 := by
  rcases lookupAbs_cases env d path with ⟨e, heq⟩ | ⟨slink, -, heq⟩
  · rw [heq]
    exact .refl h
  · rw [heq]
    exact grows_mdirLookupById hfits h _ false

theorem grows_mdirLookup (hfits : env.Fits) (h : d.Rooted env) (name : Bytes) :
    Grows env d (mdirLookup env d name).1 := by
  unfold mdirLookup
  split
  · exact grows_mdirLookupById hfits h _ false
  · exact grows_lookupAbs hfits h _

/-- The struct that is looked up has the new path already. -/
theorem lookupRename_cases (hfits : env.Fits) (h : d.Rooted env) (oldPath id : Bytes) :
    (∃ e, lookupRename env d oldPath (env.idPath id) = (d, .error e)) ∨
      ∃ fs, sysRename env.cwd d.fs oldPath (env.idPath id) = .ok fs ∧
        ((∃ e, lookupRename env d oldPath (env.idPath id) = ({ d with fs := fs }, .error e)) ∨
          ∃ fs', sysSymlink env.cwd fs (env.idPath id) oldPath = .ok fs' ∧
            ((∃ e, lookupRename env d oldPath (env.idPath id) = ({ d with fs := fs' }, .error e)) ∨
              lookupRename env d oldPath (env.idPath id) =
                mdirLookupById env { d with fs := fs' } (mdirId env (env.idPath id)) false)) := by
  unfold lookupRename
  rcases onFs_cases d (sysRename env.cwd d.fs oldPath (env.idPath id))
    (ascii "Cannot rename mdir from " ++ oldPath ++ ascii " to " ++ env.idPath id) with ⟨e, -, heq⟩ | ⟨fs, hrename, heq⟩
  · rw [heq]
    exact .inl ⟨_, rfl⟩
  rw [heq]
  refine .inr ⟨fs, hrename, ?_⟩
  simp only [DirsResult.andThen]
  rcases onFs_cases { d with fs := fs } (sysSymlink env.cwd fs (env.idPath id) oldPath)
    (ascii "Cannot symlink(" ++ env.idPath id ++ ascii " <- " ++ oldPath ++ ascii ")") with
    ⟨e, -, heq⟩ | ⟨fs', hsymlink, heq⟩
  · rw [heq]
    exact .inl ⟨_, rfl⟩
  rw [heq]
  refine .inr ⟨fs', hsymlink, ?_⟩
  rcases lookupAbs_cases env { d with fs := fs' } oldPath with ⟨e, heq⟩ | ⟨slink, hslink, heq⟩
  · simp only [heq]
    exact .inl ⟨e, rfl⟩
  · cases hslink.symm.trans (sysReadlink_symlink hsymlink)
    simp only [heq]
    refine .inr ?_
    have hrooted : Rooted env { d with fs := fs' } := h
    cases hr : (mdirLookupById env { d with fs := fs' } (mdirId env (env.idPath id)) false).2 with
    | error e =>
        simp only [← hr]
    | ok mdir =>
        have hpath : mdir.path = env.idPath id := by
          rcases mdirLookupById_path hrooted hr with hpath | hpath
          · rw [hpath, ← path_of_mdirId (rooted_idPath hfits id)]
          · rw [hpath, idPath_mdirId hfits]
        simp only [if_pos hpath, ← hr]

theorem grows_lookupRename (hfits : env.Fits) (h : d.Rooted env) (oldPath id : Bytes) :
    Grows env d (lookupRename env d oldPath (env.idPath id)).1 := by
  rcases lookupRename_cases hfits h oldPath id with
    ⟨e, heq⟩ | ⟨fs, -, ⟨e, heq⟩ | ⟨fs', -, ⟨e, heq⟩ | heq⟩⟩
  · rw [heq]
    exact .refl h
  · rw [heq]
    exact ⟨List.suffix_rfl, h⟩
  · rw [heq]
    exact ⟨List.suffix_rfl, h⟩
  · rw [heq]
    have hrooted : Rooted env { d with fs := fs' } := h
    have hgrows := grows_mdirLookupById hfits hrooted (mdirId env (env.idPath id)) false
    exact ⟨hgrows.older, hgrows.rooted⟩

/-- A struct was made for the next id, or nothing is looked at any more. -/
theorem mdirCreate_cases (env : DirsEnv) (d : Dirs) (transient : Bool) :
    (mdirCreate env d transient).1 =
        (mdirNew env { d with dirIdSeq := d.dirIdSeq + 1 } (nextId d transient) true).1 ∧
      ((∃ e, (mdirCreate env d transient).2 = .error e) ∨
        (mdirCreate env d transient).2 =
          (mdirNew env { d with dirIdSeq := d.dirIdSeq + 1 } (nextId d transient) true).2) := by
  unfold mdirCreate
  simp only
  split
  · exact ⟨rfl, .inl ⟨_, rfl⟩⟩
  · split
    · exact ⟨rfl, .inr rfl⟩
    · exact ⟨rfl, .inl ⟨_, rfl⟩⟩

/-- What `mdir_create` gives is the name of a file. -/
theorem nextId_file (d : Dirs) (transient : Bool) : IsFileName (nextId d transient) ∧ (nextId d transient).length ≤ 21 := by
  have hdigit : ∀ c ∈ decimal d.dirIdSeq.toNat, isDigit c = true := fun c hc => isDigit_of_mem_decimal hc
  have hne := decimal_ne_nil d.dirIdSeq.toNat
  have hlen : (decimal d.dirIdSeq.toNat).length ≤ 20 := length_decimal_le (by decide) (by
    have hlt := d.dirIdSeq.toNat_lt
    omega)
  have hslash : (47 : UInt8) ∉ decimal d.dirIdSeq.toNat := fun hmem => absurd (hdigit 47 hmem) (by decide)
  have hdot : (46 : UInt8) ∉ decimal d.dirIdSeq.toNat := fun hmem => absurd (hdigit 46 hmem) (by decide)
  unfold nextId
  generalize decimal d.dirIdSeq.toNat = digits at hne hlen hslash hdot
  have hnodot : ∀ text : Bytes, (46 : UInt8) ∉ text → text ≠ ascii "." ∧ text ≠ ascii ".." := by
    intro text htext
    constructor
    · rintro rfl
      exact htext (by decide)
    · rintro rfl
      exact htext (by decide)
  cases transient with
  | true =>
      have hbar : (46 : UInt8) ∉ ascii "_" ++ digits := by
        rw [List.mem_append]
        exact not_or.2 ⟨by decide, hdot⟩
      refine ⟨⟨by simp [ascii], (hnodot _ hbar).1, (hnodot _ hbar).2, ?_⟩, ?_⟩
      · rw [if_pos rfl, List.mem_append]
        exact not_or.2 ⟨by decide, hslash⟩
      · rw [if_pos rfl, List.length_append]
        have hone : (ascii "_").length = 1 := rfl
        omega
  | false =>
      rw [if_neg Bool.false_ne_true, List.nil_append]
      exact ⟨⟨hne, (hnodot _ hdot).1, (hnodot _ hdot).2, hslash⟩, by omega⟩

/-- Its path is not cut. -/
theorem nextId_fits (hfits : env.Fits) (d : Dirs) (transient : Bool) :
    (env.mdirRoot ++ 47 :: nextId d transient).length < PATH_MAX := by
  have hlen := (nextId_file d transient).2
  unfold DirsEnv.Fits at hfits
  rw [List.length_append, List.length_cons]
  omega

theorem grows_mdirCreate (hfits : env.Fits) (h : d.Rooted env) (transient : Bool) :
    Grows env d (mdirCreate env d transient).1 := by
  rw [(mdirCreate_cases env d transient).1]
  have hrooted : Rooted env { d with dirIdSeq := d.dirIdSeq + 1 } := h
  have hgrows := grows_mdirNew hfits hrooted (nextId d transient) true
  exact ⟨hgrows.older, hgrows.rooted⟩

/-! ## Folder patches -/

theorem grows_relink (hfits : env.Fits) (h : d.Rooted env) (prevLink path dirId : Bytes) :
    Grows env d (relink env d prevLink path dirId).1 := by
  have hrenamed := grows_lookupRename hfits h prevLink dirId
  unfold relink
  apply grows_andThen (hrenamed.trans (grows_onFs hrenamed.rooted _ _))
  intro _ _
  have hunlinked := grows_onFs hrenamed.rooted (sysUnlink env.cwd (lookupRename env d prevLink (env.idPath dirId)).1.fs path)
    (ascii "Cannot remove previous symlink " ++ path)
  split
  · exact .refl hunlinked.rooted
  · exact grows_onFs hunlinked.rooted _ _

theorem grows_linkToId (hfits : env.Fits) (h : d.Rooted env) (path dirId : Bytes) (transient : Bool) :
    Grows env d (linkToId env d path dirId transient).1 := by
  unfold linkToId
  split
  · have hlookup := grows_mdirLookupById hfits h dirId true
    apply grows_andThen hlookup
    intro _ _
    exact grows_onFs hlookup.rooted _ _
  · exact .refl h
  · simp only
    split_ifs
    · exact .refl h
    · exact .refl h
    · exact .refl h
    · exact grows_relink hfits h _ path dirId

theorem grows_mdirLink (hfits : env.Fits) (h : d.Rooted env) (parentPath : Bytes) (header : Header)
    (transient : Bool) : Grows env d (mdirLink env d parentPath header transient).1 := by
  unfold mdirLink
  simp only
  split
  · exact grows_linkToId hfits h _ _ transient
  · have hcreate := grows_mdirCreate hfits h transient
    split
    · exact hcreate
    · exact hcreate.trans (grows_onFs hcreate.rooted _ _)

theorem grows_unlinkFile (h : d.Rooted env) (path what : Bytes) : Grows env d (unlinkFile env d path what).1 := by
  unfold unlinkFile
  split
  · exact .refl h
  · exact grows_onFs h _ _

theorem grows_mdirUnlink (h : d.Rooted env) (parentPath : Bytes) (header : Header) :
    Grows env d (mdirUnlink env d parentPath header).1 := by
  unfold mdirUnlink
  split
  · exact .refl h
  next hf _ =>
    have hfirst := grows_unlinkFile h (linkPath parentPath hf.value) (ascii "unlink " ++ linkPath parentPath hf.value)
    apply grows_andThen hfirst
    intro _ _
    exact grows_unlinkFile hfirst.rooted _ _

theorem grows_mdirPrepare (hfits : env.Fits) (h : d.Rooted env) (parentPath : Bytes) (action : Action)
    (header : Header) (answers : MdirAnswers) (transient : Bool) :
    Grows env d (mdirPrepare env d parentPath action header answers transient).1 := by
  cases action with
  | add =>
      unfold mdirPrepare
      simp only
      split
      · exact grows_mdirLink hfits h _ header transient
      · exact .refl h
  | rem =>
      unfold mdirPrepare mdirPrepareRem
      simp only
      split
      · exact .refl h
      · exact .refl h
      · exact .refl h
      next target _ =>
        have hunlinked : Grows env d
            (if headerIsDirectory target then mdirUnlink env d parentPath target else (d, .ok ())).1 := by
          split
          · exact grows_mdirUnlink h _ target
          · exact .refl h
        apply grows_andThen hunlinked
        intro _ _
        cases transient with
        | true => exact .refl hunlinked.rooted
        | false => exact .refl hunlinked.rooted

theorem grows_mdirPatchRequest (hfits : env.Fits) (h : d.Rooted env) (ptr : Nat) (action : Action) (header : Header)
    (answers : MdirAnswers) : Grows env d (mdirPatchRequest env d ptr action header answers).1 := by
  have hprepare := grows_mdirPrepare hfits h (d.path ptr) action header answers true
  unfold mdirPatchRequest
  split
  · exact .refl h
  · simp only
    split
    · exact hprepare
    · exact hprepare

end Dirs

end Scambio
