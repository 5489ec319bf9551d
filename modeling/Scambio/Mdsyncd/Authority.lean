import Scambio.Mdsyncd.Relay

/-!
# Authority — who has put what, and who may change the permissions

The server checks the permissions of a folder at each PUT and REM, and the patches of type perms change them.  The
patches that were accepted are recorded with their user and with the permissions in force at that time.  There is a
second way: who creates a folder may administrate it, and the folder that `mdir_lookup` gives for the name of a patch
may be one that was there before.  These grants are recorded as well.

* `mdirPatch_permissions` : what a patch of any type does to the permissions;
* `Posted.Legit`        : the user could write, or could administrate if the patch is of type perms;
* `PermsOf`               : the permissions that the accepted patches and the grants have left;
* `permissions_of_run`    : whatever any users send, only those who may administrate change the permissions, or those
  whose new folder is this one.
-/

namespace Scambio

open Library

/-! ## What a patch does to the permissions -/

section Frame

theorem jnlNewEmpty_permissions (m : Mdir) (startVersion : Int) :
    (jnlNewEmpty m startVersion).1.permissions = m.permissions := by
  unfold jnlNewEmpty
  split <;> rfl

theorem lastJnl_permissions (maxJnlSize : Nat) (m : Mdir) :
    (lastJnl maxJnlSize m).1.permissions = m.permissions := by
  unfold lastJnl
  split
  · exact jnlNewEmpty_permissions m 1
  · split
    · exact jnlNewEmpty_permissions m _
    · rfl

theorem mdirAppend_permissions (maxJnlSize : Nat) (m : Mdir) (record : Bytes) :
    (mdirAppend maxJnlSize m record).1.permissions = m.permissions := by
  have hlast := lastJnl_permissions maxJnlSize m
  unfold mdirAppend
  generalize lastJnl maxJnlSize m = last at hlast ⊢
  rcases last with ⟨m', e | j⟩
  · exact hlast
  · exact hlast

theorem insertBlankPatches_permissions (maxJnlSize : Nat) (m : Mdir) (nb : Nat) :
    (insertBlankPatches maxJnlSize m nb).1.permissions = m.permissions := by
  induction nb generalizing m with
  | zero => rfl
  | succ nb ih =>
      have happend := mdirAppend_permissions maxJnlSize m blankRecord
      unfold insertBlankPatches
      generalize mdirAppend maxJnlSize m blankRecord = r at happend ⊢
      rcases r with ⟨m', e | j⟩
      · exact happend
      · exact (ih m').trans happend

theorem mdirPrepareRem_permissions [Host] (sys : Sys) (m : Mdir) (header : Header) (transient : Bool) :
    (mdirPrepareRem sys m header transient).1.permissions = m.permissions := by
  unfold mdirPrepareRem
  repeat' split
  all_goals rfl

theorem mdirPrepare_permissions [Host] (sys : Sys) (m : Mdir) (action : Action) (header : Header) :
    (mdirPrepare sys m action header).1.permissions = m.permissions := by
  cases action with
  | rem => exact mdirPrepareRem_permissions sys m header false
  | add => rfl

theorem handleMark_permissions [Host] (m : Mdir) (header : Header) (j : Jnl) (version : Int) :
    (handleMark m header j version).1.permissions = m.permissions := by
  unfold handleMark
  dsimp only
  split_ifs
  · rfl
  · cases jnlGetByVersion m.jnls (isMarkFor header) with
    | error e => rfl
    | ok target =>
        simp only
        repeat' split
        all_goals rfl

/-- The patch has put these permissions in force: its header, or the default ones if the file cannot be written. -/
def PutsPerms (action : Action) (header : Header) (perms : Option Header) : Prop :=
  action = .add ∧ headerHasType header SC_PERM_TYPE = true ∧ (perms = some header ∨ perms = none)

theorem headerHasType_unique {h : Header} {s t : Bytes} (hs : headerHasType h s = true)
    (ht : headerHasType h t = true) : s = t := by
  unfold headerHasType at hs ht
  cases hfind : headerFind h SC_TYPE_FIELD with
  | none =>
      rw [hfind] at hs
      cases hs
  | some hf =>
      rw [hfind] at hs ht
      exact (beq_iff_eq.1 hs).symm.trans (beq_iff_eq.1 ht)

theorem mdirConfirm_permissions (sys : Sys) (m : Mdir) (action : Action) (header : Header) :
    (mdirConfirm sys m action header).1.permissions = m.permissions ∨
      (PutsPerms action header (mdirConfirm sys m action header).1.permissions ∧
        (mdirConfirm sys m action header).2 = .ok ()) := by
  cases action with
  | rem => exact .inl rfl
  | add =>
      change (mdirConfirmAdd sys m header).1.permissions = m.permissions ∨
        (PutsPerms .add header (mdirConfirmAdd sys m header).1.permissions ∧
          (mdirConfirmAdd sys m header).2 = .ok ())
      unfold mdirConfirmAdd
      split_ifs with hdir hperm
      · left
        cases headerFind header SC_NAME_FIELD with
        | none => rfl
        | some hf =>
            simp only
            cases sys.creat (versionOfPath m.path hf.value) with
            | some errno => rfl
            | none =>
                cases sys.writeVersion (versionOfPath m.path hf.value) with
                | some failed => rfl
                | none => rfl
      · refine .inr ⟨⟨rfl, hperm, ?_⟩, rfl⟩
        unfold updatePermissions
        cases sys.openPerms with
        | some errno => exact .inr rfl
        | none => exact .inl rfl
      · exact .inl rfl

/-- Only the addition of a patch of type perms changes the permissions, and it is accepted then. -/
theorem mdirPatch_permissions [Host] (sys : Sys) (maxJnlSize : Nat) (m : Mdir) (action : Action) (header : Header)
    (nbDeleted : Nat) :
    (mdirPatch sys maxJnlSize m action header nbDeleted).mdir.permissions = m.permissions ∨
      (PutsPerms action (mdirPatch sys maxJnlSize m action header nbDeleted).header
          (mdirPatch sys maxJnlSize m action header nbDeleted).mdir.permissions ∧
        ∃ version, (mdirPatch sys maxJnlSize m action header nbDeleted).result = .ok version) := by
  have hblank := insertBlankPatches_permissions maxJnlSize m nbDeleted
  unfold mdirPatch
  generalize insertBlankPatches maxJnlSize m nbDeleted = r at hblank ⊢
  rcases r with ⟨m₁, e | u⟩
  · exact .inl hblank
  have hprep := (mdirPrepare_permissions sys m₁ action header).trans hblank
  simp only
  generalize mdirPrepare sys m₁ action header = r at hprep ⊢
  rcases r with ⟨m₂, h, e | u⟩
  · exact .inl hprep
  have happend := (mdirAppend_permissions maxJnlSize m₂ (patchRecord action h)).trans hprep
  simp only
  generalize mdirAppend maxJnlSize m₂ (patchRecord action h) = r at happend ⊢
  rcases r with ⟨m₃, e | ⟨j, version⟩⟩
  · exact .inl happend
  have hconfirm := mdirConfirm_permissions sys m₃ action h
  rw [show m₃.permissions = m.permissions from happend] at hconfirm
  simp only
  generalize mdirConfirm sys m₃ action h = r at hconfirm ⊢
  rcases r with ⟨m₄, e | u⟩
  · rcases hconfirm with hkeep | ⟨-, hok⟩
    · exact .inl hkeep
    · cases hok
  simp only
  rcases hconfirm with hkeep | ⟨hputs, -⟩
  · left
    have hmark := (handleMark_permissions m₄ h j version).trans hkeep
    generalize handleMark m₄ h j version = r at hmark ⊢
    rcases r with ⟨m₅, e | u⟩
    · exact hmark
    · exact hmark
  · -- a patch of type perms is no mark
    have hmark : handleMark m₄ h j version = (m₄, .ok ()) := by
      have hnot : ¬ headerHasType h SC_MARK_TYPE = true := by
        intro htype
        exact absurd (headerHasType_unique hputs.2.1 htype) (by decide)
      rw [handleMark, isMarkFor, if_neg hnot]
      rfl
    rw [hmark]
    exact .inr ⟨hputs, version, rfl⟩

end Frame

/-! ## Posts -/

/-- A patch that was accepted: its user, the permissions that were in force, and the header that was stored. -/
structure Posted where
  user : User
  perms : Option Header
  action : Action
  header : Header

/-- The user was allowed to, and is named once in the header. -/
structure Posted.Legit (e : Posted) : Prop where
  canWrite : userCanWrite e.user e.perms = true
  canAdmin : headerHasType e.header SC_PERM_TYPE = true → userCanAdmin e.user e.perms = true
  named : (e.header.filter fun hf => strcaseeq hf.name SC_USER_FIELD) =
    [{ name := SC_USER_FIELD, value := e.user.name }]

/-- The permissions that the accepted patches and the grants have left, from those that were in force at first. -/
inductive PermsOf (first : Option Header) : List Posted → List User → Option Header → Prop
  | start : PermsOf first [] [] first
  | put {log : List Posted} {grants : List User} {perms : Option Header} (e : Posted) :
      PermsOf first log grants e.perms → e.Legit → (perms = e.perms ∨ PutsPerms e.action e.header perms) →
      PermsOf first (log ++ [e]) grants perms
  /-- The folder that this user has created is this one. -/
  | grant {log : List Posted} {grants : List User} {perms perms' : Option Header} (user : User) :
      PermsOf first log grants perms → (perms' = perms ∨ PutsPerms .add (defaultFolderPerms user) perms') →
      PermsOf first log (grants ++ [user]) perms'

/-- What is recorded of an `add_header`. -/
def postedOf [Host] (r : AddResult) (user : User) (perms : Option Header) (action : Action) : List Posted :=
  match r.result with
  | .error _ => []
  | .ok _ => [⟨user, perms, action, r.header⟩]

/-- Did the user get the permissions of this folder? -/
def grantsOf (r : AddResult) (user : User) : List User :=
  match r.child with
  | some .itself => [user]
  | _ => []

section AddHeader

variable [Host] {sys : Sys} {maxJnlSize : Nat} {m : Mdir} {lookup : Bytes → Except Err FoundMdir} {h : Header}
  {action : Action} {user : User}

omit [Host] in
theorem headerHasType_append {added : Header} {type : Bytes} (htype : headerHasType h type = true) :
    headerHasType (h ++ added) type = true := by
  unfold headerHasType at htype ⊢
  cases hfind : headerFind h SC_TYPE_FIELD with
  | none =>
      rw [hfind] at htype
      cases htype
  | some hf =>
      rw [hfind] at htype
      rw [headerFind, List.find?_append, show h.find? _ = some hf from hfind]
      exact htype

omit [Host] in
/-- The name of the user does not change the type. -/
theorem headerHasType_user (h : Header) (name type : Bytes) :
    headerHasType (headerFieldNew h SC_USER_FIELD name) type = headerHasType h type := by
  have huser : strcaseeq (SC_USER_FIELD.map tolower) SC_TYPE_FIELD = false := by decide
  have hfind : headerFind (headerFieldNew h SC_USER_FIELD name) SC_TYPE_FIELD = headerFind h SC_TYPE_FIELD := by
    simp [headerFind, headerFieldNew, List.find?_append, huser]
  simp only [headerHasType, hfind]

omit [Host] in
/-- The header that a patch leaves has the type of the one it was given. -/
theorem headerHasType_left [Host] (sys : Sys) (maxJnlSize : Nat) (m : Mdir) (action : Action) {h : Header} {type : Bytes}
    (htype : headerHasType (mdirPatch sys maxJnlSize m action h 0).header type = true) :
    headerHasType h type = true := by
  rcases mdirPatch_adds sys maxJnlSize m action h with ⟨added, heq, -, hnodir⟩
  by_cases hdir : action = .add ∧ headerIsDirectory h = true
  · have hleft : headerHasType (mdirPatch sys maxJnlSize m action h 0).header SC_DIR_TYPE = true := by
      rw [heq]
      exact headerHasType_append hdir.2
    rw [headerHasType_unique htype hleft]
    exact hdir.2
  · rw [heq, hnodir hdir, List.append_nil] at htype
    exact htype

/-- Who passes the checks of `add_header` is allowed to do what its patch does, and is named in what is stored. -/
theorem legit_of_checks (hperm : ¬ ((headerHasType h SC_PERM_TYPE && !userCanAdmin user m.permissions) ||
      !userCanWrite user m.permissions) = true) (huser : ¬ (headerFind h SC_USER_FIELD).isSome = true) :
    Posted.Legit ⟨user, m.permissions, action,
      (mdirPatch sys maxJnlSize m action (headerFieldNew h SC_USER_FIELD user.name) 0).header⟩ := by
  rw [Bool.or_eq_true, not_or, Bool.and_eq_true, not_and, Bool.not_eq_true', Bool.not_eq_false, Bool.not_eq_true',
    Bool.not_eq_false] at hperm
  refine ⟨hperm.2, fun htype => ?_, ?_⟩
  · refine hperm.1 ?_
    rw [← headerHasType_user h user.name]
    exact headerHasType_left sys maxJnlSize m action htype
  · rcases mdirPatch_adds sys maxJnlSize m action (headerFieldNew h SC_USER_FIELD user.name) with ⟨added, heq, hall, -⟩
    have hadded : added.filter (fun hf => strcaseeq hf.name SC_USER_FIELD) = [] := by
      rw [List.filter_eq_nil_iff]
      intro hf hmem
      rw [(hall hf hmem).not_user]
      decide
    have hlower : SC_USER_FIELD.map tolower = SC_USER_FIELD := by decide
    have hself : strcaseeq SC_USER_FIELD SC_USER_FIELD = true := by decide
    have hnone : headerFind h SC_USER_FIELD = none := by simpa using huser
    dsimp only
    rw [heq, List.filter_append, hadded, List.append_nil, headerFieldNew, List.filter_append,
      filter_user_of_find_none hnone, hlower, List.nil_append]
    simp [hself]

theorem setDefaultPerms_permissions (sys : Sys) (maxJnlSize : Nat) (m : Mdir) (user : User) :
    (setDefaultPerms sys maxJnlSize m user).mdir.permissions = m.permissions ∨
      PutsPerms .add (defaultFolderPerms user) (setDefaultPerms sys maxJnlSize m user).mdir.permissions := by
  have hdir : headerIsDirectory (defaultFolderPerms user) = false := rfl
  rcases mdirPatch_adds sys maxJnlSize m .add (defaultFolderPerms user) with ⟨added, hleft, -, hnodir⟩
  rw [hnodir (fun h => by rw [hdir] at h; cases h.2), List.append_nil] at hleft
  rcases mdirPatch_permissions sys maxJnlSize m .add (defaultFolderPerms user) 0 with hkeep | ⟨hputs, -⟩
  · exact .inl hkeep
  · rw [hleft] at hputs
    exact .inr hputs

/-- What `add_header` leaves of the permissions: a patch that is not accepted does not change them, and a new folder
that is this one comes after the patch. -/
theorem PermsOf.addHeader {first : Option Header} {log : List Posted} {grants : List User}
    (hlog : PermsOf first log grants m.permissions) :
    PermsOf first (log ++ postedOf (addHeader sys maxJnlSize m lookup h action user) user m.permissions action)
      (grants ++ grantsOf (addHeader sys maxJnlSize m lookup h action user) user)
      (addHeader sys maxJnlSize m lookup h action user).mdir.permissions := by
  by_cases hperm : ((headerHasType h SC_PERM_TYPE && !userCanAdmin user m.permissions) ||
      !userCanWrite user m.permissions) = true
  · rw [Scambio.addHeader, if_pos hperm]
    simpa [postedOf, grantsOf] using hlog
  by_cases huser : (headerFind h SC_USER_FIELD).isSome = true
  · rw [Scambio.addHeader, if_neg hperm]
    simp only [if_pos huser]
    simpa [postedOf, grantsOf] using hlog
  have hlegit : Posted.Legit ⟨user, m.permissions, action,
      (mdirPatch sys maxJnlSize m action (headerFieldNew h SC_USER_FIELD user.name) 0).header⟩ :=
    legit_of_checks hperm huser
  have hpatch := mdirPatch_permissions sys maxJnlSize m action (headerFieldNew h SC_USER_FIELD user.name) 0
  have hleft : headerHasType (mdirPatch sys maxJnlSize m action (headerFieldNew h SC_USER_FIELD user.name) 0).header
      SC_PERM_TYPE = true → headerHasType h SC_PERM_TYPE = true := by
    intro htype
    rw [← headerHasType_user h user.name]
    exact headerHasType_left sys maxJnlSize m action htype
  rw [Scambio.addHeader, if_neg hperm]
  simp only [if_neg huser]
  generalize mdirPatch sys maxJnlSize m action (headerFieldNew h SC_USER_FIELD user.name) 0 = r at hlegit hpatch hleft ⊢
  rcases r with ⟨m', left, e | version⟩
  · -- the patch is refused
    rcases hpatch with hkeep | ⟨-, version, hok⟩
    · simp only at hkeep
      simpa [postedOf, grantsOf, hkeep] using hlog
    · cases hok
  have hpatch' : m'.permissions = m.permissions ∨ PutsPerms action left m'.permissions := hpatch.imp_right And.left
  have hput : PermsOf first (log ++ [⟨user, m.permissions, action, left⟩]) grants m'.permissions :=
    .put _ hlog hlegit hpatch'
  simp only
  split_ifs with hdir
  · -- a folder is no patch of type perms
    have hkeep : m'.permissions = m.permissions := by
      rcases hpatch' with hkeep | hputs
      · exact hkeep
      · rw [Bool.and_eq_true] at hdir
        exact absurd (headerHasType_unique (hleft hputs.2.1) hdir.1) (by decide)
    split
    · simpa [postedOf, grantsOf, hkeep] using hlog
    · split
      · simpa [postedOf, grantsOf, hkeep] using hlog
      · -- this folder itself
        have hgrant := setDefaultPerms_permissions sys maxJnlSize m' user
        generalize setDefaultPerms sys maxJnlSize m' user = c at hgrant ⊢
        rcases c with ⟨m'', left', e | w⟩
        · rw [show postedOf _ user m.permissions action = [] from rfl, List.append_nil]
          exact .grant user (hkeep ▸ hlog) hgrant
        · exact .grant user hput hgrant
      · next child _ =>
          generalize setDefaultPerms sys maxJnlSize child user = c
          rcases c with ⟨m'', left', e | w⟩
          · simpa [postedOf, grantsOf, Except.map, hkeep] using hlog
          · simpa [postedOf, grantsOf, Except.map] using hput
  · simpa [postedOf, grantsOf] using hput

end AddHeader

/-! ## Runs -/

section Runs

variable [Host] {maxJnlSize : Nat} {m₀ m : Mdir} {log : List Posted} {grants : List User} {first perms : Option Header}

/-- A folder of the server, whatever headers its users send with PUT and REM, and whatever folders they create. -/
inductive FolderRun (maxJnlSize : Nat) (m₀ : Mdir) : Mdir → List Posted → List User → Prop
  | start : FolderRun maxJnlSize m₀ m₀ [] []
  | query {m : Mdir} {log : List Posted} {grants : List User} (sys : Sys) (lookup : Bytes → Except Err FoundMdir)
      (action : Action) (user : User) (fd : Bytes) : FolderRun maxJnlSize m₀ m log grants →
      FolderRun maxJnlSize m₀ (execPutrem sys maxJnlSize m lookup action user fd).1.mdir
        (log ++ postedOf (execPutrem sys maxJnlSize m lookup action user fd).1 user m.permissions action)
        (grants ++ grantsOf (execPutrem sys maxJnlSize m lookup action user fd).1 user)
  /-- The folder that a user creates in another one is this one. -/
  | elsewhere {m : Mdir} {log : List Posted} {grants : List User} (sys : Sys) (user : User) :
      FolderRun maxJnlSize m₀ m log grants →
      FolderRun maxJnlSize m₀ (setDefaultPerms sys maxJnlSize m user).mdir log (grants ++ [user])

omit [Host] in
theorem PermsOf.legit (h : PermsOf first log grants perms) : ∀ e ∈ log, e.Legit := by
  induction h with
  | start => exact fun e he => by cases he
  | put e _ hlegit _ ih =>
      intro x hx
      rcases List.mem_append.1 hx with hx | hx
      · exact ih x hx
      · rw [List.mem_singleton.1 hx]
        exact hlegit
  | grant user _ _ ih => exact ih

omit [Host] in
/-- The permissions in force are the first ones, or the default ones, or were put by a user who could administrate, or
came with a folder that a user has created. -/
theorem PermsOf.author (h : PermsOf first log grants perms) :
    perms = first ∨ perms = none ∨ (∃ e ∈ log, e.action = .add ∧ perms = some e.header ∧
      headerHasType e.header SC_PERM_TYPE = true ∧ userCanAdmin e.user e.perms = true) ∨
      ∃ user ∈ grants, perms = some (defaultFolderPerms user) := by
  induction h with
  | start => exact .inl rfl
  | @put log grants perms e _ hlegit hperms ih =>
      rcases hperms with rfl | ⟨hadd, htype, hput | hdefault⟩
      · rcases ih with hfirst | hnone | ⟨x, hx, hrest⟩ | hgrant
        · exact .inl hfirst
        · exact .inr (.inl hnone)
        · exact .inr (.inr (.inl ⟨x, List.mem_append_left _ hx, hrest⟩))
        · exact .inr (.inr (.inr hgrant))
      · exact .inr (.inr (.inl ⟨e, List.mem_append_right _ (List.mem_singleton_self e), hadd, hput, htype,
          hlegit.canAdmin htype⟩))
      · exact .inr (.inl hdefault)
  | @grant log grants perms perms' user _ hperms ih =>
      rcases hperms with rfl | ⟨-, -, hput | hdefault⟩
      · rcases ih with hfirst | hnone | hput | ⟨x, hx, hgrant⟩
        · exact .inl hfirst
        · exact .inr (.inl hnone)
        · exact .inr (.inr (.inl hput))
        · exact .inr (.inr (.inr ⟨x, List.mem_append_left _ hx, hgrant⟩))
      · exact .inr (.inr (.inr ⟨user, List.mem_append_right _ (List.mem_singleton_self user), hput⟩))
      · exact .inr (.inl hdefault)

omit [Host] in
/-- Without a grant, users who may not administrate do not get to. -/
theorem PermsOf.locked (h : PermsOf first log grants perms) (hgrants : grants = [])
    (hnone : ∀ e ∈ log, userCanAdmin e.user first = false) : perms = first := by
  induction h with
  | start => rfl
  | @put log grants perms e _ hlegit hperms ih =>
      have hbefore : e.perms = first := ih hgrants fun x hx => hnone x (List.mem_append_left _ hx)
      rcases hperms with hkeep | ⟨-, htype, -⟩
      · rw [hkeep, hbefore]
      · -- who has put them could administrate at first
        have hadmin := hlegit.canAdmin htype
        rw [hbefore, hnone e (List.mem_append_right _ (List.mem_singleton_self e))] at hadmin
        cases hadmin
  | grant user _ _ _ => exact absurd hgrants (by simp)

theorem FolderRun.permsOf (run : FolderRun maxJnlSize m₀ m log grants) :
    PermsOf m₀.permissions log grants m.permissions := by
  induction run with
  | start => exact .start
  | @query m log grants sys lookup action user fd _ ih =>
      unfold execPutrem
      have hstop : ∀ header e, PermsOf m₀.permissions
          (log ++ postedOf ⟨m, none, header, .error e⟩ user m.permissions action)
          (grants ++ grantsOf ⟨m, none, header, .error e⟩ user) m.permissions := by
        intro header e
        rw [show postedOf _ user m.permissions action = [] from rfl, show grantsOf _ user = [] from rfl,
          List.append_nil, List.append_nil]
        exact ih
      rcases headerRead fd with ⟨e | h, rest⟩
      · exact hstop _ _
      · simp only
        split
        · exact hstop _ _
        · exact ih.addHeader
  | @elsewhere m log grants sys user _ ih => exact ih.grant user (setDefaultPerms_permissions sys maxJnlSize m user)

/-- In every run, the permissions are what the accepted patches of type perms and the grants have left, each patch put by
a user who could administrate then; each accepted patch names its user, who could write; and users of whom none may
administrate at first have no way to change the permissions, as long as none of them gets this folder for a new one. -/
theorem permissions_of_run (run : FolderRun maxJnlSize m₀ m log grants) :
    PermsOf m₀.permissions log grants m.permissions ∧ (∀ e ∈ log, e.Legit) ∧
    (m.permissions = m₀.permissions ∨ m.permissions = none ∨ (∃ e ∈ log, e.action = .add ∧
      m.permissions = some e.header ∧ headerHasType e.header SC_PERM_TYPE = true ∧
      userCanAdmin e.user e.perms = true) ∨ ∃ user ∈ grants, m.permissions = some (defaultFolderPerms user)) ∧
    (grants = [] → (∀ e ∈ log, userCanAdmin e.user m₀.permissions = false) → m.permissions = m₀.permissions) :=
  ⟨run.permsOf, run.permsOf.legit, run.permsOf.author, run.permsOf.locked⟩

end Runs

/-- A user that may administrate by default sends permissions. -/
theorem permissions_of_run_sample :
    let _ := plainHost
    let r := (execPutrem quietSys 10 (Mdir.new (ascii "/m/1")) (fun _ => .error (.push 0 [])) .add bob
      (ascii "sc-type: perms\nsc-deny-write: *\n\n")).1
    r.mdir.permissions = some [⟨ascii "sc-type", ascii "perms"⟩, ⟨ascii "sc-deny-write", ascii "*"⟩,
        ⟨ascii "sc-user", ascii "bob"⟩] ∧
      PermsOf none ([] ++ postedOf r bob none .add) ([] ++ grantsOf r bob) r.mdir.permissions := by
  intro _ r
  refine ⟨by decide, ?_⟩
  have run : FolderRun 10 (Mdir.new (ascii "/m/1")) r.mdir ([] ++ postedOf r bob none .add) ([] ++ grantsOf r bob) :=
    .query quietSys _ .add bob _ .start
  exact (permissions_of_run run).1

end Scambio
