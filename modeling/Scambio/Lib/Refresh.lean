import Scambio.Lib.ListOnce
import Scambio.Lib.Mdirc

/-!
# Refresh — a mdirc that follows its directory (`lib/mdirc.c`)

The directory changes between the updates of a mdirc: patches are added to the journals and removed from
them, files come to `.tmp`, and go when the journals get their patches.  An update only lists what is new,
and relies on removals to undo what it has listed before.

* `Refresh` : the patches of a directory, the files of its `.tmp`, and a mdirc;
* `Change` : what happens to the directory;
* `RefreshRun` : the histories, with updates at any points;
* `dirSlot` : what a mdirc should hold.
-/

namespace Scambio

open Library

/-! ## Patches and files -/

/-- The patches of a directory from version 1 on; none if it is deleted. -/
abbrev Patches := List (Option (Action × Header))

section Directory

variable [Host]

/-- The journals of the mdir hold these patches. -/
def HoldsPatches (maxJnlSize : Nat) (m : Mdir) (J : Patches) : Prop :=
  ∃ A, Refines maxJnlSize m A ∧ (∀ r ∈ records A, Readable r) ∧ J = (records A).map recordEntry

/-- What `opendir` and `readdir` deliver of `.tmp`: these files in any order, with other entries. -/
def ListsTmp (tmp : Except Nat (List (Bytes × Option Bytes))) (files : List TmpFile) : Prop :=
  (tmp = .error ENOENT ∧ files = []) ∨
    ∃ (order : List (Bytes × Option Bytes)) (files' : List TmpFile), tmp = .ok order ∧ files'.Perm files ∧
      order.filter (fun e => (actionOfName e.1).isSome) = files'.map TmpFile.entry

/-- The header that a file adds. -/
def TmpFile.added (f : TmpFile) : Option Header :=
  match f.action with
  | .add => f.header
  | .rem => none

/-- The version that a file removes. -/
def TmpFile.removed (f : TmpFile) : Option Int :=
  match f.action with
  | .add => none
  | .rem => f.header.bind fun h => (headerTarget h).toOption

/-- The version that a file marks. -/
def TmpFile.marks (f : TmpFile) : Option Int :=
  f.added.bind markTarget

end Directory

/-- The message of the patch at index `i`. -/
def messageAt (J : Patches) (i : Nat) : Option Header :=
  match J[i]? with
  | some (some (.add, h)) => if IsMessage h then some h else none
  | _ => none

/-- The local version that `synch_list` reads in a header. -/
def localId (h : Header) : Option Int :=
  (headerFind h SC_LOCALID_FIELD).bind fun hf => (mdirStr2version hf.value).toOption

/-! ## Histories -/

/-- A directory and a mdirc: the patches, the files that were in `.tmp` at the last update, those that came
since. -/
structure Refresh where
  journal : Patches
  seen : List TmpFile
  fresh : List TmpFile
  mdirc : LibMdirc

/-- What happens to a directory: a patch comes deleted, a patch is added or a removal comes; a file comes to
`.tmp`; the addition or the removal of a file gets into the journal and the file goes. -/
inductive Change
  | blank
  | append (h : Header)
  | remove (h : Header) (target : Nat)
  | appear (f : TmpFile)
  | replace (f : TmpFile) (h : Header)
  | confirm (f : TmpFile) (h : Header) (target : Nat)

namespace Refresh

def start : Refresh :=
  { journal := [], seen := [], fresh := [], mdirc := .new }

def files (s : Refresh) : List TmpFile :=
  s.seen ++ s.fresh

def append (s : Refresh) (e : Option (Action × Header)) : Refresh :=
  { s with journal := s.journal ++ [e] }

/-- The patch at index `target` is deleted. -/
def delete (s : Refresh) (target : Nat) : Refresh :=
  { s with journal := s.journal.set target none }

def drop (s : Refresh) (f : TmpFile) : Refresh :=
  { s with seen := s.seen.filter (· ≠ f), fresh := s.fresh.filter (· ≠ f) }

def change (s : Refresh) : Change → Refresh
  | .blank => s.append none
  | .append h => s.append (some (.add, h))
  | .remove h target => (s.delete target).append (some (.rem, h))
  | .appear f => { s with fresh := s.fresh ++ [f] }
  | .replace f h => (s.drop f).append (some (.add, h))
  | .confirm f h target => ((s.drop f).delete target).append (some (.rem, h))

/-- A patch that may be removed: `mdir_prepare_rem` finds it, and it is no removal. -/
def Removable (s : Refresh) (h : Header) (target : Nat) : Prop :=
  headerTarget h = .ok (target + 1) ∧ target < s.journal.length ∧
    ∀ h', s.journal[target]? ≠ some (some (.rem, h'))

variable [Host]

/-- What may happen.  The numbers of files are distinct and start at 1, and the target of a removal is in the
journal; a file gets into the journal with its number for sc-localid, or with its target. -/
def May (s : Refresh) : Change → Prop
  | .blank => True
  | .append _ => True
  | .remove h target => s.Removable h target
  | .appear f => 1 ≤ f.version ∧ (∀ g ∈ s.files, g.version ≠ f.version) ∧
      ∀ v, f.removed = some v → 1 ≤ v ∧ v ≤ s.journal.length
  | .replace f h => f ∈ s.files ∧ f.action = .add ∧ localId h = some f.version
  | .confirm f h target => f ∈ s.files ∧ f.removed = some ((target : Int) + 1) ∧ s.Removable h target

/-- `mdirc_update`, on any mdir that holds the journal. -/
def update (s : Refresh) (m : Mdir) (order : List Bytes) (tmp err : Except Nat (List (Bytes × Option Bytes))) :
    Refresh :=
  { s with mdirc := s.mdirc.mdircUpdate m order tmp err, seen := s.files, fresh := [] }

/-- No message of the journal is held with the mark `w`. -/
def Unmarked (s : Refresh) (w : Int) : Prop :=
  ∀ i x, (messageAt s.journal i).isSome → s.mdirc.slot (i + 1) = some x → w ∉ x.2

/-- A patch that is added: if it is a message, it was not marked in advance by a file that is listed; if it
marks a transient message, that one is not held. -/
def Timely (s : Refresh) (h : Header) : Prop :=
  (IsMessage h → ∀ f ∈ s.seen, f.marks ≠ some ((s.journal.length : Int) + 1)) ∧
    ∀ v ≤ 0, markTarget h = some v → s.mdirc.slot v = none

/-- A patch that was no file of this `.tmp`: if it has a sc-localid, no file that is listed has that number. -/
def Foreign (s : Refresh) (h : Header) : Prop :=
  ∀ l, localId h = some l → 1 ≤ l ∧ ∀ f ∈ s.seen, f.version ≠ l

/-- A patch that is removed: no message is held with the mark that it is, and it is not held itself under its
local version. -/
def Untied (s : Refresh) (target : Nat) : Prop :=
  s.Unmarked (target + 1) ∧
    ∀ h l, s.journal[target]? = some (some (.add, h)) → localId h = some l → s.mdirc.slot (-l) = none

/-- The changes that a mdirc can follow. -/
def Fit (s : Refresh) : Change → Prop
  | .blank => True
  | .append h => s.Timely h ∧ s.Foreign h
  | .remove _ target => s.Untied target
  | .appear _ => True
  | .replace f h => s.Timely h ∧ s.Unmarked (-f.version)
  | .confirm _ _ target => s.Untied target

/-- The files that a mdirc can follow: the new ones have greater numbers than those listed before, and can
be read; none marks a message of another file. -/
structure Orderly (s : Refresh) : Prop where
  increasing : ∀ f ∈ s.fresh, s.mdirc.cursor.lastListedUnsync < f.version
  readable : ∀ f ∈ s.fresh, ∃ h, f.header = some h
  settled : ∀ f ∈ s.files, ∀ g ∈ s.files, ∀ h, f.added = some h → IsMessage h → g.marks ≠ some (-f.version)

end Refresh

section Run

variable [Host] (maxJnlSize : Nat) (fit : Refresh → Change → Prop) (orderly : Refresh → Prop)

/-- What an update is given. -/
structure Given (s : Refresh) (m : Mdir) (order : List Bytes)
    (tmp : Except Nat (List (Bytes × Option Bytes))) : Prop where
  holds : HoldsPatches maxJnlSize m s.journal
  order : Lists order m.disk
  tmp : ListsTmp tmp s.files

/-- The histories whose changes satisfy `fit` and whose updates start in states that satisfy `orderly`. -/
inductive RefreshRun : Refresh → Prop
  | start : RefreshRun Refresh.start
  | change {s : Refresh} (e : Change) : RefreshRun s → s.May e → fit s e → RefreshRun (s.change e)
  | update {s : Refresh} (m : Mdir) (order : List Bytes) (tmp err : Except Nat (List (Bytes × Option Bytes))) :
      RefreshRun s → Given maxJnlSize s m order tmp → orderly s → RefreshRun (s.update m order tmp err)

end Run

/-! ## What an update lists -/

section Calls

variable [Host]

/-- The calls for the files of `.tmp`. -/
def fileCalls (files : List TmpFile) : List Callback :=
  files.flatMap (TmpFile.called true true)

theorem TmpFile.called_eq (f : TmpFile) :
    f.called true true =
      (f.added.map fun h => Callback.put h (-f.version)).toList ++ (f.removed.map Callback.rem).toList := by
  rw [TmpFile.called, TmpFile.added, TmpFile.removed]
  cases hheader : f.header with
  | none => cases f.action <;> rfl
  | some h =>
      cases f.action with
      | add => rfl
      | rem =>
          simp only [Option.map_some, Option.getD_some, transientCalls, Option.bind_some, and_self, if_true]
          cases headerTarget h <;> rfl

theorem put_mem_fileCalls {files : List TmpFile} {h : Header} {w : Int} :
    Callback.put h w ∈ fileCalls files ↔ ∃ f ∈ files, f.added = some h ∧ w = -f.version := by
  simp only [fileCalls, List.mem_flatMap, TmpFile.called_eq, List.mem_append, Option.mem_toList,
    Option.map_eq_some_iff, Callback.put.injEq, reduceCtorEq, and_false, exists_false, or_false]
  constructor
  · rintro ⟨f, hf, h', hadded, rfl, rfl⟩
    exact ⟨f, hf, hadded, rfl⟩
  · rintro ⟨f, hf, hadded, rfl⟩
    exact ⟨f, hf, h, hadded, rfl, rfl⟩

theorem rem_mem_fileCalls {files : List TmpFile} {v : Int} :
    Callback.rem v ∈ fileCalls files ↔ ∃ f ∈ files, f.removed = some v := by
  simp [fileCalls, TmpFile.called_eq]

/-- The mark that a file makes for version `v`. -/
def fileMark (v : Int) (f : TmpFile) : Multiset Int :=
  if f.marks = some v then {-f.version} else 0

theorem marksMade_fileCalls (v : Int) (files : List TmpFile) :
    marksMade v (fileCalls files) = (files.map (fileMark v)).sum := by
  induction files with
  | nil => rfl
  | cons f files ih =>
      have hcons : fileCalls (f :: files) = f.called true true ++ fileCalls files := List.flatMap_cons
      have hfile : marksMade v (f.called true true) = fileMark v f := by
        rw [TmpFile.called_eq, marksMade_append, fileMark, TmpFile.marks]
        cases f.added <;> cases f.removed <;> simp [marksMade, callMarks, markFor]
      rw [hcons, marksMade_append, ih, hfile, List.map_cons, List.sum_cons]

omit [Host] in
theorem mem_journalCalls {cursor : MdirCursor} {v : Int} {J : Patches} {cb : Callback} :
    cb ∈ journalCalls cursor v J ↔
      ∃ (i : Nat) (action : Action) (h : Header), J[i]? = some (some (action, h)) ∧
        cb ∈ listEntry cursor (v + i) action h := by
  induction J generalizing v with
  | nil => simp [journalCalls]
  | cons e J ih =>
      have hshift : ∀ i : Nat, v + 1 + (i : Int) = v + ((i + 1 : Nat) : Int) := fun i => by push_cast; omega
      have htail : cb ∈ journalCalls cursor (v + 1) J ↔ ∃ (i : Nat) (action : Action) (h : Header),
          (e :: J)[i + 1]? = some (some (action, h)) ∧ cb ∈ listEntry cursor (v + ((i + 1 : Nat) : Int)) action h := by
        simp only [ih, List.getElem?_cons_succ, hshift]
      rcases e with _ | ⟨action, h⟩
      · rw [journalCalls, htail]
        constructor
        · rintro ⟨i, action, h, hget, hcb⟩
          exact ⟨i + 1, action, h, hget, hcb⟩
        · rintro ⟨_ | i, action, h, hget, hcb⟩
          · cases hget
          · exact ⟨i, action, h, hget, hcb⟩
      · rw [journalCalls, List.mem_append, htail]
        constructor
        · rintro (hcb | ⟨i, action', h', hget, hcb⟩)
          · exact ⟨0, action, h, rfl, by simpa using hcb⟩
          · exact ⟨i + 1, action', h', hget, hcb⟩
        · rintro ⟨_ | i, action', h', hget, hcb⟩
          · cases hget
            exact .inl (by simpa using hcb)
          · exact .inr ⟨i, action', h', hget, hcb⟩

omit [Host] in
/-- What `synch_list` reports of an addition. -/
theorem listEntry_add (cursor : MdirCursor) (v : Int) (h : Header) :
    listEntry cursor v .add h = ((localId h).filter (· ≤ cursor.lastListedUnsync)).toList.map
      (fun l => Callback.rem (-l)) ++ [.put h v] := by
  simp only [listEntry, localId]
  cases headerFind h SC_LOCALID_FIELD with
  | none => rfl
  | some hf =>
      simp only [Option.bind_some]
      cases mdirStr2version hf.value with
      | error e => rfl
      | ok l =>
          simp only [Except.toOption, Option.filter_some, decide_eq_true_eq]
          split <;> rfl

omit [Host] in
theorem put_mem_journalCalls {cursor : MdirCursor} {v w : Int} {J : Patches} {h : Header} :
    Callback.put h w ∈ journalCalls cursor v J ↔ ∃ i : Nat, J[i]? = some (some (.add, h)) ∧ w = v + i := by
  rw [mem_journalCalls]
  constructor
  · rintro ⟨i, action, h', hget, hcb⟩
    cases action with
    | rem =>
        simp only [listEntry] at hcb
        cases htarget : headerTarget h' <;> simp [htarget] at hcb
    | add =>
        simp only [listEntry_add, List.mem_append, List.mem_map, reduceCtorEq, and_false, exists_false, false_or,
          List.mem_singleton, Callback.put.injEq] at hcb
        exact ⟨i, hcb.1 ▸ hget, hcb.2⟩
  · rintro ⟨i, hget, rfl⟩
    refine ⟨i, .add, h, hget, ?_⟩
    rw [listEntry_add]
    exact List.mem_append_right _ (List.mem_singleton_self _)

omit [Host] in
theorem rem_mem_journalCalls {cursor : MdirCursor} {v w : Int} {J : Patches} :
    Callback.rem w ∈ journalCalls cursor v J ↔ ∃ (i : Nat) (h : Header),
      (J[i]? = some (some (.rem, h)) ∧ headerTarget h = .ok w) ∨
        (J[i]? = some (some (.add, h)) ∧ ∃ l, localId h = some l ∧ l ≤ cursor.lastListedUnsync ∧ w = -l) := by
  rw [mem_journalCalls]
  constructor
  · rintro ⟨i, action, h, hget, hcb⟩
    refine ⟨i, h, ?_⟩
    cases action with
    | rem =>
        simp only [listEntry] at hcb
        cases htarget : headerTarget h with
        | error e => simp [htarget] at hcb
        | ok target =>
            simp only [htarget, List.mem_singleton, Callback.rem.injEq] at hcb
            exact .inl ⟨hget, by rw [hcb]⟩
    | add =>
        simp only [listEntry_add, List.mem_append, List.mem_map, Option.mem_toList, Option.filter_eq_some_iff,
          List.mem_singleton, reduceCtorEq, or_false, Callback.rem.injEq, decide_eq_true_eq] at hcb
        rcases hcb with ⟨l, ⟨hlocal, hle⟩, hw⟩
        exact .inr ⟨hget, l, hlocal, hle, hw.symm⟩
  · rintro ⟨i, h, ⟨hget, htarget⟩ | ⟨hget, l, hlocal, hle, rfl⟩⟩
    · refine ⟨i, .rem, h, hget, ?_⟩
      simp [listEntry, htarget]
    · refine ⟨i, .add, h, hget, ?_⟩
      rw [listEntry_add]
      refine List.mem_append_left _ (List.mem_map.2 ⟨l, ?_, rfl⟩)
      simp [hlocal, hle]

/-- `transient_list` does not move the cursor in the journals. -/
theorem transientList_lastListedSync (path : Bytes) (cursor : MdirCursor)
    (tmp : Except Nat (List (Bytes × Option Bytes))) :
    (transientList path cursor tmp).cursor.lastListedSync = cursor.lastListedSync := by
  have hloop : ∀ (files : List (Bytes × Option Bytes)) (start : Int) (cursor : MdirCursor),
      (transientListLoop path start files cursor).cursor.lastListedSync = cursor.lastListedSync := by
    intro files start
    induction files with
    | nil => exact fun cursor => rfl
    | cons e files ih =>
        intro cursor
        rcases e with ⟨name, file⟩
        rw [transientListLoop]
        split
        · exact ih cursor
        · split
          · exact ih cursor
          · split
            · exact ih cursor
            -- only `last_listed_unsync` changes
            · split
              · simp only
                split
                · rfl
                · exact ih _
              · simp only
                split
                · rfl
                · exact ih _
  cases tmp with
  | ok files => exact hloop files _ cursor
  | error errno =>
      simp only [transientList]
      split <;> rfl

/-- What `transient_list` calls, when the files listed before are known. -/
theorem ListsTmp.transientList {tmp : Except Nat (List (Bytes × Option Bytes))} {s : Refresh}
    (h : ListsTmp tmp s.files) (hpast : ∀ f ∈ s.seen, f.version ≤ s.mdirc.cursor.lastListedUnsync)
    (hord : s.Orderly) (path : Bytes) {cursor : MdirCursor}
    (hcursor : cursor.lastListedUnsync = s.mdirc.cursor.lastListedUnsync) :
    ∃ files : List TmpFile, files.Perm s.fresh ∧
      (transientList path cursor tmp).calls = fileCalls files ∧
      cursor.lastListedUnsync ≤ (transientList path cursor tmp).cursor.lastListedUnsync ∧
      ∀ f ∈ s.fresh, f.version ≤ (transientList path cursor tmp).cursor.lastListedUnsync := by
  rcases h with ⟨rfl, hnil⟩ | ⟨order, files, rfl, hfiles, horder⟩
  · have hfresh : s.fresh = [] := (List.append_eq_nil_iff.1 hnil).2
    rw [hfresh]
    exact ⟨[], List.Perm.nil, rfl, le_rfl, fun f hf => nomatch hf⟩
  have hnew : (s.files.filter fun f => decide (cursor.lastListedUnsync < f.version)) = s.fresh := by
    have hseen : s.seen.filter (fun f => decide (cursor.lastListedUnsync < f.version)) = [] := by
      rw [List.filter_eq_nil_iff]
      intro f hf
      simpa [hcursor] using hpast f hf
    have hfresh : s.fresh.filter (fun f => decide (cursor.lastListedUnsync < f.version)) = s.fresh := by
      rw [List.filter_eq_self]
      intro f hf
      simpa [hcursor] using hord.increasing f hf
    rw [Refresh.files, List.filter_append, hseen, hfresh, List.nil_append]
  have hread : ∀ f ∈ files, cursor.lastListedUnsync < f.version → ∃ h, f.header = some h := by
    intro f hf hlt
    apply hord.readable
    rw [← hnew]
    exact List.mem_filter.2 ⟨hfiles.mem_iff.1 hf, by simpa using hlt⟩
  have hspec := @loop_spec _ true true path cursor.lastListedUnsync files order horder hread cursor
  rw [transientListLoopWith_true] at hspec
  refine ⟨_, (hfiles.filter _).trans (List.Perm.of_eq hnew), hspec.1, hspec.2.1, fun f hf => ?_⟩
  apply hspec.2.2 f
  · exact hfiles.mem_iff.2 (List.mem_append_right _ hf)
  · rw [hcursor]
    exact hord.increasing f hf

omit [Host] in
/-- `err_msg` keeps the messages. -/
theorem foldl_call_err {calls : List Callback} (h : calls.filter Callback.isPatch = []) (c : LibMdirc) :
    calls.foldl LibMdirc.call c = c := by
  induction calls generalizing c with
  | nil => rfl
  | cons cb calls ih =>
      cases cb with
      | err header w => exact ih h c
      | put header w => cases h
      | rem w => cases h

/-- The calls of an update, and where it leaves the cursor: no patch is after it. -/
theorem Given.mdircUpdate {maxJnlSize : Nat} (hmax : maxJnlSize < 2 ^ 32) {s : Refresh} {m : Mdir}
    {order : List Bytes} {tmp : Except Nat (List (Bytes × Option Bytes))}
    (h : Given maxJnlSize s m order tmp) {n : Nat} (hn : s.mdirc.cursor.lastListedSync = n)
    (hle : n ≤ s.journal.length) (hpast : ∀ f ∈ s.seen, f.version ≤ s.mdirc.cursor.lastListedUnsync)
    (hord : s.Orderly) (err : Except Nat (List (Bytes × Option Bytes))) :
    ∃ (files : List TmpFile) (n' : Nat) (u' : Int), files.Perm s.fresh ∧
      s.mdirc.mdircUpdate m order tmp err =
        { (journalCalls s.mdirc.cursor (n + 1) (s.journal.drop n) ++ fileCalls files).foldl LibMdirc.call s.mdirc
          with cursor := ⟨n', u'⟩ } ∧
      n' ≤ s.journal.length ∧ (∀ i e, n' ≤ i → s.journal[i]? ≠ some (some e)) ∧
      s.mdirc.cursor.lastListedUnsync ≤ u' ∧ ∀ f ∈ s.fresh, f.version ≤ u' := by
  rcases h.holds with ⟨A, href, hread, hJ⟩
  obtain ⟨m', hm'⟩ : ∃ m', m' = (mdirReload ErrBuf.new m (.ok order)).2 := ⟨_, rfl⟩
  have href' : Refines maxJnlSize m' A := hm' ▸ (href.reload hmax h.order).1
  have hsynch := href'.synchList_calls hmax hread s.mdirc.cursor hn
  obtain ⟨last, hlast⟩ : ∃ last, last = lastLive (n + 1) n ((records A).drop n) := ⟨_, rfl⟩
  have hdrop : ((records A).drop n).map recordEntry = s.journal.drop n := by rw [hJ, List.map_drop]
  rw [← hlast, hdrop] at hsynch
  have hcursor : (mdirCursorSeek s.mdirc.cursor last).lastListedUnsync = s.mdirc.cursor.lastListedUnsync := rfl
  rcases h.tmp.transientList hpast hord m'.path hcursor with ⟨files, hfiles, hcalls, hlow, hhigh⟩
  obtain ⟨t, ht⟩ : ∃ t, t = Scambio.transientList m'.path (mdirCursorSeek s.mdirc.cursor last) tmp := ⟨_, rfl⟩
  rw [← ht] at hcalls hlow hhigh
  -- where the cursor is left in the journal
  have hlive := lastLive_spec (show (n : Int) < n + 1 by omega) ((records A).drop n)
  rw [← hlast] at hlive
  rcases hlive with ⟨hge, hlt, hafter⟩
  have hlen : ((records A).drop n).length = s.journal.length - n := by rw [hJ, List.length_map, List.length_drop]
  obtain ⟨n', hn'⟩ : ∃ n' : Nat, last = n' := ⟨last.toNat, by omega⟩
  have hsync : t.cursor.lastListedSync = n' := by
    rw [ht, transientList_lastListedSync, ← hn']
    rfl
  refine ⟨files, n', t.cursor.lastListedUnsync, hfiles, ?_, by omega, ?_, hlow, hhigh⟩
  · have hresult : ∃ errs : List Callback, errs.filter Callback.isPatch = [] ∧
        (mdirPatchList m s.mdirc.cursor false order tmp err).2.calls =
          journalCalls s.mdirc.cursor (n + 1) (s.journal.drop n) ++ fileCalls files ++ errs ∧
        (mdirPatchList m s.mdirc.cursor false order tmp err).2.cursor = t.cursor := by
      simp only [mdirPatchList, ← hm', hsynch, Bool.false_eq_true, if_false, ← ht, ListResult.after, hcalls]
      cases t.result with
      | error e => exact ⟨[], rfl, (List.append_nil _).symm, rfl⟩
      | ok u => exact ⟨_, errList_filter m'.path err, rfl, rfl⟩
    rcases hresult with ⟨errs, herrs, hall, hcur⟩
    have heq : t.cursor = ⟨n', t.cursor.lastListedUnsync⟩ := by rw [← hsync]
    rw [LibMdirc.mdircUpdate, hall, hcur, List.foldl_append, foldl_call_err herrs, ← heq]
  · intro i e hi hget
    rw [hJ, List.getElem?_map, Option.map_eq_some_iff] at hget
    rcases hget with ⟨r, hr, hentry⟩
    have hni : n ≤ i := by omega
    have hdel : IsDeleted r := by
      refine hafter (i - n) r ?_ (by omega)
      rw [List.getElem?_drop, Nat.add_sub_cancel' hni]
      exact hr
    rw [recordEntry_deleted hdel] at hentry
    cases hentry

end Calls

end Scambio
