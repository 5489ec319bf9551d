import Scambio.Lib.Readback

/-!
# Listing — reporting the patches that were not listed yet (`lib/mdir.c`)

`mdirPatchList` reloads the mdir, then goes through its journals from the version after the last one
that the cursor knows, and through the transient patches.  The callbacks are recorded in the order in
which they are called; none of them raises any error.
-/

namespace Scambio

open Library

structure MdirCursor where
  lastListedSync : Int
  lastListedUnsync : Int
  deriving DecidableEq, Repr

/-- `MDIR_CURSOR_INITIALIZER`. -/
def MdirCursor.new : MdirCursor :=
  { lastListedSync := 0, lastListedUnsync := 0 }

def mdirCursorSeek (cursor : MdirCursor) (last : Int) : MdirCursor :=
  { cursor with lastListedSync := last }

/-- A call of `put_cb`, `rem_cb` or `err_cb`. -/
inductive Callback
  | put (header : Header) (version : Int)
  | rem (target : Int)
  | err (header : Header) (version : Int)
  deriving DecidableEq, Repr

/-- What a listing leaves: the cursor, the calls made and the outcome. -/
structure ListResult where
  cursor : MdirCursor
  calls : List Callback
  result : Except Err Unit

/-- The calls of `before` come first. -/
def ListResult.after (before : List Callback) (r : ListResult) : ListResult :=
  { r with calls := before ++ r.calls }

section Model

variable [Host]

omit [Host] in
/-- What `synch_list` reports of one patch. -/
def listEntry (cursor : MdirCursor) (version : Int) (action : Action) (h : Header) : List Callback :=
  match action with
  | .rem =>
      match headerTarget h with
      | .ok target => [.rem target]
      | .error _ => []
  | .add =>
      -- a patch that was reported when it was transient is first removed
      let former : List Callback :=
        match headerFind h SC_LOCALID_FIELD with
        | none => []
        | some hf =>
            match mdirStr2version hf.value with
            | .error _ => []
            | .ok local' => if local' ≤ cursor.lastListedUnsync then [.rem (-local')] else []
      former ++ [.put h version]

/-- The inner loop of `synch_list`, on `n` patches from `index` on. -/
def synchListJnl (d : Disk) (j : Jnl) : Nat → Nat → MdirCursor → ListResult
  | 0, _, cursor => ⟨cursor, [], .ok ()⟩
  | n + 1, index, cursor =>
      match jnlRead d j index with
      | .error e => ⟨cursor, [], .error e⟩
      | .ok (_, none) => synchListJnl d j n (index + 1) cursor
      | .ok (action, some h) =>
          let version := j.version + index
          (synchListJnl d j n (index + 1) { cursor with lastListedSync := version }).after
            (listEntry cursor version action h)

/-- The journals of `synch_list`, from version `from'` on. -/
def synchListLoop (d : Disk) : List Jnl → Int → MdirCursor → ListResult
  | [], _, cursor => ⟨cursor, [], .ok ()⟩
  | j :: js, from', cursor =>
      if j.version + j.nbPatches ≤ from' then synchListLoop d js from' cursor
      else
        let from' := if from' < j.version then j.version else from'
        let index := (from' - j.version).toNat
        let r := synchListJnl d j (j.nbPatches - index) index cursor
        match r.result with
        | .error _ => r
        | .ok () => (synchListLoop d js from' r.cursor).after r.calls

def synchList (m : Mdir) (cursor : MdirCursor) : ListResult :=
  synchListLoop m.disk m.jnls (cursor.lastListedSync + 1) cursor

omit [Host] in
/-- The action in the name of a transient patch. -/
def actionOfName (name : Bytes) : Option Action :=
  match name with
  | 43 :: _ => some .add
  | 45 :: _ => some .rem
  | _ => none

/-- The loop of `transient_list`; `start` is the last transient version listed before. -/
def transientListLoop (path : Bytes) (start : Int) :
    List (Bytes × Option Bytes) → MdirCursor → ListResult
  | [], cursor => ⟨cursor, [], .ok ()⟩
  | (name, file) :: files, cursor =>
      match actionOfName name with
      -- a name that starts with neither `+` nor `-`
      | none => transientListLoop path start files cursor
      | some action =>
          match mdirStr2version (name.drop 1) with
          | .error _ => transientListLoop path start files cursor
          | .ok version =>
              -- it was listed before
              if version ≤ start then transientListLoop path start files cursor
              else
                let cursor :=
                  if version > cursor.lastListedUnsync then { cursor with lastListedUnsync := version }
                  else cursor
                match headerFromFile ErrBuf.new file (snprintfPath (path ++ ascii "/.tmp/" ++ name)) with
                -- the walk ends at the first file that cannot be read, with the cursor past it
                | (eb, none) => ⟨cursor, [], .error (eb.errStack.headD (.push 0 []))⟩
                | (_, some h) =>
                    let calls : List Callback :=
                      match action with
                      | .rem =>
                          match headerTarget h with
                          | .ok target => [.rem target]
                          -- a removal without a target is passed over
                          | .error _ => []
                      | .add => [.put h (-version)]
                    (transientListLoop path start files cursor).after calls

/-- `transient_list`.  `tmp` is what `opendir` and `readdir` deliver of the `.tmp` folder, with the
contents of the files. -/
def transientList (path : Bytes) (cursor : MdirCursor) (tmp : Except Nat (List (Bytes × Option Bytes))) :
    ListResult :=
  match tmp with
  | .error errno =>
      if errno = ENOENT then ⟨cursor, [], .ok ()⟩
      else ⟨cursor, [], .error (.push errno (ascii "opendir(" ++ snprintfPath (path ++ ascii "/.tmp") ++
        ascii ")"))⟩
  | .ok files => transientListLoop path cursor.lastListedUnsync files cursor

/-- The loop of `err_list`; the files reported are unlinked. -/
def errListLoop (path : Bytes) : List (Bytes × Option Bytes) → List Callback × Except Err Unit
  | [] => ([], .ok ())
  | (name, file) :: files =>
      match actionOfName name with
      -- a name that starts with neither `+` nor `-`
      | none => errListLoop path files
      | some _ =>
          match mdirStr2version (name.drop 1) with
          | .error _ => errListLoop path files
          | .ok version =>
              match headerFromFile ErrBuf.new file (snprintfPath (path ++ ascii "/.err/" ++ name)) with
              | (eb, none) => ([], .error (eb.errStack.headD (.push 0 [])))
              | (_, some h) =>
                  let r := errListLoop path files
                  (.err h (-version) :: r.1, r.2)

def errList (path : Bytes) (err : Except Nat (List (Bytes × Option Bytes))) :
    List Callback × Except Err Unit :=
  match err with
  | .error errno =>
      if errno = ENOENT then ([], .ok ())
      else
        ([], .error (.push errno (ascii "opendir(" ++ snprintfPath (path ++ ascii "/.err") ++
          ascii ")")))
  | .ok files => errListLoop path files

/-- `mdir_patch_list` with three callbacks: the reloaded mdir and what is reported.  `order` is the
directory order in which the journals are found. -/
def mdirPatchList (m : Mdir) (cursor : MdirCursor) (unsyncOnly : Bool) (order : List Bytes)
    (tmp err : Except Nat (List (Bytes × Option Bytes))) : Mdir × ListResult :=
  let m := (mdirReload ErrBuf.new m (.ok order)).2
  let synch := if unsyncOnly then ⟨cursor, [], .ok ()⟩ else synchList m cursor
  match synch.result with
  | .error _ => (m, synch)
  | .ok () =>
      let transient := (transientList m.path synch.cursor tmp).after synch.calls
      match transient.result with
      | .error _ => (m, transient)
      | .ok () =>
          let r := errList m.path err
          (m, ⟨transient.cursor, transient.calls ++ r.1, r.2⟩)

end Model

/-! ## The journals as one list of records -/

section Spec

variable [Host]

/-- What is reported of the record of version `v`. -/
def reportOf (v : Int) (r : Bytes) : Option Callback :=
  match readRecord r with
  | some (.add, some h) => some (.put h v)
  | some (.rem, some h) => (headerTarget h).toOption.map Callback.rem
  | _ => none

/-- The reports of consecutive records, each with its version. -/
def reports (v : Int) : List Bytes → List (Int × Callback)
  | [] => []
  | r :: R => ((reportOf v r).map fun c => (v, c)).toList ++ reports (v + 1) R

/-- The last of consecutive versions that is not deleted. -/
def lastLive (v : Int) (last : Int) : List Bytes → Int
  | [] => last
  | r :: R => lastLive (v + 1) (if IsDeleted r then last else v) R

/-- The record is deleted, or it can be read. -/
def Readable (r : Bytes) : Prop :=
  IsDeleted r ∨ ∃ action h, readRecord r = some (action, some h)

/-- The record is deleted, or it can be read and has no sc-localid. -/
def Listable (r : Bytes) : Prop :=
  IsDeleted r ∨ ∃ action h, readRecord r = some (action, some h) ∧
    headerFind h SC_LOCALID_FIELD = none

theorem Listable.readable {r : Bytes} (h : Listable r) : Readable r := by
  rcases h with hdel | ⟨action, h, hr, -⟩
  · exact .inl hdel
  · exact .inr ⟨action, h, hr⟩

/-- The patch of a record, unless it is deleted. -/
def recordEntry (r : Bytes) : Option (Action × Header) :=
  match readRecord r with
  | some (action, some h) => some (action, h)
  | _ => none

omit [Host] in
/-- What `synch_list` reports of consecutive patches, the first of version `v`. -/
def journalCalls (cursor : MdirCursor) (v : Int) : List (Option (Action × Header)) → List Callback
  | [] => []
  | none :: J => journalCalls cursor (v + 1) J
  | some (action, h) :: J => listEntry cursor v action h ++ journalCalls cursor (v + 1) J

omit [Host] in
theorem journalCalls_append (cursor : MdirCursor) (v : Int) (J K : List (Option (Action × Header))) :
    journalCalls cursor v (J ++ K) = journalCalls cursor v J ++ journalCalls cursor (v + J.length) K := by
  induction J generalizing v with
  | nil => simp [journalCalls]
  | cons e J ih =>
      have hcast : v + 1 + (J.length : Int) = v + ((e :: J).length : Nat) := by
        rw [List.length_cons]
        omega
      rcases e with _ | ⟨action, h⟩
      · simp only [List.cons_append, journalCalls, ih, hcast]
      · simp only [List.cons_append, journalCalls, ih, hcast, List.append_assoc]

omit [Host] in
/-- Only the cursor among the transient patches matters. -/
theorem journalCalls_seek (cursor : MdirCursor) (last v : Int) (J : List (Option (Action × Header))) :
    journalCalls (mdirCursorSeek cursor last) v J = journalCalls cursor v J := by
  induction J generalizing v with
  | nil => rfl
  | cons e J ih =>
      rcases e with _ | ⟨action, h⟩
      · exact ih (v + 1)
      · simp only [journalCalls, ih]
        rfl

theorem reports_append (v : Int) (R S : List Bytes) :
    reports v (R ++ S) = reports v R ++ reports (v + R.length) S := by
  induction R generalizing v with
  | nil => simp [reports]
  | cons r R ih =>
      have hcast : v + 1 + (R.length : Int) = v + ((r :: R).length : Nat) := by
        rw [List.length_cons]
        omega
      simp only [List.cons_append, reports, ih, List.append_assoc, hcast]

omit [Host] in
theorem lastLive_append (v last : Int) (R S : List Bytes) :
    lastLive v last (R ++ S) = lastLive (v + R.length) (lastLive v last R) S := by
  induction R generalizing v last with
  | nil => simp [lastLive]
  | cons r R ih =>
      have hcast : v + 1 + (R.length : Int) = v + ((r :: R).length : Nat) := by
        rw [List.length_cons]
        omega
      simp only [List.cons_append, lastLive, ih, hcast]

theorem reportOf_deleted {r : Bytes} (h : IsDeleted r) (v : Int) : reportOf v r = none := by
  rw [reportOf, readRecord_of_isDeleted h]

/-- Deleted records are passed without any trace. -/
theorem reports_deleted {R : List Bytes} (h : ∀ r ∈ R, IsDeleted r) (v : Int) : reports v R = [] := by
  induction R generalizing v with
  | nil => rfl
  | cons r R ih =>
      rw [reports, reportOf_deleted (h r List.mem_cons_self),
        ih fun s hs => h s (List.mem_cons_of_mem _ hs)]
      rfl

omit [Host] in
/-- Where the cursor is left: every record after it is deleted. -/
theorem lastLive_spec {v last : Int} (h : last < v) (R : List Bytes) :
    last ≤ lastLive v last R ∧ lastLive v last R < v + R.length ∧
      ∀ (i : Nat) r, R[i]? = some r → lastLive v last R < v + i → IsDeleted r := by
  induction R generalizing v last with
  | nil => exact ⟨le_rfl, by simpa [lastLive] using h, by simp⟩
  | cons r R ih =>
      by_cases hdel : IsDeleted r
      · rcases ih (show last < v + 1 by omega) with ⟨hlow, hhigh, hafter⟩
        simp only [lastLive, if_pos hdel, List.length_cons]
        refine ⟨hlow, by push_cast; omega, ?_⟩
        rintro (_ | i) s hs hlt
        · cases hs
          exact hdel
        · rw [List.getElem?_cons_succ] at hs
          exact hafter i s hs (by push_cast at hlt; omega)
      · rcases ih (show v < v + 1 by omega) with ⟨hlow, hhigh, hafter⟩
        simp only [lastLive, if_neg hdel, List.length_cons]
        refine ⟨by omega, by push_cast; omega, ?_⟩
        rintro (_ | i) s hs hlt
        · push_cast at hlt
          omega
        · rw [List.getElem?_cons_succ] at hs
          exact hafter i s hs (by push_cast at hlt; omega)

/-- What `synch_list` reports of a record that can be read. -/
theorem listEntry_eq {r : Bytes} {action : Action} {h : Header} (cursor : MdirCursor) (v : Int)
    (hr : readRecord r = some (action, some h)) (hlocal : headerFind h SC_LOCALID_FIELD = none) :
    listEntry cursor v action h = (((reportOf v r).map fun c => (v, c)).toList).map Prod.snd := by
  rw [reportOf, hr]
  cases action with
  | add => simp [listEntry, hlocal]
  | rem =>
      simp only [listEntry]
      cases headerTarget h <;> rfl

theorem recordEntry_deleted {r : Bytes} (h : IsDeleted r) : recordEntry r = none := by
  rw [recordEntry, readRecord_of_isDeleted h]

theorem journalCalls_eq_reports {R : List Bytes} (hlist : ∀ r ∈ R, Listable r) (cursor : MdirCursor)
    (v : Int) : journalCalls cursor v (R.map recordEntry) = (reports v R).map Prod.snd := by
  induction R generalizing v with
  | nil => rfl
  | cons r R ih =>
      have hrest := ih (fun s hs => hlist s (List.mem_cons_of_mem r hs)) (v + 1)
      rcases hlist r List.mem_cons_self with hdel | ⟨action, h, hr, hlocal⟩
      · rw [List.map_cons, recordEntry_deleted hdel, journalCalls, hrest, reports, reportOf_deleted hdel]
        rfl
      · have hentry : recordEntry r = some (action, h) := by rw [recordEntry, hr]
        rw [List.map_cons, hentry, journalCalls, hrest, reports, List.map_append,
          listEntry_eq cursor v hr hlocal]

/-- The patches of one journal, from `i` on. -/
theorem synchListJnl_spec {d : Disk} {j : Jnl} {p : List Slot} (hold : JnlHolds d j p) (hfits : Fits p)
    (hlt : p.length < 2 ^ 32) {i : Nat} (hi : i ≤ p.length)
    (hlist : ∀ r ∈ records p, Readable r) (cursor : MdirCursor) :
    synchListJnl d j (p.length - i) i cursor =
      ⟨mdirCursorSeek cursor
          (lastLive (j.version + i) cursor.lastListedSync ((records p).drop i)),
        journalCalls cursor (j.version + i) (((records p).drop i).map recordEntry), .ok ()⟩ := by
  induction hn : p.length - i generalizing i cursor with
  | zero =>
      have hdrop : (records p).drop i = [] := by
        rw [List.drop_eq_nil_iff, records_length]
        omega
      rw [hdrop]
      rfl
  | succ n ih =>
      have hip : i < p.length := by omega
      have hir : i < (records p).length := by rw [records_length]; exact hip
      have hrec : (records p)[i] = p[i].record := by simp [records]
      have hread := jnlRead_spec hold hfits hlt hip
      have hdrop := List.drop_eq_getElem_cons hir
      have hcast : j.version + ((i + 1 : Nat) : Int) = j.version + i + 1 := by omega
      have hrest := fun c => ih (i := i + 1) (by omega) c (by omega)
      rw [synchListJnl, hdrop, hrec]
      rcases hlist _ (List.getElem_mem hir) with hdel | ⟨action, h, hr⟩
      · -- a deleted patch: the cursor stays where it is
        rw [hrec] at hdel
        rw [readRecord_of_isDeleted hdel] at hread
        simp only [eq_ok_of_toOption hread, hrest, hcast, lastLive, if_pos hdel, List.map_cons,
          recordEntry_deleted hdel, journalCalls]
      · rw [hrec] at hr
        have hkeep : ¬ IsDeleted p[i].record := by
          intro hdel
          rw [readRecord_of_isDeleted hdel] at hr
          cases hr
        have hentry : recordEntry p[i].record = some (action, h) := by rw [recordEntry, hr]
        have hseek := journalCalls_seek cursor (j.version + i) (j.version + i + 1)
          (((records p).drop (i + 1)).map recordEntry)
        rw [hr] at hread
        simp only [eq_ok_of_toOption hread, hrest, hcast, lastLive, if_neg hkeep, ListResult.after,
          List.map_cons, hentry, journalCalls, ← hseek]
        rfl

/-- Consecutive journals, from any version on: the records are listed from there to the end. -/
theorem synchListLoop_spec {d : Disk} {v : Nat} {ps : List (List Slot)}
    (hold : ∀ ps₁ p ps₂, ps = ps₁ ++ p :: ps₂ →
      JnlHolds d (partJnl (v + ps₁.flatten.length) p) p ∧ Fits p ∧ p.length < 2 ^ 32)
    (hlist : ∀ r ∈ records ps.flatten, Readable r) (from' : Int) (cursor : MdirCursor) :
    synchListLoop d (journalsOf v ps) from' cursor =
      ⟨mdirCursorSeek cursor (lastLive (max from' v) cursor.lastListedSync
          ((records ps.flatten).drop (from' - v).toNat)),
        journalCalls cursor (max from' v) (((records ps.flatten).drop (from' - v).toNat).map recordEntry),
        .ok ()⟩ := by
  induction ps generalizing v from' cursor with
  | nil => simp [journalsOf, synchListLoop, records, lastLive, journalCalls, mdirCursorSeek]
  | cons p ps ih =>
      rcases hold [] p ps rfl with ⟨hj, hfits, hlt⟩
      have hv : (partJnl v p).version = (v : Int) := rfl
      have hnb : (partJnl v p).nbPatches = p.length := rfl
      have hrecords : records (p :: ps).flatten = records p ++ records ps.flatten := by
        simp [records]
      have hrest := ih (v := v + p.length)
        (fun ps₁ q ps₂ heq => by
          have hq := hold (p :: ps₁) q ps₂ (by rw [heq]; rfl)
          rw [add_length_cons] at hq
          exact hq)
        (fun r hr => hlist r (by rw [hrecords]; exact List.mem_append_right _ hr))
      simp only [List.flatten_nil, List.length_nil, Nat.add_zero] at hj
      rw [journalsOf, synchListLoop, hv, hnb, hrecords]
      by_cases hskip : (v : Int) + p.length ≤ from'
      · -- the whole journal was listed before
        have hmax : max from' ((v + p.length : Nat) : Int) = max from' v := by push_cast; omega
        have hdrop : (records p ++ records ps.flatten).drop (from' - v).toNat =
            (records ps.flatten).drop (from' - ((v + p.length : Nat) : Int)).toNat := by
          have hsub : (from' - v).toNat - p.length = (from' - ((v + p.length : Nat) : Int)).toNat := by
            push_cast
            omega
          rw [List.drop_append, List.drop_eq_nil_iff.2 (by rw [records_length]; omega), List.nil_append,
            records_length, hsub]
        rw [if_pos hskip, hrest, hmax, hdrop]
      · -- the journal is listed from `index` on, the next ones as a whole
        rw [if_neg hskip]
        have hfrom : (if from' < (v : Int) then (v : Int) else from') = max from' v := by
          split_ifs <;> omega
        have hindex : (max from' (v : Int) - v).toNat = (from' - v).toNat := by omega
        have hle : (from' - v).toNat ≤ p.length := by omega
        have hstart : (v : Int) + ((from' - v).toNat : Nat) = max from' v := by omega
        have hnext : max (max from' (v : Int)) ((v + p.length : Nat) : Int) = ((v + p.length : Nat) : Int) := by
          push_cast
          omega
        have hzero : (max from' (v : Int) - ((v + p.length : Nat) : Int)).toNat = 0 := by
          push_cast
          omega
        have hend : max from' (v : Int) + ((records p).drop (from' - v).toNat).length =
            ((v + p.length : Nat) : Int) := by
          rw [List.length_drop, records_length]
          push_cast
          omega
        have hjnl := synchListJnl_spec hj hfits hlt hle
          (fun r hr => hlist r (by rw [hrecords]; exact List.mem_append_left _ hr)) cursor
        rw [hv, hstart] at hjnl
        simp only [hfrom, hindex, hjnl, hrest, hnext, hzero, List.drop_zero, ListResult.after]
        have hend' : max from' (v : Int) + (((records p).drop (from' - v).toNat).map recordEntry).length =
            ((v + p.length : Nat) : Int) := by rw [List.length_map, hend]
        rw [List.drop_append_of_le_length (by rw [records_length]; exact hle), lastLive_append,
          List.map_append, journalCalls_append, hend, hend', journalCalls_seek]
        rfl

/-- `synch_list` on the slots of a mdir. -/
theorem Refines.synchList_calls {maxJnlSize : Nat} (hmax : maxJnlSize < 2 ^ 32) {m : Mdir} {A : List Slot}
    (h : Refines maxJnlSize m A) (hlist : ∀ r ∈ records A, Readable r) (cursor : MdirCursor)
    {n : Nat} (hn : cursor.lastListedSync = n) :
    synchList m cursor =
      ⟨mdirCursorSeek cursor (lastLive (n + 1) n ((records A).drop n)),
        journalCalls cursor (n + 1) (((records A).drop n).map recordEntry), .ok ()⟩ := by
  rcases h with ⟨ps, hrep, rfl⟩
  have hmaxv : max ((n : Int) + 1) ((1 : Nat) : Int) = n + 1 := by omega
  have hdrop : ((n : Int) + 1 - ((1 : Nat) : Int)).toNat = n := by omega
  rw [Scambio.synchList, hrep.jnls, hn, synchListLoop_spec ?_ hlist, hmaxv, hdrop, hn]
  intro ps₁ p ps₂ heq
  subst heq
  have hp : p ∈ ps₁ ++ p :: ps₂ := by simp
  exact ⟨hrep.disk.holds, hrep.fits.part hp, hrep.part_lt hmax hp⟩

/-- The same when no record has a sc-localid. -/
theorem Refines.synchList {maxJnlSize : Nat} (hmax : maxJnlSize < 2 ^ 32) {m : Mdir} {A : List Slot}
    (h : Refines maxJnlSize m A) (hlist : ∀ r ∈ records A, Listable r) (cursor : MdirCursor)
    {n : Nat} (hn : cursor.lastListedSync = n) :
    synchList m cursor =
      ⟨mdirCursorSeek cursor (lastLive (n + 1) n ((records A).drop n)),
        (reports (n + 1) ((records A).drop n)).map Prod.snd, .ok ()⟩ := by
  have hdrop : ∀ r ∈ (records A).drop n, Listable r := fun r hr => hlist r (List.mem_of_mem_drop hr)
  rw [h.synchList_calls hmax (fun r hr => (hlist r hr).readable) cursor hn,
    journalCalls_eq_reports hdrop]

end Spec

end Scambio
