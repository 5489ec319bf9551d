import Scambio.Lib.ListOnce
import Scambio.Lib.Transients
import Scambio.Sendmail.Acker

/-!
# Crawler — which mails are sent (`sendmail/crawler.c`)

The crawler lists to_send with a cursor that it keeps in memory, and submits a forward for each mail of the
journals.  A removal that was requested is a file of `.tmp`, that the listing does not look at: the mail stays in
the journals until the synchroniser brings the removal back.  A sender that is started again meanwhile
lists from the first version on, and sends the mail again.

In runs where the sender is started only once the removals came back, and where removals are requested only of
mails that were listed, no mail is sent after its removal was recorded (`neverAgain_of_run`).
-/

namespace Scambio

open Library

def SC_TO_FIELD : Bytes := ascii "sc-to"

/-! ## One listing -/

/-- The patches that `send_patch` does not skip. -/
def isToSend (h : Header) : Bool :=
  headerHasType h SC_MAIL_TYPE && (headerFind h SC_FROM_FIELD).isSome &&
    (headerFind h SC_DESCR_FIELD).isSome && (headerFind h SC_TO_FIELD).isSome

/-- What a call of `send_patch` comes to. -/
inductive SentPatch
  | skipped
  | submitted
  | failed
  deriving DecidableEq, Repr

/-- `send_patch`; `made` tells if `forward_new` succeeds. -/
def Crawler.sendPatch (made : Bool) (h : Header) (version : Int) : SentPatch :=
  -- a patch that is not synched is not sent
  if version < 0 then .skipped
  else if isToSend h then if made then .submitted else .failed
  else .skipped

/-- Which calls succeed, by the version that they are for: `jnl_read` and `forward_new`. -/
structure CrawlLuck where
  read : Int → Bool
  made : Int → Bool

/-- What a listing leaves: the cursor, the versions submitted, and whether there is no error. -/
structure Crawl where
  cursor : MdirCursor
  submitted : List Int
  ok : Bool

section Model

variable [Host]

/-- `synch_list` with `send_patch` and no `rem_cb`, on the patches from version `v` on. -/
def crawlJournals (luck : CrawlLuck) (v : Int) : List Slot → MdirCursor → Crawl
  | [], cursor => ⟨cursor, [], true⟩
  | s :: A, cursor =>
      if luck.read v then
        match readRecord s.record with
        | none => ⟨cursor, [], false⟩
        -- a deleted patch is passed over, and the cursor is not moved for it
        | some (_, none) => crawlJournals luck (v + 1) A cursor
        | some (.rem, some _) => crawlJournals luck (v + 1) A (mdirCursorSeek cursor v)
        | some (.add, some h) =>
            match Crawler.sendPatch (luck.made v) h v with
            | .skipped => crawlJournals luck (v + 1) A (mdirCursorSeek cursor v)
            | .submitted =>
                let r := crawlJournals luck (v + 1) A (mdirCursorSeek cursor v)
                { r with submitted := v :: r.submitted }
            -- the listing ends, with the cursor past the patch that failed
            | .failed => ⟨mdirCursorSeek cursor v, [], false⟩
      else ⟨cursor, [], false⟩

/-- The version of a call of `put_cb` for which a forward is submitted. -/
def submittedBy (made : Int → Bool) (c : Callback) : Option Int :=
  match c with
  | .put h version => if Crawler.sendPatch (made version) h version = .submitted then some version else none
  | _ => none

/-- `transient_list`: removals come to `send_patch` too, since there is no `rem_cb`. -/
def crawlTransients (luck : CrawlLuck) (path : Bytes) (tmp : Except Nat (List (Bytes × Option Bytes)))
    (cursor : MdirCursor) : Crawl :=
  match tmp with
  | .error errno => ⟨cursor, [], errno == ENOENT⟩
  | .ok files =>
      let r := transientListLoopWith true false path cursor.lastListedUnsync files cursor
      ⟨r.cursor, r.calls.filterMap (submittedBy luck.made), r.result.toOption.isSome⟩

/-- `mdir_patch_list` of the crawler. -/
def crawl (luck : CrawlLuck) (path : Bytes) (journal : List Slot)
    (tmp : Except Nat (List (Bytes × Option Bytes))) (cursor : MdirCursor) : Crawl :=
  let last := cursor.lastListedSync.toNat
  let r := crawlJournals luck (last + 1) (journal.drop last) cursor
  if r.ok then
    let t := crawlTransients luck path tmp r.cursor
    { t with submitted := r.submitted ++ t.submitted }
  else r

end Model

/-! ## What a listing submits -/

section Listed

variable [Host] {luck : CrawlLuck} {A : List Slot} {v x : Int} {cursor : MdirCursor}

/-- The patch of a version of the journals is a mail to send. -/
def ToSend (A : List Slot) (v : Int) : Prop :=
  1 ≤ v ∧ ∃ r h, (records A)[(v - 1).toNat]? = some r ∧ readRecord r = some (.add, some h) ∧ isToSend h = true

omit [Host] in
theorem crawler_sendPatch_submitted {made : Bool} {h : Header} (hsent : Crawler.sendPatch made h v = .submitted) :
    0 ≤ v ∧ isToSend h = true := by
  unfold Crawler.sendPatch at hsent
  split at hsent
  · cases hsent
  · next hneg =>
      split at hsent
      · next hto => exact ⟨not_lt.1 hneg, hto⟩
      · cases hsent

/-- What is submitted from the journals is a mail to send that the listing comes to. -/
theorem mem_crawlJournals (h : x ∈ (crawlJournals luck v A cursor).submitted) :
    ∃ (i : Nat) (r : Bytes) (h : Header), (records A)[i]? = some r ∧ x = v + i ∧
      readRecord r = some (.add, some h) ∧ isToSend h = true := by
  induction A generalizing v cursor with
  | nil => cases h
  | cons s A ih =>
      have hrest : ∀ cursor, x ∈ (crawlJournals luck (v + 1) A cursor).submitted →
          ∃ (i : Nat) (r : Bytes) (h : Header), (records (s :: A))[i]? = some r ∧ x = v + i ∧
            readRecord r = some (.add, some h) ∧ isToSend h = true := by
        intro cursor hx
        rcases ih hx with ⟨i, r, h, hr, hv, hread, hto⟩
        exact ⟨i + 1, r, h, hr, by push_cast; omega, hread, hto⟩
      rw [crawlJournals] at h
      split at h
      · split at h
        · cases h
        · exact hrest _ h
        · exact hrest _ h
        · next hd hread =>
            split at h
            · exact hrest _ h
            · next hsent =>
                rcases List.mem_cons.1 h with rfl | h
                · exact ⟨0, s.record, hd, rfl, by simp, hread, (crawler_sendPatch_submitted hsent).2⟩
                · exact hrest _ h
            · cases h
      · cases h

/-- A listing of the journals moves the cursor forward only. -/
theorem crawlJournals_cursor (luck : CrawlLuck) (A : List Slot) (cursor : MdirCursor) (h : cursor.lastListedSync < v) :
    cursor.lastListedSync ≤ (crawlJournals luck v A cursor).cursor.lastListedSync ∧
      (crawlJournals luck v A cursor).cursor.lastListedUnsync = cursor.lastListedUnsync := by
  induction A generalizing v cursor with
  | nil => exact ⟨le_rfl, rfl⟩
  | cons s A ih =>
      have hskip := ih (v := v + 1) cursor (by omega)
      have hseek := ih (v := v + 1) (mdirCursorSeek cursor v) (by simp [mdirCursorSeek])
      have hlisted : cursor.lastListedSync ≤
            (crawlJournals luck (v + 1) A (mdirCursorSeek cursor v)).cursor.lastListedSync ∧
          (crawlJournals luck (v + 1) A (mdirCursorSeek cursor v)).cursor.lastListedUnsync =
            cursor.lastListedUnsync :=
        ⟨h.le.trans hseek.1, hseek.2⟩
      rw [crawlJournals]
      split
      · split
        · exact ⟨le_rfl, rfl⟩
        · exact hskip
        · exact hlisted
        · split
          · exact hlisted
          · exact hlisted
          · exact ⟨h.le, rfl⟩
      · exact ⟨le_rfl, rfl⟩

/-- When every patch can be read and every forward made, all mails to send are submitted. -/
theorem crawlJournals_complete (hread : ∀ r ∈ records A, Readable r) (hv : 0 ≤ v) (cursor : MdirCursor) {i : Nat}
    {r : Bytes} {h : Header} (hr : (records A)[i]? = some r) (hadd : readRecord r = some (.add, some h))
    (hto : isToSend h = true) :
    v + i ∈ (crawlJournals ⟨fun _ => true, fun _ => true⟩ v A cursor).submitted := by
  induction A generalizing v cursor i with
  | nil => cases hr
  | cons t A ih =>
      have hrest : ∀ cursor (j : Nat), i = j + 1 →
          v + i ∈ (crawlJournals ⟨fun _ => true, fun _ => true⟩ (v + 1) A cursor).submitted := by
        intro cursor j hi
        subst hi
        have hmem := ih (fun r hr => hread r (List.mem_cons_of_mem _ hr)) (v := v + 1) (by omega) cursor hr
        have hcast : v + ((j + 1 : Nat) : Int) = v + 1 + j := by push_cast; omega
        rwa [hcast]
      have hsome : readRecord t.record ≠ none := by
        rcases hread t.record List.mem_cons_self with hdel | ⟨action, hd, hr⟩
        · rw [readRecord_of_isDeleted hdel]
          simp
        · rw [hr]
          simp
      rw [crawlJournals, if_pos rfl]
      cases i with
      | zero =>
          cases hr
          have hsent : Crawler.sendPatch true h v = .submitted := by
            rw [Crawler.sendPatch, if_neg (not_lt.2 hv), if_pos hto, if_pos rfl]
          simp only [hadd, hsent]
          simp
      | succ j =>
          split
          · next hnone => exact absurd hnone hsome
          · exact hrest _ j rfl
          · exact hrest _ j rfl
          · split
            · exact hrest _ j rfl
            · exact List.mem_cons_of_mem _ (hrest _ j rfl)
            · next hd _ hsent =>
                rw [Crawler.sendPatch, if_neg (not_lt.2 hv)] at hsent
                split at hsent <;> cases hsent

/-- The patches of `.tmp` come to `send_patch` with negative versions. -/
theorem transientListLoopWith_spec (path : Bytes) {start : Int} (hstart : 0 ≤ start)
    (files : List (Bytes × Option Bytes)) (cursor : MdirCursor) :
    (∀ c ∈ (transientListLoopWith true false path start files cursor).calls, ∃ h w, c = .put h w ∧ w < 0) ∧
      (transientListLoopWith true false path start files cursor).cursor.lastListedSync = cursor.lastListedSync ∧
      cursor.lastListedUnsync ≤
        (transientListLoopWith true false path start files cursor).cursor.lastListedUnsync := by
  induction files generalizing cursor with
  | nil => exact ⟨by simp [transientListLoopWith], rfl, le_rfl⟩
  | cons file files ih =>
      rcases file with ⟨name, file⟩
      rw [transientListLoopWith]
      split
      · exact ih cursor
      · next action _ =>
          split
          · exact ih cursor
          · next version _ =>
              split
              · exact ih cursor
              · next hnew =>
                  simp only
                  obtain ⟨cursor', hcursor⟩ : ∃ c, c = if version > cursor.lastListedUnsync then
                      { cursor with lastListedUnsync := version } else cursor := ⟨_, rfl⟩
                  rw [← hcursor]
                  have hle : cursor'.lastListedSync = cursor.lastListedSync ∧
                      cursor.lastListedUnsync ≤ cursor'.lastListedUnsync := by
                    rw [hcursor]
                    split
                    · next hgt => exact ⟨rfl, hgt.le⟩
                    · exact ⟨rfl, le_rfl⟩
                  split
                  · exact ⟨by simp, hle⟩
                  · next h _ =>
                      rcases ih cursor' with ⟨hcalls, hsync, hunsync⟩
                      refine ⟨?_, hsync.trans hle.1, hle.2.trans hunsync⟩
                      intro c hc
                      rcases List.mem_append.1 hc with hc | hc
                      · have hput : c = .put h (-version) := by simpa [transientCalls] using hc
                        exact ⟨h, -version, hput, by omega⟩
                      · exact hcalls c hc

/-- Nothing is submitted from `.tmp`. -/
theorem crawlTransients_spec (luck : CrawlLuck) (path : Bytes) (hcursor : 0 ≤ cursor.lastListedUnsync)
    (tmp : Except Nat (List (Bytes × Option Bytes))) :
    (crawlTransients luck path tmp cursor).submitted = [] ∧
      (crawlTransients luck path tmp cursor).cursor.lastListedSync = cursor.lastListedSync ∧
      cursor.lastListedUnsync ≤ (crawlTransients luck path tmp cursor).cursor.lastListedUnsync := by
  cases tmp with
  | error errno => exact ⟨rfl, rfl, le_rfl⟩
  | ok files =>
      rcases transientListLoopWith_spec path hcursor files cursor with ⟨hcalls, hsync, hunsync⟩
      refine ⟨?_, hsync, hunsync⟩
      rw [crawlTransients, List.filterMap_eq_nil_iff]
      intro c hc
      rcases hcalls c hc with ⟨h, w, rfl, hneg⟩
      simp [submittedBy, Crawler.sendPatch, hneg]

/-- What a listing submits is a mail to send after the last version listed, and the cursor moves forward. -/
theorem crawl_spec (luck : CrawlLuck) (path : Bytes) (A : List Slot) (hcursor : 0 ≤ cursor.lastListedUnsync)
    (tmp : Except Nat (List (Bytes × Option Bytes))) :
    (∀ x ∈ (crawl luck path A tmp cursor).submitted, cursor.lastListedSync < x ∧ ToSend A x) ∧
      cursor.lastListedSync ≤ (crawl luck path A tmp cursor).cursor.lastListedSync ∧
      cursor.lastListedUnsync ≤ (crawl luck path A tmp cursor).cursor.lastListedUnsync := by
  obtain ⟨last, hlast⟩ : ∃ last, last = cursor.lastListedSync.toNat := ⟨_, rfl⟩
  obtain ⟨r, hr⟩ : ∃ r, r = crawlJournals luck (last + 1) (A.drop last) cursor := ⟨_, rfl⟩
  have hjournals : ∀ x ∈ r.submitted, cursor.lastListedSync < x ∧ ToSend A x := by
    intro x hx
    rw [hr] at hx
    rcases mem_crawlJournals hx with ⟨i, s, h, hs, rfl, hread, hto⟩
    rw [records, List.map_drop, List.getElem?_drop] at hs
    have hindex : ((last : Int) + 1 + i - 1).toNat = last + i := by omega
    exact ⟨by omega, by omega, s, h, by rw [hindex, records, hs], hread, hto⟩
  have hmoves := crawlJournals_cursor luck (A.drop last) (v := last + 1) cursor (by omega)
  rw [← hr] at hmoves
  simp only [crawl, ← hlast, ← hr]
  split
  · have hunsync : 0 ≤ r.cursor.lastListedUnsync := by
      rw [hmoves.2]
      exact hcursor
    rcases crawlTransients_spec luck path hunsync tmp with ⟨hnone, hsync, hunsync⟩
    refine ⟨?_, ?_, ?_⟩
    · simpa only [hnone, List.append_nil] using hjournals
    · exact hmoves.1.trans hsync.ge
    · rw [← hmoves.2]
      exact hunsync
  · exact ⟨hjournals, hmoves.1, hmoves.2.ge⟩

/-- Where nothing fails, this is `synch_list` without `rem_cb`, each call being followed by `send_patch`. -/
theorem crawlJournals_eq (hread : ∀ r ∈ records A, Readable r) (v last : Int) (cursor : MdirCursor) :
    crawlJournals ⟨fun _ => true, fun _ => true⟩ v A (mdirCursorSeek cursor last) =
      ⟨mdirCursorSeek cursor (lastLive v last (records A)),
        ((journalCalls cursor v ((records A).map recordEntry)).filter (Callback.given true false)).filterMap
          (submittedBy fun _ => true), true⟩ := by
  induction A generalizing v last with
  | nil => rfl
  | cons s A ih =>
      have hrest := ih fun r hr => hread r (List.mem_cons_of_mem _ hr)
      have hcons : records (s :: A) = s.record :: records A := rfl
      rw [crawlJournals, if_pos rfl, hcons, List.map_cons]
      rcases hread s.record List.mem_cons_self with hdel | ⟨action, h, hr⟩
      · simp only [readRecord_of_isDeleted hdel, hrest, lastLive, if_pos hdel, recordEntry_deleted hdel,
          journalCalls]
      · have hentry : recordEntry s.record = some (action, h) := by rw [recordEntry, hr]
        have hkeep : ¬ IsDeleted s.record := by
          intro hdel
          rw [readRecord_of_isDeleted hdel] at hr
          cases hr
        have hseek : mdirCursorSeek (mdirCursorSeek cursor last) v = mdirCursorSeek cursor v := rfl
        simp only [hr, hseek, hrest, lastLive, if_neg hkeep, hentry, journalCalls, List.filter_append,
          List.filterMap_append]
        cases action with
        | rem =>
            -- without `rem_cb` a removal gives no call
            have hnone : (listEntry cursor v .rem h).filter (Callback.given true false) = [] := by
              simp only [listEntry]
              cases headerTarget h <;> rfl
            simp only [hnone, List.filterMap_nil, List.nil_append]
        | add =>
            have hput : (listEntry cursor v .add h).filter (Callback.given true false) = [.put h v] := by
              simp only [listEntry]
              split
              · rfl
              · split
                · rfl
                · split <;> rfl
            simp only [hput, List.filterMap_cons, List.filterMap_nil, submittedBy]
            cases hsent : Crawler.sendPatch true h v with
            | skipped => rfl
            | submitted => rfl
            | failed =>
                unfold Crawler.sendPatch at hsent
                split at hsent
                · cases hsent
                · split at hsent <;> cases hsent

/-- The listing of the journals of a mdir, where nothing fails. -/
theorem Refines.crawlJournals {maxJnlSize : Nat} (hmax : maxJnlSize < 2 ^ 32) {m : Mdir}
    (h : Refines maxJnlSize m A) (hread : ∀ r ∈ records A, Readable r) {n : Nat}
    (hn : cursor.lastListedSync = n) :
    Scambio.crawlJournals ⟨fun _ => true, fun _ => true⟩ (n + 1) (A.drop n) cursor =
      ⟨(synchListWith true false m cursor).cursor,
        (synchListWith true false m cursor).calls.filterMap (submittedBy fun _ => true), true⟩ := by
  have hdrop : records (A.drop n) = (records A).drop n := List.map_drop
  have hself : mdirCursorSeek cursor n = cursor := by rw [← hn, mdirCursorSeek]
  have heq := crawlJournals_eq (A := A.drop n)
    (fun r hr => hread r (List.mem_of_mem_drop (hdrop ▸ hr))) (n + 1) n cursor
  rw [hself, hdrop] at heq
  rw [heq, synchListWith, h.synchList_calls hmax hread cursor hn]

end Listed

/-! ## The folder and the sender -/

/-- The journals and the `.tmp` of to_send, the cursor of the crawler while it runs, the versions whose removal
was requested, and those whose removal is in the journals. -/
structure SenderState where
  journal : List Slot
  tmp : List TmpFile
  crawler : Option MdirCursor
  requested : List Int
  removed : List Int

/-- What happens to them: the synchroniser patches the journals, and takes a file of `.tmp` away once the server has
answered; a process requests a patch, with the next transient version, and its file may fail to
come; the sender is started or stopped; the crawler lists. -/
inductive SenderEvent
  | patch (sys : Sys) (action : Action) (header : Header) (nbDeleted : Nat)
  | request (sys : Sys) (action : Action) (header : Header) (count : Nat) (opened : Bool)
  | answered (name : Bytes)
  | start
  | stop
  | list (luck : CrawlLuck) (tmp : Except Nat (List (Bytes × Option Bytes)))

namespace SenderState

/-- A sender that was never started, and nothing to send. -/
def new : SenderState :=
  { journal := [], tmp := [], crawler := none, requested := [], removed := [] }

/-- The removal of this version is recorded. -/
def Recorded (s : SenderState) (v : Int) : Prop :=
  v ∈ s.requested ∨ v ∈ s.removed

variable [Host] (path : Bytes)

/-- The checks of `mdir_patch_request`. -/
def requestAccepted (s : SenderState) (sys : Sys) (action : Action) (header : Header) : Bool :=
  if headerIsDirectory header && ((headerFind header SC_DIRID_FIELD).any fun hf => hf.value.head? == some 95) then
    false
  else
    match action with
    | .rem =>
        match storeRemoval sys path s.journal header with
        | .refused => false
        | .already | .tag _ => true
    | .add =>
        if headerIsDirectory header then (mdirLink sys path header true).2.toOption.isSome else true

/-- The file that `mdir_patch_request` creates, with `O_EXCL`. -/
def requestFile (action : Action) (header : Header) (count : Nat) : TmpFile :=
  Drawn.file { action := action, header := header, count := count }

def requestMade (s : SenderState) (sys : Sys) (action : Action) (header : Header) (count : Nat)
    (opened : Bool) : Bool :=
  s.requestAccepted path sys action header && opened &&
    !(s.tmp.any fun f => f.entry.1 == (requestFile action header count).entry.1)

/-- The version that a removal is about. -/
def removalOf (action : Action) (header : Header) : List Int :=
  match action with
  | .add => []
  | .rem => (headerTarget header).toOption.toList

def step (s : SenderState) (e : SenderEvent) : SenderState :=
  match e with
  | .patch sys action header nbDeleted =>
      let r := storePatch sys path s.journal action header nbDeleted
      { s with
        journal := r.1
        removed := if r.2.isSome then removalOf action header ++ s.removed else s.removed }
  | .request sys action header count opened =>
      if s.requestMade path sys action header count opened then
        { s with
          tmp := s.tmp ++ [requestFile action header count]
          requested := removalOf action header ++ s.requested }
      else s
  | .answered name => { s with tmp := s.tmp.filter fun f => f.entry.1 ≠ name }
  | .start => { s with crawler := some MdirCursor.new }
  | .stop => { s with crawler := none }
  | .list luck tmp =>
      match s.crawler with
      | none => s
      | some cursor =>
          let r := crawl luck path s.journal tmp cursor
          -- an error ends the thread
          { s with crawler := if r.ok then some r.cursor else none }

/-- `readdir` gives the files of `.tmp` in any order, among others. -/
def Possible (s : SenderState) (e : SenderEvent) : Prop :=
  match e with
  | .list _ (.ok order) => ∃ files : List TmpFile, files.Perm s.tmp ∧
      order.filter (fun f => (actionOfName f.1).isSome) = files.map TmpFile.entry
  | _ => True

/-- No listing submits a forward for a version whose removal is recorded. -/
def NeverAgain (s : SenderState) : Prop :=
  ∀ cursor, s.crawler = some cursor → ∀ luck tmp, s.Possible (.list luck tmp) →
    ∀ v ∈ (crawl luck path s.journal tmp cursor).submitted, ¬ s.Recorded v

/-- The sender is started once the removals requested are in the journals, and a removal is requested for a mail
that this sender has listed, if it is one to send. -/
def Settled (s : SenderState) (e : SenderEvent) : Prop :=
  match e with
  | .start => ∀ v ∈ s.requested, ¬ ToSend s.journal v
  | .request sys action header count opened =>
      s.requestMade path sys action header count opened = true →
        ∀ v ∈ removalOf action header, ∀ cursor, s.crawler = some cursor →
          v ≤ cursor.lastListedSync ∨ ¬ ToSend s.journal v
  | _ => True

end SenderState

/-- The runs whose steps all meet a condition. -/
inductive SenderRun [Host] (path : Bytes) (ok : SenderState → SenderEvent → Prop) : SenderState → Prop
  | new : SenderRun path ok SenderState.new
  | step {s : SenderState} (e : SenderEvent) : SenderRun path ok s → s.Possible e → ok s e →
      SenderRun path ok (s.step path e)

/-! ## Runs -/

section Spec

variable [Host] {path : Bytes} {s : SenderState}

/-- What is known of the removals recorded: their versions exist, and the crawler is past those that are still
mails to send. -/
structure SenderState.Inv (s : SenderState) : Prop where
  exist : ∀ v, s.Recorded v → v ≤ s.journal.length
  deleted : ∀ v ∈ s.removed, ¬ ToSend s.journal v
  past : ∀ cursor, s.crawler = some cursor →
    0 ≤ cursor.lastListedUnsync ∧ ∀ v, s.Recorded v → v ≤ cursor.lastListedSync ∨ ¬ ToSend s.journal v

/-- A patch makes no mail of a version that was there. -/
theorem toSend_of_patch {sys : Sys} {A : List Slot} {action : Action} {header : Header} {nb : Nat} {v : Int}
    (hle : v ≤ A.length) (h : ToSend (storePatch sys path A action header nb).1 v) : ToSend A v := by
  rcases h with ⟨hpos, r, hd, hr, hread, hto⟩
  have hlt : (v - 1).toNat < (records A).length := by
    rw [records, List.length_map]
    omega
  refine ⟨hpos, r, hd, ?_, hread, hto⟩
  rcases storePatch_records sys path A action header nb with ⟨hrec, -⟩ | ⟨T, hprep, hrec, -⟩
  · rwa [hrec, List.getElem?_append_left hlt] at hr
  · have hlt' : (v - 1).toNat < (records A ++ List.replicate nb blankRecord).length := by
      rw [List.length_append]
      omega
    rw [hrec, List.getElem?_append_left (by rw [hprep.length]; exact hlt')] at hr
    rcases hprep.keep_or_deleted (List.getElem?_eq_getElem hlt') with ⟨r', hr', hkind⟩
    rw [hr] at hr'
    cases hr'
    rcases hkind with hsame | hdel
    · rw [hsame, List.getElem_append_left hlt]
      exact List.getElem?_eq_getElem hlt
    · rw [readRecord_of_isDeleted hdel] at hread
      cases hread

/-- The removal that a patch brings is done. -/
theorem removed_of_patch {sys : Sys} {A : List Slot} {action : Action} {header : Header} {nb : Nat} {v : Int}
    (hdone : (storePatch sys path A action header nb).2.isSome = true) (h : v ∈ SenderState.removalOf action header) :
    v ≤ (storePatch sys path A action header nb).1.length ∧
      ¬ ToSend (storePatch sys path A action header nb).1 v := by
  cases action with
  | add => cases h
  | rem =>
      have hv : headerTarget header = .ok v := eq_ok_of_toOption (Option.mem_toList.1 h)
      rcases storePatch_records sys path A .rem header nb with ⟨-, hnone, -⟩ | ⟨T, hprep, hrec, -⟩
      · rw [hnone] at hdone
        cases hdone
      · rcases hprep.target rfl with ⟨n, r, ht, hr, hdel⟩
        rw [hv, Except.ok.injEq] at ht
        have hlt := (List.getElem?_eq_some_iff.1 hr).1
        have hlen := congrArg List.length hrec
        rw [records, List.length_map, List.length_append, List.length_singleton] at hlen
        refine ⟨by omega, ?_⟩
        rintro ⟨-, r', hd, hr', hread, -⟩
        have hindex : (v - 1).toNat = n := by omega
        rw [hindex, hrec, List.getElem?_append_left hlt, hr] at hr'
        cases hr'
        rw [readRecord_of_isDeleted hdel] at hread
        cases hread

theorem length_storePatch_ge (sys : Sys) (A : List Slot) (action : Action) (header : Header) (nb : Nat) :
    A.length ≤ (storePatch sys path A action header nb).1.length := by
  have hlen : ∀ B : List Slot, B.length = (records B).length := fun B => by rw [records, List.length_map]
  rw [hlen, hlen]
  rcases storePatch_records sys path A action header nb with ⟨hrec, -⟩ | ⟨T, hprep, hrec, -⟩
  · rw [hrec, List.length_append]
    omega
  · rw [hrec, List.length_append, hprep.length, List.length_append]
    omega

/-- A removal is requested of a version that exists. -/
theorem exists_of_request {sys : Sys} {action : Action} {header : Header} {count : Nat} {opened : Bool} {v : Int}
    (hmade : s.requestMade path sys action header count opened = true)
    (h : v ∈ SenderState.removalOf action header) : v ≤ s.journal.length := by
  cases action with
  | add => cases h
  | rem =>
      have hv : headerTarget header = .ok v := eq_ok_of_toOption (Option.mem_toList.1 h)
      have haccepted : s.requestAccepted path sys .rem header = true := by
        rw [SenderState.requestMade, Bool.and_eq_true, Bool.and_eq_true] at hmade
        exact hmade.1.1
      rw [SenderState.requestAccepted] at haccepted
      split at haccepted
      · cases haccepted
      · cases hrem : storeRemoval sys path s.journal header with
        | refused =>
            simp only [hrem] at haccepted
            cases haccepted
        | already =>
            rcases storeRemoval_already sys hrem with ⟨n, ht, t, -, ht', -⟩
            have hlt := (List.getElem?_eq_some_iff.1 ht').1
            rw [hv, Except.ok.injEq] at ht
            omega
        | tag n =>
            rcases storeRemoval_tag sys hrem with ⟨ht, t, -, ht', -⟩
            have hlt := (List.getElem?_eq_some_iff.1 ht').1
            rw [hv, Except.ok.injEq] at ht
            omega

theorem SenderState.Inv.patch (h : s.Inv) (sys : Sys) (action : Action) (header : Header) (nb : Nat) :
    (s.step path (.patch sys action header nb)).Inv := by
  obtain ⟨A, hA⟩ : ∃ A, A = (storePatch sys path s.journal action header nb).1 := ⟨_, rfl⟩
  have hlen : s.journal.length ≤ A.length := hA ▸ length_storePatch_ge sys s.journal action header nb
  have hkeep : ∀ v, s.Recorded v → ¬ ToSend s.journal v → ¬ ToSend A v := by
    intro v hrec hnot hto
    exact hnot (toSend_of_patch (h.exist v hrec) (hA ▸ hto))
  have hremoved : ∀ v ∈ (s.step path (.patch sys action header nb)).removed,
      v ≤ A.length ∧ ¬ ToSend A v := by
    intro v hv
    have hold : v ∈ s.removed → v ≤ A.length ∧ ¬ ToSend A v := fun hv =>
      ⟨(h.exist v (.inr hv)).trans (by exact_mod_cast hlen), hkeep v (.inr hv) (h.deleted v hv)⟩
    simp only [SenderState.step] at hv
    split at hv
    · next hdone =>
        rcases List.mem_append.1 hv with hv | hv
        · rw [hA]
          exact removed_of_patch hdone hv
        · exact hold hv
    · exact hold hv
  have hjournal : (s.step path (.patch sys action header nb)).journal = A := hA.symm
  refine ⟨?_, ?_, ?_⟩
  · rintro v (hv | hv)
    · rw [hjournal]
      exact (h.exist v (.inl hv)).trans (by exact_mod_cast hlen)
    · rw [hjournal]
      exact (hremoved v hv).1
  · intro v hv
    rw [hjournal]
    exact (hremoved v hv).2
  · intro cursor hcursor
    rcases h.past cursor hcursor with ⟨hunsync, hpast⟩
    refine ⟨hunsync, ?_⟩
    rw [hjournal]
    rintro v (hv | hv)
    · exact (hpast v (.inl hv)).imp_right (hkeep v (.inl hv))
    · exact .inr (hremoved v hv).2

theorem SenderState.Inv.request (h : s.Inv) {sys : Sys} {action : Action} {header : Header} {count : Nat}
    {opened : Bool} (hsettled : s.Settled path (.request sys action header count opened)) :
    (s.step path (.request sys action header count opened)).Inv := by
  rw [SenderState.step]
  split
  · next hmade =>
      have hnew := hsettled hmade
      refine ⟨?_, h.deleted, ?_⟩
      · rintro v (hv | hv)
        · rcases List.mem_append.1 hv with hv | hv
          · exact exists_of_request (s := s) hmade hv
          · exact h.exist v (.inl hv)
        · exact h.exist v (.inr hv)
      · intro cursor hcursor
        rcases h.past cursor hcursor with ⟨hunsync, hpast⟩
        refine ⟨hunsync, ?_⟩
        rintro v (hv | hv)
        · rcases List.mem_append.1 hv with hv | hv
          · exact hnew v hv cursor hcursor
          · exact hpast v (.inl hv)
        · exact hpast v (.inr hv)
  · exact h

theorem SenderState.Inv.start (h : s.Inv) (hsettled : s.Settled path .start) : (s.step path .start).Inv := by
  refine ⟨h.exist, h.deleted, ?_⟩
  intro cursor hcursor
  cases hcursor
  refine ⟨le_rfl, ?_⟩
  rintro v (hreq | hrem)
  · exact .inr (hsettled v hreq)
  · exact .inr (h.deleted v hrem)

theorem SenderState.Inv.list (h : s.Inv) (luck : CrawlLuck) (tmp : Except Nat (List (Bytes × Option Bytes))) :
    (s.step path (.list luck tmp)).Inv := by
  cases hcrawler : s.crawler with
  | none =>
      simp only [SenderState.step, hcrawler]
      exact h
  | some cursor =>
      rcases h.past cursor hcrawler with ⟨hunsync, hpast⟩
      rcases crawl_spec luck path s.journal hunsync tmp with
        ⟨-, hsync, hunsync'⟩
      simp only [SenderState.step, hcrawler]
      refine ⟨h.exist, h.deleted, ?_⟩
      intro cursor' hcursor'
      split at hcursor'
      · cases hcursor'
        exact ⟨hunsync.trans hunsync', fun v hrec => (hpast v hrec).imp_left fun hle => hle.trans hsync⟩
      · cases hcursor'

/-- **The step lemma**: what is known of the removals stays so, when the step meets the condition. -/
theorem SenderState.Inv.step (h : s.Inv) (e : SenderEvent) (hsettled : s.Settled path e) :
    (s.step path e).Inv := by
  cases e with
  | patch sys action header nb => exact h.patch sys action header nb
  | request sys action header count opened => exact h.request hsettled
  | answered name => exact ⟨h.exist, h.deleted, h.past⟩
  | start => exact h.start hsettled
  | stop => exact ⟨h.exist, h.deleted, fun cursor hcursor => nomatch hcursor⟩
  | list luck tmp => exact h.list luck tmp

theorem SenderState.Inv.neverAgain (h : s.Inv) : s.NeverAgain path := by
  intro cursor hcursor luck tmp _ v hv hrec
  rcases h.past cursor hcursor with ⟨hunsync, hpast⟩
  rcases (crawl_spec luck path s.journal hunsync tmp).1 v hv with ⟨hlast, hto⟩
  rcases hpast v hrec with hle | hnot
  · omega
  · exact hnot hto

theorem SenderRun.inv (run : SenderRun path (SenderState.Settled path) s) : s.Inv := by
  induction run with
  | new =>
      refine ⟨?_, ?_, fun cursor hcursor => nomatch hcursor⟩
      · rintro v (hv | hv) <;> cases hv
      · intro v hv
        cases hv
  | step e _ _ hsettled ih => exact ih.step e hsettled

/-- **No mail is sent again**: in a run where the sender is started when the removals requested are in the journals,
and where removals are requested only of mails that it has listed, no listing submits a forward for a version
whose removal is recorded. -/
theorem neverAgain_of_run (run : SenderRun path (SenderState.Settled path) s) : s.NeverAgain path :=
  run.inv.neverAgain

/-- The condition is no stricter than it has to be: where it is not met, a listing in which nothing fails sends
again. -/
theorem settled_of_neverAgain (hread : ∀ r ∈ records s.journal, Readable r) {e : SenderEvent}
    (h : (s.step path e).NeverAgain path) : s.Settled path e := by
  have hsubmitted : ∀ v, ToSend s.journal v → ∀ cursor : MdirCursor, cursor.lastListedSync < v →
      v ∈ (crawl ⟨fun _ => true, fun _ => true⟩ path s.journal (.error ENOENT) cursor).submitted := by
    rintro v ⟨hpos, r, hd, hr, hadd, hto⟩ cursor hlast
    obtain ⟨last, hnat⟩ : ∃ last, last = cursor.lastListedSync.toNat := ⟨_, rfl⟩
    have hindex : last + ((v - 1).toNat - last) = (v - 1).toNat := by omega
    have hversion : (last : Int) + 1 + (((v - 1).toNat - last : Nat) : Int) = v := by omega
    have hdrop : records (s.journal.drop last) = (records s.journal).drop last := List.map_drop
    have hget : (records (s.journal.drop last))[(v - 1).toNat - last]? = some r := by
      rw [hdrop, List.getElem?_drop, hindex, hr]
    have hmem := crawlJournals_complete (v := last + 1)
      (fun r hr => hread r (List.mem_of_mem_drop (hdrop ▸ hr))) (by omega) cursor hget hadd hto
    rw [hversion] at hmem
    simp only [crawl, ← hnat]
    split
    · exact List.mem_append_left _ hmem
    · exact hmem
  cases e with
  | start =>
      intro v hv hto
      exact h MdirCursor.new rfl _ (.error ENOENT) trivial v (hsubmitted v hto MdirCursor.new hto.1) (.inl hv)
  | request sys action header count opened =>
      intro hmade v hv cursor hcursor
      rw [or_iff_not_imp_left, not_le]
      intro hlast hto
      rw [SenderState.step, if_pos hmade] at h
      exact h cursor hcursor _ (.error ENOENT) trivial v (hsubmitted v hto cursor hlast)
        (.inl (List.mem_append_left _ hv))
  | patch sys action header nb => trivial
  | answered name => trivial
  | stop => trivial
  | list luck tmp => trivial

end Spec

/-- `mdir_del_request` requests the removal of its version. -/
theorem removalOf_delRequest {v : Int} (hpos : 0 < v) (hlt : v < 2 ^ 63) :
    SenderState.removalOf .rem (delRequestHeader v) = [v] := by
  have htarget : headerTarget (delRequestHeader v) = mdirStr2version (printInt v) := rfl
  rw [SenderState.removalOf, htarget, mdirStr2version, sscanfInt64_printInt (by omega) hlt]
  rfl

/-! ## A mail that is sent twice -/

def sampleMail : Header :=
  [⟨ascii "sc-type", ascii "mail"⟩, ⟨ascii "sc-from", ascii "joe"⟩, ⟨ascii "sc-descr", ascii "hi"⟩,
    ⟨ascii "sc-to", ascii "bob"⟩]

/-- The mail is listed, its removal is requested and comes back; then the sender is started again. -/
theorem neverAgain_of_run_removed :
    let _ := linuxHost
    let listed := (((SenderState.new.step (ascii "/m/1") .start).step (ascii "/m/1")
      (.patch quietSys .add sampleMail 0)).step (ascii "/m/1") (.list ⟨fun _ => true, fun _ => true⟩ (.ok [])))
    let removed := (listed.step (ascii "/m/1") (.request quietSys .rem (delRequestHeader 1) 7 true)).step
      (ascii "/m/1") (.patch quietSys .rem (delRequestHeader 1) 0)
    (removed.step (ascii "/m/1") .start).NeverAgain (ascii "/m/1") := by
  intro _ listed removed
  have hcursor : listed.crawler = some ⟨1, 0⟩ := by decide
  have hback : removed.requested = [1] ∧ removed.removed = [1] := by decide
  have run : SenderRun (ascii "/m/1") (SenderState.Settled (ascii "/m/1")) removed := by
    refine .step _ (.step _ (.step _ (.step _ (.step _ .new trivial ?_) trivial trivial)
      ⟨[], .refl _, rfl⟩ trivial) trivial ?_) trivial trivial
    · rintro v hv
      cases hv
    · rintro - v hv cursor hcrawler
      rw [removalOf_delRequest (by decide) (by decide), List.mem_singleton] at hv
      rw [hcursor] at hcrawler
      cases hcrawler
      exact .inl hv.le
  refine neverAgain_of_run (.step _ run trivial ?_)
  intro v hv
  rw [hback.1, List.mem_singleton] at hv
  exact run.inv.deleted v (by rw [hback.2, hv]; exact List.mem_cons_self)

/-- The mail is listed and its removal is requested; the sender is started again before the synchroniser has run,
and a forward is submitted for the same version. -/
theorem not_neverAgain :
    let _ := linuxHost
    ¬ ∀ s, SenderRun (ascii "/m/1") (fun _ _ => True) s → s.NeverAgain (ascii "/m/1") := by
  intro _ h
  have run : SenderRun (ascii "/m/1") (fun _ _ => True) _ :=
    .step .start (.step .stop (.step (.request quietSys .rem (delRequestHeader 1) 7 true)
      (.step (.list ⟨fun _ => true, fun _ => true⟩ (.ok [])) (.step .start
        (.step (.patch quietSys .add sampleMail 0) .new trivial trivial) trivial trivial)
        ⟨[], .refl _, rfl⟩ trivial) trivial trivial) trivial trivial) trivial trivial
  refine h _ run MdirCursor.new rfl ⟨fun _ => true, fun _ => true⟩ (.error ENOENT) trivial 1 ?_ (.inl ?_)
  · decide
  · decide

end Scambio
