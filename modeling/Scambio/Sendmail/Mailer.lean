import Scambio.Sendmail.Crawler
import Scambio.Sendmail.Transactions
import Scambio.Smtpd.Attachments
import Scambio.Smtpd.Queries

/-!
# Mailer — the three threads of the mail sender together (`sendmail/crawler.c`, `sendmail/forwarder.c`)

The crawler makes a forward of each mail to send, the forwarder sends the waiting forwards to the relay and moves them
to the delivered ones, and the acker takes these one after the other and moves the patches.  The three run in any
order, other processes patch the journals of to_send, and the mail sender may be stopped and started again.

* `Mailer.step`       : the steps;
* `Mailer.Inv`        : each mail that the crawler has listed is in one list, once;
* `mails_conserved`   : no mail is lost, sent again or acknowledged twice while the process runs.
-/

namespace Scambio

open Library

/-! ## Forwards -/

/-- `forward_new`, once the file of each resource has its name in the cache. -/
def forwardNew (cacheName : Bytes → Bytes) (version : Int) (h : Header) : Forward :=
  let values (name : Bytes) := (h.filter fun hf => strcaseeq hf.name name).map HeaderField.value
  let value (name : Bytes) := (headerFind h name).map HeaderField.value
  { sender := (value SC_FROM_FIELD).getD []
    dests := values SC_TO_FIELD
    descr := (value SC_DESCR_FIELD).getD []
    extid := value SC_EXTID_FIELD
    version := version
    parts := (values SC_RESOURCE_FIELD).map fun resource =>
      { filename := cacheName (partCtor resource).resource, name := (partCtor resource).name
        type := (partCtor resource).type }
    status := 0 }

/-- A mail in its turn: whether it is sent, and the status that it gets from the relay, or from a transfer when one of
its files could not be fetched. -/
structure Try where
  fwd : Forward
  sent : Bool
  status : Option Int

/-- What a turn of the forwarder makes of the mail that is next. -/
def triedBy (refusalEnds : Bool) (hostname : Bytes) (s : ForwarderState) (t : Turn) : List Try :=
  match s.running, s.todo with
  | true, fwd :: _ =>
      match transfersDone t.transfers with
      | none => []
      | some failed =>
          if failed.getD fwd.status ≠ 0 then [⟨fwd, false, some (failed.getD fwd.status)⟩]
          else if s.sock = none ∧ t.connected = false then []
          else [⟨fwd, true, (sendForward refusalEnds hostname fwd t.luck s.relay).2⟩]
  | _, _ => []

/-- The first of the delivered forwards is taken by the acker. -/
def ForwarderState.taken (s : ForwarderState) : ForwarderState :=
  { s with delivered := s.delivered.tail }

/-! ## The process -/

/-- The mail sender and the folder it lists.  The record is of the current life of the process: the versions that were
submitted, what was sent or had a transfer that failed, the forwards that the acker was given and the removals that it
has requested. -/
structure Mailer where
  box : SenderState
  forwarder : ForwarderState
  submitted : List Int
  tries : List Try
  acked : List Forward
  removals : List Int

inductive MailerEvent
  /-- The folder changes, the process is started or stopped, or the crawler lists. -/
  | box (e : SenderEvent)
  | turn (t : Turn)
  | sleep (now : Nat)
  | ack (folders : Folders) (sent : SentBox folders) (now : Bytes) (errors : List Failure) (answers : AckAnswers)

section Step

variable [Host] (refusalEnds : Bool) (hostname path : Bytes) (cacheName : Bytes → Bytes) (conf : AckerConf)

/-- A process that is just started on this folder, or is stopped. -/
def Mailer.fresh (box : SenderState) : Mailer where
  box := box
  forwarder := .start
  submitted := []
  tries := []
  acked := []
  removals := []

/-- The mail of a version of the journals. -/
def mailAt (A : List Slot) (v : Int) : Option Header :=
  match (records A)[(v - 1).toNat]?.bind readRecord with
  | some (.add, some h) => some h
  | _ => none

/-- The forwards of the versions that a listing submits. -/
def forwardsOf (A : List Slot) (versions : List Int) : List Forward :=
  versions.filterMap fun v => (mailAt A v).map (forwardNew cacheName v)

def Mailer.list (s : Mailer) (luck : CrawlLuck) (tmp : Except Nat (List (Bytes × Option Bytes))) : Mailer :=
  match s.box.crawler with
  | none => s
  | some cursor =>
      let versions := (crawl luck path s.box.journal tmp cursor).submitted
      { s with
        box := s.box.step path (.list luck tmp)
        forwarder := ((forwardsOf cacheName s.box.journal versions).map ForwarderEvent.submit).foldl
          (ForwarderState.step refusalEnds hostname) s.forwarder
        submitted := s.submitted ++ versions }

def Mailer.step (s : Mailer) : MailerEvent → Mailer
  | .box .start => .fresh (s.box.step path .start)
  | .box .stop => .fresh (s.box.step path .stop)
  | .box (.list luck tmp) => s.list refusalEnds hostname path cacheName luck tmp
  | .box e => { s with box := s.box.step path e }
  | .turn t =>
      { s with
        forwarder := s.forwarder.turn refusalEnds hostname t
        tries := s.tries ++ triedBy refusalEnds hostname s.forwarder t }
  | .sleep now => { s with forwarder := s.forwarder.step refusalEnds hostname (.sleep now) }
  | .ack _ sent now errors answers =>
      match s.forwarder.delivered with
      | [] => s
      | fwd :: _ =>
          let r := moveFwd conf sent fwd.version fwd.status now errors answers
          { s with
            forwarder := s.forwarder.taken
            acked := s.acked ++ [fwd]
            removals :=
              if ⟨conf.toSendId, .rem, delRequestHeader fwd.version⟩ ∈ r.requests then s.removals ++ [fwd.version]
              else s.removals }

/-- What the process is after these events. -/
def mailer (events : List MailerEvent) : Mailer :=
  events.foldl (Mailer.step refusalEnds hostname path cacheName conf) (.fresh .new)

end Step

/-! ## What a turn of the forwarder does -/

section Turn

variable (refusalEnds : Bool) (hostname : Bytes) (s : ForwarderState) (t : Turn)

/-- A turn tries one mail at most. -/
theorem pairwise_triedBy (R : Try → Try → Prop) : (triedBy refusalEnds hostname s t).Pairwise R := by
  unfold triedBy
  split
  · split
    · exact .nil
    · split
      · exact List.pairwise_singleton _ _
      · split
        · exact .nil
        · exact List.pairwise_singleton _ _
  · exact .nil

theorem mayOpenConnection_lists (now : Nat) :
    (s.mayOpenConnection now).waiting = s.waiting ∧ (s.mayOpenConnection now).delivered = s.delivered ∧
      (s.mayOpenConnection now).todo = s.todo ∧ (s.mayOpenConnection now).sock = some s.relay := by
  unfold ForwarderState.mayOpenConnection ForwarderState.relay
  cases hsock : s.sock with
  | none => exact ⟨rfl, rfl, rfl, rfl⟩
  | some r => exact ⟨rfl, rfl, rfl, hsock⟩

/-- What an attempt leaves of the lists. -/
theorem attempt_lists (fwd : Forward) (r : Relay) :
    ((sendForward refusalEnds hostname fwd t.luck r).2 = none ∧
        (s.attempt refusalEnds hostname fwd t r).waiting = s.waiting ∧
        (s.attempt refusalEnds hostname fwd t r).delivered = s.delivered ∧
        (s.attempt refusalEnds hostname fwd t r).todo = []) ∨
      ∃ status, (sendForward refusalEnds hostname fwd t.luck r).2 = some status ∧
        (s.attempt refusalEnds hostname fwd t r).waiting = s.waiting.erase fwd ∧
        (s.attempt refusalEnds hostname fwd t r).delivered = s.delivered ++ [{ fwd with status := status }] ∧
        (s.attempt refusalEnds hostname fwd t r).todo = s.todo := by
  unfold ForwarderState.attempt
  cases hstatus : (sendForward refusalEnds hostname fwd t.luck r).2 with
  | none => exact .inl ⟨rfl, by simp only [hstatus], by simp only [hstatus], by simp only [hstatus]⟩
  | some status =>
      refine .inr ⟨status, rfl, ?_, ?_, ?_⟩
      all_goals simp only [hstatus, ForwarderState.deliver]

/-- The forward that comes next waits, or is delivered with its status; nothing else is tried. -/
theorem turn_cases :
    ((s.turn refusalEnds hostname t).waiting = s.waiting ∧ (s.turn refusalEnds hostname t).delivered = s.delivered ∧
        (s.turn refusalEnds hostname t).todo.Sublist s.todo ∧
        ∀ x ∈ triedBy refusalEnds hostname s t, x.fwd ∈ s.todo ∧ x.status = none) ∨
      ∃ fwd todo status, s.todo = fwd :: todo ∧ (s.turn refusalEnds hostname t).waiting = s.waiting.erase fwd ∧
        (s.turn refusalEnds hostname t).delivered = s.delivered ++ [{ fwd with status := status }] ∧
        (s.turn refusalEnds hostname t).todo = todo ∧
        ∀ x ∈ triedBy refusalEnds hostname s t, x.fwd = fwd ∧ x.status = some status := by
  cases hrunning : s.running with
  | false => simp [ForwarderState.turn, triedBy, hrunning]
  | true =>
      cases htodo : s.todo with
      | nil => simp [ForwarderState.turn, triedBy, hrunning, htodo]
      | cons fwd todo =>
          simp only [ForwarderState.turn, triedBy, hrunning, htodo]
          cases transfersDone t.transfers with
          | none => exact .inl ⟨rfl, rfl, List.sublist_cons_self fwd todo, fun x hx => by cases hx⟩
          | some failed =>
              by_cases hstatus : failed.getD fwd.status = 0
              · by_cases hclosed : s.sock = none ∧ t.connected = false
                · left
                  simp [hstatus, hclosed]
                · simp only [hstatus, hclosed, ne_eq, not_true_eq_false, if_false]
                  -- the forward is sent on the connection that is open, or on a new one
                  rcases mayOpenConnection_lists { s with todo := todo, running := true } t.now with
                    ⟨hwaiting, hdelivered, htodo', hsock⟩
                  generalize ForwarderState.mayOpenConnection { s with todo := todo, running := true } t.now = s' at *
                  rw [hsock]
                  rcases attempt_lists refusalEnds hostname s' t fwd s.relay with
                    ⟨hnone, hw, hd, ht⟩ | ⟨status, hsome, hw, hd, ht⟩
                  · refine .inl ⟨hw.trans hwaiting, hd.trans hdelivered, ?_, fun x hx => ?_⟩
                    · change (s'.attempt refusalEnds hostname fwd t s.relay).todo.Sublist _
                      rw [ht]
                      exact List.nil_sublist _
                    · rw [List.mem_singleton.1 hx]
                      exact ⟨List.mem_cons_self, hnone⟩
                  · refine .inr ⟨fwd, todo, status, rfl, ?_, ?_, ht.trans htodo', fun x hx => ?_⟩
                    · rw [← hwaiting]
                      exact hw
                    · rw [← hdelivered]
                      exact hd
                    · rw [List.mem_singleton.1 hx]
                      exact ⟨rfl, hsome⟩
              · -- a file that could not be fetched
                right
                refine ⟨fwd, todo, failed.getD fwd.status, rfl, ?_⟩
                simp [hstatus, ForwarderState.deliver]

end Turn

/-! ## What a listing submits -/

section Listing

variable [Host] {luck : CrawlLuck} {A : List Slot} {v : Int} {cursor : MdirCursor}

/-- The versions that are submitted increase, and the cursor goes past them. -/
theorem crawlJournals_submitted (h : cursor.lastListedSync < v) :
    (crawlJournals luck v A cursor).submitted.Pairwise (· < ·) ∧
      (∀ x ∈ (crawlJournals luck v A cursor).submitted,
        v ≤ x ∧ x ≤ (crawlJournals luck v A cursor).cursor.lastListedSync) ∧
      (crawlJournals luck v A cursor).cursor.lastListedSync < v + A.length := by
  induction A generalizing v cursor with
  | nil =>
      refine ⟨.nil, fun x hx => ?_, by simpa [crawlJournals] using h⟩
      cases hx
  | cons s A ih =>
      have hlen : (v + 1 + A.length : Int) = v + (s :: A).length := by
        rw [List.length_cons]
        push_cast
        omega
      -- the patches that follow, with the cursor moved or not
      have hrest : ∀ cursor : MdirCursor, cursor.lastListedSync < v + 1 →
          (crawlJournals luck (v + 1) A cursor).submitted.Pairwise (· < ·) ∧
            (∀ x ∈ (crawlJournals luck (v + 1) A cursor).submitted,
              v ≤ x ∧ x ≤ (crawlJournals luck (v + 1) A cursor).cursor.lastListedSync) ∧
            (crawlJournals luck (v + 1) A cursor).cursor.lastListedSync < v + (s :: A).length := by
        intro cursor hcursor
        rcases ih (v := v + 1) hcursor with ⟨hsorted, hrange, hlast⟩
        exact ⟨hsorted, fun x hx => ⟨by have := (hrange x hx).1; omega, (hrange x hx).2⟩, hlen ▸ hlast⟩
      have hstop : ∀ cursor : MdirCursor, cursor.lastListedSync ≤ v →
          ([] : List Int).Pairwise (· < ·) ∧ (∀ x ∈ ([] : List Int), v ≤ x ∧ x ≤ cursor.lastListedSync) ∧
            cursor.lastListedSync < v + (s :: A).length := by
        intro cursor hcursor
        refine ⟨.nil, fun x hx => ?_, ?_⟩
        · cases hx
        · rw [List.length_cons]
          omega
      have hseek : (mdirCursorSeek cursor v).lastListedSync < v + 1 := by simp [mdirCursorSeek]
      rw [crawlJournals]
      split
      · split
        · exact hstop cursor h.le
        · exact hrest cursor (by omega)
        · exact hrest _ hseek
        · split
          · exact hrest _ hseek
          · rcases ih (v := v + 1) hseek with ⟨hsorted, hrange, hlast⟩
            refine ⟨List.pairwise_cons.2 ⟨fun x hx => ?_, hsorted⟩, fun x hx => ?_, hlen ▸ hlast⟩
            · have := (hrange x hx).1
              omega
            · rcases List.mem_cons.1 hx with rfl | hx
              · exact ⟨le_rfl, (crawlJournals_cursor luck A _ hseek).1⟩
              · have := hrange x hx
                exact ⟨by omega, this.2⟩
          · exact hstop _ (by simp [mdirCursorSeek])
      · exact hstop cursor h.le

/-- A listing that ends well has submitted all the mails to send. -/
theorem crawlJournals_all (hv : 0 ≤ v) (hok : (crawlJournals luck v A cursor).ok = true) {i : Nat} {r : Bytes}
    {h : Header} (hr : (records A)[i]? = some r) (hadd : readRecord r = some (.add, some h))
    (hto : isToSend h = true) : v + i ∈ (crawlJournals luck v A cursor).submitted := by
  induction A generalizing v cursor i with
  | nil => cases hr
  | cons s A ih =>
      have hrest : ∀ (cursor : MdirCursor) (j : Nat), i = j + 1 → (crawlJournals luck (v + 1) A cursor).ok = true →
          v + i ∈ (crawlJournals luck (v + 1) A cursor).submitted := by
        intro cursor j hi hok
        subst hi
        have hmem := ih (v := v + 1) (by omega) hok hr
        have hcast : v + ((j + 1 : Nat) : Int) = v + 1 + j := by push_cast; omega
        rwa [hcast]
      rw [crawlJournals] at hok ⊢
      -- `hok` rules out each way in which the crawl can stop at this patch
      cases hluck : luck.read v with
      | false =>
          rw [hluck] at hok
          cases hok
      | true =>
          rw [hluck] at hok
          simp only [if_true] at hok ⊢
          cases i with
          | zero =>
              cases hr
              simp only [hadd] at hok ⊢
              cases hsent : Crawler.sendPatch (luck.made v) h v with
              | skipped =>
                  unfold Crawler.sendPatch at hsent
                  rw [if_neg (not_lt.2 hv), if_pos hto] at hsent
                  split at hsent <;> cases hsent
              | submitted => simp
              | failed =>
                  rw [hsent] at hok
                  cases hok
          | succ j =>
              cases hread : readRecord s.record with
              | none =>
                  rw [hread] at hok
                  cases hok
              | some p =>
                  rcases p with ⟨action, header⟩
                  rw [hread] at hok
                  cases header with
                  | none => exact hrest _ j rfl hok
                  | some hd =>
                      cases action with
                      | rem => exact hrest _ j rfl hok
                      | add =>
                          simp only at hok ⊢
                          cases hsent : Crawler.sendPatch (luck.made v) hd v with
                          | skipped =>
                              rw [hsent] at hok
                              exact hrest _ j rfl hok
                          | submitted =>
                              rw [hsent] at hok
                              exact List.mem_cons_of_mem _ (hrest _ j rfl hok)
                          | failed =>
                              rw [hsent] at hok
                              cases hok

/-- What a listing does of the mails to send and of the cursor. -/
theorem crawl_listed (luck : CrawlLuck) (path : Bytes) (A : List Slot) (hsync : 0 ≤ cursor.lastListedSync)
    (hunsync : 0 ≤ cursor.lastListedUnsync) (hle : cursor.lastListedSync ≤ A.length)
    (tmp : Except Nat (List (Bytes × Option Bytes))) :
    (crawl luck path A tmp cursor).submitted.Pairwise (· < ·) ∧
      (∀ x ∈ (crawl luck path A tmp cursor).submitted,
        x ≤ (crawl luck path A tmp cursor).cursor.lastListedSync) ∧
      (crawl luck path A tmp cursor).cursor.lastListedSync ≤ A.length ∧
      ((crawl luck path A tmp cursor).ok = true → ∀ v, ToSend A v → cursor.lastListedSync < v →
        v ∈ (crawl luck path A tmp cursor).submitted) := by
  obtain ⟨last, hlast⟩ : ∃ last, last = cursor.lastListedSync.toNat := ⟨_, rfl⟩
  obtain ⟨r, hr⟩ : ∃ r, r = crawlJournals luck (last + 1) (A.drop last) cursor := ⟨_, rfl⟩
  have hjournals := @crawlJournals_submitted _ luck (A.drop last) (last + 1) cursor (by omega)
  have hmoves := crawlJournals_cursor luck (A.drop last) (v := last + 1) cursor (by omega)
  have hall : r.ok = true → ∀ v, ToSend A v → cursor.lastListedSync < v → v ∈ r.submitted := by
    intro hok v hto hv
    rcases hto with ⟨hpos, rec, h, hrec, hread, hto⟩
    rw [hr] at hok ⊢
    have hindex : (records (A.drop last))[(v - 1).toNat - last]? = some rec := by
      rw [records, List.map_drop, List.getElem?_drop, show last + ((v - 1).toNat - last) = (v - 1).toNat by omega]
      exact hrec
    have hmem := crawlJournals_all (by omega) hok hindex hread hto
    rwa [show (last : Int) + 1 + ((v - 1).toNat - last : Nat) = v by omega] at hmem
  rw [← hr] at hjournals hmoves
  rw [List.length_drop] at hjournals
  rcases hjournals with ⟨hsorted, hrange, hend⟩
  simp only [crawl, ← hlast, ← hr]
  cases hok : r.ok with
  | false =>
      rw [if_neg Bool.false_ne_true]
      refine ⟨hsorted, fun x hx => (hrange x hx).2, by omega, fun htrue => ?_⟩
      rw [hok] at htrue
      cases htrue
  | true =>
      have hunsync' : 0 ≤ r.cursor.lastListedUnsync := hmoves.2 ▸ hunsync
      rcases crawlTransients_spec luck path hunsync' tmp with ⟨hnone, hsame, -⟩
      simp only [if_true, hnone, List.append_nil, hsame]
      exact ⟨hsorted, fun x hx => (hrange x hx).2, by omega, fun _ => hall hok⟩

/-- Each version that is submitted gives its forward. -/
theorem forwardsOf_version (cacheName : Bytes → Bytes) {versions : List Int} (h : ∀ v ∈ versions, ToSend A v) :
    (forwardsOf cacheName A versions).map Forward.version = versions := by
  induction versions with
  | nil => rfl
  | cons v versions ih =>
      rcases h v List.mem_cons_self with ⟨-, r, hd, hr, hread, -⟩
      have hmail : mailAt A v = some hd := by rw [mailAt, hr, Option.bind_some, hread]
      have hrest := ih (fun x hx => h x (List.mem_cons_of_mem _ hx))
      rw [forwardsOf, List.filterMap_cons, hmail, Option.map_some]
      exact congrArg (v :: ·) hrest

end Listing

theorem submit_all (refusalEnds : Bool) (hostname : Bytes) (fwds : List Forward) (s : ForwarderState) :
    ((fwds.map ForwarderEvent.submit).foldl (ForwarderState.step refusalEnds hostname) s).waiting = s.waiting ++ fwds ∧
      ((fwds.map ForwarderEvent.submit).foldl (ForwarderState.step refusalEnds hostname) s).delivered = s.delivered ∧
      (s.todo.Sublist s.waiting →
        ((fwds.map ForwarderEvent.submit).foldl (ForwarderState.step refusalEnds hostname) s).todo.Sublist
          (s.waiting ++ fwds)) := by
  induction fwds generalizing s with
  | nil => exact ⟨(List.append_nil _).symm, rfl, fun h => by simpa using h⟩
  | cons fwd fwds ih =>
      rcases ih (s.step refusalEnds hostname (.submit fwd)) with ⟨hwaiting, hdelivered, htodo⟩
      have hone : (s.step refusalEnds hostname (.submit fwd)).waiting ++ fwds = s.waiting ++ fwd :: fwds := by
        simp [ForwarderState.step]
      refine ⟨hwaiting.trans hone, hdelivered, fun h => ?_⟩
      rw [← hone]
      refine htodo ?_
      simp only [ForwarderState.step]
      split
      · exact List.nil_sublist _
      · exact h.append_right [fwd]

/-! ## Every step -/

/-- Each mail to send that the crawler has passed was submitted, and is in one of the lists, once. -/
structure Mailer.Inv [Host] (s : Mailer) : Prop where
  moved : s.submitted.Perm ((s.forwarder.waiting ++ (s.forwarder.delivered ++ s.acked)).map Forward.version)
  sorted : s.submitted.Pairwise (· < ·)
  todo : s.forwarder.todo.Sublist s.forwarder.waiting
  cursor : ∀ cursor, s.box.crawler = some cursor → 0 ≤ cursor.lastListedSync ∧ 0 ≤ cursor.lastListedUnsync ∧
    cursor.lastListedSync ≤ s.box.journal.length
  past : ∀ cursor, s.box.crawler = some cursor →
    (∀ v ∈ s.submitted, v ≤ cursor.lastListedSync) ∧
    ∀ v, ToSend s.box.journal v → v ≤ cursor.lastListedSync → v ∈ s.submitted
  once : s.tries.Pairwise fun a b => a.fwd.version = b.fwd.version → a.status = none
  answered : ∀ x ∈ s.tries, ∀ status, x.status = some status →
    { x.fwd with status := status } ∈ s.forwarder.delivered ++ s.acked
  removals : s.removals.Sublist (s.acked.map Forward.version)

section Steps

variable [Host] {refusalEnds : Bool} {hostname path : Bytes} {cacheName : Bytes → Bytes} {conf : AckerConf} {s : Mailer}

theorem Mailer.Inv.fresh {box : SenderState}
    (hbox : ∀ cursor, box.crawler = some cursor → cursor = MdirCursor.new) : (Mailer.fresh box).Inv := by
  refine ⟨.nil, .nil, .refl _, fun cursor hcursor => ?_, fun cursor hcursor => ⟨fun v hv => ?_, fun v hto hv => ?_⟩,
    .nil, fun x hx => ?_, .refl _⟩
  · rw [hbox cursor hcursor]
    exact ⟨le_rfl, le_rfl, Int.natCast_nonneg _⟩
  · cases hv
  · -- versions start from 1
    rw [hbox cursor hcursor] at hv
    exact absurd (hto.1.trans hv) (by decide)
  · cases hx

/-- What waits is not among what was delivered. -/
theorem Mailer.Inv.disjoint (h : s.Inv) {fwd g : Forward} (hfwd : fwd ∈ s.forwarder.waiting)
    (hg : g ∈ s.forwarder.delivered ++ s.acked) : g.version ≠ fwd.version := by
  have hnodup : ((s.forwarder.waiting ++ (s.forwarder.delivered ++ s.acked)).map Forward.version).Nodup :=
    h.moved.nodup_iff.1 (h.sorted.imp Int.ne_of_lt)
  rw [List.map_append, List.nodup_append] at hnodup
  intro heq
  exact hnodup.2.2 _ (List.mem_map_of_mem hfwd) _ (List.mem_map_of_mem hg) heq.symm

/-- The folder changes. -/
theorem Mailer.Inv.box (h : s.Inv) {box : SenderState} (hcrawler : box.crawler = s.box.crawler)
    (hlen : s.box.journal.length ≤ box.journal.length)
    (hto : ∀ v : Int, v ≤ s.box.journal.length → ToSend box.journal v → ToSend s.box.journal v) :
    ({ s with box := box } : Mailer).Inv := by
  refine ⟨h.moved, h.sorted, h.todo, fun cursor hcursor => ?_, fun cursor hcursor => ?_, h.once, h.answered, h.removals⟩
  · rcases h.cursor cursor (hcrawler ▸ hcursor) with ⟨hsync, hunsync, hle⟩
    exact ⟨hsync, hunsync, by dsimp only; omega⟩
  · rcases h.past cursor (hcrawler ▸ hcursor) with ⟨hpast, hall⟩
    have hle := (h.cursor cursor (hcrawler ▸ hcursor)).2.2
    exact ⟨hpast, fun v hv hlast => hall v (hto v (hlast.trans hle) hv) hlast⟩

theorem Mailer.Inv.turn (h : s.Inv) (t : Turn) : (s.step refusalEnds hostname path cacheName conf (.turn t)).Inv := by
  -- what has a status is not waiting any more
  have hnever : ∀ fwd ∈ s.forwarder.todo, ∀ x ∈ s.tries, x.fwd.version = fwd.version → x.status = none := by
    intro fwd hfwd x hx heq
    cases hstatus : x.status with
    | none => rfl
    | some status =>
        have hne := h.disjoint (h.todo.subset hfwd) (h.answered x hx status hstatus)
        exact absurd heq hne
  rcases turn_cases refusalEnds hostname s.forwarder t with
    ⟨hwaiting, hdelivered, htodo, htried⟩ | ⟨fwd, todo, status, hnext, hwaiting, hdelivered, htodo, htried⟩
  · refine ⟨?_, h.sorted, ?_, h.cursor, h.past, ?_, ?_, h.removals⟩
    · simp only [Mailer.step, hwaiting, hdelivered]
      exact h.moved
    · simp only [Mailer.step, hwaiting]
      exact htodo.trans h.todo
    · refine List.pairwise_append.2 ⟨h.once, pairwise_triedBy _ _ _ _ _, fun x hx y hy heq => ?_⟩
      exact hnever y.fwd (htried y hy).1 x hx heq
    · intro x hx st hst
      simp only [Mailer.step, hdelivered]
      rcases List.mem_append.1 hx with hx | hx
      · exact h.answered x hx st hst
      · rw [(htried x hx).2] at hst
        cases hst
  · have hmem : fwd ∈ s.forwarder.todo := hnext ▸ List.mem_cons_self
    refine ⟨?_, h.sorted, ?_, h.cursor, h.past, ?_, ?_, h.removals⟩
    · -- the forward goes from one list to the other
      have hsplit : (s.forwarder.waiting.map Forward.version).Perm
          (fwd.version :: (s.forwarder.waiting.erase fwd).map Forward.version) :=
        (List.perm_cons_erase (h.todo.subset hmem)).map Forward.version
      refine h.moved.trans ?_
      simp only [Mailer.step, hwaiting, hdelivered, List.map_append, List.map_cons, List.map_nil]
      refine (hsplit.append_right _).trans ?_
      rw [List.cons_append, List.append_assoc, List.singleton_append, ← List.append_assoc, ← List.append_assoc]
      exact List.perm_middle.symm
    · simp only [Mailer.step, hwaiting, htodo]
      have herase := h.todo.erase fwd
      rwa [hnext, List.erase_cons_head] at herase
    · refine List.pairwise_append.2 ⟨h.once, pairwise_triedBy _ _ _ _ _, fun x hx y hy heq => ?_⟩
      rw [(htried y hy).1] at heq
      exact hnever fwd hmem x hx heq
    · intro x hx st hst
      simp only [Mailer.step, hdelivered]
      rcases List.mem_append.1 hx with hx | hx
      · rcases List.mem_append.1 (h.answered x hx st hst) with hold | hold
        · exact List.mem_append_left _ (List.mem_append_left _ hold)
        · exact List.mem_append_right _ hold
      · rcases htried x hx with ⟨hfwd, hstatus⟩
        rw [hstatus] at hst
        cases hst
        rw [hfwd]
        exact List.mem_append_left _ (List.mem_append_right _ (List.mem_singleton_self _))

theorem Mailer.Inv.list (h : s.Inv) (luck : CrawlLuck) (tmp : Except Nat (List (Bytes × Option Bytes))) :
    (s.step refusalEnds hostname path cacheName conf (.box (.list luck tmp))).Inv := by
  cases hcrawler : s.box.crawler with
  | none =>
      simp only [Mailer.step, Mailer.list, hcrawler]
      exact h
  | some cursor =>
      rcases h.cursor cursor hcrawler with ⟨hsync, hunsync, hle⟩
      rcases h.past cursor hcrawler with ⟨hpast, hall⟩
      have hspec := crawl_spec luck path s.box.journal hunsync tmp
      have hlisted := crawl_listed luck path s.box.journal hsync hunsync hle tmp
      have hversions := forwardsOf_version cacheName fun v hv => (hspec.1 v hv).2
      simp only [Mailer.step, Mailer.list, SenderState.step, hcrawler]
      generalize crawl luck path s.box.journal tmp cursor = r at hspec hlisted hversions ⊢
      rcases hspec with ⟨hnew, hforward, hunsync'⟩
      rcases hlisted with ⟨hsorted, hrange, hend, hcomplete⟩
      rcases submit_all refusalEnds hostname (forwardsOf cacheName s.box.journal r.submitted) s.forwarder with
        ⟨hwaiting, hdelivered, htodo⟩
      refine ⟨?_, ?_, ?_, fun c hc => ?_, fun c hc => ?_, h.once, ?_, h.removals⟩
      · -- the new ones come behind those that wait
        simp only [hwaiting, hdelivered, List.map_append, hversions]
        refine (h.moved.append_right r.submitted).trans ?_
        simp only [List.map_append, List.append_assoc]
        refine List.Perm.append_left _ ?_
        rw [← List.append_assoc]
        exact List.perm_append_comm
      · refine List.pairwise_append.2 ⟨h.sorted, hsorted, fun x hx y hy => ?_⟩
        have hx' := hpast x hx
        have hy' := (hnew y hy).1
        omega
      · simp only [hwaiting]
        exact htodo h.todo
      · split_ifs at hc
        cases hc
        exact ⟨hsync.trans hforward, hunsync.trans hunsync', hend⟩
      · split_ifs at hc with hok
        cases hc
        refine ⟨fun v hv => ?_, fun v hto hv => ?_⟩
        · rcases List.mem_append.1 hv with hv | hv
          · exact (hpast v hv).trans hforward
          · exact hrange v hv
        · by_cases hbefore : v ≤ cursor.lastListedSync
          · exact List.mem_append_left _ (hall v hto hbefore)
          · exact List.mem_append_right _ (hcomplete hok v hto (by omega))
      · simp only [hdelivered]
        exact h.answered

theorem Mailer.Inv.ack (h : s.Inv) (folders : Folders) (sent : SentBox folders) (now : Bytes) (errors : List Failure)
    (answers : AckAnswers) :
    (s.step refusalEnds hostname path cacheName conf (.ack folders sent now errors answers)).Inv := by
  cases hdelivered : s.forwarder.delivered with
  | nil =>
      simp only [Mailer.step, hdelivered]
      exact h
  | cons fwd rest =>
      have hmoved := h.moved
      have hanswered := h.answered
      rw [hdelivered] at hmoved hanswered
      simp only [Mailer.step, hdelivered, ForwarderState.taken, List.tail_cons]
      refine ⟨?_, h.sorted, h.todo, h.cursor, h.past, h.once, fun x hx st hst => ?_, ?_⟩
      · refine hmoved.trans (List.Perm.map _ ?_)
        refine List.Perm.append_left _ ?_
        rw [← List.append_assoc]
        exact List.perm_append_singleton fwd (rest ++ s.acked) |>.symm
      · rcases List.mem_append.1 (hanswered x hx st hst) with hmem | hmem
        · rcases List.mem_cons.1 hmem with heq | hmem
          · exact List.mem_append_right _ (List.mem_append_right _ (List.mem_singleton.2 heq))
          · exact List.mem_append_left _ hmem
        · exact List.mem_append_right _ (List.mem_append_left _ hmem)
      · rw [List.map_append]
        split
        · exact h.removals.append (.refl _)
        · exact h.removals.trans (List.sublist_append_left _ _)

theorem Mailer.Inv.sleep (h : s.Inv) (now : Nat) :
    (s.step refusalEnds hostname path cacheName conf (.sleep now)).Inv := by
  have hlists : (s.forwarder.step refusalEnds hostname (.sleep now)).waiting = s.forwarder.waiting ∧
      (s.forwarder.step refusalEnds hostname (.sleep now)).delivered = s.forwarder.delivered ∧
      (s.forwarder.step refusalEnds hostname (.sleep now)).todo.Sublist s.forwarder.waiting := by
    simp only [ForwarderState.step, ForwarderState.mayCloseConnection]
    split
    · split
      · exact ⟨rfl, rfl, .refl _⟩
      · exact ⟨rfl, rfl, .refl _⟩
    · exact ⟨rfl, rfl, h.todo⟩
  rcases hlists with ⟨hwaiting, hdelivered, htodo⟩
  refine ⟨?_, h.sorted, ?_, h.cursor, h.past, h.once, ?_, h.removals⟩
  · simp only [Mailer.step, hwaiting, hdelivered]
    exact h.moved
  · simp only [Mailer.step, hwaiting]
    exact htodo
  · simp only [Mailer.step, hdelivered]
    exact h.answered

theorem Mailer.Inv.step (h : s.Inv) (e : MailerEvent) : (s.step refusalEnds hostname path cacheName conf e).Inv := by
  cases e with
  | box e =>
      cases e with
      | patch sys action header nb =>
          refine h.box rfl (length_storePatch_ge sys s.box.journal action header nb) fun v hle hto => ?_
          exact toSend_of_patch hle hto
      | request sys action header count opened =>
          have hsame : (s.box.step path (.request sys action header count opened)).crawler = s.box.crawler ∧
              (s.box.step path (.request sys action header count opened)).journal = s.box.journal := by
            simp only [SenderState.step]
            split
            · exact ⟨rfl, rfl⟩
            · exact ⟨rfl, rfl⟩
          exact h.box hsame.1 (congrArg List.length hsame.2).ge fun v _ hto => hsame.2 ▸ hto
      | answered name => exact h.box rfl le_rfl fun v _ hto => hto
      | start =>
          refine .fresh fun cursor hcursor => ?_
          cases hcursor
          rfl
      | stop =>
          refine .fresh fun cursor hcursor => ?_
          cases hcursor
      | list luck tmp => exact h.list luck tmp
  | turn t => exact h.turn t
  | sleep now => exact h.sleep now
  | ack folders sent now errors answers => exact h.ack folders sent now errors answers

end Steps

theorem mailer_inv [Host] (refusalEnds : Bool) (hostname path : Bytes) (cacheName : Bytes → Bytes) (conf : AckerConf)
    (events : List MailerEvent) : (mailer refusalEnds hostname path cacheName conf events).Inv := by
  induction events using List.reverseRecOn with
  | nil =>
      refine .fresh fun cursor hcursor => ?_
      cases hcursor
  | append_singleton events e ih =>
      rw [mailer, List.foldl_append]
      exact ih.step e

/-- Whatever the three threads do, in any order, and whatever happens to the folder: in the life of a process no mail is
submitted twice; each is waiting, delivered or acknowledged, once; once it has a status, from the relay or from a
transfer, it is not tried again, and it is there with this status; its removal is requested once at most, when it is
acknowledged; and while the crawler runs, each mail to send that it has passed was submitted. -/
theorem mails_conserved [Host] (refusalEnds : Bool) (hostname path : Bytes) (cacheName : Bytes → Bytes)
    (conf : AckerConf) (events : List MailerEvent) :
    let s := mailer refusalEnds hostname path cacheName conf events
    s.submitted.Pairwise (· < ·) ∧
    s.submitted.Perm ((s.forwarder.waiting ++ (s.forwarder.delivered ++ s.acked)).map Forward.version) ∧
    (s.tries.Pairwise fun a b => a.fwd.version = b.fwd.version → a.status = none) ∧
    (∀ x ∈ s.tries, ∀ status, x.status = some status →
      { x.fwd with status := status } ∈ s.forwarder.delivered ++ s.acked) ∧
    s.removals.Sublist (s.acked.map Forward.version) ∧
    (∀ cursor, s.box.crawler = some cursor → ∀ v, ToSend s.box.journal v → v ≤ cursor.lastListedSync →
      v ∈ s.submitted) := by
  intro s
  have h : s.Inv := mailer_inv refusalEnds hostname path cacheName conf events
  exact ⟨h.sorted, h.moved, h.once, h.answered, h.removals, fun cursor hcursor => (h.past cursor hcursor).2⟩

end Scambio
