import Scambio.Mdsyncc.ClientRuns

/-!
# Acks — the number of answers that the client waits for

`nb_pending_acks` is counted by the writer and by the handlers of the answers, while the queries that
can still be answered are those in the list of the connection.  A query is dropped from that list
without any notice when it has waited too long and the answer to an older one is looked for, and from
then on the two differ.
-/

namespace Scambio

open Library

/-- A query whose answer is counted: the PUT or REM of a transient patch of this mdir. -/
def isCounted (sq : SentQuery (Option Command)) : Bool :=
  match sq.owner with
  | some command => command.kw == .put || command.kw == .rem
  | none => false

/-- The number of answers that may still come. -/
def nbAwaited (c : Mdirc) : Nat :=
  c.cnx.sentQueries.countP isCounted

def AcksCounted (c : Mdirc) : Prop :=
  c.nbPendingAcks = nbAwaited c

/-- The queries that this mdir has sent: transient patches, and subscriptions that have no file. -/
def OwnQueries (c : Mdirc) : Prop :=
  ∀ sq ∈ c.cnx.sentQueries, ∀ command, sq.owner = some command →
    isCounted sq = true ∨ command.filename = []

/-! ## Queries that leave the list -/

section Retrieve

variable {α : Type} {now seq : Int}

/-- Queries are dropped only before the one that is answered, and only when they are late. -/
theorem retrieveLoop_countP (p : SentQuery α → Bool) {sqs : List (SentQuery α)}
    (h : ∀ sq ∈ sqs.takeWhile fun sq => sq.seq != seq, p sq = true → now ≤ sq.creation + SQ_TIMEOUT) :
    (retrieveLoop now seq sqs).1.countP p + (retrieveLoop now seq sqs).2.toList.countP p =
      sqs.countP p := by
  induction sqs with
  | nil => rfl
  | cons sq sqs ih =>
      by_cases hseq : sq.seq = seq
      · rw [retrieveLoop, if_pos hseq]
        simp only [Option.toList_some, List.countP_cons, List.countP_nil]
        omega
      · rw [List.takeWhile_cons_of_pos (by simpa using hseq)] at h
        have hrest := ih fun x hx => h x (List.mem_cons_of_mem _ hx)
        have hhead := h sq List.mem_cons_self
        rw [retrieveLoop, if_neg hseq]
        rcases hr : retrieveLoop now seq sqs with ⟨rest, found⟩
        rw [hr] at hrest
        simp only at hrest ⊢
        split_ifs with hlate
        · have hp : p sq = false := by
            by_contra hp
            have := hhead (by simpa using hp)
            omega
          rw [List.countP_cons_of_neg (by simp [hp])]
          exact hrest
        · simp only [List.countP_cons]
          omega

theorem retrieveLoop_subset (now seq : Int) (sqs : List (SentQuery α)) : (retrieveLoop now seq sqs).1 ⊆ sqs := by
  induction sqs with
  | nil => exact List.Subset.refl _
  | cons sq sqs ih =>
      by_cases hseq : sq.seq = seq
      · rw [retrieveLoop, if_pos hseq]
        exact List.subset_cons_self _ _
      · rw [retrieveLoop, if_neg hseq]
        rcases hr : retrieveLoop now seq sqs with ⟨rest, found⟩
        rw [hr] at ih
        simp only at ih ⊢
        split_ifs
        · exact List.Subset.trans ih (List.subset_cons_self _ _)
        · exact List.cons_subset_cons _ ih

end Retrieve

/-- No counted query is late when an answer is looked for past it, and the answer to a counted query
is one to a PUT or a REM. -/
def InTime (_ : List (Mdirc × Event)) (c : Mdirc) : Event → Prop
  | .answer kw now seq _ _ =>
      (∀ sq ∈ c.cnx.sentQueries.takeWhile fun sq => sq.seq != seq, isCounted sq = true →
        now ≤ sq.creation + SQ_TIMEOUT) ∧
      ∀ sq, (cnxQueryRetrieve c.cnx now seq).2 = .ok sq → isCounted sq = true → kw = .put ∨ kw = .rem
  | _ => True

/-! ## Steps -/

/-- What the steps keep. -/
structure Awaits (c : Mdirc) : Prop where
  counted : AcksCounted c
  own : OwnQueries c

theorem commandNew_awaits (c : Mdirc) (kw : Kw) (filename : Bytes) (h : Option Header) (now : Int)
    (written : Option Err) :
    (∃ e, (commandNew c kw filename h now written).2 = .error e ∧
      (commandNew c kw filename h now written).1.cnx.sentQueries = c.cnx.sentQueries) ∨
    (commandNew c kw filename h now written).2 = .ok () ∧ ∃ sq : SentQuery (Option Command),
      (commandNew c kw filename h now written).1.cnx.sentQueries = sq :: c.cnx.sentQueries ∧
      isCounted sq = (kw == .put || kw == .rem) ∧
      ∀ command, sq.owner = some command → command.filename = snprintfPath filename := by
  simp only [commandNew, cnxQuery]
  split_ifs
  · exact .inl ⟨_, rfl, rfl⟩
  · cases written with
    | some e => exact .inl ⟨e, rfl, rfl⟩
    | none =>
        refine .inr ⟨rfl, _, rfl, rfl, fun command hown => ?_⟩
        cases hown
        rfl

section Steps

variable [Host]

theorem Awaits.lsTransient {c : Mdirc} (hc : Awaits c) (name : Bytes) (now : Int)
    (written : Option Err) : Awaits (lsTransient c name now written) := by
  unfold Scambio.lsTransient
  cases hkw : kwOfName name with
  | none => exact hc
  | some kw =>
      have hcount : kw = .put ∨ kw = .rem := by
        unfold kwOfName at hkw
        split at hkw
        · exact .inl (Option.some.inj hkw).symm
        · exact .inr (Option.some.inj hkw).symm
        · cases hkw
      simp only
      split_ifs
      · exact hc
      · split
        · exact hc
        · next h _ =>
            have hframe := commandNew_frame c kw
              (snprintfPath (c.mdir.path ++ ascii "/.tmp/" ++ name))
              (some (h.filter fun hf => !strcaseeq hf.name SC_LOCALID_FIELD)) now written
            have hnew := commandNew_awaits c kw
              (snprintfPath (c.mdir.path ++ ascii "/.tmp/" ++ name))
              (some (h.filter fun hf => !strcaseeq hf.name SC_LOCALID_FIELD)) now written
            split
            -- the command failed: neither the queries nor the count moved
            · next c' e heq =>
                rw [heq] at hframe hnew
                rcases hnew with ⟨_, -, hsame⟩ | ⟨hok, -⟩
                · refine ⟨?_, ?_⟩
                  · rw [AcksCounted, nbAwaited, hsame, hframe.2.2]
                    exact hc.counted
                  · rw [OwnQueries, hsame]
                    exact hc.own
                · cases hok
            -- one query more, and it is counted
            · next c' heq =>
                rw [heq] at hframe hnew
                rcases hnew with ⟨_, herr, -⟩ | ⟨-, sq, hcons, hsq, -⟩
                · cases herr
                · simp only at hframe hcons
                  have hcounted : isCounted sq = true := by
                    rcases hcount with rfl | rfl <;> exact hsq
                  refine ⟨?_, ?_⟩
                  · have hbefore := hc.counted
                    simp only [AcksCounted, nbAwaited] at hbefore ⊢
                    rw [hcons, List.countP_cons_of_pos hcounted, hframe.2.2, hbefore]
                  · intro sq' hmem command hown
                    simp only at hmem
                    rw [hcons] at hmem
                    rcases List.mem_cons.1 hmem with rfl | hmem
                    · exact .inl hcounted
                    · exact hc.own sq' hmem command hown

theorem Awaits.lsTransients {c : Mdirc} (hc : Awaits c)
    (entries : Except Nat (List (Bytes × Option Err))) (now : Int) :
    Awaits (lsTransients c entries now).1 := by
  unfold Scambio.lsTransients
  cases entries with
  | error errno =>
      simp only
      split_ifs <;> exact hc
  | ok names =>
      simp only
      induction names generalizing c with
      | nil => exact hc
      | cons e names ih => exact ih (hc.lsTransient e.1 now e.2)

omit [Host] in
theorem Awaits.subscribe {c : Mdirc} (hc : Awaits c) (new hidden : Bool) (now : Int)
    (written : Option Err) : Awaits (subscribe c new hidden now written).1 := by
  unfold Scambio.subscribe
  split_ifs
  · exact hc
  · have hframe := commandNew_frame c .sub [] none now written
    rcases commandNew_awaits c .sub [] none now written with ⟨_, -, hsame⟩ | ⟨-, sq, hcons, hsq, hname⟩
    · refine ⟨?_, ?_⟩
      · rw [AcksCounted, nbAwaited, hsame, hframe.2.2]
        exact hc.counted
      · rw [OwnQueries, hsame]
        exact hc.own
    · refine ⟨?_, ?_⟩
      · rw [AcksCounted, nbAwaited, hcons, hframe.2.2, List.countP_cons_of_neg (by simp [hsq])]
        exact hc.counted
      · intro sq' hmem command hown
        rw [hcons] at hmem
        rcases List.mem_cons.1 hmem with rfl | hmem
        · exact .inr (hname command hown)
        · exact hc.own sq' hmem command hown
  · exact hc

omit [Host] in
theorem Awaits.otherQuery {c : Mdirc} (hc : Awaits c) (now : Int) (written : Option Err) :
    Awaits { c with cnx := (cnxQuery c.cnx none now written).1 } := by
  unfold cnxQuery
  split_ifs
  · exact hc
  · cases written with
    | some e => exact ⟨hc.counted, hc.own⟩
    | none =>
        refine ⟨?_, ?_⟩
        · have hbefore := hc.counted
          simp only [AcksCounted, nbAwaited] at hbefore ⊢
          rw [List.countP_cons_of_neg (by simp [isCounted])]
          exact hbefore
        · intro sq hmem command hown
          rcases List.mem_cons.1 hmem with rfl | hmem
          · cases hown
          · exact hc.own sq hmem command hown

omit [Host] in
/-- What the search for a query leaves, when no counted one is late. -/
theorem cnxQueryRetrieve_awaits {c : Mdirc} {now seq : Int}
    (hlate : ∀ sq ∈ c.cnx.sentQueries.takeWhile fun sq => sq.seq != seq, isCounted sq = true →
      now ≤ sq.creation + SQ_TIMEOUT) :
    (∀ sq ∈ (cnxQueryRetrieve c.cnx now seq).1.sentQueries, sq ∈ c.cnx.sentQueries) ∧
    ((∃ e, (cnxQueryRetrieve c.cnx now seq).2 = .error e ∧
        (cnxQueryRetrieve c.cnx now seq).1.sentQueries.countP isCounted = nbAwaited c) ∨
      ∃ sq ∈ c.cnx.sentQueries, (cnxQueryRetrieve c.cnx now seq).2 = .ok sq ∧
        (cnxQueryRetrieve c.cnx now seq).1.sentQueries.countP isCounted +
          (if isCounted sq then 1 else 0) = nbAwaited c) := by
  have hcount := retrieveLoop_countP isCounted hlate
  have hsub := retrieveLoop_subset now seq c.cnx.sentQueries
  unfold cnxQueryRetrieve
  rcases hr : retrieveLoop now seq c.cnx.sentQueries with ⟨rest, _ | sq⟩
  · rw [hr] at hcount hsub
    exact ⟨hsub, .inl ⟨_, rfl, by simpa [nbAwaited] using hcount⟩⟩
  · have hmem := (retrieveLoop_some hr).1
    rw [hr] at hcount hsub
    refine ⟨hsub, .inr ⟨sq, hmem, rfl, ?_⟩⟩
    simpa [nbAwaited, List.countP_cons] using hcount

omit [Host] in
theorem Awaits.of_retrieved {c c' : Mdirc} (hc : Awaits c) {now seq : Int}
    (hsub : ∀ sq ∈ (cnxQueryRetrieve c.cnx now seq).1.sentQueries, sq ∈ c.cnx.sentQueries)
    (hcnx : c'.cnx = (cnxQueryRetrieve c.cnx now seq).1)
    (hcount : c'.nbPendingAcks =
      (cnxQueryRetrieve c.cnx now seq).1.sentQueries.countP isCounted) : Awaits c' := by
  refine ⟨?_, ?_⟩
  · rw [AcksCounted, nbAwaited, hcnx, hcount]
  · intro sq hmem
    rw [hcnx] at hmem
    exact hc.own sq (hsub sq hmem)

omit [Host] in
/-- An answer to a PUT or a REM. -/
theorem Awaits.finalizeAnswer {c c' : Mdirc} (hc : Awaits c) {now seq status : Int} {compl : Bytes}
    (hlate : ∀ sq ∈ c.cnx.sentQueries.takeWhile fun sq => sq.seq != seq, isCounted sq = true →
      now ≤ sq.creation + SQ_TIMEOUT)
    (h : readerOutcome (finalizeAnswer c now seq status compl) = some c') : Awaits c' := by
  rcases cnxQueryRetrieve_awaits hlate with ⟨hsub, ⟨e, he, hsame⟩ | ⟨sq, hmem, hsq, hcount⟩⟩
  · have hstate : c'.cnx = (cnxQueryRetrieve c.cnx now seq).1 ∧ c'.nbPendingAcks = c.nbPendingAcks := by
      rcases hr : cnxQueryRetrieve c.cnx now seq with ⟨cnx, r⟩
      rw [hr] at he
      simp only at he
      simp only [Scambio.finalizeAnswer, hr, he] at h
      rcases readerOutcome_some h with ⟨hok, -⟩ | ⟨_, _, -, rfl⟩
      · cases hok
      · exact ⟨rfl, rfl⟩
    exact hc.of_retrieved hsub hstate.1 (hstate.2.trans (hc.counted.trans hsame.symm))
  · cases hown : sq.owner with
    | none =>
        have hnot : isCounted sq = false := by simp [isCounted, hown]
        have hstate : c'.cnx = (cnxQueryRetrieve c.cnx now seq).1 ∧
            c'.nbPendingAcks = c.nbPendingAcks := by
          rcases hr : cnxQueryRetrieve c.cnx now seq with ⟨cnx, r⟩
          rw [hr] at hsq
          simp only at hsq
          simp only [Scambio.finalizeAnswer, hr, hsq, hown] at h
          rcases readerOutcome_some h with ⟨-, rfl⟩ | ⟨_, _, herr, -⟩
          · exact ⟨rfl, rfl⟩
          · cases herr
        rw [hnot] at hcount
        refine hc.of_retrieved hsub hstate.1 (hstate.2.trans (hc.counted.trans ?_))
        simpa using hcount.symm
    | some command =>
        -- without a file it was no transient patch, and the assertions stop the client
        have hstate : c'.cnx = (cnxQueryRetrieve c.cnx now seq).1 ∧
            c'.nbPendingAcks + 1 = c.nbPendingAcks ∧ command.filename ≠ [] := by
          rcases hr : cnxQueryRetrieve c.cnx now seq with ⟨cnx, r⟩
          rw [hr] at hsq
          simp only at hsq
          simp only [Scambio.finalizeAnswer, hr, hsq, hown] at h
          split_ifs at h with hzero
          · cases h
          · have hframe := finPutrem_frame { c with cnx := cnx, nbPendingAcks := c.nbPendingAcks - 1 }
              command status compl
            have hname : command.filename ≠ [] := by
              intro hnil
              rw [finPutrem, if_pos hnil] at h
              cases h
            rcases hf : finPutrem { c with cnx := cnx, nbPendingAcks := c.nbPendingAcks - 1 } command
              status compl with ⟨c₁, r⟩
            rw [hf] at h hframe
            rcases readerOutcome_some h with ⟨-, rfl⟩ | ⟨_, _, -, rfl⟩ <;>
              exact ⟨hframe.2.2.1, by simp only at hframe ⊢; omega, hname⟩
        have hyes : isCounted sq = true :=
          (hc.own sq hmem command hown).resolve_right hstate.2.2
        have hbefore := hc.counted
        rw [hyes] at hcount
        simp only [if_true] at hcount
        unfold AcksCounted at hbefore
        exact hc.of_retrieved hsub hstate.1 (by omega)

omit [Host] in
/-- An answer to a subscription. -/
theorem Awaits.finalizeSub {c c' : Mdirc} (hc : Awaits c) {kw : Kw} (hkw : kw = .sub ∨ kw = .unsub)
    {now seq status : Int} {compl : Bytes}
    (hlate : ∀ sq ∈ c.cnx.sentQueries.takeWhile fun sq => sq.seq != seq, isCounted sq = true →
      now ≤ sq.creation + SQ_TIMEOUT)
    (hnot : ∀ sq, (cnxQueryRetrieve c.cnx now seq).2 = .ok sq → isCounted sq = false)
    (h : readerOutcome (finalize c kw now seq status compl) = some c') : Awaits c' := by
  have hstate : c'.cnx = (cnxQueryRetrieve c.cnx now seq).1 ∧ c'.nbPendingAcks = c.nbPendingAcks := by
    rcases hr : cnxQueryRetrieve c.cnx now seq with ⟨cnx, e | sq⟩
    · rcases hkw with rfl | rfl <;> simp only [finalize, Scambio.finalizeSub, finalizeUnsub, hr] at h <;>
        rcases readerOutcome_some h with ⟨-, rfl⟩ | ⟨_, _, -, rfl⟩ <;> exact ⟨rfl, rfl⟩
    · cases hown : sq.owner with
      | none =>
          rcases hkw with rfl | rfl <;>
            simp only [finalize, Scambio.finalizeSub, finalizeUnsub, hr, hown] at h <;>
            rcases readerOutcome_some h with ⟨-, rfl⟩ | ⟨_, _, -, rfl⟩ <;> exact ⟨rfl, rfl⟩
      | some command =>
          rcases hkw with rfl | rfl <;>
            simp only [finalize, Scambio.finalizeSub, finalizeUnsub, hr, hown] at h <;>
            split_ifs at h <;>
            rcases readerOutcome_some h with ⟨-, rfl⟩ | ⟨_, _, -, rfl⟩ <;> exact ⟨rfl, rfl⟩
  rcases cnxQueryRetrieve_awaits hlate with ⟨hsub, ⟨e, he, hsame⟩ | ⟨sq, hmem, hsq, hcount⟩⟩
  · exact hc.of_retrieved hsub hstate.1 (hstate.2.trans (hc.counted.trans hsame.symm))
  · rw [hnot sq hsq] at hcount
    refine hc.of_retrieved hsub hstate.1 (hstate.2.trans (hc.counted.trans ?_))
    simpa using hcount.symm

theorem patchService_acks (sys : Sys) (maxJnlSize : Nat) (c : Mdirc) (oldVersion newVersion : Int)
    (action fd : Bytes) :
    (patchService sys maxJnlSize c oldVersion newVersion action fd).1.cnx = c.cnx ∧
      (patchService sys maxJnlSize c oldVersion newVersion action fd).1.nbPendingAcks =
        c.nbPendingAcks := by
  cases hrec : received c oldVersion newVersion action fd with
  | none =>
      rcases patchService_of_refused hrec sys maxJnlSize with ⟨e, he⟩
      rw [he]
      exact ⟨rfl, rfl⟩
  | some r =>
      rw [patchService_of_received hrec]
      unfold tryApply
      split_ifs <;> exact ⟨rfl, rfl⟩

/-- In every run whose answers all come in time, the answers that are waited for are those that may
still come. -/
theorem acks_counted_of_run {maxJnlSize : Nat} {m : Mdir} {cnx : Cnx (Option Command)}
    {files : Bytes → Option Bytes} (hcnx : ∀ sq ∈ cnx.sentQueries, sq.owner = none)
    {trace : List (Mdirc × Event)} {c : Mdirc}
    (run : ClientRun maxJnlSize InTime (Mdirc.new m cnx files) trace c) : AcksCounted c := by
  refine (ClientRun.invariant (P := fun _ c => Awaits c) ?_ ?_ run).counted
  · refine ⟨?_, ?_⟩
    · refine (List.countP_eq_zero.2 fun sq hsq => ?_).symm
      simp [isCounted, hcnx sq hsq]
    · intro sq hsq command hown
      rw [hcnx sq hsq] at hown
      cases hown
  · intro trace c c' e hc hok h
    cases e with
    | files files =>
        cases h
        exact ⟨hc.counted, hc.own⟩
    | otherQuery now written =>
        cases h
        exact hc.otherQuery now written
    | subscribe new hidden now written =>
        cases h
        exact hc.subscribe new hidden now written
    | transients entries now =>
        cases h
        exact hc.lsTransients entries now
    | answer kw now seq status compl =>
        simp only [handle] at h
        split_ifs at h
        · rcases hok with ⟨hlate, hkind⟩
          -- an answer of another kind than the query does not come
          have hsub : kw = .sub ∨ kw = .unsub →
              ∀ sq, (cnxQueryRetrieve c.cnx now seq).2 = .ok sq → isCounted sq = false := by
            intro hkw sq hsq
            by_contra hn
            rcases hkw with rfl | rfl <;> simpa using hkind sq hsq (by simpa using hn)
          cases kw with
          | put => exact hc.finalizeAnswer hlate h
          | rem => exact hc.finalizeAnswer hlate h
          | sub => exact hc.finalizeSub (.inl rfl) hlate (hsub (.inl rfl)) h
          | unsub => exact hc.finalizeSub (.inr rfl) hlate (hsub (.inr rfl)) h
        · cases h
          exact hc
    | patch sys oldVersion newVersion action fd =>
        simp only [handle] at h
        split_ifs at h
        -- a patch from the server leaves the queries alone
        · rcases patchService_acks sys maxJnlSize c oldVersion newVersion action fd with ⟨hc', hn'⟩
          have hstate : c'.cnx = c.cnx ∧ c'.nbPendingAcks = c.nbPendingAcks := by
            rcases hp : patchService sys maxJnlSize c oldVersion newVersion action fd with ⟨c₁, r⟩
            rw [hp] at h hc' hn'
            rcases readerOutcome_some h with ⟨-, rfl⟩ | ⟨_, _, -, rfl⟩ <;> exact ⟨hc', hn'⟩
          refine ⟨?_, ?_⟩
          · rw [AcksCounted, nbAwaited, hstate.1, hstate.2]
            exact hc.counted
          · rw [OwnQueries, hstate.1]
            exact hc.own
        · cases h
          exact hc

omit [Host] in
/-- A transient patch is sent and its answer comes one second later. -/
theorem acks_counted_of_run_sample :
    let _ := plainHost
    let c₁ := (lsTransients oneTransient (.ok [(ascii "+5", none)]) 0).1
    let c₂ := (finalize c₁ .put 1 1 200 (ascii "1")).1
    AcksCounted c₁ ∧ c₁.nbPendingAcks = 1 ∧ AcksCounted c₂ ∧ c₂.nbPendingAcks = 0 := by
  intro _ c₁ c₂
  have hcnx : ∀ sq ∈ oneTransient.cnx.sentQueries, sq.owner = none := by
    intro sq hsq
    cases hsq
  have run₁ : ClientRun 10 InTime oneTransient _ c₁ :=
    ClientRun.step (.transients (.ok [(ascii "+5", none)]) 0) ClientRun.start trivial rfl
  have htime : InTime [] c₁ (.answer .put 1 1 200 (ascii "1")) := by
    have hnone : (c₁.cnx.sentQueries.takeWhile fun sq => sq.seq != 1).length = 0 := by decide
    refine ⟨fun sq hsq => ?_, fun _ _ _ => .inl rfl⟩
    rw [List.length_eq_zero_iff.1 hnone] at hsq
    cases hsq
  have run₂ : ClientRun 10 InTime oneTransient _ c₂ :=
    ClientRun.step (.answer .put 1 1 200 (ascii "1")) run₁ htime
      (handle_answer_ok (by decide) (eq_ok_of_toOption (by decide)))
  exact ⟨acks_counted_of_run hcnx run₁, by decide, acks_counted_of_run hcnx run₂,
    by decide⟩

omit [Host] in
/-- A query for another mdir is answered after 25 seconds: the PUT sent after it is dropped, and still
waited for. -/
theorem acks_not_counted_after_timeout :
    let _ := plainHost
    ∃ trace c, ClientRun 10 (fun _ _ _ => True) oneTransient trace c ∧ ¬ AcksCounted c := by
  intro _
  let c₁ : Mdirc := { oneTransient with cnx := (cnxQuery oneTransient.cnx none 0 none).1 }
  let c₂ := (lsTransients c₁ (.ok [(ascii "+5", none)]) 0).1
  let c₃ := (finalize c₂ .sub 25 1 200 []).1
  have run₁ : ClientRun 10 (fun _ _ _ => True) oneTransient _ c₁ :=
    ClientRun.step (.otherQuery 0 none) ClientRun.start trivial rfl
  have run₂ : ClientRun 10 (fun _ _ _ => True) oneTransient _ c₂ :=
    ClientRun.step (.transients (.ok [(ascii "+5", none)]) 0) run₁ trivial rfl
  have run₃ : ClientRun 10 (fun _ _ _ => True) oneTransient _ c₃ :=
    ClientRun.step (.answer .sub 25 1 200 []) run₂ trivial
      (handle_answer_ok (by decide) (eq_ok_of_toOption (by decide)))
  refine ⟨_, c₃, run₃, ?_⟩
  have hacks : c₃.nbPendingAcks = 1 := by decide
  have hawaited : nbAwaited c₃ = 0 := by decide
  rw [AcksCounted, hacks, hawaited]
  decide

end Steps

end Scambio
