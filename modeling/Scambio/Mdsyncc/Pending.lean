import Scambio.Mdsyncc.ClientRuns

/-!
# Pending — patches that wait in the queue of the client

The queue is examined when a PATCH command is received and no answer is waited for; it is not when the
last answer comes.  Then only its head is considered, so that a patch that is already passed, or that
the journals refuse, holds back the ones behind it.  The condition is on what a PATCH command finds:
what comes too early stays in the queue until the last answer has come (`follows_stays`).

* `NothingHeldBack`          : without pending answer, no patch of the queue is the next one;
* `QueueInOrder`, `PatchesAccepted` : the queues that the loop of `try_apply` gets through;
* `tryApplyLoop_settled_iff` : in them, and only in them, it leaves no such patch behind;
* `Prompt`                   : the events after which nothing is held back.
-/

namespace Scambio

open Library

/-- Once no answer is pending, no patch of the queue follows the last version of the mdir. -/
def NothingHeldBack (c : Mdirc) : Prop :=
  c.nbPendingAcks = 0 → ∀ p ∈ c.patches, p.oldVersion ≠ mdirLastVersion c.mdir

/-- The queue is kept in the order of the old versions. -/
def Sorted (patches : List Patch) : Prop :=
  patches.Pairwise fun p q => p.oldVersion ≤ q.oldVersion

theorem sorted_insertPatch {patches : List Patch} (h : Sorted patches) (p : Patch) :
    Sorted (insertPatch p patches) := by
  induction patches with
  | nil => exact List.pairwise_singleton _ _
  | cons q ps ih =>
      rcases List.pairwise_cons.1 h with ⟨hq, hps⟩
      unfold insertPatch
      split_ifs with hgt
      · refine List.pairwise_cons.2 ⟨fun r hr => ?_, h⟩
        rcases List.mem_cons.1 hr with rfl | hr
        · omega
        · have := hq r hr
          omega
      · refine List.pairwise_cons.2 ⟨fun r hr => ?_, ih hps⟩
        rcases mem_insertPatch hr with rfl | hr
        · omega
        · exact hq r hr

theorem mem_insertPatch_self (p : Patch) (patches : List Patch) : p ∈ insertPatch p patches := by
  induction patches with
  | nil => exact List.mem_singleton_self p
  | cons q ps ih =>
      unfold insertPatch
      split_ifs
      · exact List.mem_cons_self
      · exact List.mem_cons_of_mem q ih

theorem mem_insertPatch_of_mem (p : Patch) {q : Patch} {patches : List Patch} (h : q ∈ patches) :
    q ∈ insertPatch p patches := by
  induction patches with
  | nil => cases h
  | cons r ps ih =>
      unfold insertPatch
      split_ifs
      · exact List.mem_cons_of_mem p h
      · rcases List.mem_cons.1 h with rfl | h
        · exact List.mem_cons_self
        · exact List.mem_cons_of_mem r (ih h)

section Order

/-- These patches lead from one version to another: each follows the one before it. -/
def Leads : Int → List Patch → Int → Prop
  | v, [], w => v = w
  | v, p :: ps, w => p.oldVersion = v ∧ Leads p.newVersion ps w

/-- Wherever the first patches of the queue lead, a patch that follows has no patch before it that is
passed there. -/
def QueueInOrder (v : Int) (patches : List Patch) : Prop :=
  ∀ xs ps w, patches = xs ++ ps → Leads v xs w → (∃ p ∈ ps, p.oldVersion = w) → ∀ p ∈ ps, w ≤ p.oldVersion

/-- Without a patch that follows, the order does not matter. -/
theorem inOrder_of_none {v : Int} {patches : List Patch} (h : ∀ p ∈ patches, p.oldVersion ≠ v) :
    QueueInOrder v patches := by
  rintro xs ps w rfl hlead ⟨p, hp, hw⟩
  cases xs with
  | nil =>
      cases hlead
      exact absurd hw (h p hp)
  | cons x xs => exact absurd hlead.1 (h x List.mem_cons_self)

/-- A head that does not follow stops the queue. -/
theorem inOrder_stop {v : Int} {p : Patch} {ps : List Patch} (h : Sorted (p :: ps)) (hne : p.oldVersion ≠ v) :
    QueueInOrder v (p :: ps) ↔ ∀ q ∈ p :: ps, q.oldVersion ≠ v := by
  refine ⟨fun hord q hq hv => ?_, inOrder_of_none⟩
  have hle := hord [] (p :: ps) v rfl rfl ⟨q, hq, hv⟩ p List.mem_cons_self
  rcases List.mem_cons.1 hq with rfl | hq
  · exact hne hv
  · have := (List.pairwise_cons.1 h).1 q hq
    omega

theorem inOrder_cons {p : Patch} {ps : List Patch} (h : Sorted (p :: ps)) :
    QueueInOrder p.oldVersion (p :: ps) ↔ QueueInOrder p.newVersion ps := by
  refine ⟨fun hord xs rest w hsplit hlead => ?_, fun hord xs rest w hsplit hlead hnext => ?_⟩
  · exact hord (p :: xs) rest w (by rw [hsplit, List.cons_append]) ⟨rfl, hlead⟩
  · cases xs with
    | nil =>
        cases hlead
        cases hsplit
        intro q hq
        rcases List.mem_cons.1 hq with rfl | hq
        · exact le_rfl
        · exact (List.pairwise_cons.1 h).1 q hq
    | cons x xs =>
        rw [List.cons_append, List.cons.injEq] at hsplit
        rcases hsplit with ⟨rfl, hsplit⟩
        exact hord xs rest w hsplit hlead.2 hnext

theorem inOrder_singleton (v : Int) (p : Patch) : QueueInOrder v [p] := by
  by_cases hv : p.oldVersion = v
  · rw [← hv, inOrder_cons (List.pairwise_singleton _ p)]
    exact inOrder_of_none fun q hq => absurd hq List.not_mem_nil
  · exact inOrder_of_none fun q hq => List.mem_singleton.1 hq ▸ hv

end Order

section Loop

variable [Host] (sys : Sys) (maxJnlSize : Nat)

/-- The mdir after these patches. -/
def patched (m : Mdir) (patches : List Patch) : Mdir :=
  patches.foldl (fun m p => (mdirPatch sys maxJnlSize m p.action p.header (nbDeletedOf p)).mdir) m

/-- `mdir_patch` refuses none of the patches that follow one another at the head of the queue, and
each of them becomes the last version. -/
def PatchesAccepted (m : Mdir) (patches : List Patch) : Prop :=
  ∀ xs p ps w, patches = xs ++ p :: ps → Leads (mdirLastVersion m) (xs ++ [p]) w →
    (mdirPatch sys maxJnlSize (patched sys maxJnlSize m xs) p.action p.header (nbDeletedOf p)).result =
        .ok p.newVersion ∧
      mdirLastVersion (patched sys maxJnlSize m (xs ++ [p])) = p.newVersion

variable {sys maxJnlSize} {m : Mdir} {p : Patch} {ps : List Patch}

theorem patchesAccepted_singleton
    (hok : (mdirPatch sys maxJnlSize m p.action p.header (nbDeletedOf p)).result = .ok p.newVersion)
    (hlast : mdirLastVersion (mdirPatch sys maxJnlSize m p.action p.header (nbDeletedOf p)).mdir =
      p.newVersion) : PatchesAccepted sys maxJnlSize m [p] := by
  intro xs q ps w hsplit _
  cases xs with
  | nil =>
      rw [List.nil_append, List.cons.injEq] at hsplit
      rcases hsplit with ⟨rfl, -⟩
      exact ⟨hok, hlast⟩
  | cons x xs => simp at hsplit

theorem PatchesAccepted.head (h : PatchesAccepted sys maxJnlSize m (p :: ps)) (hold : p.oldVersion = mdirLastVersion m) :
    (mdirPatch sys maxJnlSize m p.action p.header (nbDeletedOf p)).result = .ok p.newVersion ∧
      mdirLastVersion (mdirPatch sys maxJnlSize m p.action p.header (nbDeletedOf p)).mdir = p.newVersion :=
  h [] p ps p.newVersion rfl ⟨hold, rfl⟩

theorem PatchesAccepted.tail (h : PatchesAccepted sys maxJnlSize m (p :: ps)) (hold : p.oldVersion = mdirLastVersion m) :
    PatchesAccepted sys maxJnlSize (mdirPatch sys maxJnlSize m p.action p.header (nbDeletedOf p)).mdir ps := by
  intro xs q rest w hsplit hlead
  rw [(h.head hold).2] at hlead
  exact h (p :: xs) q rest w (by rw [hsplit, List.cons_append]) ⟨hold, hlead⟩

/-- What is left of the queue is the end of it; only the header of its head may have changed. -/
theorem tryApplyLoop_sorted (m : Mdir) {patches : List Patch} (h : Sorted patches) :
    Sorted (tryApplyLoop sys maxJnlSize m patches).2.1 := by
  induction patches generalizing m with
  | nil => exact h
  | cons p ps ih =>
      have hps := (List.pairwise_cons.1 h).2
      have hhead : ∀ hd, Sorted ({ p with header := hd } :: ps) := fun hd =>
        List.pairwise_cons.2 ⟨(List.pairwise_cons.1 h).1, hps⟩
      unfold tryApplyLoop
      split_ifs
      · exact h
      · simp only
        split
        · exact hhead _
        · split_ifs
          · exact hhead _
          · exact ih _ hps
      · exact h

/-- The loop of `try_apply` leaves no patch that follows behind if and only if the queue is in order. -/
theorem tryApplyLoop_settled_iff {patches : List Patch} (h : Sorted patches)
    (ht : PatchesAccepted sys maxJnlSize m patches)
    (hno : ∀ msg, (tryApplyLoop sys maxJnlSize m patches).2.2 ≠ .error (.abort msg)) :
    (∀ p ∈ (tryApplyLoop sys maxJnlSize m patches).2.1,
        p.oldVersion ≠ mdirLastVersion (tryApplyLoop sys maxJnlSize m patches).1) ↔
      QueueInOrder (mdirLastVersion m) patches := by
  induction patches generalizing m with
  | nil =>
      exact ⟨fun _ => inOrder_of_none fun p hp => absurd hp List.not_mem_nil,
        fun _ p hp => absurd hp List.not_mem_nil⟩
  | cons p ps ih =>
      by_cases hold : p.oldVersion = mdirLastVersion m
      · rcases ht.head hold with ⟨hv, hlast⟩
        by_cases hnew : p.newVersion > p.oldVersion
        · have heq : tryApplyLoop sys maxJnlSize m (p :: ps) = tryApplyLoop sys maxJnlSize
              (mdirPatch sys maxJnlSize m p.action p.header (nbDeletedOf p)).mdir ps := by
            rw [tryApplyLoop, if_neg (not_not.2 hold.symm), if_neg (not_not.2 hnew)]
            simp only [hv, ne_eq, not_true_eq_false, if_false]
          rw [heq] at hno ⊢
          rw [ih (List.pairwise_cons.1 h).2 (ht.tail hold) hno, hlast, ← hold, inOrder_cons h]
        · refine absurd ?_ (hno (ascii "patch->new_version > patch->old_version"))
          rw [tryApplyLoop, if_neg (not_not.2 hold.symm), if_pos hnew]
      · -- the head stays, and what follows the last version stays behind it
        have heq : tryApplyLoop sys maxJnlSize m (p :: ps) = (m, p :: ps, .ok ()) := by
          rw [tryApplyLoop, if_pos fun hn => hold hn.symm]
        rw [heq, inOrder_stop h hold]

end Loop

section Prompt

variable [Host] {maxJnlSize : Nat}

/-- No patch of the queue follows the last version, whether an answer is pending or not. -/
def NoneFollows (c : Mdirc) : Prop :=
  ∀ p ∈ c.patches, p.oldVersion ≠ mdirLastVersion c.mdir

/-- A patch that follows the last version is received while no answer is pending, the queue it joins
is in order, and `mdir_patch` accepts the patches it lets through. -/
def Prompt (maxJnlSize : Nat) (_ : List (Mdirc × Event)) (c : Mdirc) : Event → Prop
  | .patch sys oldVersion newVersion action fd =>
      ∀ p maps, received c oldVersion newVersion action fd = some (p, maps) →
        oldVersion = mdirLastVersion c.mdir →
          c.nbPendingAcks = 0 ∧ QueueInOrder (mdirLastVersion c.mdir) (insertPatch p c.patches) ∧
            PatchesAccepted sys maxJnlSize c.mdir (insertPatch p c.patches)
  | _ => True

theorem received_oldVersion {c : Mdirc} {oldVersion newVersion : Int} {action fd : Bytes} {p : Patch}
    {maps : List C2lMap} (h : received c oldVersion newVersion action fd = some (p, maps)) :
    p.oldVersion = oldVersion := by
  unfold received at h
  split at h
  · cases h
    rfl
  · cases h

omit [Host] in
/-- An answer looks at no patch. -/
theorem noneFollows_finalize {c c' : Mdirc} {kw : Kw} {now seq status : Int} {compl : Bytes}
    (hs : Sorted c.patches) (hc : NoneFollows c)
    (h : readerOutcome (finalize c kw now seq status compl) = some c') :
    Sorted c'.patches ∧ NoneFollows c' := by
  rcases finalize_frame c kw now seq status compl with ⟨hq, -, -⟩
  have hstate : c'.mdir = c.mdir ∧ c'.patches = c.patches := by
    rcases hf : finalize c kw now seq status compl with ⟨c₁, r⟩
    rw [hf] at h hq
    rcases readerOutcome_some h with ⟨-, rfl⟩ | ⟨_, _, -, rfl⟩
    · exact ⟨hq.mdir, hq.patches⟩
    · exact ⟨hq.mdir, hq.patches⟩
  rcases hstate with ⟨hm, hp⟩
  refine ⟨hp ▸ hs, fun p hmem => ?_⟩
  rw [hm]
  exact hc p (hp ▸ hmem)

/-- What a handled PATCH command leaves: the loop has run over the queue it joined, unless an answer
is pending. -/
theorem patchService_some {c c' : Mdirc} {sys : Sys} {oldVersion newVersion : Int} {action fd : Bytes}
    {p : Patch} {maps : List C2lMap} (hrec : received c oldVersion newVersion action fd = some (p, maps))
    (h : readerOutcome (patchService sys maxJnlSize c oldVersion newVersion action fd) = some c') :
    c'.nbPendingAcks = c.nbPendingAcks ∧
      (c.nbPendingAcks ≠ 0 → c'.mdir = c.mdir ∧ c'.patches = insertPatch p c.patches) ∧
      (c.nbPendingAcks = 0 → ∃ r, tryApplyLoop sys maxJnlSize c.mdir (insertPatch p c.patches) =
        (c'.mdir, c'.patches, r) ∧ ∀ msg, r ≠ .error (.abort msg)) := by
  rw [patchService_of_received hrec] at h
  by_cases hzero : c.nbPendingAcks = 0
  · rcases hloop : tryApplyLoop sys maxJnlSize c.mdir (insertPatch p c.patches) with ⟨m, patches, r⟩
    have htry : tryApply sys maxJnlSize { c with c2lMaps := maps, patches := insertPatch p c.patches } =
        ({ c with c2lMaps := maps, mdir := m, patches := patches }, r) := by
      simp only [tryApply, hzero, hloop, gt_iff_lt, lt_self_iff_false, if_false]
    rw [htry] at h
    rcases readerOutcome_some h with ⟨rfl, rfl⟩ | ⟨code, str, rfl, rfl⟩
    · exact ⟨rfl, fun hne => absurd hzero hne, fun _ => ⟨_, rfl, fun msg hm => by cases hm⟩⟩
    · exact ⟨rfl, fun hne => absurd hzero hne, fun _ => ⟨_, rfl, fun msg hm => by cases hm⟩⟩
  · have htry : tryApply sys maxJnlSize { c with c2lMaps := maps, patches := insertPatch p c.patches } =
        ({ c with c2lMaps := maps, patches := insertPatch p c.patches }, .ok ()) := by
      simp only [tryApply]
      rw [if_pos (Nat.pos_of_ne_zero hzero)]
    rw [htry] at h
    rcases readerOutcome_some h with ⟨-, rfl⟩ | ⟨_, _, hr, -⟩
    · exact ⟨rfl, fun _ => ⟨rfl, rfl⟩, fun hz => absurd hz hzero⟩
    · cases hr

omit [Host] in
theorem noneFollows_insertPatch {c : Mdirc} (hc : NoneFollows c) {p : Patch}
    (hp : p.oldVersion ≠ mdirLastVersion c.mdir) :
    ∀ q ∈ insertPatch p c.patches, q.oldVersion ≠ mdirLastVersion c.mdir := by
  intro q hq
  rcases mem_insertPatch hq with rfl | hq
  · exact hp
  · exact hc q hq

/-- Where `mdir_patch` accepts what it is given, promptness is what a PATCH command needs. -/
theorem noneFollows_patch_iff {c c' : Mdirc} {sys : Sys} {oldVersion newVersion : Int}
    {action fd : Bytes} (hs : Sorted c.patches) (hc : NoneFollows c) {p : Patch} {maps : List C2lMap}
    (hrec : received c oldVersion newVersion action fd = some (p, maps))
    (hacc : p.oldVersion = mdirLastVersion c.mdir → c.nbPendingAcks = 0 →
      PatchesAccepted sys maxJnlSize c.mdir (insertPatch p c.patches))
    (h : readerOutcome (patchService sys maxJnlSize c oldVersion newVersion action fd) = some c') :
    NoneFollows c' ↔ (p.oldVersion = mdirLastVersion c.mdir →
      c.nbPendingAcks = 0 ∧ QueueInOrder (mdirLastVersion c.mdir) (insertPatch p c.patches)) := by
  rcases patchService_some hrec h with ⟨-, hwait, hrun⟩
  have hins := sorted_insertPatch hs p
  by_cases hfollows : p.oldVersion = mdirLastVersion c.mdir
  · by_cases hzero : c.nbPendingAcks = 0
    · rcases hrun hzero with ⟨r, hloop, hno⟩
      have hiff := tryApplyLoop_settled_iff hins (hacc hfollows hzero) (by rw [hloop]; exact hno)
      rw [hloop] at hiff
      exact ⟨fun hn _ => ⟨hzero, hiff.1 hn⟩, fun hok => hiff.2 (hok hfollows).2⟩
    · -- the patch waits in the queue
      rcases hwait hzero with ⟨hm, hp⟩
      refine ⟨fun hn => absurd ?_ (hn p (hp ▸ mem_insertPatch_self p c.patches)),
        fun hok => absurd (hok hfollows).1 hzero⟩
      rw [hm]
      exact hfollows
  · have hnone := noneFollows_insertPatch hc hfollows
    refine ⟨fun _ hn => absurd hn hfollows, fun _ => ?_⟩
    by_cases hzero : c.nbPendingAcks = 0
    · rcases hrun hzero with ⟨r, hloop, -⟩
      have hstop : tryApplyLoop sys maxJnlSize c.mdir (insertPatch p c.patches) =
          (c.mdir, insertPatch p c.patches, .ok ()) := by
        cases hq : insertPatch p c.patches with
        | nil => rfl
        | cons q ps =>
            rw [tryApplyLoop, if_pos fun heq => hnone q (hq ▸ List.mem_cons_self) heq.symm]
      rw [hstop, Prod.mk.injEq, Prod.mk.injEq] at hloop
      rcases hloop with ⟨hm, hp, -⟩
      intro q hq
      rw [← hm]
      exact hnone q (hp.symm ▸ hq)
    · rcases hwait hzero with ⟨hm, hp⟩
      intro q hq
      rw [hm]
      exact hnone q (hp ▸ hq)

theorem sorted_patch {c c' : Mdirc} {sys : Sys} {oldVersion newVersion : Int} {action fd : Bytes}
    (hs : Sorted c.patches)
    (h : readerOutcome (patchService sys maxJnlSize c oldVersion newVersion action fd) = some c') :
    Sorted c'.patches := by
  cases hrec : received c oldVersion newVersion action fd with
  | none =>
      rcases patchService_of_refused hrec sys maxJnlSize with ⟨e, he⟩
      rw [he] at h
      rcases readerOutcome_some h with ⟨-, rfl⟩ | ⟨_, _, -, rfl⟩
      · exact hs
      · exact hs
  | some r =>
      rcases patchService_some hrec h with ⟨-, hwait, hrun⟩
      by_cases hzero : c.nbPendingAcks = 0
      · rcases hrun hzero with ⟨_, hloop, -⟩
        have hsorted : Sorted (tryApplyLoop sys maxJnlSize c.mdir (insertPatch r.1 c.patches)).2.1 :=
          tryApplyLoop_sorted c.mdir (sorted_insertPatch hs r.1)
        rw [hloop] at hsorted
        exact hsorted
      · rw [(hwait hzero).2]
        exact sorted_insertPatch hs r.1

theorem noneFollows_patch {c c' : Mdirc} {sys : Sys} {oldVersion newVersion : Int} {action fd : Bytes}
    {trace : List (Mdirc × Event)} (hs : Sorted c.patches) (hc : NoneFollows c)
    (hok : Prompt maxJnlSize trace c (.patch sys oldVersion newVersion action fd))
    (h : readerOutcome (patchService sys maxJnlSize c oldVersion newVersion action fd) = some c') :
    NoneFollows c' := by
  cases hrec : received c oldVersion newVersion action fd with
  | none =>
      rcases patchService_of_refused hrec sys maxJnlSize with ⟨e, he⟩
      rw [he] at h
      rcases readerOutcome_some h with ⟨-, rfl⟩ | ⟨_, _, -, rfl⟩
      · exact hc
      · exact hc
  | some r =>
      have hold := received_oldVersion hrec
      have hprompt := fun hfollows => hok r.1 r.2 hrec (hold ▸ hfollows)
      exact (noneFollows_patch_iff hs hc hrec (fun hfollows _ => (hprompt hfollows).2.2) h).2
        fun hfollows => ⟨(hprompt hfollows).1, (hprompt hfollows).2.1⟩

/-- A patch that follows and waits in the queue is still there when the last answer has come: no event
of a run but a PATCH command without pending answer takes it out. -/
theorem follows_stays {c c' : Mdirc} {e : Event} (hwait : c.nbPendingAcks ≠ 0) (hc : ¬ NoneFollows c)
    (h : handle maxJnlSize c e = some c') : ¬ NoneFollows c' := by
  have hsame : c'.mdir = c.mdir → c'.patches = c.patches → ¬ NoneFollows c' := by
    intro hm hp hn
    refine hc fun p hmem => ?_
    rw [← hm]
    exact hn p (hp.symm ▸ hmem)
  -- only a PATCH reaches the queue, and with acks missing it can but add to it
  cases e with
  | files files =>
      cases h
      exact hsame rfl rfl
  | otherQuery now written =>
      cases h
      exact hsame rfl rfl
  | subscribe new hidden now written =>
      cases h
      rcases subscribe_frame c new hidden now written with ⟨hq, -, -⟩
      exact hsame hq.mdir hq.patches
  | transients entries now =>
      cases h
      rcases lsTransients_frame c entries now with ⟨hq, -, -⟩
      exact hsame hq.mdir hq.patches
  | answer kw now seq status compl =>
      simp only [handle] at h
      split_ifs at h
      · rcases finalize_frame c kw now seq status compl with ⟨hq, -, -⟩
        rcases hf : finalize c kw now seq status compl with ⟨c₁, r⟩
        rw [hf] at h hq
        rcases readerOutcome_some h with ⟨-, rfl⟩ | ⟨_, _, -, rfl⟩
        · exact hsame hq.mdir hq.patches
        · exact hsame hq.mdir hq.patches
      · cases h
        exact hc
  | patch sys oldVersion newVersion action fd =>
      simp only [handle] at h
      split_ifs at h
      · cases hrec : received c oldVersion newVersion action fd with
        | none =>
            rcases patchService_of_refused hrec sys maxJnlSize with ⟨e, he⟩
            rw [he] at h
            rcases readerOutcome_some h with ⟨-, rfl⟩ | ⟨_, _, -, rfl⟩
            · exact hc
            · exact hc
        | some r =>
            rcases (patchService_some hrec h).2.1 hwait with ⟨hm, hp⟩
            intro hn
            refine hc fun q hmem => ?_
            rw [← hm]
            exact hn q (hp.symm ▸ mem_insertPatch_of_mem r.1 hmem)
      · cases h
        exact hc

/-- In every run of prompt events nothing is ever held back. -/
theorem nothing_held_back_of_run {m : Mdir} {cnx : Cnx (Option Command)}
    {files : Bytes → Option Bytes} {trace : List (Mdirc × Event)} {c : Mdirc}
    (run : ClientRun maxJnlSize (Prompt maxJnlSize) (Mdirc.new m cnx files) trace c) :
    NothingHeldBack c := by
  have hinv : Sorted c.patches ∧ NoneFollows c := by
    refine ClientRun.invariant (P := fun _ c => Sorted c.patches ∧ NoneFollows c) ?_ ?_ run
    · exact ⟨List.Pairwise.nil, fun p hp => absurd hp List.not_mem_nil⟩
    · rintro trace c c' e ⟨hs, hc⟩ hok h
      -- `hok` says something of PATCH only: an answer runs the queue as far as it goes
      cases e with
      | files files =>
          cases h
          exact ⟨hs, hc⟩
      | otherQuery now written =>
          cases h
          exact ⟨hs, hc⟩
      | subscribe new hidden now written =>
          cases h
          rcases subscribe_frame c new hidden now written with ⟨hq, -, -⟩
          refine ⟨hq.patches ▸ hs, fun p hp => ?_⟩
          rw [hq.mdir]
          exact hc p (hq.patches ▸ hp)
      | transients entries now =>
          cases h
          rcases lsTransients_frame c entries now with ⟨hq, -, -⟩
          refine ⟨hq.patches ▸ hs, fun p hp => ?_⟩
          rw [hq.mdir]
          exact hc p (hq.patches ▸ hp)
      | answer kw now seq status compl =>
          simp only [handle] at h
          split_ifs at h
          · exact noneFollows_finalize hs hc h
          · cases h
            exact ⟨hs, hc⟩
      | patch sys oldVersion newVersion action fd =>
          simp only [handle] at h
          split_ifs at h
          · exact ⟨sorted_patch hs h, noneFollows_patch hs hc hok h⟩
          · cases h
            exact ⟨hs, hc⟩
  exact fun _ => hinv.2

/-! ## The last answer does not look at the queue -/

omit [Host] in
/-- Without anything to wait for, a patch is applied as soon as it is received. -/
theorem nothing_held_back_of_run_sample :
    let _ := plainHost
    let c := (patchService quietSys 10 oneTransient 0 1 (ascii "+") (ascii "sc-type: im\n\n")).1
    NothingHeldBack c ∧ c.nbPendingAcks = 0 ∧ mdirLastVersion c.mdir = 1 := by
  intro _ c
  have hok : (patchService quietSys 10 oneTransient 0 1 (ascii "+") (ascii "sc-type: im\n\n")).2 =
      .ok () := eq_ok_of_toOption (by decide)
  refine ⟨nothing_held_back_of_run (ClientRun.step _ ClientRun.start ?_
    (handle_patch_ok rfl hok)), by decide, by decide⟩
  intro p maps hrec _
  cases hrec
  exact ⟨rfl, inOrder_singleton _ _,
    patchesAccepted_singleton (eq_ok_of_toOption (by decide)) (by decide)⟩

omit [Host] in
/-- A patch is received while the answer to the transient one is waited for: when the answer comes,
nothing is waited for any more and the patch stays in the queue. -/
theorem held_back_after_answer :
    let _ := plainHost
    ∃ trace c, ClientRun 10 (fun _ _ _ => True) oneTransient trace c ∧ ¬ NothingHeldBack c := by
  intro _
  let c₁ := (lsTransients oneTransient (.ok [(ascii "+5", none)]) 0).1
  let c₂ := (patchService quietSys 10 c₁ 0 1 (ascii "+") (ascii "sc-type: im\n\n")).1
  let c₃ := (finalize c₂ .put 1 1 200 (ascii "2")).1
  have run₁ : ClientRun 10 (fun _ _ _ => True) oneTransient _ c₁ :=
    ClientRun.step (.transients (.ok [(ascii "+5", none)]) 0) ClientRun.start trivial rfl
  have run₂ : ClientRun 10 (fun _ _ _ => True) oneTransient _ c₂ :=
    ClientRun.step (.patch quietSys 0 1 (ascii "+") (ascii "sc-type: im\n\n")) run₁ trivial
      (handle_patch_ok (by decide) (eq_ok_of_toOption (by decide)))
  have run₃ : ClientRun 10 (fun _ _ _ => True) oneTransient _ c₃ :=
    ClientRun.step (.answer .put 1 1 200 (ascii "2")) run₂ trivial
      (handle_answer_ok (by decide) (eq_ok_of_toOption (by decide)))
  refine ⟨_, c₃, run₃, fun h => ?_⟩
  have hpatches : c₃.patches = [⟨0, 1, [⟨ascii "sc-type", ascii "im"⟩], .add⟩] := by decide
  have hlast : mdirLastVersion c₃.mdir = 0 := by decide
  refine h (by decide) _ (by rw [hpatches]; exact List.mem_singleton_self _) ?_
  rw [hlast]

end Prompt

end Scambio
