import Scambio.Library.Traces
import Scambio.Lib.Listing
import Scambio.Lib.MarkIndex
import Scambio.Lib.PlainLog

/-!
# ListOnce — every patch is listed once

`ListRun` interleaves calls of `mdir_patch` and calls of `mdir_patch_list` that all use one cursor, on
a mdir without transient patches.  What the calls wrote (`written`) says what there is to report.

- patches already listed are not listed again, since the cursor is only behind deleted ones;
- a patch added since the last listing is listed by the next one, unless it was deleted meanwhile;
- removals are never deleted, so each of them is listed.
-/

namespace Scambio

open Library

/-! ## Runs -/

/-- No file of the `.tmp` folder is a patch. -/
def NoTransient (tmp : Except Nat (List (Bytes × Option Bytes))) : Prop :=
  tmp = .error ENOENT ∨ ∃ files, tmp = .ok files ∧ ∀ f ∈ files, actionOfName f.1 = none

def Callback.isPatch : Callback → Bool
  | .put _ _ => true
  | .rem _ => true
  | .err _ _ => false

/-- A call of `mdir_patch_list`: the calls of `mdir_patch` that came before it, and the calls of
`put_cb` and `rem_cb` that it made. -/
structure Listing where
  history : List Call
  unsyncOnly : Bool
  calls : List Callback

/-- The last version when synchronised patches were last listed. -/
def lastListed (trace : List Listing) : Nat :=
  trace.foldl (fun n l => if l.unsyncOnly then n else (written l.history).length) 0

theorem lastListed_snoc (trace : List Listing) (l : Listing) :
    lastListed (trace ++ [l]) =
      if l.unsyncOnly then lastListed trace else (written l.history).length := by
  simp [lastListed]

section Run

variable [Host] (maxJnlSize : Nat) (ok : Sys → Mdir → Action → Header → Nat → Prop)

inductive ListRun : Mdir → MdirCursor → List Call → List Listing → Prop
  | init (path : Bytes) : ListRun (Mdir.new path) MdirCursor.new [] []
  | patch {m : Mdir} {cursor : MdirCursor} {calls : List Call} {trace : List Listing} (sys : Sys)
      (action : Action) (header : Header) (nbDeleted : Nat) : ListRun m cursor calls trace →
      ok sys m action header nbDeleted → RoomFor sys m action header nbDeleted →
      ListRun (mdirPatch sys maxJnlSize m action header nbDeleted).mdir cursor
        (calls ++ [callOf maxJnlSize sys m action header nbDeleted]) trace
  | list {m : Mdir} {cursor : MdirCursor} {calls : List Call} {trace : List Listing}
      (unsyncOnly : Bool) (order : List Bytes) (tmp err : Except Nat (List (Bytes × Option Bytes))) :
      ListRun m cursor calls trace → Lists order m.disk → NoTransient tmp →
      ListRun (mdirPatchList m cursor unsyncOnly order tmp err).1
        (mdirPatchList m cursor unsyncOnly order tmp err).2.cursor calls
        (trace ++ [⟨calls, unsyncOnly,
          (mdirPatchList m cursor unsyncOnly order tmp err).2.calls.filter Callback.isPatch⟩])

variable {maxJnlSize ok}

/-- What the calls wrote for a version. -/
def wroteAt (calls : List Call) (v : Int) : Option (Action × Option Header) :=
  if 1 ≤ v then (written calls)[(v - 1).toNat]?.bind readRecord else none

/-- Each report comes from a patch, in the order of versions; removals are all there, and each
addition that is not deleted at the first listing after it. -/
structure ListedOnce (calls : List Call) (trace : List Listing) (listed : List (Int × Callback)) :
    Prop where
  calls_eq : trace.flatMap Listing.calls = listed.map Prod.snd
  increasing : (listed.map Prod.fst).Pairwise (· < ·)
  origin : ∀ v c, (v, c) ∈ listed → (∃ h, c = .put h v) ∨
    ∃ h target, c = .rem target ∧ wroteAt calls v = some (.rem, some h) ∧ headerTarget h = .ok target
  removals : ∀ (v : Int) h target, v ≤ lastListed trace → wroteAt calls v = some (.rem, some h) →
    headerTarget h = .ok target → (v, .rem target) ∈ listed
  additions : ∀ t₁ l t₂ (v : Int) h, trace = t₁ ++ l :: t₂ → l.unsyncOnly = false → lastListed t₁ < v →
    wroteAt l.history v = some (.add, some h) → .put h v ∈ l.calls

/-! ## Reports of a list of records -/

theorem mem_reports {v : Int} {R : List Bytes} {x : Int} {c : Callback} :
    (x, c) ∈ reports v R ↔ ∃ (i : Nat) (r : Bytes), R[i]? = some r ∧ x = v + i ∧
      reportOf x r = some c := by
  induction R generalizing v with
  | nil => simp [reports]
  | cons r R ih =>
      rw [reports, List.mem_append, ih]
      constructor
      · rintro (hhead | ⟨i, s, hs, hx, hc⟩)
        · rw [Option.mem_toList, Option.map_eq_some_iff] at hhead
          rcases hhead with ⟨c', hc', heq⟩
          cases heq
          exact ⟨0, r, rfl, by simp, hc'⟩
        · exact ⟨i + 1, s, hs, by push_cast; omega, hc⟩
      · rintro ⟨_ | i, s, hs, hx, hc⟩
        · cases hs
          obtain rfl : x = v := by simpa using hx
          left
          rw [Option.mem_toList, Option.map_eq_some_iff]
          exact ⟨c, hc, rfl⟩
        · exact .inr ⟨i, s, hs, by push_cast at hx; omega, hc⟩

theorem reports_increasing (v : Int) (R : List Bytes) :
    ((reports v R).map Prod.fst).Pairwise (· < ·) := by
  induction R generalizing v with
  | nil => simp [reports]
  | cons r R ih =>
      have hafter : ∀ x ∈ (reports (v + 1) R).map Prod.fst, v < x := by
        intro x hx
        rcases List.mem_map.1 hx with ⟨⟨y, c⟩, hmem, rfl⟩
        rcases mem_reports.1 hmem with ⟨i, -, -, hy, -⟩
        simp only
        omega
      rw [reports, List.map_append, List.pairwise_append]
      refine ⟨?_, ih _, ?_⟩
      · cases reportOf v r <;> simp
      · intro a ha b hb
        have hav : a = v := by
          cases hrep : reportOf v r <;> simp_all
        rw [hav]
        exact hafter b hb

omit [Host] in
/-- The version of a record, its number from 0 being `i`. -/
theorem wroteAt_index {R : List Bytes} {v : Int} {i : Nat} (hv : v = ((1 + i : Nat) : Int)) :
    1 ≤ v ∧ R[(v - 1).toNat]? = R[i]? := by
  subst hv
  have hidx : (((1 + i : Nat) : Int) - 1).toNat = i := by omega
  exact ⟨by omega, by rw [hidx]⟩

theorem wroteAt_eq_some {calls : List Call} {v : Int} {x : Action × Option Header} :
    wroteAt calls v = some x ↔ ∃ (i : Nat) (r : Bytes), v = ((1 + i : Nat) : Int) ∧
      (written calls)[i]? = some r ∧ readRecord r = some x := by
  constructor
  · intro h
    unfold wroteAt at h
    split_ifs at h with hv
    rcases Option.bind_eq_some_iff.1 h with ⟨r, hr, hx⟩
    exact ⟨(v - 1).toNat, r, by omega, hr, hx⟩
  · rintro ⟨i, r, hv, hr, hx⟩
    rcases wroteAt_index (R := written calls) hv with ⟨hlow, hidx⟩
    rw [wroteAt, if_pos hlow, hidx, hr]
    exact hx

/-! ## What one patch does to the records -/

/-- A record stays or is deleted; that of a removal stays. -/
structure Evolves (R R' : List Bytes) : Prop where
  keep : ∀ (i : Nat) r, R[i]? = some r → ∃ r', R'[i]? = some r' ∧ (r' = r ∨ IsDeleted r')
  removal : ∀ (i : Nat) r h, R[i]? = some r → readRecord r = some (.rem, some h) → R'[i]? = some r

omit [Host] in
theorem Prepared.keep_or_deleted {action : Action} {header : Header} {R T : List Bytes}
    (h : Prepared action header R T) {i : Nat} {r : Bytes} (hr : R[i]? = some r) :
    ∃ r', T[i]? = some r' ∧ (r' = r ∨ IsDeleted r') := by
  rcases h.keep i with hkeep | ⟨hrem, ht, -⟩
  · exact ⟨r, hkeep.trans hr, .inl rfl⟩
  · rcases h.target hrem with ⟨n, r', ht', hn, hdel⟩
    rw [ht, Except.ok.injEq] at ht'
    obtain rfl : i = n := by omega
    exact ⟨r', hn, .inr hdel⟩

/-- The record of a removal is never the one that is tagged. -/
theorem Prepared.keep_removal (sys : Sys) {path : Bytes} {B : List Slot} {action : Action}
    {header : Header} {T : List Bytes} (h : Prepared action header (records B) T)
    (hacc : storePrepare sys path B action header ≠ none) {i : Nat} {r : Bytes} {hd : Header}
    (hr : (records B)[i]? = some r) (hread : readRecord r = some (.rem, some hd)) :
    T[i]? = some r := by
  rcases h.keep i with hkeep | ⟨hrem, ht, -⟩
  · exact hkeep.trans hr
  · subst hrem
    rcases storePrepare_target sys hacc with ⟨n, ht', r', hr', hkind⟩
    rw [ht, Except.ok.injEq] at ht'
    obtain rfl : i = n := by omega
    rw [hr] at hr'
    cases hr'
    rcases hkind with hdel | ⟨target, hadd⟩
    · rw [readRecord_of_isDeleted hdel] at hread
      cases hread
    · rw [hadd] at hread
      cases hread

/-- Every patch is readable once it is written, and has no sc-localid; the writes of the mark index
land where they should. -/
def listablePatch (sys : Sys) (m : Mdir) (action : Action) (header : Header) (nbDeleted : Nat) : Prop :=
  MarksSafe sys m action header nbDeleted ∧ (Accepted sys m action header nbDeleted →
    ∃ h, readRecord (patchRecord action (linkedHeader sys m.path action header)) =
      some (action, some h) ∧ headerFind h SC_LOCALID_FIELD = none)

variable {m : Mdir} {A : List Slot} {sys : Sys} {action : Action} {header : Header} {nb : Nat}

omit [Host] in
theorem records_blanks (A : List Slot) (nb : Nat) :
    records (A ++ List.replicate nb blankSlot) = records A ++ List.replicate nb blankRecord := by
  simp [records, blankSlot]

omit [Host] in
theorem getElem?_append_of_some {R S : List Bytes} {i : Nat} {r : Bytes} (h : R[i]? = some r) :
    (R ++ S)[i]? = some r := by
  rw [List.getElem?_append_left (List.getElem?_eq_some_iff.1 h).1, h]

theorem Refines.evolves (hmax : maxJnlSize < 2 ^ 32) (h : Refines maxJnlSize m A)
    (hlist : ∀ r ∈ records A, Listable r) (hok : listablePatch sys m action header nb) :
    Evolves (records A) (records (storePatch sys m.path A action header nb).1) ∧
      ∀ r ∈ records (storePatch sys m.path A action header nb).1, Listable r := by
  have hblanks : ∀ r ∈ records A ++ List.replicate nb blankRecord, Listable r := by
    intro r hr
    rcases List.mem_append.1 hr with hr | hr
    · exact hlist r hr
    · rw [(List.mem_replicate.1 hr).2]
      exact .inl isDeleted_blank
  rcases storePatch_records sys m.path A action header nb with ⟨hrec, -, -⟩ | ⟨T, hprep, hrec, -⟩
  · rw [hrec]
    exact ⟨⟨fun i r hr => ⟨r, getElem?_append_of_some hr, .inl rfl⟩,
      fun i r hd hr _ => getElem?_append_of_some hr⟩, hblanks⟩
  · have hacc : storePrepare sys m.path (A ++ List.replicate nb blankSlot) action header ≠ none := by
      intro hnone
      have hlen := congrArg List.length hrec
      simp only [storePatch_refused sys hnone, records_blanks, List.length_append,
        List.length_singleton, hprep.length] at hlen
      omega
    rw [hrec]
    refine ⟨⟨?_, ?_⟩, ?_⟩
    · intro i r hr
      rcases hprep.keep_or_deleted (getElem?_append_of_some hr) with ⟨r', hr', hkind⟩
      exact ⟨r', getElem?_append_of_some hr', hkind⟩
    · intro i r hd hr hread
      rw [← records_blanks] at hprep
      refine getElem?_append_of_some (hprep.keep_removal sys hacc ?_ hread)
      rw [records_blanks]
      exact getElem?_append_of_some hr
    · intro r hr
      rcases List.mem_append.1 hr with hr | hr
      · -- a record from before, or its deletion
        rcases List.getElem?_of_mem hr with ⟨i, hi⟩
        have hlt := (List.getElem?_eq_some_iff.1 hi).1
        rw [hprep.length] at hlt
        rcases hprep.keep_or_deleted (List.getElem?_eq_getElem hlt) with ⟨r', hr', hkind⟩
        rw [hi] at hr'
        cases hr'
        rcases hkind with rfl | hdel
        · exact hblanks _ (List.getElem_mem hlt)
        · exact .inl hdel
      · rw [List.mem_singleton.1 hr]
        rcases hok.2 ((h.accepted_iff hmax).1 hacc) with ⟨hd, hread, hlocal⟩
        exact .inr ⟨action, hd, hread, hlocal⟩

/-! ## What one listing reports -/

theorem isPatch_of_reportOf {v : Int} {r : Bytes} {c : Callback} (h : reportOf v r = some c) :
    c.isPatch = true := by
  unfold reportOf at h
  split at h
  · cases h
    rfl
  · rcases Option.map_eq_some_iff.1 h with ⟨t, -, rfl⟩
    rfl
  · cases h

theorem transientList_none {path : Bytes} {cursor : MdirCursor}
    {tmp : Except Nat (List (Bytes × Option Bytes))} (h : NoTransient tmp) :
    transientList path cursor tmp = ⟨cursor, [], .ok ()⟩ := by
  rcases h with rfl | ⟨files, rfl, hfiles⟩
  · rfl
  · simp only [transientList]
    induction files with
    | nil => rfl
    | cons f files ih =>
        rcases f with ⟨name, file⟩
        simp only [transientListLoop, hfiles (name, file) List.mem_cons_self]
        exact ih fun g hg => hfiles g (List.mem_cons_of_mem _ hg)

theorem errList_filter (path : Bytes) (err : Except Nat (List (Bytes × Option Bytes))) :
    (errList path err).1.filter Callback.isPatch = [] := by
  have hloop : ∀ files, (errListLoop path files).1.filter Callback.isPatch = [] := by
    intro files
    induction files with
    | nil => rfl
    | cons f files ih =>
        rcases f with ⟨name, file⟩
        rw [errListLoop]
        split
        · exact ih
        · split
          · exact ih
          · split
            · rfl
            · exact ih
  cases err with
  | ok files => exact hloop files
  | error errno =>
      simp only [errList]
      split_ifs <;> rfl

/-- A listing of synchronised patches, on the slots of the mdir. -/
theorem Refines.mdirPatchList (hmax : maxJnlSize < 2 ^ 32) (h : Refines maxJnlSize m A)
    (hlist : ∀ r ∈ records A, Listable r) {cursor : MdirCursor} {n : Nat}
    (hn : cursor.lastListedSync = n) {order : List Bytes} (hord : Lists order m.disk)
    {tmp : Except Nat (List (Bytes × Option Bytes))} (htmp : NoTransient tmp)
    (err : Except Nat (List (Bytes × Option Bytes))) :
    (mdirPatchList m cursor false order tmp err).2.cursor =
        mdirCursorSeek cursor (lastLive (n + 1) n ((records A).drop n)) ∧
      (mdirPatchList m cursor false order tmp err).2.calls.filter Callback.isPatch =
        (reports (n + 1) ((records A).drop n)).map Prod.snd := by
  have hreload : Refines maxJnlSize (mdirReload ErrBuf.new m (.ok order)).2 A := (h.reload hmax hord).1
  have hsynch := hreload.synchList hmax hlist cursor hn
  have hall : ∀ c ∈ (reports (n + 1) ((records A).drop n)).map Prod.snd, c.isPatch = true := by
    intro c hc
    rcases List.mem_map.1 hc with ⟨⟨x, c'⟩, hmem, rfl⟩
    rcases mem_reports.1 hmem with ⟨i, r, -, -, hrep⟩
    exact isPatch_of_reportOf hrep
  refine ⟨?_, ?_⟩
  · simp only [Scambio.mdirPatchList, hsynch, Bool.false_eq_true, if_false, transientList_none htmp,
      ListResult.after]
  · simp only [Scambio.mdirPatchList, hsynch, Bool.false_eq_true, if_false, transientList_none htmp,
      ListResult.after, List.append_nil, List.filter_append, errList_filter,
      List.filter_eq_self.2 hall]

/-- Without the synchronised patches there is nothing to list. -/
theorem mdirPatchList_unsyncOnly (cursor : MdirCursor) (order : List Bytes)
    {tmp : Except Nat (List (Bytes × Option Bytes))} (htmp : NoTransient tmp)
    (err : Except Nat (List (Bytes × Option Bytes))) :
    (mdirPatchList m cursor true order tmp err).2.cursor = cursor ∧
      (mdirPatchList m cursor true order tmp err).2.calls.filter Callback.isPatch = [] := by
  simp only [mdirPatchList, if_true, transientList_none htmp, ListResult.after, List.append_nil,
    List.nil_append, errList_filter, and_self]

theorem mdirPatchList_mdir (cursor : MdirCursor) (unsyncOnly : Bool) (order : List Bytes)
    (tmp err : Except Nat (List (Bytes × Option Bytes))) :
    (mdirPatchList m cursor unsyncOnly order tmp err).1 =
      (mdirReload ErrBuf.new m (.ok order)).2 := by
  simp only [mdirPatchList]
  split
  · rfl
  · split <;> rfl

/-! ## The cursor and what was reported -/

/-- What the cursor has passed: the versions listed, those after it being deleted. -/
structure CaughtUp (R : List Bytes) (cursor : MdirCursor) (last : Nat) : Prop where
  bound : last ≤ R.length
  cursor : ∃ n : Nat, cursor.lastListedSync = n ∧ n ≤ last ∧
    ∀ (i : Nat) r, n ≤ i → i < last → R[i]? = some r → IsDeleted r

theorem CaughtUp.evolve {R R' : List Bytes} {cursor : MdirCursor} {last : Nat}
    (h : CaughtUp R cursor last) (hev : Evolves R R') : CaughtUp R' cursor last := by
  rcases h with ⟨hbound, n, hn, hle, hdel⟩
  have hold : ∀ {i : Nat}, i < R.length → ∃ r r', R[i]? = some r ∧ R'[i]? = some r' ∧
      (r' = r ∨ IsDeleted r') := by
    intro i hi
    rcases hev.keep i R[i] (List.getElem?_eq_getElem hi) with ⟨r', hr', hkind⟩
    exact ⟨R[i], r', List.getElem?_eq_getElem hi, hr', hkind⟩
  refine ⟨?_, n, hn, hle, ?_⟩
  · by_contra hgt
    rcases hold (i := last - 1) (by omega) with ⟨-, r', -, hr', -⟩
    have := (List.getElem?_eq_some_iff.1 hr').1
    omega
  · intro i s hlow hhigh hs
    rcases hold (i := i) (by omega) with ⟨r, r', hr, hr', hkind⟩
    rw [hs] at hr'
    cases hr'
    rcases hkind with rfl | hd
    · exact hdel i _ hlow hhigh hr
    · exact hd

/-- Listing from the cursor is listing from the last version that was there. -/
theorem CaughtUp.reports {R : List Bytes} {cursor : MdirCursor} {last n : Nat}
    (h : CaughtUp R cursor last) (hn : cursor.lastListedSync = n) :
    Scambio.reports (n + 1) (R.drop n) = Scambio.reports (last + 1) (R.drop last) := by
  rcases h with ⟨hbound, n', hn', hle, hdel⟩
  obtain rfl : n = n' := by omega
  have hsplit : R.drop n = (R.drop n).take (last - n) ++ R.drop last := by
    have htake := List.take_append_drop (last - n) (R.drop n)
    rw [List.drop_drop, Nat.add_sub_cancel' hle] at htake
    exact htake.symm
  have hpassed : ∀ r ∈ (R.drop n).take (last - n), IsDeleted r := by
    intro r hr
    rcases List.getElem?_of_mem hr with ⟨i, hi⟩
    have hlt := (List.getElem?_eq_some_iff.1 hi).1
    rw [List.length_take, List.length_drop] at hlt
    rw [List.getElem?_take_of_lt (by omega), List.getElem?_drop] at hi
    exact hdel (n + i) r (by omega) (by omega) hi
  have hlen : ((R.drop n).take (last - n)).length = last - n := by
    rw [List.length_take, List.length_drop]
    omega
  have hcast : (n : Int) + 1 + ((last - n : Nat) : Int) = last + 1 := by omega
  rw [hsplit, reports_append, reports_deleted hpassed, hlen, hcast, List.nil_append]

omit [Host] in
/-- After a listing the cursor is behind deleted records only. -/
theorem caughtUp_listed {R : List Bytes} {cursor : MdirCursor} {n : Nat} (hn : n ≤ R.length) :
    CaughtUp R (mdirCursorSeek cursor (lastLive (n + 1) n (R.drop n))) R.length := by
  rcases lastLive_spec (show (n : Int) < n + 1 by omega) (R.drop n) with ⟨hlow, hhigh, hafter⟩
  rw [List.length_drop] at hhigh
  refine ⟨le_rfl, (lastLive (n + 1) n (R.drop n)).toNat, ?_, by omega, ?_⟩
  · simp only [mdirCursorSeek]
    omega
  · intro i r hi hlt hr
    refine hafter (i - n) r ?_ (by omega)
    rw [List.getElem?_drop]
    have hidx : n + (i - n) = i := by omega
    rw [hidx, hr]

variable {calls : List Call} {trace : List Listing} {listed : List (Int × Callback)}

/-- One more call of `mdir_patch` changes nothing to what was reported. -/
theorem ListedOnce.patch (h : ListedOnce calls trace listed) {c : Call}
    (hev : Evolves (written calls) (written (calls ++ [c])))
    (hbound : lastListed trace ≤ (written calls).length) :
    ListedOnce (calls ++ [c]) trace listed := by
  refine ⟨h.calls_eq, h.increasing, ?_, ?_, h.additions⟩
  · intro v cb hmem
    rcases h.origin v cb hmem with hput | ⟨hd, target, hcb, hw, ht⟩
    · exact .inl hput
    · rcases wroteAt_eq_some.1 hw with ⟨i, r, hv, hr, hread⟩
      exact .inr ⟨hd, target, hcb, wroteAt_eq_some.2 ⟨i, r, hv, hev.removal i r hd hr hread, hread⟩, ht⟩
  · intro v hd target hle hw ht
    rcases wroteAt_eq_some.1 hw with ⟨i, r', hv, hr', hread⟩
    have hi : i < (written calls).length := by omega
    rcases hev.keep i _ (List.getElem?_eq_getElem hi) with ⟨s, hs, hkind⟩
    rw [hr'] at hs
    cases hs
    -- a removal that is there was there before
    rcases hkind with hsame | hdel
    · refine h.removals v hd target hle (wroteAt_eq_some.2 ⟨i, r', hv, ?_, hread⟩) ht
      rw [hsame]
      exact List.getElem?_eq_getElem hi
    · rw [readRecord_of_isDeleted hdel] at hread
      cases hread

theorem ListedOnce.unsyncOnly (h : ListedOnce calls trace listed) :
    ListedOnce calls (trace ++ [⟨calls, true, []⟩]) listed := by
  refine ⟨?_, h.increasing, h.origin, ?_, ?_⟩
  · simpa using h.calls_eq
  · intro v hd target hle
    rw [lastListed_snoc] at hle
    exact h.removals v hd target hle
  · intro t₁ l t₂ v hd heq hsync
    rcases snoc_eq_append_cons heq with ⟨-, -, rfl⟩ | ⟨t, -, rfl⟩
    · cases hsync
    · exact h.additions t₁ l t v hd rfl hsync

/-- One more listing reports what came since the one before. -/
theorem ListedOnce.list (h : ListedOnce calls trace listed)
    (hrange : ∀ x ∈ listed, x.1 ≤ lastListed trace) :
    ListedOnce calls
      (trace ++ [⟨calls, false, (reports (lastListed trace + 1)
        ((written calls).drop (lastListed trace))).map Prod.snd⟩])
      (listed ++ reports (lastListed trace + 1) ((written calls).drop (lastListed trace))) := by
  have hindex : ∀ {x : Int} {i : Nat}, x = (lastListed trace : Int) + 1 + i →
      x = ((1 + (lastListed trace + i) : Nat) : Int) := by
    intro x i hx
    push_cast
    omega
  refine ⟨?_, ?_, ?_, ?_, ?_⟩
  · simp [h.calls_eq]
  · rw [List.map_append, List.pairwise_append]
    refine ⟨h.increasing, reports_increasing _ _, ?_⟩
    intro a ha b hb
    rcases List.mem_map.1 ha with ⟨x, hx, rfl⟩
    rcases List.mem_map.1 hb with ⟨⟨y, c⟩, hy, rfl⟩
    rcases mem_reports.1 hy with ⟨i, -, -, hyi, -⟩
    have := hrange x hx
    simp only
    omega
  · intro v c hmem
    rcases List.mem_append.1 hmem with hmem | hmem
    · exact h.origin v c hmem
    · rcases mem_reports.1 hmem with ⟨i, r, hr, hv, hrep⟩
      rw [List.getElem?_drop] at hr
      unfold reportOf at hrep
      split at hrep
      · next hd hread =>
          cases hrep
          exact .inl ⟨hd, rfl⟩
      · next hd hread =>
          rcases Option.map_eq_some_iff.1 hrep with ⟨target, ht, rfl⟩
          exact .inr ⟨hd, target, rfl, wroteAt_eq_some.2 ⟨_, r, hindex hv, hr, hread⟩,
            eq_ok_of_toOption ht⟩
      · cases hrep
  · intro v hd target hle hw ht
    rw [List.mem_append]
    -- a removal is in what was listed before, or it is new
    by_cases hold : v ≤ lastListed trace
    · exact .inl (h.removals v hd target hold hw ht)
    · right
      rcases wroteAt_eq_some.1 hw with ⟨i, r, hv, hr, hread⟩
      refine mem_reports.2 ⟨i - lastListed trace, r, ?_, by omega, ?_⟩
      · rw [List.getElem?_drop, Nat.add_sub_cancel' (by omega), hr]
      · simp [reportOf, hread, ht, Except.toOption]
  · intro t₁ l t₂ v hd heq hsync hlt hw
    -- the last listing, or one before it
    rcases snoc_eq_append_cons heq with ⟨-, rfl, rfl⟩ | ⟨t, -, rfl⟩
    · rcases wroteAt_eq_some.1 hw with ⟨i, r, hv, hr, hread⟩
      refine List.mem_map.2 ⟨(v, .put hd v), mem_reports.2 ⟨i - lastListed trace, r, ?_, by omega, ?_⟩, rfl⟩
      · rw [List.getElem?_drop, Nat.add_sub_cancel' (by omega), hr]
      · simp [reportOf, hread]
    · exact h.additions t₁ l t v hd rfl hsync hlt hw

/-- Over a whole run, every patch is listed once. -/
theorem listed_once_of_run (hmax : maxJnlSize < 2 ^ 32) {cursor : MdirCursor}
    (run : ListRun maxJnlSize listablePatch m cursor calls trace) :
    ∃ listed, ListedOnce calls trace listed := by
  -- what was listed has no version past the last listing, which the cursor stands for
  have hinv : ∃ A listed, Refines maxJnlSize m A ∧ m.disk.power = none ∧
      records A = written calls ∧ (∀ r ∈ records A, Listable r) ∧
      CaughtUp (records A) cursor (lastListed trace) ∧ ListedOnce calls trace listed ∧
      ∀ x ∈ listed, x.1 ≤ lastListed trace := by
    induction run with
    | init path =>
        refine ⟨[], [], refines_new maxJnlSize path, rfl, rfl, by simp [records],
          ⟨by simp [lastListed], 0, rfl, by simp, by simp [records]⟩,
          ⟨rfl, by simp, by simp, ?_, by simp⟩, by simp⟩
        intro v hd target _ hw
        rcases wroteAt_eq_some.1 hw with ⟨i, r, -, hr, -⟩
        simp [written] at hr
    | @patch m cursor calls trace sys action header nb _ hok hroom ih =>
        rcases ih with ⟨A, listed, href, hpow, hw, hlist, hup, honce, hrange⟩
        rcases href.callOf hmax hpow hroom hok.1 with ⟨href', -, -, hpow', -⟩
        rcases href.evolves hmax hlist hok with ⟨hev, hlist'⟩
        have hw' : records (storePatch sys m.path A action header nb).1 =
            written (calls ++ [callOf maxJnlSize sys m action header nb]) := by
          rw [href.records_patch hmax hpow hroom hok.1, hw, written_snoc]
        refine ⟨_, listed, href', hpow', hw', hlist', hup.evolve hev, honce.patch ?_ ?_, hrange⟩
        · rw [← hw, ← hw']
          exact hev
        · rw [← hw]
          exact hup.bound
    | @list m cursor calls trace unsyncOnly order tmp err _ hord htmp ih =>
        rcases ih with ⟨A, listed, href, hpow, hw, hlist, hup, honce, hrange⟩
        have href' : Refines maxJnlSize (mdirReload ErrBuf.new m (.ok order)).2 A :=
          (href.reload hmax hord).1
        have hpow' := (mdirReload_power ErrBuf.new m order).trans hpow
        rw [mdirPatchList_mdir]
        cases unsyncOnly with
        -- only the transients: the patches of the journals are left for later
        | true =>
            rcases mdirPatchList_unsyncOnly (m := m) cursor order htmp err
              with ⟨hcursor, hcalls⟩
            rw [hcursor, hcalls]
            refine ⟨A, listed, href', hpow', hw, hlist, ?_, honce.unsyncOnly, ?_⟩
            · rw [lastListed_snoc]
              exact hup
            · rw [lastListed_snoc]
              exact hrange
        | false =>
            rcases hup.cursor with ⟨n, hn, hle, -⟩
            rcases href.mdirPatchList hmax hlist hn hord htmp err with ⟨hcursor, hcalls⟩
            rw [hcursor, hcalls, hup.reports hn, hw]
            have hbound := hup.bound
            rw [hw] at hbound
            refine ⟨A, _, href', hpow', hw, hlist, ?_, honce.list hrange, ?_⟩
            · rw [lastListed_snoc, hw]
              exact caughtUp_listed (hle.trans hbound)
            · intro x hx
              rw [lastListed_snoc]
              simp only [Bool.false_eq_true, if_false]
              rcases List.mem_append.1 hx with hx | hx
              · have := hrange x hx
                omega
              · rcases mem_reports.1 hx with ⟨i, r, hr, hxi, -⟩
                have hlt := (List.getElem?_eq_some_iff.1 hr).1
                rw [List.length_drop] at hlt
                omega
  rcases hinv with ⟨A, listed, -, -, -, -, -, honce, -⟩
  exact ⟨listed, honce⟩

theorem ReadableHeader.listablePatch (hp : ReadableHeader header)
    (hlocal : headerFind header SC_LOCALID_FIELD = none) :
    Scambio.listablePatch sys m action header nb := by
  refine ⟨.inr (hp.not_marksWritten sys m action nb), fun _ => ⟨header, ?_, hlocal⟩⟩
  rw [hp.linked]
  exact readRecord_patchRecord hp.canonical hp.short action

end Run

theorem listed_once_of_run_sample :
    let _ := plainHost
    let h : Header := [⟨ascii "from", ascii "a b"⟩]
    let m := (mdirPatch quietSys 2000 (Mdir.new (ascii "/m/1")) .add h 0).mdir
    let calls := [callOf 2000 quietSys (Mdir.new (ascii "/m/1")) .add h 0]
    let r := mdirPatchList m MdirCursor.new false [jnlStem 1] (.error ENOENT) (.error ENOENT)
    r.2.calls = [.put h 1] ∧
      ∃ listed, ListedOnce calls [⟨calls, false, r.2.calls.filter Callback.isPatch⟩] listed := by
  intro _ h m calls r
  have hp : ReadableHeader h := ⟨⟨by decide, by decide, by decide⟩, by decide⟩
  have hlog : m.disk.log = Function.update (Function.update (fun _ => none) (jnlStem 1) (some []))
      (jnlStem 1) (some (patchRecord .add h)) := rfl
  have hlists : Lists [jnlStem 1] m.disk := by
    refine lists_singleton (by simp [hlog]) fun t ht => ?_
    simp [hlog, ht]
  have run₁ : ListRun 2000 listablePatch m MdirCursor.new calls [] :=
    .patch quietSys .add h 0 (.init (ascii "/m/1")) (hp.listablePatch (by decide))
      (by decide)
  refine ⟨by decide, ?_⟩
  exact listed_once_of_run (by norm_num)
    (.list false [jnlStem 1] (.error ENOENT) (.error ENOENT) run₁ hlists (.inl rfl))

/-- A mark, where positional writes land at the end of the file: the index gets two entries that no
patch has, and the listing stops before the mark. -/
theorem mark_not_listed :
    let _ := linuxHost
    ∃ m cursor calls trace, ListRun 2000 anyPatch m cursor calls trace ∧
      ¬ ∃ listed, ListedOnce calls trace listed := by
  intro _
  -- the first patch of the mdir, with itself for target
  let k : Header := [⟨ascii "sc-type", ascii "mark"⟩, ⟨ascii "sc-target", ascii "1"⟩]
  let m := (mdirPatch quietSys 2000 (Mdir.new (ascii "/m/1")) .add k 0).mdir
  let calls := [callOf 2000 quietSys (Mdir.new (ascii "/m/1")) .add k 0]
  have run₁ : ListRun 2000 anyPatch m MdirCursor.new calls [] :=
    .patch quietSys .add k 0 (.init (ascii "/m/1")) trivial (by decide)
  have hlog : m.disk.log = Function.update (Function.update (fun _ => none) (jnlStem 1) (some []))
      (jnlStem 1) (some (patchRecord .add k)) := rfl
  have hlists : Lists [jnlStem 1] m.disk := by
    refine lists_singleton (by simp [hlog]) fun t ht => ?_
    simp [hlog, ht]
  have run₂ := ListRun.list false [jnlStem 1] (.error ENOENT) (.error ENOENT) run₁ hlists (.inl rfl)
  refine ⟨_, _, _, _, run₂, ?_⟩
  rintro ⟨listed, honce⟩
  have hput := honce.additions [] _ [] 1 k rfl rfl (by decide) (by decide)
  revert hput
  decide

end Scambio
