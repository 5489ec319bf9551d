import Scambio.Lib.PlainMdir
import Scambio.Mdsyncc.LocalId

/-!
# Replica — the journals of a client follow those of the server

The client applies the patches it receives one after the other, with blanks in place of those that the
server skipped.  The server may have removed more of them in the meantime.

* `WithLocalId` : a header, or the same one tied to a transient patch of the client;
* `ReplicaOf`   : what the records of the client owe to the entries of the server;
* `Queued`      : a patch of the queue that comes from these entries.

The queue then always applies: the journals refuse none of its patches, and each of them leads to the
version it was sent for (`tryApplyLoop_replica`).
-/

namespace Scambio

open Library

/-! ## Headers tied to a transient patch -/

def WithLocalId (h h' : Header) : Prop :=
  h' = h ∨ ∃ local' : Int, (-2 ^ 63 ≤ local' ∧ local' < 2 ^ 63) ∧
    h' = headerFieldNew h SC_LOCALID_FIELD (mdirVersion2str local')

/-- The transient versions of the maps are numbers of 64 bits. -/
def MapsInRange (maps : List C2lMap) : Prop :=
  ∀ c2l ∈ maps, -2 ^ 63 ≤ c2l.local' ∧ c2l.local' < 2 ^ 63

theorem withLocalId_tieLocalId {maps : List C2lMap} (hmaps : MapsInRange maps) (version : Int) (h : Header) :
    WithLocalId h (tieLocalId maps version h).1 := by
  unfold tieLocalId
  cases hs : c2lSearch maps version with
  | none => exact .inl rfl
  | some c2l => exact .inr ⟨_, hmaps c2l (List.mem_of_find?_eq_some hs), rfl⟩

theorem rememberVersionMap_inRange {compl filename : Bytes} {maps : List C2lMap}
    (h : rememberVersionMap [] compl filename = .ok maps) : MapsInRange maps := by
  unfold rememberVersionMap at h
  cases hcentral : mdirStr2version compl with
  | error e => simp [hcentral] at h
  | ok central =>
      simp only [hcentral] at h
      split_ifs at h
      cases hlocal : mdirStr2version ((basename filename).drop 1) with
      | error e =>
          simp only [hlocal] at h
          cases h
      | ok n =>
          simp only [hlocal, Except.ok.injEq] at h
          subst h
          intro c2l hmem
          rw [c2lNew, List.mem_singleton] at hmem
          subst hmem
          unfold mdirStr2version at hlocal
          split at hlocal
          · next v hv =>
              cases hlocal
              exact sscanfInt64_range hv
          · cases hlocal

theorem learned_inRange {c : Mdirc} {kw : Kw} {now seq status : Int} {compl : Bytes} {c2l : C2lMap}
    (h : learned c kw now seq status compl = some c2l) : -2 ^ 63 ≤ c2l.local' ∧ c2l.local' < 2 ^ 63 := by
  unfold learned at h
  split_ifs at h
  split at h
  · cases h
  · split at h
    · cases h
    · next command _ =>
        split_ifs at h
        cases hmaps : rememberVersionMap [] compl command.filename with
        | error e => simp [hmaps, Except.toOption] at h
        | ok maps =>
            simp only [hmaps, Except.toOption, Option.bind_some] at h
            exact rememberVersionMap_inRange hmaps c2l (List.mem_of_mem_head? h)

theorem handle_mapsInRange [Host] {maxJnlSize : Nat} {c c' : Mdirc} {e : Event}
    (h : handle maxJnlSize c e = some c') (hmaps : MapsInRange c.c2lMaps) : MapsInRange c'.c2lMaps := by
  intro c2l hmem
  rcases (handle_moves h).maps c2l hmem with hold | hnew
  · exact hmaps c2l hold
  · cases e with
    | answer kw now seq status compl =>
        simp only [learnedBy] at hnew
        split_ifs at hnew
        exact learned_inRange hnew
    | files | otherQuery | subscribe | transients | patch => cases hnew

theorem headerFind_localId {name : Bytes} (hne : strcaseeq (SC_LOCALID_FIELD.map tolower) name = false)
    (h : Header) (value : Bytes) :
    headerFind (headerFieldNew h SC_LOCALID_FIELD value) name = headerFind h name := by
  simp [headerFind, headerFieldNew, List.find?_append, hne]

section WithLocalId

variable {h h' : Header}

theorem WithLocalId.find (hloc : WithLocalId h h') (name : Bytes)
    (hne : strcaseeq (SC_LOCALID_FIELD.map tolower) name = false) :
    headerFind h' name = headerFind h name := by
  rcases hloc with rfl | ⟨n, -, rfl⟩
  · rfl
  · exact headerFind_localId hne h _

theorem WithLocalId.target (hloc : WithLocalId h h') : headerTarget h' = headerTarget h := by
  simp only [headerTarget, hloc.find SC_TARGET_FIELD (by decide)]

theorem WithLocalId.hasType (hloc : WithLocalId h h') (type : Bytes) :
    headerHasType h' type = headerHasType h type := by
  simp only [headerHasType, hloc.find SC_TYPE_FIELD (by decide)]

theorem canonicalField_localId (n : Int) :
    CanonicalField { name := SC_LOCALID_FIELD.map tolower, value := mdirVersion2str n } := by
  have hname : CleanText (SC_LOCALID_FIELD.map tolower) := by decide
  have hlower : (SC_LOCALID_FIELD.map tolower).map tolower = SC_LOCALID_FIELD.map tolower := by
    decide
  have hcolon : (58 : UInt8) ∉ SC_LOCALID_FIELD.map tolower := by decide
  exact ⟨hname, hlower, hcolon, cleanText_printInt n⟩

theorem shortField_localId {n : Int} (hn : -2 ^ 63 ≤ n ∧ n < 2 ^ 63) :
    ShortField { name := SC_LOCALID_FIELD.map tolower, value := mdirVersion2str n } := by
  have hname : (SC_LOCALID_FIELD.map tolower).length ≤ 1000 := by decide
  have hvalue : (mdirVersion2str n).length ≤ 1000 := (length_printInt hn.1 hn.2).trans (by decide)
  exact ⟨hname, hvalue⟩

/-- A property of the fields that the local id has as well. -/
theorem WithLocalId.forall_mem (hloc : WithLocalId h h') {p : HeaderField → Prop} (hp : ∀ hf ∈ h, p hf)
    (hid : ∀ n : Int, -2 ^ 63 ≤ n ∧ n < 2 ^ 63 →
      p { name := SC_LOCALID_FIELD.map tolower, value := mdirVersion2str n }) : ∀ hf ∈ h', p hf := by
  rcases hloc with rfl | ⟨n, hn, rfl⟩
  · exact hp
  · intro hf hmem
    rcases List.mem_append.1 hmem with hmem | hmem
    · exact hp hf hmem
    · rw [List.mem_singleton.1 hmem]
      exact hid n hn

theorem WithLocalId.plain (hloc : WithLocalId h h') (hp : ReadableHeader h) : ReadableHeader h' :=
  { canonical := hloc.forall_mem hp.canonical fun n _ => canonicalField_localId n
    not_dir := (hloc.hasType _).trans hp.not_dir
    not_mark := (hloc.hasType _).trans hp.not_mark
    short := hloc.forall_mem hp.short fun _ hn => shortField_localId hn }

end WithLocalId

/-! ## Records of the client -/

/-- The records hold the first entries: each one as it was patched, maybe with its local id, or deleted
and removed from the entries as well.  What the removals among them have for target is deleted. -/
structure ReplicaOf (R : List Bytes) (G : Entries) : Prop where
  length : R.length ≤ G.length
  entry : ∀ i r, R[i]? = some r → (IsDeleted r ∧ RemovedIn G ((1 + i : Nat) : Int)) ∨
    ∃ a h h', G[i]? = some (a, h) ∧ WithLocalId h h' ∧ r = patchRecord a h'
  removed : ∀ i h n, i < R.length → G[i]? = some (Action.rem, h) →
    headerTarget h = .ok ((1 + n : Nat) : Int) → ∃ r, R[n]? = some r ∧ IsDeleted r

theorem replicaOf_nil : ReplicaOf [] [] :=
  ⟨le_rfl, fun i r hr => by simp at hr, fun i h n hi => by simp at hi⟩

section ReplicaOf

variable {R T : List Bytes} {G : Entries}

/-- The server goes on without the client. -/
theorem ReplicaOf.snoc (h : ReplicaOf R G) (e : Action × Header) : ReplicaOf R (G ++ [e]) := by
  have hget : ∀ {i : Nat}, i < R.length → (G ++ [e])[i]? = G[i]? := by
    intro i hi
    exact List.getElem?_append_left (by have := h.length; omega)
  refine ⟨?_, ?_, ?_⟩
  · rw [List.length_append]
    have := h.length
    omega
  · intro i r hr
    rcases h.entry i r hr with ⟨hdel, hrem⟩ | ⟨a, hd, hd', hi, hrest⟩
    · exact .inl ⟨hdel, removedIn_snoc.2 (.inl hrem)⟩
    · exact .inr ⟨a, hd, hd', (hget (List.getElem?_eq_some_iff.1 hr).1).trans hi, hrest⟩
  · intro i hd n hi hg ht
    rw [hget hi] at hg
    exact h.removed i hd n hi hg ht

/-- Nothing that is deleted comes back. -/
theorem Prepared.isDeleted {action : Action} {header : Header} (h : Prepared action header R T) {i : Nat}
    {r : Bytes} (hr : R[i]? = some r) (hdel : IsDeleted r) : ∃ r', T[i]? = some r' ∧ IsDeleted r' := by
  rcases h.keep i with hk | ⟨hact, ht, -⟩
  · exact ⟨r, hk.trans hr, hdel⟩
  · rcases h.target hact with ⟨n, r', ht', hn, hdel'⟩
    rw [ht, Except.ok.injEq] at ht'
    obtain rfl : i = n := by omega
    exact ⟨r', hn, hdel'⟩

/-- The blanks stand for entries that the server has removed. -/
theorem ReplicaOf.blanks (h : ReplicaOf R G) {nb : Nat} (hlen : R.length + nb ≤ G.length)
    (hblank : ∀ i, R.length ≤ i → i < R.length + nb → RemovedIn G ((1 + i : Nat) : Int))
    (hG : PlainEntries G) : ReplicaOf (R ++ List.replicate nb blankRecord) G := by
  have hold : ∀ {i : Nat} {r : Bytes}, R[i]? = some r →
      (R ++ List.replicate nb blankRecord)[i]? = some r := by
    intro i r hr
    rw [List.getElem?_append_left (List.getElem?_eq_some_iff.1 hr).1, hr]
  refine ⟨by simpa using hlen, ?_, ?_⟩
  · intro i r hr
    by_cases hi : i < R.length
    · rw [List.getElem?_append_left hi] at hr
      exact h.entry i r hr
    · rw [List.getElem?_append_right (by omega), List.getElem?_replicate] at hr
      split_ifs at hr with hin
      cases hr
      exact .inl ⟨isDeleted_blank, hblank i (by omega) (by omega)⟩
  · intro i hd n hi hg ht
    by_cases hlt : i < R.length
    · rcases h.removed i hd n hlt hg ht with ⟨r, hr, hdel⟩
      exact ⟨r, hold hr, hdel⟩
    · -- a removal is never removed, so that no blank stands for one
      rw [List.length_append, List.length_replicate] at hi
      exact absurd (hblank i (by omega) hi) (hG.not_removed_rem hg)

/-- One more entry, once the journals have accepted it. -/
theorem ReplicaOf.prepared (h : ReplicaOf R G) {a : Action} {hd hd' : Header}
    (hprep : Prepared a hd' R T) (hloc : WithLocalId hd hd') (hg : G[R.length]? = some (a, hd)) :
    ReplicaOf (T ++ [patchRecord a hd']) G := by
  have hlen := hprep.length
  have hleft : ∀ {i : Nat}, i < R.length → (T ++ [patchRecord a hd'])[i]? = T[i]? := by
    intro i hi
    exact List.getElem?_append_left (by omega)
  have hremoved : ∀ {i : Nat}, a = .rem → headerTarget hd' = .ok ((1 + i : Nat) : Int) →
      RemovedIn G ((1 + i : Nat) : Int) := by
    rintro i rfl ht
    exact ⟨hd, List.mem_of_getElem? hg, hloc.target ▸ ht⟩
  refine ⟨?_, ?_, ?_⟩
  · have := (List.getElem?_eq_some_iff.1 hg).1
    rw [List.length_append, List.length_singleton]
    omega
  · intro i r hr
    by_cases hi : i < R.length
    · rw [hleft hi] at hr
      rcases hprep.keep i with hk | ⟨hact, ht, -⟩
      · exact h.entry i r (hk ▸ hr)
      · rcases hprep.target hact with ⟨n, r', ht', hn, hdel⟩
        rw [ht, Except.ok.injEq] at ht'
        obtain rfl : i = n := by omega
        rw [hn] at hr
        cases hr
        exact .inl ⟨hdel, hremoved hact ht⟩
    · rw [List.getElem?_append_right (by omega), List.getElem?_singleton] at hr
      split_ifs at hr with hzero
      cases hr
      obtain rfl : i = R.length := by omega
      exact .inr ⟨a, hd, hd', hg, hloc, rfl⟩
  · intro i x n hi hx ht
    rw [List.length_append, List.length_singleton] at hi
    by_cases hlt : i < R.length
    · rcases h.removed i x n hlt hx ht with ⟨r, hr, hdel⟩
      rcases hprep.isDeleted hr hdel with ⟨r', hr', hdel'⟩
      exact ⟨r', (hleft (List.getElem?_eq_some_iff.1 hr).1).trans hr', hdel'⟩
    · -- the patch itself
      obtain rfl : i = R.length := by omega
      rw [hg] at hx
      cases hx
      rcases hprep.target rfl with ⟨n', r, ht', hn, hdel⟩
      rw [hloc.target, ht, Except.ok.injEq] at ht'
      obtain rfl : n = n' := by omega
      have hT := (List.getElem?_eq_some_iff.1 hn).1
      exact ⟨r, (hleft (by omega)).trans hn, hdel⟩

end ReplicaOf

section Patch

variable [Host] (sys : Sys) (path : Bytes) {A : List Slot} {G : Entries}

/-- The checks of `mdir_patch` pass on the client, as they have passed on the server: the target of a
removal is an addition that is still there, or it is deleted already. -/
theorem ReplicaOf.storePrepare_ne_none (h : ReplicaOf (records A) G) (hG : PlainEntries G) {a : Action}
    {hd hd' : Header} (hloc : WithLocalId hd hd') (hg : G[A.length]? = some (a, hd)) :
    storePrepare sys path A a hd' ≠ none := by
  have hplain := hloc.plain (hG.plain _ (List.mem_of_getElem? hg))
  cases a with
  | add => simp [storePrepare, storePrepareAdd, headerIsDirectory, hplain.not_dir]
  | rem =>
      rcases hG.target _ _ hg with ⟨n, ht, hn, x, hx⟩
      have hnum : ¬ ((1 + n : Nat) : Int) < 1 := by omega
      have hidx : (((1 + n : Nat) : Int) - 1).toNat = n := by omega
      have hget : A[n]? = some A[n] := List.getElem?_eq_getElem hn
      have hrec : (records A)[n]? = some A[n].record := by simp [records, hget]
      have hremoval : storeRemoval sys path A hd' ≠ .refused := by
        simp only [storeRemoval, hloc.target, ht, if_neg hnum, hidx, hget]
        rcases h.entry n _ hrec with ⟨hdel, -⟩ | ⟨b, y, y', hy, hyloc, heq⟩
        · simp [readRecord_of_isDeleted hdel]
        · rw [hx] at hy
          cases hy
          have hyplain := hyloc.plain (hG.plain _ (List.mem_of_getElem? hx))
          simp [heq, readRecord_patchRecord hyplain.canonical hyplain.short, headerIsDirectory, hyplain.not_dir]
      simp only [storePrepare]
      cases hr : storeRemoval sys path A hd' with
      | refused => exact absurd hr hremoval
      | already => simp
      | tag n => simp

/-- The next patch is applied, after the blanks, under the version it was sent for. -/
theorem ReplicaOf.storePatch (h : ReplicaOf (records A) G) (hG : PlainEntries G) {a : Action}
    {hd hd' : Header} {new : Int} (hloc : WithLocalId hd hd') (hpatch : PatchOf G A.length new a hd)
    (nb : Nat) (hnb : new = ((A.length + nb + 1 : Nat) : Int)) :
    (storePatch sys path A a hd' nb).2 = some new ∧
      ReplicaOf (records (storePatch sys path A a hd' nb).1) G := by
  have hentry := hpatch.entry
  have hcast : new = ((1 + (A.length + nb) : Nat) : Int) := by omega
  rw [hcast, entryOf_succ] at hentry
  have hplain := hloc.plain (hG.plain _ (List.mem_of_getElem? hentry))
  have hlen := (List.getElem?_eq_some_iff.1 hentry).1
  have hrecords : records (A ++ List.replicate nb blankSlot) =
      records A ++ List.replicate nb blankRecord := by
    simp [records, blankSlot]
  have hblanks : ReplicaOf (records (A ++ List.replicate nb blankSlot)) G := by
    rw [hrecords]
    refine h.blanks (by rw [records_length]; omega) ?_ hG
    intro i hlo hhi
    rw [records_length] at hlo hhi
    exact hpatch.between _ (by omega) (by omega) (by omega)
  have haccept := hblanks.storePrepare_ne_none sys path hG hloc (by simpa using hentry)
  rcases storePatch_records sys path A a hd' nb with ⟨-, -, hnone⟩ | ⟨T, hprep, hrec, hres⟩
  · exact absurd hnone haccept
  · rw [hplain.linked] at hrec
    have hT : T.length = A.length + nb := by
      rw [hprep.length, ← hrecords, records_length]
      simp
    refine ⟨?_, ?_⟩
    · rcases hres with hres | ⟨hnone, -⟩
      · rw [hres, hnb]
      · -- a plain patch that passed the checks does not fail later
        have hfail := congrArg List.length (hplain.refused hnone)
        rw [hrec] at hfail
        simp [hT, records] at hfail
    · rw [hrec]
      rw [← hrecords] at hprep
      refine hblanks.prepared hprep hloc ?_
      simpa [records] using hentry

end Patch

/-! ## The server as its own replica -/

/-- The records of the server are a replica of its entries. -/
theorem HoldsEntries.replicaOf {R : List Bytes} {G : Entries} (h : HoldsEntries R G)
    (hG : PlainEntries G) : ReplicaOf R G := by
  refine ⟨h.length.le, ?_, ?_⟩
  · intro i r hr
    rcases h.get hr with ⟨a, hd, hg, hdel, hkeep⟩
    by_cases hrem : RemovedIn G ((1 + i : Nat) : Int)
    · exact .inl ⟨hdel hrem, hrem⟩
    · exact .inr ⟨a, hd, hd, hg, .inl rfl, hkeep hrem⟩
  · intro i hd n hi hg ht
    have hrem : RemovedIn G ((1 + n : Nat) : Int) := ⟨hd, List.mem_of_getElem? hg, ht⟩
    rcases (hG.removed hrem).2 with ⟨x, hx⟩
    rcases h.entry n _ x hx with ⟨r, hr, hdel, -⟩
    exact ⟨r, hr, hdel hrem⟩

/-- A patch that makes the entries of the server longer by a plain one is accepted. -/
theorem Logs.accepts [Host] {maxJnlSize : Nat} {m : Mdir} {G : Entries} (hmax : maxJnlSize < 2 ^ 32)
    (h : Logs maxJnlSize m G) {a : Action} {hd : Header} (hG : PlainEntries (G ++ [(a, hd)])) {sys : Sys}
    (hroom : RoomFor sys m a hd 0) :
    (mdirPatch sys maxJnlSize m a hd 0).result = .ok (mdirLastVersion m + 1) ∧
      Logs maxJnlSize (mdirPatch sys maxJnlSize m a hd 0).mdir (G ++ [(a, hd)]) ∧
      logSize (mdirPatch sys maxJnlSize m a hd 0).mdir ≤ logSize m + (patchRecord a hd).length := by
  have hplain : ReadableHeader hd := hG.plain (a, hd) (by simp)
  have hmark : MarksSafe sys m a hd 0 := .inr (hplain.not_marksWritten sys m a 0)
  have hpatch := h.patch hmax hplain hroom
  rcases h with ⟨A, href, hpow, hold, hG'⟩
  have hlen : A.length = G.length := by
    rw [← records_length, hold.length]
  have hnext : PatchOf (G ++ [(a, hd)]) A.length ((1 + A.length : Nat) : Int) a hd := by
    refine ⟨by omega, ?_, fun w hlo hhi => by omega⟩
    rw [entryOf_succ, hlen]
    simp
  have hstore := ((hold.replicaOf hG').snoc (a, hd)).storePatch sys m.path hG (.inl rfl) hnext 0 (by omega)
  have hres := (href.callOf hmax hpow hroom hmark).2.1
  have hsize := href.logSize_patch hmax hpow hroom hmark
  rw [hplain.linked] at hsize
  rcases hpatch with ⟨hnone, -⟩ | ⟨hok, hlogs⟩
  · rw [hnone, hstore.1] at hres
    cases hres
  · exact ⟨hok, hlogs, by omega⟩

/-! ## The queue -/

/-- The mdir of a client that follows these entries. -/
def Replicates (maxJnlSize : Nat) (m : Mdir) (G : Entries) : Prop :=
  ∃ A, Refines maxJnlSize m A ∧ m.disk.power = none ∧ ReplicaOf (records A) G

theorem replicates_new (maxJnlSize : Nat) (path : Bytes) : Replicates maxJnlSize (Mdir.new path) [] :=
  ⟨[], refines_new maxJnlSize path, rfl, replicaOf_nil⟩

/-- A patch of these entries, over so few removed ones that an `unsigned` can count them. -/
structure Queued (G : Entries) (p : Patch) : Prop where
  patch : ∃ h, PatchOf G p.oldVersion p.newVersion p.action h ∧ WithLocalId h p.header
  gap : p.newVersion - p.oldVersion ≤ 2 ^ 32

theorem Queued.snoc {G : Entries} {p : Patch} (h : Queued G p) (e : Action × Header) :
    Queued (G ++ [e]) p := by
  rcases h.patch with ⟨hd, hpatch, hloc⟩
  exact ⟨⟨hd, hpatch.snoc e, hloc⟩, h.gap⟩

theorem Queued.nbDeletedOf {G : Entries} {p : Patch} (h : Queued G p) :
    (nbDeletedOf p : Int) = p.newVersion - p.oldVersion - 1 := by
  rcases h.patch with ⟨hd, hpatch, -⟩
  have hlt := hpatch.lt
  have hgap := h.gap
  unfold Scambio.nbDeletedOf
  omega

section Queue

variable [Host] {maxJnlSize : Nat} {m : Mdir} {G : Entries}

omit [Host] in
theorem Replicates.snoc (h : Replicates maxJnlSize m G) (e : Action × Header) :
    Replicates maxJnlSize m (G ++ [e]) := by
  rcases h with ⟨A, href, hpow, hrep⟩
  exact ⟨A, href, hpow, hrep.snoc e⟩

omit [Host] in
theorem Replicates.lastVersion_le (h : Replicates maxJnlSize m G) :
    0 ≤ mdirLastVersion m ∧ mdirLastVersion m ≤ G.length := by
  rcases h with ⟨A, href, -, hrep⟩
  have hlen := hrep.length
  rw [records_length] at hlen
  rw [href.lastVersion]
  omega

/-- The patch that follows the last version of the client is applied as the server numbered it. -/
theorem Replicates.apply (hmax : maxJnlSize < 2 ^ 32) (h : Replicates maxJnlSize m G)
    (hG : PlainEntries G) {p : Patch} (hp : Queued G p) (hold : p.oldVersion = mdirLastVersion m)
    {sys : Sys} (hroom : RoomFor sys m p.action p.header (nbDeletedOf p)) :
    (mdirPatch sys maxJnlSize m p.action p.header (nbDeletedOf p)).result = .ok p.newVersion ∧
      Replicates maxJnlSize (mdirPatch sys maxJnlSize m p.action p.header (nbDeletedOf p)).mdir G := by
  have hnb := hp.nbDeletedOf
  rcases h with ⟨A, href, hpow, hrep⟩
  rcases hp.patch with ⟨hd, hpatch, hloc⟩
  have hplain := hloc.plain (hG.plain _ (mem_of_entryOf hpatch.entry))
  rcases href.callOf hmax hpow hroom (.inr (hplain.not_marksWritten sys m p.action _)) with
    ⟨href', hres, -, hpow', -⟩
  rw [hold, href.lastVersion] at hpatch hnb
  rcases hrep.storePatch sys m.path hG hloc hpatch (nbDeletedOf p) (by omega) with ⟨hsome, hrep'⟩
  rw [hsome] at hres
  exact ⟨eq_ok_of_toOption hres, _, href', hpow', hrep'⟩

/-- There is room for each of the patches that `try_apply` gets to. -/
def ApplyRoom (sys : Sys) (maxJnlSize : Nat) : Mdir → List Patch → Prop
  | _, [] => True
  | m, p :: ps => p.oldVersion = mdirLastVersion m →
      RoomFor sys m p.action p.header (nbDeletedOf p) ∧
        ApplyRoom sys maxJnlSize (mdirPatch sys maxJnlSize m p.action p.header (nbDeletedOf p)).mdir ps

/-- `try_apply` meets no error and no assertion, and what it leaves is the end of the queue. -/
theorem tryApplyLoop_replica (hmax : maxJnlSize < 2 ^ 32) (sys : Sys) (hG : PlainEntries G)
    {patches : List Patch} (h : Replicates maxJnlSize m G) (hq : ∀ p ∈ patches, Queued G p)
    (hroom : ApplyRoom sys maxJnlSize m patches) :
    (tryApplyLoop sys maxJnlSize m patches).2.2 = .ok () ∧
      Replicates maxJnlSize (tryApplyLoop sys maxJnlSize m patches).1 G ∧
      (tryApplyLoop sys maxJnlSize m patches).2.1 <:+ patches := by
  induction patches generalizing m with
  | nil => exact ⟨rfl, h, List.suffix_rfl⟩
  | cons p ps ih =>
      by_cases hold : p.oldVersion = mdirLastVersion m
      · have hp := hq p List.mem_cons_self
        rcases hroom hold with ⟨hroom₁, hroom₂⟩
        rcases h.apply hmax hG hp hold hroom₁ with ⟨hres, h'⟩
        rcases hp.patch with ⟨hd, hpatch, -⟩
        have heq : tryApplyLoop sys maxJnlSize m (p :: ps) = tryApplyLoop sys maxJnlSize
            (mdirPatch sys maxJnlSize m p.action p.header (nbDeletedOf p)).mdir ps := by
          rw [tryApplyLoop, if_neg (not_not.2 hold.symm), if_neg (not_not.2 hpatch.lt)]
          simp only [hres, ne_eq, not_true_eq_false, if_false]
        rw [heq]
        rcases ih h' (fun q hq' => hq q (List.mem_cons_of_mem _ hq')) hroom₂ with ⟨hok, hrep, hsuf⟩
        exact ⟨hok, hrep, hsuf.trans (List.suffix_cons p ps)⟩
      · rw [tryApplyLoop, if_pos fun hn => hold hn.symm]
        exact ⟨rfl, h, List.suffix_rfl⟩

/-! ## What the two journals have in common -/

/-- The version exists and its patch is deleted. -/
def Deleted (m : Mdir) (v : Int) : Prop :=
  ∃ action, mdirRead m v = .ok (action, none)

variable {server : Mdir}

/-- What the client has of each of its versions. -/
theorem Replicates.read (hmax : maxJnlSize < 2 ^ 32) (h : Replicates maxJnlSize m G)
    (hs : Logs maxJnlSize server G) {v : Int} (hlow : 1 ≤ v) (hhigh : v ≤ mdirLastVersion m) :
    (Deleted m v ∧ Deleted server v) ∨
      ∃ a hd hd', entryOf G v = some (a, hd) ∧ WithLocalId hd hd' ∧ mdirRead m v = .ok (a, some hd') := by
  rcases h with ⟨A, href, -, hrep⟩
  rw [href.lastVersion] at hhigh
  obtain ⟨n, rfl⟩ : ∃ n : Nat, v = ((1 + n : Nat) : Int) := ⟨(v - 1).toNat, by omega⟩
  have hn : n < (records A).length := by
    rw [records_length]
    omega
  have hget := List.getElem?_eq_getElem hn
  have hread := href.mdirRead hmax hget
  rcases hrep.entry n _ hget with ⟨hdel, hrem⟩ | ⟨a, hd, hd', hg, hloc, heq⟩
  · left
    rw [readRecord_of_isDeleted hdel] at hread
    have hlen := hrep.length
    rcases exists_entryOf (G := G) hlow (by omega) with ⟨a, hd, he⟩
    exact ⟨⟨.add, eq_ok_of_toOption hread⟩, .add, (hs.read hmax he).1 hrem⟩
  · right
    have hplain := hloc.plain (hs.plain.plain _ (List.mem_of_getElem? hg))
    rw [heq, readRecord_patchRecord hplain.canonical hplain.short] at hread
    exact ⟨a, hd, hd', by rw [entryOf_succ, hg], hloc, eq_ok_of_toOption hread⟩

/-- A client that is not late has deleted whatever the server has removed. -/
theorem Replicates.not_removed (h : Replicates maxJnlSize m G) (hlast : mdirLastVersion m = G.length)
    (hmax : maxJnlSize < 2 ^ 32) {v : Int} {a : Action} {hd : Header}
    (hread : mdirRead m v = .ok (a, some hd)) (hlow : 1 ≤ v) : ¬ RemovedIn G v := by
  rintro ⟨x, hmem, ht⟩
  rcases h with ⟨A, href, -, hrep⟩
  rw [href.lastVersion] at hlast
  rcases List.getElem?_of_mem hmem with ⟨i, hi⟩
  have hlt := (List.getElem?_eq_some_iff.1 hi).1
  obtain ⟨n, rfl⟩ : ∃ n : Nat, v = ((1 + n : Nat) : Int) := ⟨(v - 1).toNat, by omega⟩
  rcases hrep.removed i x n (by rw [records_length]; omega) hi ht with ⟨r, hr, hdel⟩
  have hn := href.mdirRead hmax hr
  rw [hread, readRecord_of_isDeleted hdel] at hn
  cases hn

end Queue

end Scambio
