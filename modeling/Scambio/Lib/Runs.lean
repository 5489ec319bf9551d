import Scambio.Lib.PatchOutcome
import Scambio.Lib.Reload

/-!
# Runs — sequences of `mdir_patch` and `mdir_reload` on one mdir

`Run` are the histories of a mdir that starts empty: patches, reloads in any directory order, and
patches interrupted by a crash and followed by a reload.  Each complete call of `mdir_patch` is
recorded, and `History` says what the records of the journals owe to the recorded calls.
-/

namespace Scambio

open Library

/-! ## Runs -/

/-- A complete call of `mdir_patch`: what it was given, the last version before and after it, the
header it left and its outcome. -/
structure Call where
  action : Action
  header : Header
  nbDeleted : Nat
  before : Int
  after : Int
  left : Header
  result : Except Err Int

/-- The bytes that the logs of a mdir take. -/
def logSize (m : Mdir) : Nat :=
  (m.jnls.map fun j => (m.disk.logOf j.stem).length).sum

/-- Offsets and versions are 64-bit: there must be room for what a patch writes. -/
def RoomFor (sys : Sys) (m : Mdir) (action : Action) (header : Header) (nbDeleted : Nat) : Prop :=
  logSize m + 3 * nbDeleted + (patchRecord action (linkedHeader sys m.path action header)).length + 1 <
    2 ^ 63

instance (sys : Sys) (m : Mdir) (action : Action) (header : Header) (nbDeleted : Nat) :
    Decidable (RoomFor sys m action header nbDeleted) :=
  inferInstanceAs (Decidable (_ < _))

section Run

variable [Host] (maxJnlSize : Nat)

/-- The call that `mdir_patch` makes on `m`. -/
def callOf (sys : Sys) (m : Mdir) (action : Action) (header : Header) (nbDeleted : Nat) : Call :=
  let r := mdirPatch sys maxJnlSize m action header nbDeleted
  { action := action, header := header, nbDeleted := nbDeleted, before := mdirLastVersion m,
    after := mdirLastVersion r.mdir, left := r.header, result := r.result }

/-- What is on disk when `mdir_patch` is interrupted. -/
def crashed (sys : Sys) (m : Mdir) (action : Action) (header : Header) (nbDeleted : Nat)
    (power : Power) : Mdir :=
  let m' := { m with disk := { m.disk with power := some power } }
  let r := mdirPatch sys maxJnlSize m' action header nbDeleted
  { m with disk := { r.mdir.disk with power := none } }

variable (ok : Sys → Mdir → Action → Header → Nat → Prop)
  (cut : Sys → Mdir → Action → Header → Nat → Power → Prop)

/-- The runs from an empty directory whose calls all satisfy `ok` and whose crashes all satisfy
`cut`. -/
inductive Run : Mdir → List Call → Prop
  | init (path : Bytes) : Run (Mdir.new path) []
  | patch {m : Mdir} {calls : List Call} (sys : Sys) (action : Action) (header : Header)
      (nbDeleted : Nat) : Run m calls → ok sys m action header nbDeleted →
      RoomFor sys m action header nbDeleted →
      Run (mdirPatch sys maxJnlSize m action header nbDeleted).mdir
        (calls ++ [callOf maxJnlSize sys m action header nbDeleted])
  | reload {m : Mdir} {calls : List Call} (order : List Bytes) : Run m calls → Lists order m.disk →
      Run (mdirReload ErrBuf.new m (.ok order)).2 calls
  | crash {m : Mdir} {calls : List Call} (sys : Sys) (action : Action) (header : Header)
      (nbDeleted : Nat) (power : Power) (order : List Bytes) : Run m calls →
      cut sys m action header nbDeleted power → RoomFor sys m action header nbDeleted →
      Lists order (crashed maxJnlSize sys m action header nbDeleted power).disk →
      Run (mdirReload ErrBuf.new (crashed maxJnlSize sys m action header nbDeleted power)
        (.ok order)).2 calls

end Run

/-! ## History -/

/-- A later successful removal had version `v` for target. -/
def RemovedAfter (calls : List Call) (k : Nat) (v : Int) : Prop :=
  ∃ k' c, k < k' ∧ calls[k']? = some c ∧ c.action = .rem ∧ headerTarget c.header = .ok v ∧
    ∃ w, c.result = .ok w

/-- What the records owe to call number `k`, that returned version `v`. -/
structure Owes (R : List Bytes) (calls : List Call) (k : Nat) (c : Call) (v : Int) : Prop where
  version : v = c.before + c.nbDeleted + 1
  nonneg : 0 ≤ c.before
  own : ∃ r, R[(v - 1).toNat]? = some r ∧ (RemovedAfter calls k v → IsDeleted r) ∧
    (¬ RemovedAfter calls k v → r = patchRecord c.action c.left)
  blanks : ∀ w, c.before < w → w < v → ∃ r, R[(w - 1).toNat]? = some r ∧ IsDeleted r

def History (R : List Bytes) (calls : List Call) : Prop :=
  ∀ k c v, calls[k]? = some c → c.result = .ok v → Owes R calls k c v

theorem removedAfter_snoc {calls : List Call} {k : Nat} (hk : k < calls.length) {v : Int} {c : Call} :
    RemovedAfter (calls ++ [c]) k v ↔ RemovedAfter calls k v ∨
      (c.action = .rem ∧ headerTarget c.header = .ok v ∧ ∃ w, c.result = .ok w) := by
  constructor
  · rintro ⟨k', c', hlt, hget, hrest⟩
    by_cases hk' : k' < calls.length
    · rw [List.getElem?_append_left hk'] at hget
      exact .inl ⟨k', c', hlt, hget, hrest⟩
    · rw [List.getElem?_append_right (by omega)] at hget
      rcases List.getElem?_eq_some_iff.1 hget with ⟨hi, heq⟩
      simp only [List.length_singleton] at hi
      have hzero : k' - calls.length = 0 := by omega
      simp only [hzero, List.getElem_cons_zero] at heq
      subst heq
      exact .inr hrest
  · rintro (⟨k', c', hlt, hget, hrest⟩ | hrest)
    · have hk' := (List.getElem?_eq_some_iff.1 hget).1
      exact ⟨k', c', hlt, by rw [List.getElem?_append_left hk', hget], hrest⟩
    · exact ⟨calls.length, c, hk, by simp, hrest⟩

theorem not_removedAfter_last {calls : List Call} {v : Int} {c : Call} :
    ¬ RemovedAfter (calls ++ [c]) calls.length v := by
  rintro ⟨k', c', hlt, hget, -⟩
  have := (List.getElem?_eq_some_iff.1 hget).1
  simp only [List.length_append, List.length_singleton] at this
  omega

/-- Records that only grew owe the same. -/
theorem History.grow {R R' : List Bytes} {calls : List Call} (h : History R calls) (hp : R <+: R') :
    History R' calls := by
  have hget : ∀ {i : Nat} {r : Bytes}, R[i]? = some r → R'[i]? = some r := by
    intro i r hr
    rcases hp with ⟨S, rfl⟩
    rw [List.getElem?_append_left (List.getElem?_eq_some_iff.1 hr).1, hr]
  intro k c v hk hres
  rcases h k c v hk hres with ⟨hver, hnn, ⟨r, hr, hrest⟩, hblanks⟩
  refine ⟨hver, hnn, ⟨r, hget hr, hrest⟩, fun w hlo hhi => ?_⟩
  rcases hblanks w hlo hhi with ⟨r, hr, hdel⟩
  exact ⟨r, hget hr, hdel⟩

/-- A call that failed without any removal changes nothing to what is owed. -/
theorem History.fail {R : List Bytes} {calls : List Call} (h : History R calls) {c : Call} {e : Err}
    (hc : c.result = .error e) : History R (calls ++ [c]) := by
  intro k d v hk hres
  by_cases hlt : k < calls.length
  · rw [List.getElem?_append_left hlt] at hk
    have hrem : RemovedAfter (calls ++ [c]) k v ↔ RemovedAfter calls k v := by
      rw [removedAfter_snoc hlt]
      simp [hc]
    rcases h k d v hk hres with ⟨hver, hnn, ⟨r, hr, hdel, hown⟩, hblanks⟩
    exact ⟨hver, hnn, ⟨r, hr, fun hra => hdel (hrem.1 hra), fun hra => hown fun h' => hra (hrem.2 h')⟩,
      hblanks⟩
  · rw [List.getElem?_append_right (by omega)] at hk
    rcases List.getElem?_eq_some_iff.1 hk with ⟨hi, heq⟩
    simp only [List.length_singleton] at hi
    have hzero : k - calls.length = 0 := by omega
    simp only [hzero, List.getElem_cons_zero] at heq
    subst heq
    rw [hc] at hres
    cases hres

/-- A successful call keeps what is owed to the others and leaves its own record. -/
theorem History.patch {R T : List Bytes} {calls : List Call} (h : History R calls) {c : Call}
    (hprep : Prepared c.action c.header (R ++ List.replicate c.nbDeleted blankRecord) T)
    (hbefore : c.before = R.length)
    (hres : c.result = .ok ((R.length + c.nbDeleted + 1 : Nat) : Int)) :
    History (T ++ [patchRecord c.action c.left]) (calls ++ [c]) := by
  have hlen : T.length = R.length + c.nbDeleted := by simpa using hprep.length
  have hget : ∀ {i : Nat} {r : Bytes}, (R ++ List.replicate c.nbDeleted blankRecord)[i]? = some r →
      (T ++ [patchRecord c.action c.left])[i]? = T[i]? := by
    intro i r hr
    have := (List.getElem?_eq_some_iff.1 hr).1
    rw [List.getElem?_append_left (by rw [hprep.length]; exact this)]
  have hdel : ∀ {i : Nat} {r : Bytes}, (R ++ List.replicate c.nbDeleted blankRecord)[i]? = some r →
      IsDeleted r → ∃ r', (T ++ [patchRecord c.action c.left])[i]? = some r' ∧ IsDeleted r' := by
    intro i r hr hd
    rw [hget hr]
    rcases hprep.keep i with hkeep | ⟨hrem, htgt, -⟩
    · exact ⟨r, hkeep.trans hr, hd⟩
    · rcases hprep.target hrem with ⟨n, r', htgt', hn, hd'⟩
      rw [htgt, Except.ok.injEq] at htgt'
      have hin : i = n := by omega
      exact ⟨r', by rw [hin, hn], hd'⟩
  have hold : ∀ {i : Nat} {r : Bytes}, R[i]? = some r →
      (R ++ List.replicate c.nbDeleted blankRecord)[i]? = some r := by
    intro i r hr
    rw [List.getElem?_append_left (List.getElem?_eq_some_iff.1 hr).1, hr]
  -- an earlier call, or this one
  intro k d v hk hv
  by_cases hlt : k < calls.length
  · rw [List.getElem?_append_left hlt] at hk
    rcases h k d v hk hv with ⟨hver, hnn, ⟨r, hr, hdr, hown⟩, hblanks⟩
    refine ⟨hver, hnn, ?_, ?_⟩
    -- removed since: before this call, or by it
    · by_cases hra : RemovedAfter (calls ++ [c]) k v
      · have : ∃ r', (T ++ [patchRecord c.action c.left])[(v - 1).toNat]? = some r' ∧ IsDeleted r' := by
          rcases (removedAfter_snoc hlt).1 hra with hra' | ⟨hrem, htgt, -⟩
          · exact hdel (hold hr) (hdr hra')
          · rcases hprep.target hrem with ⟨n, r', htgt', hn, hd'⟩
            rw [htgt, Except.ok.injEq] at htgt'
            have hin : (v - 1).toNat = n := by omega
            exact ⟨r', by rw [hget (hold hr), hin, hn], hd'⟩
        rcases this with ⟨r', hr', hd'⟩
        exact ⟨r', hr', fun _ => hd', fun hn => absurd hra hn⟩
      · have hra' : ¬ RemovedAfter calls k v := fun h' => hra ((removedAfter_snoc hlt).2 (.inl h'))
        refine ⟨r, ?_, fun h' => absurd h' hra, fun _ => hown hra'⟩
        rw [hget (hold hr)]
        rcases hprep.keep (v - 1).toNat with hkeep | ⟨hrem, htgt, -⟩
        · exact hkeep.trans (hold hr)
        -- this call removes no other record than its target
        · refine absurd ((removedAfter_snoc hlt).2 (.inr ⟨hrem, ?_, _, hres⟩)) hra
          rw [htgt]
          congr 1
          omega
    · intro w hlo hhi
      rcases hblanks w hlo hhi with ⟨r, hr, hd⟩
      exact hdel (hold hr) hd
  · rw [List.getElem?_append_right (by omega)] at hk
    rcases List.getElem?_eq_some_iff.1 hk with ⟨hi, heq⟩
    simp only [List.length_singleton] at hi
    have hzero : k - calls.length = 0 := by omega
    simp only [hzero, List.getElem_cons_zero] at heq
    subst heq
    have hkl : k = calls.length := by omega
    subst hkl
    rw [hres, Except.ok.injEq] at hv
    subst hv
    have hidx : ((((R.length + c.nbDeleted + 1 : Nat) : Int)) - 1).toNat = T.length := by omega
    refine ⟨by omega, by omega, ⟨patchRecord c.action c.left, ?_, ?_, fun _ => rfl⟩, ?_⟩
    · rw [hidx]
      simp
    · intro hra
      exact absurd hra not_removedAfter_last
    · intro w hlo hhi
      refine hdel (r := blankRecord) ?_ isDeleted_blank
      rw [List.getElem?_append_right (by omega), List.getElem?_replicate, if_pos (by omega)]

/-! ## Every run keeps the history -/

theorem sum_logSize {d : Disk} (v : Nat) {ps : List (List Slot)}
    (h : ∀ ps₁ p ps₂, ps = ps₁ ++ p :: ps₂ →
      d.logOf (jnlStem ((v + ps₁.flatten.length : Nat))) = logBytes p) :
    ((journalsOf v ps).map fun j => (d.logOf j.stem).length).sum = (logBytes ps.flatten).length := by
  induction ps generalizing v with
  | nil => rfl
  | cons p ps ih =>
      have hhead : d.logOf (jnlStem (v : Int)) = logBytes p := h [] p ps rfl
      have htail := ih (v + p.length) fun ps₁ q ps₂ heq => by
        have hq := h (p :: ps₁) q ps₂ (by rw [heq]; rfl)
        rw [add_length_cons] at hq
        exact hq
      rw [journalsOf, List.map_cons, List.sum_cons, htail, List.flatten_cons, logBytes_concat,
        List.length_append]
      simp only [partJnl, hhead]

theorem Refines.logSize {maxJnlSize : Nat} {m : Mdir} {A : List Slot} (h : Refines maxJnlSize m A) :
    logSize m = (logBytes A).length := by
  rcases h with ⟨ps, hrep, rfl⟩
  rw [Scambio.logSize, hrep.jnls]
  refine sum_logSize 1 fun ps₁ p ps₂ heq => ?_
  subst heq
  exact hrep.disk.holds.logOf

theorem refines_new (maxJnlSize : Nat) (path : Bytes) : Refines maxJnlSize (Mdir.new path) [] := by
  refine ⟨[], ⟨⟨rfl, rfl, by simp [Full]⟩, rfl, ⟨by simp, by simp, by norm_num [logBytes, records]⟩,
    by simp, by simp⟩, rfl⟩

section Sound

variable [Host] {maxJnlSize : Nat} {ok : Sys → Mdir → Action → Header → Nat → Prop}
  {cut : Sys → Mdir → Action → Header → Nat → Power → Prop} {m : Mdir} {calls : List Call}

/-- The writes of the mark index land where they should, or there are none. -/
def MarksSafe (sys : Sys) (m : Mdir) (action : Action) (header : Header) (nbDeleted : Nat) : Prop :=
  Host.appendPwrite = .atOffset ∨ ¬ MarksWritten sys m action header nbDeleted

/-- A crash that leaves the patches it found, maybe followed by others. -/
def CrashSafe (maxJnlSize : Nat) (sys : Sys) (m : Mdir) (action : Action) (header : Header)
    (nbDeleted : Nat) (power : Power) : Prop :=
  ∀ A, Refines maxJnlSize m A → m.disk.power = none → RoomFor sys m action header nbDeleted →
    ∃ B, records A <+: records B ∧ ∀ order,
      Lists order (crashed maxJnlSize sys m action header nbDeleted power).disk →
      Refines maxJnlSize (mdirReload ErrBuf.new (crashed maxJnlSize sys m action header nbDeleted power)
        (.ok order)).2 B

omit [Host] in
theorem loadJournals_power (path : Bytes) (eb : ErrBuf) (d : Disk) (js : List Jnl)
    (order : List Bytes) : (loadJournals path eb d js order).2.1.power = d.power := by
  induction order generalizing d js with
  | nil => rfl
  | cons stem order ih =>
      have hnew : (jnlNew path d js stem).1.power = d.power := by
        unfold jnlNew
        split
        · rfl
        · simp only
          split
          · exact (creat_frame d stem).2
          · split <;> exact (creat_frame d stem).2
      unfold loadJournals
      split
      · next d' e heq =>
          rw [heq] at hnew
          exact hnew
      · next d' js' j heq =>
          rw [heq] at hnew
          exact (ih d' js').trans hnew

theorem mdirReload_power (eb : ErrBuf) (m : Mdir) (order : List Bytes) :
    (mdirReload eb m (.ok order)).2.disk.power = m.disk.power := by
  rw [mdirReload_disk, loadJournals_power]

/-- The call that a patch records, by what it does to the slots. -/
theorem Refines.callOf (hmax : maxJnlSize < 2 ^ 32) {A : List Slot} (h : Refines maxJnlSize m A)
    (hpow : m.disk.power = none) {sys : Sys} {action : Action} {header : Header} {nb : Nat}
    (hroom : RoomFor sys m action header nb) (hmark : MarksSafe sys m action header nb) :
    Refines maxJnlSize (mdirPatch sys maxJnlSize m action header nb).mdir
      (storePatch sys m.path A action header nb).1 ∧
    (mdirPatch sys maxJnlSize m action header nb).result.toOption =
      (storePatch sys m.path A action header nb).2 ∧
    (mdirPatch sys maxJnlSize m action header nb).mdir.path = m.path ∧
    (mdirPatch sys maxJnlSize m action header nb).mdir.disk.power = none ∧
    (mdirPatch sys maxJnlSize m action header nb).header = linkedHeader sys m.path action header := by
  refine mdirPatch_refines sys hmax h hpow ?_ ?_
  · unfold RoomFor at hroom
    rw [h.logSize] at hroom
    exact hroom
  · unfold MarksSafe MarksWritten at hmark
    rw [h.lastVersion, Int.toNat_natCast, ← h.accepted_iff hmax, ← storeConfirm_iff] at hmark
    exact hmark

omit [Host] in
/-- A tag takes the place of another character. -/
theorem Prepared.map_length {action : Action} {header : Header} {R T : List Bytes}
    (h : Prepared action header R T) (hne : ∀ r ∈ R, r ≠ []) :
    T.map List.length = R.map List.length := by
  refine List.ext_getElem? fun i => ?_
  rw [List.getElem?_map, List.getElem?_map]
  rcases h.keep i with hk | ⟨-, -, r, hr, hT⟩
  · rw [hk]
  · have hpos : 0 < r.length := List.length_pos_iff.2 (hne r (List.mem_of_getElem? hr))
    have hlen : (tagDeleted r).length = r.length := by
      simp [tagDeleted, ascii]
      omega
    simp [hT, hr, hlen]

/-- The log grows by what a patch writes at most. -/
theorem Refines.logSize_patch (hmax : maxJnlSize < 2 ^ 32) {A : List Slot} (h : Refines maxJnlSize m A)
    (hpow : m.disk.power = none) {sys : Sys} {action : Action} {header : Header} {nb : Nat}
    (hroom : RoomFor sys m action header nb) (hmark : MarksSafe sys m action header nb) :
    Scambio.logSize (mdirPatch sys maxJnlSize m action header nb).mdir ≤ Scambio.logSize m + 3 * nb +
      (patchRecord action (linkedHeader sys m.path action header)).length := by
  have href := (h.callOf hmax hpow hroom hmark).1
  have hblank : (records A ++ List.replicate nb blankRecord).flatten.length =
      (records A).flatten.length + 3 * nb := by
    simp [List.length_flatten, blank_length, Nat.mul_comm]
  rw [href.logSize, h.logSize, logBytes, logBytes]
  rcases storePatch_records sys m.path A action header nb with ⟨hrec, -, -⟩ | ⟨T, hprep, hrec, -⟩
  · rw [hrec, hblank]
    omega
  · have hne : ∀ r ∈ records A ++ List.replicate nb blankRecord, r ≠ [] := by
      intro r hr
      rcases List.mem_append.1 hr with hr | hr
      · rcases List.mem_map.1 hr with ⟨s, hs, rfl⟩
        exact h.fits.nonempty s hs
      · rw [List.eq_of_mem_replicate hr]
        decide
    have hT : T.flatten.length = (records A).flatten.length + 3 * nb := by
      rw [← hblank, List.length_flatten, List.length_flatten, hprep.map_length hne]
    rw [hrec, List.flatten_append, List.length_append, hT]
    simp

/-- One patch extends the history. -/
theorem History.step (hmax : maxJnlSize < 2 ^ 32) {A : List Slot} (h : Refines maxJnlSize m A)
    (hpow : m.disk.power = none) (hist : History (records A) calls) {sys : Sys} {action : Action}
    {header : Header} {nb : Nat} (hroom : RoomFor sys m action header nb)
    (hmark : MarksSafe sys m action header nb) :
    History (records (storePatch sys m.path A action header nb).1)
      (calls ++ [callOf maxJnlSize sys m action header nb]) := by
  rcases h.callOf hmax hpow hroom hmark with ⟨-, hres, -, -, hleft⟩
  have hlast := h.lastVersion
  have hlen : (records A).length = A.length := records_length A
  rcases storePatch_records sys m.path A action header nb with
    ⟨hrec, hnone, -⟩ | ⟨T, hprep, hrec, hout⟩
  · rw [hrec]
    rw [hnone] at hres
    -- the call was refused
    cases hr : (mdirPatch sys maxJnlSize m action header nb).result with
    | ok v => simp [hr, Except.toOption] at hres
    | error e => exact (hist.grow ⟨_, rfl⟩).fail (e := e) hr
  · rw [hrec]
    rcases hout with hsome | ⟨hnone, hadd⟩
    · have hok : (mdirPatch sys maxJnlSize m action header nb).result =
          .ok ((A.length + nb + 1 : Nat) : Int) := by
        rw [hsome] at hres
        cases hr : (mdirPatch sys maxJnlSize m action header nb).result with
        | ok v =>
            rw [hr] at hres
            simpa [Except.toOption] using hres
        | error e => simp [hr, Except.toOption] at hres
      rw [← hleft]
      refine hist.patch (c := Scambio.callOf maxJnlSize sys m action header nb) hprep ?_ ?_
      · rw [hlen]
        exact hlast
      · rw [hlen]
        exact hok
    -- an addition that failed after its record was written
    · have hkeep : T = records A ++ List.replicate nb blankRecord := by
        refine List.ext_getElem? fun i => ?_
        rcases hprep.keep i with hk | ⟨hrem, -⟩
        · exact hk
        · rw [hadd] at hrem
          cases hrem
      rw [hnone] at hres
      cases hr : (mdirPatch sys maxJnlSize m action header nb).result with
      | ok v => simp [hr, Except.toOption] at hres
      | error e =>
          refine History.fail (hist.grow ?_) (e := e) hr
          rw [hkeep, List.append_assoc]
          exact ⟨_, rfl⟩

/-- The invariant rule of runs: what holds of the empty list and is kept by each step holds of the
patches of every mdir reached. -/
theorem Run.invariant (hmax : maxJnlSize < 2 ^ 32) {P : List Slot → List Call → Prop}
    (hok : ∀ {sys m action header nb}, ok sys m action header nb → MarksSafe sys m action header nb)
    (hcut : ∀ {sys m action header nb power}, cut sys m action header nb power →
      CrashSafe maxJnlSize sys m action header nb power)
    (hinit : P [] [])
    (hpatch : ∀ {m A calls sys action header nb}, Refines maxJnlSize m A → m.disk.power = none →
      P A calls → ok sys m action header nb → RoomFor sys m action header nb →
      P (storePatch sys m.path A action header nb).1
        (calls ++ [Scambio.callOf maxJnlSize sys m action header nb]))
    (hcrash : ∀ {sys m action header nb power A B calls}, cut sys m action header nb power →
      records A <+: records B → P A calls → P B calls)
    (h : Run maxJnlSize ok cut m calls) :
    ∃ A, Refines maxJnlSize m A ∧ m.disk.power = none ∧ P A calls := by
  induction h with
  | init path => exact ⟨[], refines_new maxJnlSize path, rfl, hinit⟩
  | patch sys action header nb _ hcall hroom ih =>
      rcases ih with ⟨A, href, hpow, hP⟩
      rcases href.callOf hmax hpow hroom (hok hcall) with ⟨href', -, -, hpow', -⟩
      exact ⟨_, href', hpow', hpatch href hpow hP hcall hroom⟩
  | reload order _ hord ih =>
      rcases ih with ⟨A, href, hpow, hP⟩
      exact ⟨A, (href.reload hmax hord).1, (mdirReload_power _ _ order).trans hpow, hP⟩
  | crash sys action header nb power order _ hc hroom hord ih =>
      rcases ih with ⟨A, href, hpow, hP⟩
      rcases hcut hc A href hpow hroom with ⟨B, hpre, hreload⟩
      exact ⟨B, hreload order hord, mdirReload_power _ _ order, hcrash hc hpre hP⟩

omit [Host] in
theorem History.init : History [] [] := by
  intro k c v hk
  simp at hk

end Sound

end Scambio
