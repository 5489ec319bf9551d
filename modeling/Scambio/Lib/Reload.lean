import Scambio.Lib.PatchSpec
import Mathlib.Data.List.Pairwise
import Mathlib.Data.List.Perm.Basic

/-!
# Reload — loading the journals of a directory (`mdir_reload`)

* `jnlOf`          : the journal that the files of a stem make;
* `Apart`          : two journals that can live in the same list;
* `JournalsSound`  : every `.log` file makes a journal, and they are all apart;
* `loadJournals_of_sound` : then loading gives the same sorted list in any directory order;
* `Refines.reload` : a mdir that was only written by `mdir_patch` is found again by a reload.
-/

namespace Scambio

open Library

/-! ## Inserting one journal -/

/-- One journal ends before the other starts, and they start at different versions. -/
def Apart (j k : Jnl) : Prop :=
  (j.version < k.version ∧ j.version + j.nbPatches ≤ k.version) ∨
  (k.version < j.version ∧ k.version + k.nbPatches ≤ j.version)

theorem Apart.symm {j k : Jnl} (h : Apart j k) : Apart k j :=
  Or.symm h

instance : Std.Symm Apart :=
  ⟨fun _ _ => Apart.symm⟩

def Ascending (js : List Jnl) : Prop :=
  js.Pairwise fun j k => j.version < k.version

/-- A journal that is apart from all those of a sorted list joins it in order. -/
theorem jnlInsert_of_apart {j : Jnl} {js : List Jnl} (hsort : Ascending js)
    (hapart : ∀ k ∈ js, Apart k j) :
    ∃ js', jnlInsert j js = some js' ∧ Ascending js' ∧ js'.Perm (j :: js) := by
  induction js with
  | nil => exact ⟨[j], rfl, List.pairwise_singleton _ _, List.Perm.refl _⟩
  | cons k js ih =>
      rcases List.pairwise_cons.1 hsort with ⟨hk, hjs⟩
      have hkj := hapart k (by simp)
      unfold jnlInsert
      by_cases hgt : k.version > j.version
      · refine ⟨j :: k :: js, if_pos hgt, List.pairwise_cons.2 ⟨?_, hsort⟩, List.Perm.refl _⟩
        intro l hl
        rcases List.mem_cons.1 hl with rfl | hl
        · exact hgt
        · have := hk l hl
          omega
      · rcases ih hjs fun l hl => hapart l (by simp [hl]) with ⟨js', hins, hsort', hperm⟩
        have hbefore : k.version < j.version ∧ k.version + k.nbPatches ≤ j.version := by
          rcases hkj with hkj | hkj
          · exact hkj
          · omega
        refine ⟨k :: js', ?_, List.pairwise_cons.2 ⟨?_, hsort'⟩, ?_⟩
        · rw [if_neg hgt, if_neg (by omega), hins]
          rfl
        · intro l hl
          rcases List.mem_cons.1 (hperm.mem_iff.1 hl) with rfl | hl
          · exact hbefore.1
          · exact hk l hl
        · exact (hperm.cons k).trans (List.Perm.swap j k js)

/-! ## Loading in directory order -/

/-- The journal that the two files of a stem make. -/
def jnlOf (d : Disk) (stem : Bytes) : Option Jnl :=
  match parseVersion stem, fetchNbPatches (d.idxOf stem) with
  | .ok version, .ok nbPatches => some { stem := stem, version := version, nbPatches := nbPatches }
  | _, _ => none

theorem jnlOf_stem {d : Disk} {stem : Bytes} {j : Jnl} (h : jnlOf d stem = some j) :
    j.stem = stem := by
  unfold jnlOf at h
  split at h
  · cases h
    rfl
  · cases h

theorem creat_idxOf (d : Disk) (stem t : Bytes) : (d.creat stem).idxOf t = d.idxOf t := by
  unfold Disk.creat
  split_ifs
  · by_cases ht : t = stem
    · subst ht
      simp [Disk.idxOf]
    · simp [Disk.idxOf, ht]
  · rfl

theorem jnlOf_creat (d : Disk) (stem t : Bytes) : jnlOf (d.creat stem) t = jnlOf d t := by
  simp only [jnlOf, creat_idxOf]

/-- `jnl_new` succeeds when the files make a journal that can be inserted. -/
theorem jnlNew_eq (path : Bytes) (d : Disk) (js : List Jnl) (stem : Bytes) :
    match (jnlOf d stem).bind fun j => jnlInsert j js with
    | some js' => ∃ j, jnlNew path d js stem = (d.creat stem, .ok (js', j))
    | none => ∃ d' e, jnlNew path d js stem = (d', .error e) := by
  unfold jnlNew jnlOf
  cases parseVersion stem with
  | error e => exact ⟨d, e, rfl⟩
  | ok version =>
      simp only [creat_idxOf]
      cases fetchNbPatches (d.idxOf stem) with
      | error e => exact ⟨_, e, rfl⟩
      | ok nb =>
          simp only [Option.bind_some]
          cases jnlInsert { stem := stem, version := version, nbPatches := nb } js with
          | none => exact ⟨_, _, rfl⟩
          | some js' => exact ⟨_, rfl⟩

/-- The list once all the journals are loaded; none when one of them fails. -/
def loadAll (d : Disk) : List Jnl → List Bytes → Option (List Jnl)
  | js, [] => some js
  | js, stem :: order => ((jnlOf d stem).bind fun j => jnlInsert j js).bind (loadAll d · order)

theorem loadAll_congr {d d' : Disk} (h : ∀ stem, jnlOf d' stem = jnlOf d stem) (js : List Jnl)
    (order : List Bytes) : loadAll d' js order = loadAll d js order := by
  induction order generalizing js with
  | nil => rfl
  | cons stem order ih =>
      simp only [loadAll, h]
      congr 1
      funext js'
      exact ih js'

theorem jnlInsert_length {j : Jnl} {js js' : List Jnl} (h : jnlInsert j js = some js') :
    js'.length = js.length + 1 := by
  induction js generalizing js' with
  | nil =>
      cases h
      rfl
  | cons k js ih =>
      unfold jnlInsert at h
      split_ifs at h
      · cases h
        rfl
      · rcases Option.map_eq_some_iff.1 h with ⟨js₁, hins, rfl⟩
        simp [ih hins]

/-- Loading all the journals, or stopping short with an error. -/
theorem loadJournals_eq (path : Bytes) (eb : ErrBuf) (d : Disk) (js : List Jnl)
    (order : List Bytes) :
    match loadAll d js order with
    | some js' => (loadJournals path eb d js order).1 = eb ∧
        (loadJournals path eb d js order).2.2 = js'
    | none => (∃ e, (loadJournals path eb d js order).1 = eb.errorPush e) ∧
        (loadJournals path eb d js order).2.2.length < js.length + order.length := by
  induction order generalizing d js with
  | nil => exact ⟨rfl, rfl⟩
  | cons stem order ih =>
      have hnew := jnlNew_eq path d js stem
      unfold loadAll loadJournals
      cases hj : (jnlOf d stem).bind fun j => jnlInsert j js with
      | none =>
          rw [hj] at hnew
          rcases hnew with ⟨d', e, hnew⟩
          simp only [hnew, Option.bind_none, List.length_cons]
          exact ⟨⟨e, rfl⟩, by omega⟩
      | some js₁ =>
          rw [hj] at hnew
          rcases hnew with ⟨j, hnew⟩
          have hrec := ih (d.creat stem) js₁
          rw [loadAll_congr (jnlOf_creat d stem)] at hrec
          have hlen : js₁.length = js.length + 1 := by
            rcases Option.bind_eq_some_iff.1 hj with ⟨k, -, hins⟩
            exact jnlInsert_length hins
          simp only [hnew, Option.bind_some, List.length_cons]
          cases hall : loadAll d js₁ order with
          | some js' =>
              rw [hall] at hrec
              exact hrec
          | none =>
              rw [hall] at hrec
              exact ⟨hrec.1, by omega⟩

/-- Journals that are apart from each other all load, and end up sorted. -/
theorem loadAll_of_apart {d : Disk} {order : List Bytes} {js ks : List Jnl} (hsort : Ascending js)
    (hks : order.map (jnlOf d) = ks.map some) (hapart : ks.Pairwise Apart)
    (hjs : ∀ j ∈ js, ∀ k ∈ ks, Apart j k) :
    ∃ js', loadAll d js order = some js' ∧ Ascending js' ∧ js'.Perm (ks ++ js) := by
  induction order generalizing js ks with
  | nil =>
      have hnil : ks = [] := by simpa using hks
      subst hnil
      exact ⟨js, rfl, hsort, List.Perm.refl _⟩
  | cons stem order ih =>
      rcases ks with _ | ⟨k, ks⟩
      · simp at hks
      · simp only [List.map_cons, List.cons.injEq] at hks
        rcases List.pairwise_cons.1 hapart with ⟨hk, hks'⟩
        rcases jnlInsert_of_apart hsort fun j hj => hjs j hj k (by simp) with
          ⟨js₁, hins, hsort₁, hperm₁⟩
        have hjs₁ : ∀ j ∈ js₁, ∀ l ∈ ks, Apart j l := by
          intro j hj l hl
          rcases List.mem_cons.1 (hperm₁.mem_iff.1 hj) with rfl | hj
          · exact hk l hl
          · exact hjs j hj l (by simp [hl])
        rcases ih hsort₁ hks.2 hks' hjs₁ with ⟨js', hload, hsort', hperm'⟩
        refine ⟨js', ?_, hsort', ?_⟩
        · simp only [loadAll, hks.1, Option.bind_some, hins]
          exact hload
        · refine hperm'.trans ((List.Perm.append_left ks hperm₁).trans ?_)
          exact List.perm_middle

/-- Two sorted lists of the same journals are equal. -/
theorem Ascending.eq_of_perm {js ks : List Jnl} (hj : Ascending js) (hk : Ascending ks)
    (h : js.Perm ks) : js = ks := by
  refine List.Perm.eq_of_pairwise ?_ hj hk h
  intro a b _ _ hab hba
  omega

/-! ## Sound directories -/

/-- `order` is a listing of the `.log` files of the directory, by their stems. -/
structure Lists (order : List Bytes) (d : Disk) : Prop where
  nodup : order.Nodup
  mem : ∀ stem, stem ∈ order ↔ d.log stem ≠ none

theorem lists_singleton {d : Disk} {stem : Bytes} (hstem : d.log stem ≠ none)
    (hother : ∀ t, t ≠ stem → d.log t = none) : Lists [stem] d := by
  refine ⟨by simp, fun t => ?_⟩
  rw [List.mem_singleton]
  constructor
  · rintro rfl
    exact hstem
  · intro ht
    by_contra hne
    exact ht (hother t hne)

/-- Every `.log` file is named after a version, every index has whole entries, and no journal starts
before the end of one that starts before it. -/
structure JournalsSound (d : Disk) : Prop where
  named : ∀ stem, d.log stem ≠ none → ∃ version, parseVersion stem = .ok version
  sized : ∀ stem, d.log stem ≠ none → (d.idxOf stem).length % 16 = 0
  apart : ∀ stem stem' version version', d.log stem ≠ none → d.log stem' ≠ none → stem ≠ stem' →
    parseVersion stem = .ok version → parseVersion stem' = .ok version' → version ≤ version' →
    version < version' ∧ version + ((d.idxOf stem).length / 16 % 2 ^ 32 : Nat) ≤ version'

theorem jnlOf_eq_some {d : Disk} {stem : Bytes} {j : Jnl} :
    jnlOf d stem = some j ↔ parseVersion stem = .ok j.version ∧ (d.idxOf stem).length % 16 = 0 ∧
      j.stem = stem ∧ j.nbPatches = (d.idxOf stem).length / 16 % 2 ^ 32 := by
  unfold jnlOf fetchNbPatches
  cases hv : parseVersion stem with
  | error e => simp
  | ok version =>
      by_cases hsize : (d.idxOf stem).length % 16 = 0
      · rcases j with ⟨s, v, n⟩
        simp only [hsize, ne_eq, not_true_eq_false, if_false, Option.some.injEq, Jnl.mk.injEq,
          Except.ok.injEq, true_and]
        constructor
        · rintro ⟨rfl, rfl, rfl⟩
          exact ⟨rfl, rfl, rfl⟩
        · rintro ⟨rfl, rfl, rfl⟩
          exact ⟨rfl, rfl, rfl⟩
      · simp [hsize]

theorem JournalsSound.jnlOf_isSome {d : Disk} (h : JournalsSound d) {stem : Bytes}
    (hs : d.log stem ≠ none) : ∃ j, jnlOf d stem = some j := by
  rcases h.named stem hs with ⟨version, hv⟩
  exact ⟨⟨stem, version, _⟩, jnlOf_eq_some.2 ⟨hv, h.sized stem hs, rfl, rfl⟩⟩

theorem JournalsSound.jnlOf_apart {d : Disk} (h : JournalsSound d) {s t : Bytes} (hs : d.log s ≠ none)
    (ht : d.log t ≠ none) (hne : s ≠ t) {j k : Jnl} (hj : jnlOf d s = some j)
    (hk : jnlOf d t = some k) : Apart j k := by
  rcases jnlOf_eq_some.1 hj with ⟨hjv, -, -, hjn⟩
  rcases jnlOf_eq_some.1 hk with ⟨hkv, -, -, hkn⟩
  rcases le_total j.version k.version with hle | hle
  · have := h.apart s t _ _ hs ht hne hjv hkv hle
    rw [← hjn] at this
    exact .inl this
  · have := h.apart t s _ _ ht hs (Ne.symm hne) hkv hjv hle
    rw [← hkn] at this
    exact .inr this

/-- A sound directory loads whole. -/
theorem JournalsSound.loads {d : Disk} (h : JournalsSound d) {order : List Bytes}
    (hord : Lists order d) :
    ∃ js, loadAll d [] order = some js ∧ Ascending js ∧ js.Pairwise Apart ∧
      order.map (jnlOf d) = (order.filterMap (jnlOf d)).map some ∧
      js.Perm (order.filterMap (jnlOf d)) := by
  have hmap : ∀ l : List Bytes, (∀ stem ∈ l, d.log stem ≠ none) →
      l.map (jnlOf d) = (l.filterMap (jnlOf d)).map some := by
    intro l hl
    induction l with
    | nil => rfl
    | cons stem l ih =>
        rcases h.jnlOf_isSome (hl stem (by simp)) with ⟨j, hj⟩
        rw [List.map_cons, List.filterMap_cons_some hj, List.map_cons, hj,
          ih fun t ht => hl t (by simp [ht])]
  have hpair : (order.filterMap (jnlOf d)).Pairwise Apart := by
    refine List.Pairwise.filterMap (jnlOf d) ?_ (List.Pairwise.and_mem.1 hord.nodup)
    rintro s t ⟨hs, ht, hne⟩ j hj k hk
    exact h.jnlOf_apart ((hord.mem s).1 hs) ((hord.mem t).1 ht) hne hj hk
  have hall := hmap order fun stem hstem => (hord.mem stem).1 hstem
  have hnil : Ascending [] := List.Pairwise.nil
  rcases loadAll_of_apart hnil hall hpair (by simp) with
    ⟨js, hload, hsort, hperm⟩
  rw [List.append_nil] at hperm
  exact ⟨js, hload, hsort, (hperm.pairwise_iff Apart.symm).2 hpair, hall, hperm⟩

/-! ## `mdir_reload` -/

section Reload

variable [Host]

/-- Whatever happened in the directory loop, no error is left raised: it is cleared together with the
error of the missing permissions. -/
theorem mdirReload_silent (eb : ErrBuf) (m : Mdir) (order : List Bytes) :
    (mdirReload eb m (.ok order)).1.isError = false := by
  unfold mdirReload
  simp only
  split_ifs with herr
  · exact ErrBuf.isError_errorClear _
  · simpa using herr

theorem mdirReload_jnls (eb : ErrBuf) (m : Mdir) (order : List Bytes) :
    (mdirReload eb m (.ok order)).2.jnls = (loadJournals m.path eb m.disk [] order).2.2 := by
  unfold mdirReload
  simp only
  split_ifs <;> rfl

theorem mdirReload_disk (eb : ErrBuf) (m : Mdir) (order : List Bytes) :
    (mdirReload eb m (.ok order)).2.disk = (loadJournals m.path eb m.disk [] order).2.1 := by
  unfold mdirReload
  simp only
  split_ifs <;> rfl

/-- The list holds one journal per `.log` file, sorted, with pairwise disjoint ranges of versions. -/
structure LoadedAll (d : Disk) (order : List Bytes) (js : List Jnl) : Prop where
  perFile : (js.map Jnl.stem).Perm order
  ofFile : ∀ j ∈ js, jnlOf d j.stem = some j
  sorted : Ascending js
  disjoint : js.Pairwise fun j k => ∀ v, ¬ (j.holds v = true ∧ k.holds v = true)

omit [Host] in
theorem JournalsSound.loadedAll {d : Disk} (h : JournalsSound d) {order : List Bytes}
    (hord : Lists order d) {js : List Jnl} (hload : loadAll d [] order = some js) :
    LoadedAll d order js := by
  rcases h.loads hord with ⟨js', hload', hsort, hapart, hall, hperm⟩
  rw [hload] at hload'
  cases hload'
  have hstems : ∀ l : List Bytes, l.map (jnlOf d) = (l.filterMap (jnlOf d)).map some →
      (l.filterMap (jnlOf d)).map Jnl.stem = l := by
    intro l hl
    induction l with
    | nil => rfl
    | cons stem l ih =>
        cases hj : jnlOf d stem with
        | none =>
            have hlen := congrArg List.length hl
            rw [List.filterMap_cons_none hj] at hlen
            have hle := List.length_filterMap_le (jnlOf d) l
            simp at hlen
            omega
        | some j =>
            rw [List.map_cons, List.filterMap_cons_some hj, List.map_cons, List.cons.injEq] at hl
            rw [List.filterMap_cons_some hj, List.map_cons, jnlOf_stem hj, ih hl.2]
  refine ⟨?_, ?_, hsort, hapart.imp ?_⟩
  · rw [← hstems order hall]
    exact hperm.map Jnl.stem
  · intro j hj
    rcases List.mem_filterMap.1 (hperm.mem_iff.1 hj) with ⟨stem, -, hstem⟩
    rw [jnlOf_stem hstem]
    exact hstem
  · rintro j k (hjk | hjk) v ⟨hj, hk⟩ <;> simp only [Jnl.holds, decide_eq_true_eq] at hj hk <;> omega

omit [Host] in
/-- A list that holds one journal per file comes from a loop that ran to its end. -/
theorem loadAll_of_loadedAll {path : Bytes} {eb : ErrBuf} {d : Disk} {order : List Bytes}
    (h : LoadedAll d order (loadJournals path eb d [] order).2.2) :
    ∃ js, loadAll d [] order = some js := by
  have heq := loadJournals_eq path eb d [] order
  cases hall : loadAll d [] order with
  | some js => exact ⟨js, rfl⟩
  | none =>
      rw [hall] at heq
      have hlen := h.perFile.length_eq
      have hlt := heq.2
      simp only [List.length_map, List.length_nil] at hlen hlt
      omega

omit [Host] in
/-- The first two journals of a listing that loads are apart. -/
theorem apart_of_loadAll {d : Disk} {s t : Bytes} {rest : List Bytes} {js : List Jnl}
    (h : loadAll d [] (s :: t :: rest) = some js) :
    ∃ j k, jnlOf d s = some j ∧ jnlOf d t = some k ∧
      (j.version ≤ k.version → j.version < k.version ∧ j.version + j.nbPatches ≤ k.version) := by
  simp only [loadAll] at h
  rcases Option.bind_eq_some_iff.1 h with ⟨js₁, hs, h⟩
  rcases Option.bind_eq_some_iff.1 hs with ⟨j, hj, hins⟩
  rcases Option.bind_eq_some_iff.1 h with ⟨js₂, ht, -⟩
  rcases Option.bind_eq_some_iff.1 ht with ⟨k, hk, hins'⟩
  refine ⟨j, k, hj, hk, fun hle => ?_⟩
  cases hins
  unfold jnlInsert at hins'
  split_ifs at hins' with h1 h2
  · omega
  · omega

omit [Host] in
theorem Lists.perm {d : Disk} {order order' : List Bytes} (h : Lists order d)
    (hp : order'.Perm order) : Lists order' d :=
  ⟨hp.nodup_iff.2 h.nodup, fun stem => hp.mem_iff.trans (h.mem stem)⟩

/-- Loading is all or nothing and independent of the directory order exactly for sound directories. -/
theorem mdirReload_all_or_nothing_iff (m : Mdir) {order₀ : List Bytes} (h₀ : Lists order₀ m.disk) :
    (∀ order order', Lists order m.disk → Lists order' m.disk →
      ((mdirReload ErrBuf.new m (.ok order)).1.isError = true ∨
        LoadedAll m.disk order (mdirReload ErrBuf.new m (.ok order)).2.jnls) ∧
      (mdirReload ErrBuf.new m (.ok order)).1.isError =
        (mdirReload ErrBuf.new m (.ok order')).1.isError ∧
      (mdirReload ErrBuf.new m (.ok order)).2.jnls =
        (mdirReload ErrBuf.new m (.ok order')).2.jnls) ↔
    JournalsSound m.disk := by
  simp only [mdirReload_silent, mdirReload_jnls, Bool.false_eq_true, false_or, true_and]
  constructor
  · intro hall
    have hfront : ∀ order, Lists order m.disk → ∃ js, loadAll m.disk [] order = some js :=
      fun order hord => loadAll_of_loadedAll (hall order order hord hord).1
    -- each journal comes first in some order, and so is loaded
    have hjnl : ∀ stem, m.disk.log stem ≠ none → ∃ j, jnlOf m.disk stem = some j := by
      intro stem hstem
      have hmem := (h₀.mem stem).2 hstem
      rcases hfront _ (h₀.perm (List.perm_cons_erase hmem).symm) with ⟨js, hload⟩
      simp only [loadAll] at hload
      rcases Option.bind_eq_some_iff.1 hload with ⟨js₁, hs, -⟩
      rcases Option.bind_eq_some_iff.1 hs with ⟨j, hj, -⟩
      exact ⟨j, hj⟩
    refine ⟨?_, ?_, ?_⟩
    · intro stem hstem
      rcases hjnl stem hstem with ⟨j, hj⟩
      exact ⟨_, (jnlOf_eq_some.1 hj).1⟩
    · intro stem hstem
      rcases hjnl stem hstem with ⟨j, hj⟩
      exact (jnlOf_eq_some.1 hj).2.1
    · intro s t v w hs ht hne hv hw hle
      have hsm := (h₀.mem s).2 hs
      have htm : t ∈ order₀.erase s := (List.mem_erase_of_ne (Ne.symm hne)).2 ((h₀.mem t).2 ht)
      -- in an order that starts with these two
      have hperm : (s :: t :: (order₀.erase s).erase t).Perm order₀ :=
        ((List.perm_cons_erase htm).symm.cons s).trans (List.perm_cons_erase hsm).symm
      rcases hfront _ (h₀.perm hperm) with ⟨js, hload⟩
      rcases apart_of_loadAll hload with ⟨j, k, hj, hk, happ⟩
      rcases jnlOf_eq_some.1 hj with ⟨hjv, -, -, hjn⟩
      rcases jnlOf_eq_some.1 hk with ⟨hkv, -, -, -⟩
      rw [hv] at hjv
      rw [hw] at hkv
      cases hjv
      cases hkv
      rw [← hjn]
      exact happ hle
  · intro hsound order order' hord hord'
    rcases hsound.loads hord with ⟨js, hload, hsort, -, -, hperm⟩
    rcases hsound.loads hord' with ⟨js', hload', hsort', -, -, hperm'⟩
    have heq := loadJournals_eq m.path ErrBuf.new m.disk [] order
    have heq' := loadJournals_eq m.path ErrBuf.new m.disk [] order'
    rw [hload] at heq
    rw [hload'] at heq'
    have hpp : order.Perm order' :=
      (List.perm_ext_iff_of_nodup hord.nodup hord'.nodup).2 fun stem =>
        (hord.mem stem).trans (hord'.mem stem).symm
    -- both are sorted, and they are the same journals
    have hjj : js = js' :=
      hsort.eq_of_perm hsort' (hperm.trans ((hpp.filterMap (jnlOf m.disk)).trans hperm'.symm))
    refine ⟨?_, ?_⟩
    · rw [heq.2]
      exact hsound.loadedAll hord hload
    · rw [heq.2, heq'.2, hjj]

/-- A directory with the journals `1`, of two patches, and `start`, of one patch. -/
def twoJournals (start : Int) : Mdir :=
  { Mdir.new (ascii "/m") with
    disk :=
      { Disk.empty with
        log := fun stem => if stem = jnlStem 1 ∨ stem = jnlStem start then some [] else none
        idx := fun stem =>
          if stem = jnlStem 1 then some (List.replicate 32 0)
          else if stem = jnlStem start then some (List.replicate 16 0)
          else none } }

omit [Host] in
theorem twoJournals_lists (start : Int) (h : jnlStem 1 ≠ jnlStem start) :
    Lists [jnlStem 1, jnlStem start] (twoJournals start).disk := by
  refine ⟨by simp [h], fun stem => ?_⟩
  by_cases h1 : stem = jnlStem 1 <;> by_cases h2 : stem = jnlStem start <;> simp [twoJournals, h1, h2]

omit [Host] in
/-- When journals overlap, the second one is silently dropped if it is read last and kept if it is
read first. -/
theorem mdirReload_overlap_silent :
    ¬ ∀ (_ : Host) (m : Mdir) (order order' : List Bytes), Lists order m.disk →
      Lists order' m.disk →
      ((mdirReload ErrBuf.new m (.ok order)).1.isError = true ∨
        LoadedAll m.disk order (mdirReload ErrBuf.new m (.ok order)).2.jnls) ∧
      (mdirReload ErrBuf.new m (.ok order)).1.isError =
        (mdirReload ErrBuf.new m (.ok order')).1.isError ∧
      (mdirReload ErrBuf.new m (.ok order)).2.jnls =
        (mdirReload ErrBuf.new m (.ok order')).2.jnls := by
  intro h
  have hlists := twoJournals_lists 2 (by decide)
  have hbad := (h linuxHost (twoJournals 2) _ _ hlists (hlists.perm (List.Perm.swap _ _ _))).2.2
  simp only [mdirReload_jnls] at hbad
  revert hbad
  decide

omit [Host] in
/-- Consecutive journals load in both orders. -/
theorem mdirReload_consecutive :
    ((@mdirReload linuxHost ErrBuf.new (twoJournals 3) (.ok [jnlStem 1, jnlStem 3])).1.isError = true ∨
      LoadedAll (twoJournals 3).disk [jnlStem 1, jnlStem 3]
        (@mdirReload linuxHost ErrBuf.new (twoJournals 3) (.ok [jnlStem 1, jnlStem 3])).2.jnls) ∧
    (@mdirReload linuxHost ErrBuf.new (twoJournals 3) (.ok [jnlStem 1, jnlStem 3])).1.isError =
      (@mdirReload linuxHost ErrBuf.new (twoJournals 3) (.ok [jnlStem 3, jnlStem 1])).1.isError ∧
    (@mdirReload linuxHost ErrBuf.new (twoJournals 3) (.ok [jnlStem 1, jnlStem 3])).2.jnls =
      (@mdirReload linuxHost ErrBuf.new (twoJournals 3) (.ok [jnlStem 3, jnlStem 1])).2.jnls := by
  have hlists := twoJournals_lists 3 (by decide)
  have hswap := hlists.perm (List.Perm.swap (jnlStem 1) (jnlStem 3) [])
  refine (@mdirReload_all_or_nothing_iff linuxHost (twoJournals 3) _ hlists).2 ⟨?_, ?_, ?_⟩ _ _ hlists
    hswap
  · intro stem hs
    rcases List.mem_pair.1 ((hlists.mem stem).2 hs) with rfl | rfl
    · exact ⟨1, by decide⟩
    · exact ⟨3, by decide⟩
  · intro stem hs
    rcases List.mem_pair.1 ((hlists.mem stem).2 hs) with rfl | rfl <;> decide
  · intro s t v w hs ht hne hv hw hle
    have h1 : parseVersion (jnlStem 1) = .ok 1 := by decide
    have h3 : parseVersion (jnlStem 3) = .ok 3 := by decide
    have hn : ((twoJournals 3).disk.idxOf (jnlStem 1)).length / 16 % 2 ^ 32 = 2 := by decide
    rcases List.mem_pair.1 ((hlists.mem s).2 hs) with rfl | rfl <;>
      rcases List.mem_pair.1 ((hlists.mem t).2 ht) with rfl | rfl
    · exact absurd rfl hne
    · rw [h1] at hv
      rw [h3] at hw
      cases hv
      cases hw
      rw [hn]
      decide
    · rw [h3] at hv
      rw [h1] at hw
      cases hv
      cases hw
      exact absurd hle (by decide)
    · exact absurd rfl hne

/-! ## Directories written by `mdir_patch` -/

omit [Host] in
theorem creat_of_exists {d : Disk} {stem f g : Bytes} (hf : d.log stem = some f)
    (hg : d.idx stem = some g) : d.creat stem = d := by
  unfold Disk.creat
  split_ifs
  · have hlog : Function.update d.log stem (some (d.logOf stem)) = d.log := by
      rw [Disk.logOf, hf, Option.getD_some, ← hf, Function.update_eq_self]
    have hidx : Function.update d.idx stem (some (d.idxOf stem)) = d.idx := by
      rw [Disk.idxOf, hg, Option.getD_some, ← hg, Function.update_eq_self]
    rw [hlog, hidx]
  · rfl

omit [Host] in
theorem loadJournals_disk {path : Bytes} {eb : ErrBuf} {d : Disk} {js : List Jnl}
    {order : List Bytes} (h : ∀ stem ∈ order, d.creat stem = d) :
    (loadJournals path eb d js order).2.1 = d := by
  induction order generalizing js with
  | nil => rfl
  | cons stem order ih =>
      have hnew : (jnlNew path d js stem).1 = d := by
        unfold jnlNew
        split
        · rfl
        · simp only
          split
          · exact h stem (by simp)
          · split <;> exact h stem (by simp)
      unfold loadJournals
      split
      · next d' e heq =>
          rw [heq] at hnew
          exact hnew
      · next d' js' j heq =>
          rw [heq] at hnew
          simp only at hnew
          subst hnew
          exact ih fun t ht => h t (by simp [ht])

omit [Host] in
theorem journalsOf_pairwise {ps : List (List Slot)} (hfull : Full ps.dropLast) (v : Nat) :
    (journalsOf v ps).Pairwise fun (j k : Jnl) =>
      j.version < k.version ∧ j.version + j.nbPatches ≤ k.version := by
  induction ps generalizing v with
  | nil => exact List.Pairwise.nil
  | cons p ps ih =>
      rcases ps with _ | ⟨q, ps⟩
      · exact List.pairwise_singleton _ _
      · have hp : 0 < p.length := List.length_pos_iff.2 (hfull p (by simp))
        refine List.pairwise_cons.2 ⟨?_, ih (fun r hr => hfull r (by simp [hr])) _⟩
        intro k hk
        rcases mem_journalsOf.1 hk with ⟨ps₁, r, ps₂, -, rfl⟩
        simp only [partJnl]
        omega

section OnDisk

variable {maxJnlSize : Nat} {m : Mdir} {ps : List (List Slot)}

omit [Host] in
theorem layout_ne_none {v : Nat} {ps : List (List Slot)} {stem : Bytes}
    (h : layout v ps stem ≠ none) : ∃ j ∈ journalsOf v ps, j.stem = stem := by
  induction ps generalizing v with
  | nil => exact absurd rfl h
  | cons p ps ih =>
      by_cases hstem : stem = jnlStem v
      · exact ⟨partJnl v p, by simp [journalsOf], hstem.symm⟩
      · rw [layout, Function.update_of_ne hstem] at h
        rcases ih h with ⟨j, hj, heq⟩
        exact ⟨j, by simp [journalsOf, hj], heq⟩

omit [Host] in
/-- The files of each journal make that journal. -/
theorem Rep.jnlOf_files (hmax : maxJnlSize < 2 ^ 32) (h : Rep maxJnlSize m ps) {j : Jnl}
    (hj : j ∈ journalsOf 1 ps) :
    jnlOf m.disk j.stem = some j ∧ m.disk.log j.stem ≠ none ∧ m.disk.creat j.stem = m.disk := by
  rcases mem_journalsOf.1 hj with ⟨ps₁, p, ps₂, rfl, rfl⟩
  have hhold := h.disk.holds
  have hp := h.part_lt hmax (p := p) (by simp)
  have hlt := h.length_lt
  simp only [List.flatten_append, List.flatten_cons, List.length_append] at hlt
  refine ⟨jnlOf_eq_some.2 ⟨parseVersion_jnlStem (by omega), ?_, rfl, ?_⟩, ?_,
    creat_of_exists hhold.log hhold.idx⟩
  · rw [hhold.idxOf, length_idxBytes]
    omega
  · rw [hhold.idxOf, length_idxBytes]
    simp only [partJnl]
    omega
  · rw [hhold.log]
    exact Option.some_ne_none _

omit [Host] in
theorem Rep.mem_log (h : Rep maxJnlSize m ps) {stem : Bytes} (hs : m.disk.log stem ≠ none) :
    ∃ j ∈ journalsOf 1 ps, j.stem = stem := by
  refine layout_ne_none (v := 1) ?_
  intro hnone
  exact hs (by rw [h.disk.log]; simp [hnone])

omit [Host] in
theorem Rep.sound (hmax : maxJnlSize < 2 ^ 32) (h : Rep maxJnlSize m ps) : JournalsSound m.disk := by
  have hget : ∀ stem, m.disk.log stem ≠ none →
      ∃ j ∈ journalsOf 1 ps, jnlOf m.disk stem = some j := by
    intro stem hs
    rcases h.mem_log hs with ⟨j, hj, rfl⟩
    exact ⟨j, hj, (h.jnlOf_files hmax hj).1⟩
  refine ⟨?_, ?_, ?_⟩
  · intro stem hs
    rcases hget stem hs with ⟨j, -, hj⟩
    exact ⟨_, (jnlOf_eq_some.1 hj).1⟩
  · intro stem hs
    rcases hget stem hs with ⟨j, -, hj⟩
    exact (jnlOf_eq_some.1 hj).2.1
  · intro s t v w hs ht hne hv hw hle
    rcases hget s hs with ⟨j, hj, hjs⟩
    rcases hget t ht with ⟨k, hk, hkt⟩
    rcases jnlOf_eq_some.1 hjs with ⟨hjv, -, hjstem, hjn⟩
    rcases jnlOf_eq_some.1 hkt with ⟨hkv, -, hkstem, -⟩
    rw [hv] at hjv
    rw [hw] at hkv
    cases hjv
    cases hkv
    have hjk : j ≠ k := by
      rintro rfl
      exact hne (hjstem.symm.trans hkstem)
    have hpair : (journalsOf 1 ps).Pairwise Apart :=
      (journalsOf_pairwise h.disk.full 1).imp fun hjk => .inl hjk
    have happ := hpair.forall hj hk hjk
    rw [← hjn]
    rcases happ with happ | happ
    · exact happ
    · omega

/-- A reload finds the patches again, whatever the directory order. -/
theorem Refines.reload {A : List Slot} (hmax : maxJnlSize < 2 ^ 32) (h : Refines maxJnlSize m A)
    {eb : ErrBuf} {order : List Bytes} (hord : Lists order m.disk) :
    Refines maxJnlSize (mdirReload eb m (.ok order)).2 A ∧
      (mdirReload eb m (.ok order)).2.disk = m.disk ∧
      (mdirReload eb m (.ok order)).2.jnls = m.jnls := by
  rcases h with ⟨ps, hrep, rfl⟩
  have hdisk : (mdirReload eb m (.ok order)).2.disk = m.disk := by
    rw [mdirReload_disk]
    refine loadJournals_disk fun stem hstem => ?_
    rcases hrep.mem_log ((hord.mem stem).1 hstem) with ⟨j, hj, rfl⟩
    exact (hrep.jnlOf_files hmax hj).2.2
  have hjnls : (mdirReload eb m (.ok order)).2.jnls = journalsOf 1 ps := by
    rcases (hrep.sound hmax).loads hord with ⟨js, hload, hsort, -, -, hperm⟩
    have heq := loadJournals_eq m.path eb m.disk [] order
    rw [hload] at heq
    rw [mdirReload_jnls, heq.2]
    have hpair := journalsOf_pairwise hrep.disk.full 1
    have hnodup : (journalsOf 1 ps).Nodup :=
      hpair.imp fun hjk he => by
        rw [he] at hjk
        omega
    refine hsort.eq_of_perm (hpair.imp fun hjk => hjk.1) ?_
    refine (List.perm_ext_iff_of_nodup ?_ hnodup).2 fun j => ?_
    · exact hsort.imp fun hjk he => by
        rw [he] at hjk
        omega
    · rw [hperm.mem_iff, List.mem_filterMap]
      constructor
      · rintro ⟨stem, hstem, hj⟩
        rcases hrep.mem_log ((hord.mem stem).1 hstem) with ⟨k, hk, rfl⟩
        rw [(hrep.jnlOf_files hmax hk).1] at hj
        cases hj
        exact hk
      · intro hj
        have hof := hrep.jnlOf_files hmax hj
        exact ⟨j.stem, (hord.mem _).2 hof.2.1, hof.1⟩
  exact ⟨⟨ps, ⟨by rw [hdisk]; exact hrep.disk, hjnls, hrep.fits, hrep.small, hrep.opened⟩, rfl⟩, hdisk,
    hjnls.trans hrep.jnls.symm⟩

end OnDisk

end Reload

end Scambio
