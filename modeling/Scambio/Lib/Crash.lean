import Scambio.Lib.PowerLoss
import Scambio.Lib.Readback

/-!
# Crash — which interruptions of `mdir_patch` the journals survive

The index entry of a patch is written before its record, and the tag of a deleted patch before the
record of its removal.  A crash is harmless when it falls between two appends or inside a record, and
`CutClean` says exactly that.  It is not when it falls

* inside an index entry: the index has a bad size and the journal is not loaded any more;
* right after an index entry: the entry has no record, and its size is not positive;
* between the tag of a deletion and the end of its record: a patch is deleted by no one.

`crash_consistent_of_run` is about runs with any number of harmless crashes.
-/

namespace Scambio

open Library

section Cut

variable [Host] (maxJnlSize : Nat)

omit [Host] in
/-- Of the bytes of an append, `k` reach the disk: none, or the entry and some of the record.  With
no byte written an empty journal may be left, that must not be taken for a full one. -/
def WholeCut (power : Power) (k : Nat) : Prop :=
  (k = 0 ∧ (power.creat = true → 0 < maxJnlSize)) ∨ 16 < k

/-- The call removes a patch that is still there. -/
def Tags (m : Mdir) (action : Action) (header : Header) : Prop :=
  action = .rem ∧ ∃ toDel target, headerTarget header = .ok toDel ∧
    mdirRead m toDel = .ok (.add, some target)

/-- The cut falls between two appends or inside a record, and never after the tag of a deletion. -/
structure CutClean (sys : Sys) (m : Mdir) (action : Action) (header : Header) (nbDeleted : Nat)
    (power : Power) : Prop where
  marks : MarksSafe sys m action header nbDeleted
  blanks : power.bytes < 19 * nbDeleted → WholeCut maxJnlSize power (power.bytes % 19)
  tag : 19 * nbDeleted ≤ power.bytes → Accepted sys m action header nbDeleted → Tags m action header →
    power.bytes = 19 * nbDeleted
  record : 19 * nbDeleted ≤ power.bytes → Accepted sys m action header nbDeleted →
    ¬ Tags m action header → WholeCut maxJnlSize power (power.bytes - 19 * nbDeleted)

end Cut

/-! ## Stages -/

theorem insertBlankPatches_add {maxJnlSize : Nat} {m m₁ : Mdir} {a : Nat} (b : Nat)
    (h : insertBlankPatches maxJnlSize m a = (m₁, .ok ())) :
    insertBlankPatches maxJnlSize m (a + b) = insertBlankPatches maxJnlSize m₁ b := by
  induction a generalizing m with
  | zero =>
      cases h
      rw [Nat.zero_add]
  | succ a ih =>
      rw [Nat.succ_add]
      cases happ : mdirAppend maxJnlSize m blankRecord with
      | mk m' r =>
          cases r with
          | error e => simp [insertBlankPatches, happ] at h
          | ok jv =>
              simp only [insertBlankPatches, happ] at h ⊢
              exact ih h

section Stages

variable [Host] {sys : Sys} {maxJnlSize : Nat} {m m₁ m₂ m₃ : Mdir} {A : List Slot} {action : Action}
  {header h : Header} {nb : Nat}

theorem mdirPatch_of_blanks (hins : insertBlankPatches maxJnlSize m nb = (m₁, .ok ())) :
    mdirPatch sys maxJnlSize m action header nb = mdirPatch sys maxJnlSize m₁ action header 0 := by
  simp only [mdirPatch, hins, insertBlankPatches]

/-- Once the power is out, the rest of the call changes nothing. -/
theorem lost_after_append {r : Except Err (Jnl × Int)}
    (hprep : mdirPrepare sys m action header = (m₂, h, .ok ()))
    (happ : mdirAppend maxJnlSize m₂ (patchRecord action h) = (m₃, r)) (hout : m₃.disk.Out) :
    Lost m₃.disk (mdirPatch sys maxJnlSize m action header 0).mdir.disk := by
  simp only [mdirPatch, insertBlankPatches, hprep, happ]
  cases r with
  | error e => exact .refl hout
  | ok jv =>
      have hconf := Lost.mdirConfirm hout sys action h
      simp only
      split
      · next heq =>
          rw [heq] at hconf
          exact hconf
      · next heq =>
          rw [heq] at hconf
          have hmark := Lost.handleMark hconf.out h jv.1 jv.2
          split
          · next heq₂ =>
              rw [heq₂] at hmark
              exact hconf.trans hmark
          · next heq₂ =>
              rw [heq₂] at hmark
              exact hconf.trans hmark

theorem lost_after_prepare {r : Except Err Unit}
    (hprep : mdirPrepare sys m action header = (m₂, h, r)) (hout : m₂.disk.Out) :
    Lost m₂.disk (mdirPatch sys maxJnlSize m action header 0).mdir.disk := by
  cases r with
  | error e =>
      simp only [mdirPatch, insertBlankPatches, hprep]
      exact .refl hout
  | ok u =>
      have happ := Lost.mdirAppend hout maxJnlSize (patchRecord action h)
      exact happ.trans (lost_after_append hprep rfl happ.out)

theorem lost_after_blanks (hout : (insertBlankPatches maxJnlSize m nb).1.disk.Out) :
    Lost (insertBlankPatches maxJnlSize m nb).1.disk
      (mdirPatch sys maxJnlSize m action header nb).mdir.disk := by
  cases hins : insertBlankPatches maxJnlSize m nb with
  | mk m₁ r =>
      rw [hins] at hout
      cases r with
      | error e =>
          simp only [mdirPatch, hins]
          exact .refl hout
      | ok u =>
          have hprep := Lost.mdirPrepare hout sys action header
          rw [mdirPatch_of_blanks hins]
          exact hprep.trans (lost_after_prepare rfl hprep.out)

omit [Host] in
/-- The tag of a deletion is lost when the power is out. -/
theorem Refines.markDel_lost (hmax : maxJnlSize < 2 ^ 32) (href : Refines maxJnlSize m A) {j : Jnl}
    (hj : j ∈ m.jnls) {n : Nat} (hn : j.holds ((1 + n : Nat) : Int) = true) {p : Power}
    (hp : m.disk.power = some p) (hzero : p.bytes = 0) {s : Slot} (hs : A[n]? = some s)
    (htag : s.record.take 1 = ascii "+") : Lost m.disk (jnlMarkDel m.disk j ((1 + n : Nat) : Int)).1 := by
  rcases href with ⟨ps, hrep, rfl⟩
  rcases hrep.locate hj hn with ⟨ps₁, q, ps₂, i, rfl, rfl, hi, rfl⟩
  have hq : q ∈ ps₁ ++ q :: ps₂ := by simp
  rw [getElem?_part ps₁ q ps₂ hi, List.getElem?_eq_getElem hi] at hs
  cases hs
  have hold := hrep.disk.holds
  have hneq : ascii "+" ≠ ascii "%" := by decide
  rw [jnlMarkDel_eq hold (hrep.fits.part hq) (hrep.part_lt hmax hq) hi
    (by simp only [partJnl]; omega), htag, if_neg hneq, if_neg (not_not.2 rfl)]
  refine lost_writeLogAt hp hzero ?_ (by decide)
  rw [hold.logOf]
  exact offset_le _ _

/-- A call whose cut falls among its blanks. -/
theorem Refines.blanks_cut (hmax : maxJnlSize < 2 ^ 32) (href : Refines maxJnlSize m A) {p : Power}
    (hp : m.disk.power = some p) (hlt : p.bytes < 19 * nb)
    (hcut : WholeCut maxJnlSize p (p.bytes % 19))
    (hroom : (logBytes A).length + 3 * nb + 1 < 2 ^ 63) :
    ∃ B, records A <+: records B ∧
      DiskHolds maxJnlSize (mdirPatch sys maxJnlSize m action header nb).mdir.disk B := by
  -- the blanks that are whole
  obtain ⟨b, hb⟩ : ∃ b, nb = p.bytes / 19 + (b + 1) := ⟨nb - p.bytes / 19 - 1, by omega⟩
  have hcan : m.disk.Can (19 * (p.bytes / 19)) := by
    intro p' hp'
    rw [hp, Option.some.injEq] at hp'
    rw [← hp']
    omega
  rcases href.insertBlank hmax (p.bytes / 19) hcan (by omega) with ⟨m₁, hins, href₁, -, hpow₁⟩
  have hp₁ : m₁.disk.power = some { p with bytes := p.bytes % 19 } := by
    rw [hpow₁, Disk.pay, hp, Option.map_some, Nat.mod_def]
  have hroom₁ : (logBytes (A ++ List.replicate (p.bytes / 19) blankSlot)).length +
      blankRecord.length + 1 < 2 ^ 63 := by
    rw [logBytes_concat, List.length_append, logBytes_blanks, blank_length]
    omega
  -- the one that is cut
  have hcase : ∃ B, records A <+: records B ∧
      DiskHolds maxJnlSize (mdirAppend maxJnlSize m₁ blankRecord).1.disk B ∧
      (mdirAppend maxJnlSize m₁ blankRecord).1.disk.Out := by
    rcases hcut with ⟨hzero, hcreat⟩ | hlo
    · refine ⟨A ++ List.replicate (p.bytes / 19) blankSlot, ?_,
        href₁.append_lost hp₁ hzero hcreat blankRecord⟩
      exact ⟨_, by rw [← records_concat]⟩
    · refine ⟨A ++ List.replicate (p.bytes / 19) blankSlot ++
          [⟨blankRecord.take (p.bytes % 19 - 16), 0⟩], ?_,
        href₁.append_cut hp₁ hlo (by rw [blank_length]; simp only; omega) hroom₁⟩
      rw [List.append_assoc]
      exact ⟨_, by rw [← records_concat]⟩
  rcases hcase with ⟨B, hpre, hholds, hout⟩
  have hlost : Lost (mdirAppend maxJnlSize m₁ blankRecord).1.disk
      (insertBlankPatches maxJnlSize m nb).1.disk := by
    rw [hb, insertBlankPatches_add (b + 1) hins]
    simp only [insertBlankPatches]
    split
    · next heq =>
        rw [heq] at hout ⊢
        exact .refl hout
    · next heq =>
        rw [heq] at hout ⊢
        exact .insertBlankPatches hout maxJnlSize b
  exact ⟨B, hpre, hholds.lost (hlost.trans (lost_after_blanks hlost.out))⟩

/-- A call whose cut falls in its own append. -/
theorem Refines.record_cut (href : Refines maxJnlSize m₂ A)
    (hprep : mdirPrepare sys m action header = (m₂, h, .ok ())) {p : Power}
    (hp : m₂.disk.power = some p) (hcut : WholeCut maxJnlSize p p.bytes)
    (hlt : p.bytes < 16 + (patchRecord action h).length)
    (hroom : (logBytes A).length + (patchRecord action h).length + 1 < 2 ^ 63) :
    ∃ B, records A <+: records B ∧
      DiskHolds maxJnlSize (mdirPatch sys maxJnlSize m action header 0).mdir.disk B := by
  have hcase : ∃ B, records A <+: records B ∧
      DiskHolds maxJnlSize (mdirAppend maxJnlSize m₂ (patchRecord action h)).1.disk B ∧
      (mdirAppend maxJnlSize m₂ (patchRecord action h)).1.disk.Out := by
    rcases hcut with ⟨hzero, hcreat⟩ | hlo
    · exact ⟨A, List.prefix_rfl, href.append_lost hp hzero hcreat _⟩
    · refine ⟨_, ?_, href.append_cut hp hlo hlt hroom⟩
      exact ⟨_, by rw [← records_concat]⟩
  rcases hcase with ⟨B, hpre, hholds, hout⟩
  exact ⟨B, hpre, hholds.lost (lost_after_append hprep rfl hout)⟩

/-- A call whose record is whole: the cut may fall in the perms file or in the mark index. -/
theorem Refines.record_whole (hmax : maxJnlSize < 2 ^ 32) (href : Refines maxJnlSize m₂ A)
    (hprep : mdirPrepare sys m action header = (m₂, h, .ok ()))
    (hcan : m₂.disk.Can (16 + (patchRecord action h).length))
    (hroom : (logBytes A).length + (patchRecord action h).length + 1 < 2 ^ 63)
    (hmode : Host.appendPwrite = .atOffset ∨
      ¬ (storeConfirm sys m₂.path action h = true ∧ MarksExisting (A.length + 1) h)) :
    ∃ B, records A <+: records B ∧
      DiskHolds maxJnlSize (mdirPatch sys maxJnlSize m action header 0).mdir.disk B := by
  rcases href.append hmax (r := patchRecord action h)
    (by cases action <;> simp [patchRecord, mdirAction2str, ascii]) hcan hroom with
    ⟨m₃, j, happ, href₃, hj, hin, hframe, -⟩
  rcases mdirConfirm_spec sys (m := m₃) action h with
    ⟨m₄, r, hconf, hjnls, hlog, hidx, -, -, hok⟩
  have href₄ := href₃.congr hjnls hlog hidx
  have hpre : records A <+: records (A ++ [⟨patchRecord action h, 0⟩]) :=
    ⟨_, by rw [← records_concat]⟩
  simp only [mdirPatch, insertBlankPatches, hprep, happ, hconf]
  cases r with
  | error e => exact ⟨_, hpre, href₄.diskHolds⟩
  | ok u =>
      have hc : storeConfirm sys m₂.path action h = true := by
        by_contra hne
        rw [hframe.path, Bool.eq_false_iff.2 hne] at hok
        rcases hok with ⟨e, he⟩
        cases he
      have hmode' : Host.appendPwrite = .atOffset ∨
          ¬ MarksExisting (A ++ [(⟨patchRecord action h, 0⟩ : Slot)]).length h :=
        hmode.imp_right fun hn hm => hn ⟨hc, by simpa using hm⟩
      rcases href₄.handleMark_cut (n := A.length) (by simp) (by rw [hjnls]; exact hj) hin hmode' with
        ⟨B, hrec, hholds⟩
      refine ⟨B, hrec ▸ hpre, ?_⟩
      simp only
      split
      · next heq =>
          rw [heq] at hholds
          exact hholds
      · next heq =>
          rw [heq] at hholds
          exact hholds

end Stages

/-! ## Clean cuts -/

section Clean

variable [Host] {sys : Sys} {maxJnlSize : Nat} {m : Mdir} {A : List Slot} {action : Action}
  {header : Header} {nb : Nat} {power : Power}

theorem Refines.not_tags (hmax : maxJnlSize < 2 ^ 32) (href : Refines maxJnlSize m A) {path : Bytes}
    (h : storeRemoval sys path (A ++ List.replicate nb blankSlot) header = .already) :
    ¬ Tags m .rem header := by
  rintro ⟨-, toDel, target, htgt, hread⟩
  rcases storeRemoval_already sys h with ⟨n, htgt', s, action, hs, hrec⟩
  rw [htgt, Except.ok.injEq] at htgt'
  subst htgt'
  by_cases hn : n < A.length
  · rw [List.getElem?_append_left hn] at hs
    have hread' := href.mdirRead hmax (n := n) (r := s.record) (by simp [records, hs])
    rw [hread, hrec] at hread'
    cases hread'
  · -- one of the blanks: there was no such version before
    rw [Scambio.mdirRead, jnlGetByVersion, href.find_none (.inr (by omega))] at hread
    cases hread

theorem Refines.tags (hmax : maxJnlSize < 2 ^ 32) (href : Refines maxJnlSize m A) {path : Bytes}
    {n : Nat} (h : storeRemoval sys path (A ++ List.replicate nb blankSlot) header = .tag n) :
    Tags m .rem header := by
  rcases storeRemoval_tag sys h with ⟨htgt, s, target, hs, hrec⟩
  refine ⟨rfl, _, target, htgt, eq_ok_of_toOption ?_⟩
  by_cases hn : n < A.length
  · rw [List.getElem?_append_left hn] at hs
    rw [href.mdirRead hmax (n := n) (r := s.record) (by simp [records, hs]), hrec]
  · rw [List.getElem?_append_right (by omega), List.getElem?_replicate] at hs
    split_ifs at hs
    cases hs
    rw [show blankSlot.record = blankRecord from rfl, readRecord_of_isDeleted isDeleted_blank] at hrec
    cases hrec

/-- What a clean cut leaves in the files: the patches that were there, maybe followed by others. -/
theorem Refines.patch_cut (hmax : maxJnlSize < 2 ^ 32) (href : Refines maxJnlSize m A)
    (hroom : RoomFor sys m action header nb)
    (hclean : CutClean maxJnlSize sys m action header nb power) :
    ∃ B, records A <+: records B ∧
      DiskHolds maxJnlSize (crashed maxJnlSize sys m action header nb power).disk B := by
  let m' : Mdir := { m with disk := { m.disk with power := some power } }
  have href' : Refines maxJnlSize m' A := href.congr rfl rfl rfl
  suffices hmain : ∃ B, records A <+: records B ∧
      DiskHolds maxJnlSize (mdirPatch sys maxJnlSize m' action header nb).mdir.disk B by
    rcases hmain with ⟨B, hpre, m'', hlog, hidx, hB⟩
    exact ⟨B, hpre, m'', hlog, hidx, hB⟩
  unfold RoomFor at hroom
  rw [href.logSize] at hroom
  by_cases hblanks : power.bytes < 19 * nb
  · exact href'.blanks_cut hmax rfl hblanks (hclean.blanks hblanks) (by omega)
  · have hle : 19 * nb ≤ power.bytes := by omega
    have hcan : m'.disk.Can (19 * nb) := by
      intro p hp
      cases hp
      exact hle
    rcases href'.insertBlank hmax nb hcan (by omega) with ⟨m₁, hins, href₁, hframe, hpow₁⟩
    have hpath : m₁.path = m.path := hframe.path
    have hp₁ : m₁.disk.power = some { power with bytes := power.bytes - 19 * nb } := hpow₁
    have hpre : records A <+: records (A ++ List.replicate nb blankSlot) :=
      ⟨_, by rw [← records_concat]⟩
    rw [mdirPatch_of_blanks hins]
    -- the append of an accepted call that tags nothing
    have happend : mdirPrepare sys m₁ action header =
          (m₁, linkedHeader sys m.path action header, .ok ()) →
        storePrepare sys m.path (A ++ List.replicate nb blankSlot) action header ≠ none →
        ¬ Tags m action header →
        ∃ B, records A <+: records B ∧
          DiskHolds maxJnlSize (mdirPatch sys maxJnlSize m₁ action header 0).mdir.disk B := by
      intro hprep hacc htags
      have haccepted := (href.accepted_iff hmax).1 hacc
      have hcut := hclean.record hle haccepted htags
      have hroom₁ : (logBytes (A ++ List.replicate nb blankSlot)).length +
          (patchRecord action (linkedHeader sys m.path action header)).length + 1 < 2 ^ 63 := by
        rw [logBytes_concat, List.length_append, logBytes_blanks]
        omega
      have hcase : ∃ B, records (A ++ List.replicate nb blankSlot) <+: records B ∧
          DiskHolds maxJnlSize (mdirPatch sys maxJnlSize m₁ action header 0).mdir.disk B := by
        by_cases hlt : power.bytes - 19 * nb <
            16 + (patchRecord action (linkedHeader sys m.path action header)).length
        · exact href₁.record_cut hprep hp₁ hcut hlt hroom₁
        · refine href₁.record_whole hmax hprep ?_ hroom₁ ?_
          · intro p hp
            rw [hp₁, Option.some.injEq] at hp
            rw [← hp]
            exact Nat.le_of_not_lt hlt
          · refine hclean.marks.imp_right fun hn hm => hn ⟨haccepted, ?_, ?_⟩
            · rw [hpath] at hm
              exact storeConfirm_iff.1 hm.1
            · rw [href.lastVersion, Int.toNat_natCast]
              simpa using hm.2
      rcases hcase with ⟨B, hB, hholds⟩
      exact ⟨B, hpre.trans hB, hholds⟩
    cases action with
    | add =>
        have hprep : mdirPrepare sys m₁ .add header =
            (m₁, (storePrepareAdd sys m.path header).1, (storePrepareAdd sys m.path header).2) := by
          rw [← hpath]
          rfl
        cases hlink : (storePrepareAdd sys m.path header).2 with
        | error e =>
            simp only [mdirPatch, insertBlankPatches, hprep, hlink]
            exact ⟨_, hpre, href₁.diskHolds⟩
        | ok u =>
            rw [hlink] at hprep
            exact happend hprep (by simp [storePrepare, hlink]) fun ht => by cases ht.1
    | rem =>
        have hrem := href₁.prepareRem sys hmax header
        rw [hpath] at hrem
        cases hr : storeRemoval sys m.path (A ++ List.replicate nb blankSlot) header with
        | refused =>
            rw [hr] at hrem
            rcases hrem with ⟨e, he⟩
            simp only [mdirPatch, insertBlankPatches, mdirPrepare, he]
            exact ⟨_, hpre, href₁.diskHolds⟩
        | already =>
            rw [hr] at hrem
            refine happend ?_ (by simp [storePrepare, hr]) (href.not_tags hmax hr)
            simp only at hrem
            rw [mdirPrepare, hrem, linkedHeader]
        | tag n =>
            rw [hr] at hrem
            rcases hrem with ⟨j, s, hj, hin, hs, htag, heq⟩
            have haccepted : Accepted sys m .rem header nb :=
              (href.accepted_iff hmax).1 (by simp [storePrepare, hr])
            have hbytes := hclean.tag hle haccepted (href.tags hmax hr)
            have hlost := href₁.markDel_lost hmax hj hin hp₁ (by simp only; omega) hs htag
            have hprep : mdirPrepare sys m₁ .rem header =
                ({ m₁ with disk := (jnlMarkDel m₁.disk j ((1 + n : Nat) : Int)).1 }, header,
                  (jnlMarkDel m₁.disk j ((1 + n : Nat) : Int)).2) := by
              rw [mdirPrepare, heq, hpath]
            have hafter : Lost _ (mdirPatch sys maxJnlSize m₁ .rem header 0).mdir.disk :=
              lost_after_prepare hprep hlost.out
            exact ⟨_, hpre, href₁.diskHolds.lost (hlost.trans hafter)⟩

theorem CutClean.crashSafe (hmax : maxJnlSize < 2 ^ 32)
    (hclean : CutClean maxJnlSize sys m action header nb power) :
    CrashSafe maxJnlSize sys m action header nb power := by
  intro A href _ hroom
  rcases href.patch_cut hmax hroom hclean with ⟨B, hpre, hholds⟩
  exact ⟨B, hpre, fun order hord => hholds.reload hmax hord⟩

end Clean

/-! ## Runs with crashes -/

section Run

variable [Host] {maxJnlSize : Nat} {m : Mdir} {calls : List Call}

/-- What is left of a mdir after any number of crashes: the versions of the completed calls read as
they were written, no patch has an empty record, and new patches are appended as before. -/
structure CrashConsistent (maxJnlSize : Nat) (m : Mdir) (calls : List Call) : Prop where
  readback : ∀ (k : Nat) (c : Call) (v : Int), calls[k]? = some c → c.result = .ok v →
    v = c.before + c.nbDeleted + 1 ∧
    (¬ RemovedAfter calls k v → (mdirRead m v).toOption = readRecord (patchRecord c.action c.left)) ∧
    (RemovedAfter calls k v → mdirRead m v = .ok (.add, none))
  sized : ∀ j ∈ m.jnls, ∀ i, i < j.nbPatches →
    ∃ offset size, jnlOffsetSize m.disk j i = .ok (offset, size)
  appends : ∀ sys action header nb, RoomFor sys m action header nb → MarksSafe sys m action header nb →
    Accepted sys m action header nb → Completes sys m action header nb →
    (mdirPatch sys maxJnlSize m action header nb).result = .ok (mdirLastVersion m + nb + 1)

omit [Host] in
theorem Refines.sized (hmax : maxJnlSize < 2 ^ 32) {A : List Slot} (h : Refines maxJnlSize m A) {j : Jnl}
    (hj : j ∈ m.jnls) {i : Nat} (hi : i < j.nbPatches) :
    ∃ offset size, jnlOffsetSize m.disk j i = .ok (offset, size) := by
  rcases h with ⟨ps, hrep, rfl⟩
  rw [hrep.jnls] at hj
  rcases mem_journalsOf.1 hj with ⟨ps₁, p, ps₂, rfl, rfl⟩
  have hp : p ∈ ps₁ ++ p :: ps₂ := by simp
  exact ⟨_, _, jnlOffsetSize_spec hrep.disk.holds (hrep.fits.part hp) (hrep.part_lt hmax hp) hi⟩

theorem Refines.patch_ok (hmax : maxJnlSize < 2 ^ 32) {A : List Slot} (h : Refines maxJnlSize m A)
    (hpow : m.disk.power = none) {sys : Sys} {action : Action} {header : Header} {nb : Nat}
    (hroom : RoomFor sys m action header nb) (hmark : MarksSafe sys m action header nb)
    (hacc : Accepted sys m action header nb) (hcomp : Completes sys m action header nb) :
    (mdirPatch sys maxJnlSize m action header nb).result = .ok (mdirLastVersion m + nb + 1) := by
  have hres := (h.callOf hmax hpow hroom hmark).2.1
  have hsome : (storePatch sys m.path A action header nb).2 ≠ none := by
    intro hnone
    rcases (storePatch_eq_none sys).1 hnone with hprep | hfail
    · exact (h.accepted_iff hmax).2 hacc hprep
    · exact (h.completes_iff sys action header nb).1 hcomp hfail
  rcases storePatch_records sys m.path A action header nb with ⟨-, hnone, -⟩ | ⟨T, -, -, hout⟩
  · exact absurd hnone hsome
  · rcases hout with hv | ⟨hnone, -⟩
    · refine eq_ok_of_toOption ?_
      rw [hres, hv, h.lastVersion]
      push_cast
      rfl
    · exact absurd hnone hsome

/-- In every run whose crashes are all clean, the mdir is consistent. -/
theorem crash_consistent_of_run (hmax : maxJnlSize < 2 ^ 32)
    (run : Run maxJnlSize MarksSafe (CutClean maxJnlSize) m calls) :
    CrashConsistent maxJnlSize m calls := by
  have hinv : ∃ A, Refines maxJnlSize m A ∧ m.disk.power = none ∧ History (records A) calls := by
    refine Run.invariant (P := fun A calls => History (records A) calls) hmax id
      (fun hc => hc.crashSafe hmax) History.init ?_ ?_ run
    · intro m A calls sys action header nb href hpow hP hmark hroom
      exact hP.step hmax href hpow hroom hmark
    · intro sys m action header nb power A B calls _ hpre hP
      exact hP.grow hpre
  rcases hinv with ⟨A, href, hpow, hist⟩
  refine ⟨?_, fun j hj i hi => href.sized hmax hj hi, ?_⟩
  · intro k c v hk hres
    rcases hist k c v hk hres with ⟨hver, hnn, ⟨r, hr, hdel, hown⟩, -⟩
    have hread := href.mdirRead hmax hr
    rw [show ((1 + (v - 1).toNat : Nat) : Int) = v by omega] at hread
    refine ⟨hver, fun hrem => ?_, fun hrem => eq_ok_of_toOption ?_⟩
    · rw [hread, hown hrem]
    · rw [hread, readRecord_of_isDeleted (hdel hrem)]
  · intro sys action header nb hroom hmark hacc hcomp
    exact href.patch_ok hmax hpow hroom hmark hacc hcomp

omit [Host] in
/-- The first patch is cut inside its record, and another one is made after the reload. -/
theorem crash_consistent_of_run_sample :
    let _ := plainHost
    let h : Header := [⟨ascii "sc-type", ascii "im"⟩]
    let m₁ := (mdirReload ErrBuf.new
      (crashed 2000 quietSys (Mdir.new (ascii "/m/1")) .add h 0 ⟨20, true⟩) (.ok [jnlStem 1])).2
    let m₂ := (mdirPatch quietSys 2000 m₁ .add h 0).mdir
    CrashConsistent 2000 m₂ [callOf 2000 quietSys m₁ .add h 0] := by
  intro _ h m₁ m₂
  have hclean : CutClean 2000 quietSys (Mdir.new (ascii "/m/1")) .add h 0 ⟨20, true⟩ :=
    { marks := .inl rfl
      blanks := fun hlt => by simp at hlt
      tag := fun _ _ ht => by cases ht.1
      record := fun _ _ _ => .inr (by decide) }
  have hlog : (crashed 2000 quietSys (Mdir.new (ascii "/m/1")) .add h 0 ⟨20, true⟩).disk.log =
      Function.update (Function.update (fun _ => none) (jnlStem 1) (some [])) (jnlStem 1)
        (some ((patchRecord .add h).take 4)) := rfl
  have hlists : Lists [jnlStem 1]
      (crashed 2000 quietSys (Mdir.new (ascii "/m/1")) .add h 0 ⟨20, true⟩).disk := by
    refine lists_singleton (by simp [hlog]) fun t ht => ?_
    simp [hlog, ht]
  have run₁ : Run 2000 MarksSafe (CutClean 2000) m₁ [] :=
    Run.crash quietSys .add h 0 ⟨20, true⟩ [jnlStem 1] (Run.init (ascii "/m/1")) hclean
      (by decide) hlists
  exact crash_consistent_of_run (by norm_num)
    (Run.patch quietSys .add h 0 run₁ (.inl rfl) (by decide))

/-- A cut anywhere. -/
def anyCut (_ : Sys) (_ : Mdir) (_ : Action) (_ : Header) (_ : Nat) (_ : Power) : Prop :=
  True

omit [Host] in
/-- A patch cut right after its index entry leaves an entry that has no record. -/
theorem crash_after_index_entry :
    ¬ ∀ (_ : Host), Host.appendPwrite = .atOffset → ∀ (maxJnlSize : Nat) (m : Mdir)
      (calls : List Call), 1 ≤ maxJnlSize → maxJnlSize < 2 ^ 32 →
      Run maxJnlSize MarksSafe anyCut m calls → CrashConsistent maxJnlSize m calls := by
  intro hall
  let _ := plainHost
  let h : Header := [⟨ascii "sc-type", ascii "im"⟩]
  let m₁ := (mdirReload ErrBuf.new
    (crashed 2000 quietSys (Mdir.new (ascii "/m/1")) .add h 0 ⟨16, true⟩) (.ok [jnlStem 1])).2
  have hlog : (crashed 2000 quietSys (Mdir.new (ascii "/m/1")) .add h 0 ⟨16, true⟩).disk.log =
      Function.update (Function.update (fun _ => none) (jnlStem 1) (some [])) (jnlStem 1)
        (some []) := rfl
  have hlists : Lists [jnlStem 1]
      (crashed 2000 quietSys (Mdir.new (ascii "/m/1")) .add h 0 ⟨16, true⟩).disk := by
    refine lists_singleton (by simp [hlog]) fun t ht => ?_
    simp [hlog, ht]
  have run₁ : Run 2000 MarksSafe anyCut m₁ [] :=
    Run.crash quietSys .add h 0 ⟨16, true⟩ [jnlStem 1] (Run.init (ascii "/m/1")) trivial
      (by decide) hlists
  have hj : (⟨jnlStem 1, 1, 1⟩ : Jnl) ∈ m₁.jnls := by decide
  rcases (hall plainHost rfl 2000 _ _ (by norm_num) (by norm_num) run₁).sized _ hj 0 (by decide) with
    ⟨offset, size, hok⟩
  have hbad : (jnlOffsetSize m₁.disk ⟨jnlStem 1, 1, 1⟩ 0).toOption = none := by decide
  rw [hok] at hbad
  cases hbad

end Run

end Scambio
