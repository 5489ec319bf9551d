import Scambio.Lib.Runs

/-!
# PowerLoss — what an interrupted `mdir_patch` leaves in the files

A function that runs on a disk about to lose power leaves what the interrupted function leaves.

* `Lost d d'`       : the power is out, and nothing changed in the journal files since `d`;
* `DiskHolds d A`   : the files hold the patches `A`, whatever the journals in memory are;
* `append_cut`      : an append that is cut before its first byte or inside its record;
* `replaceMark_cut` : a rewrite of the mark index cut anywhere.
-/

namespace Scambio

open Library

/-! ## The power is out -/

/-- No byte reaches the disk any more, and no file is created. -/
def Disk.Out (d : Disk) : Prop :=
  d.power = some { bytes := 0, creat := false }

structure Lost (d d' : Disk) : Prop where
  log : d'.log = d.log
  idx : d'.idx = d.idx
  out : d'.Out

theorem Lost.refl {d : Disk} (h : d.Out) : Lost d d :=
  ⟨rfl, rfl, h⟩

theorem Lost.trans {d₁ d₂ d₃ : Disk} (h₁ : Lost d₁ d₂) (h₂ : Lost d₂ d₃) : Lost d₁ d₃ :=
  ⟨h₂.log.trans h₁.log, h₂.idx.trans h₁.idx, h₂.out⟩

section Out

variable {d : Disk} (h : d.Out)

include h

theorem Disk.Out.reached (w : Bytes) : d.reached w = [] := by
  unfold Disk.reached
  rw [h]
  rfl

theorem Disk.Out.spend (n : Nat) : d.spend n = some { bytes := 0, creat := false } := by
  unfold Disk.spend
  rw [h]
  simp

theorem Lost.creat (stem : Bytes) : Lost d (d.creat stem) := by
  have hmay : d.mayCreat = false := by
    unfold Disk.mayCreat
    rw [h]
    rfl
  unfold Disk.creat
  rw [hmay]
  exact .refl h

theorem Lost.writeLog (stem w : Bytes) : Lost d (d.writeLog stem w) := by
  refine ⟨?_, rfl, h.spend _⟩
  simp [Disk.writeLog, h.reached]

theorem Lost.writeIdx (stem w : Bytes) : Lost d (d.writeIdx stem w) := by
  refine ⟨rfl, ?_, h.spend _⟩
  simp [Disk.writeIdx, h.reached]

theorem Lost.writeLogAt {stem : Bytes} {offset : Nat} (w : Bytes)
    (hle : offset ≤ (d.logOf stem).length) : Lost d (d.writeLogAt stem offset w) := by
  refine ⟨?_, rfl, h.spend _⟩
  unfold Disk.logOf at hle
  cases hf : d.log stem with
  | none => simp [Disk.writeLogAt, h.reached, hf]
  | some f =>
      rw [hf, Option.getD_some] at hle
      simp [Disk.writeLogAt, h.reached, hf, overwrite_nil 0 f hle]

theorem Lost.writeIdxAt [Host] {stem : Bytes} {offset : Nat} (w : Bytes)
    (hle : offset ≤ (d.idxOf stem).length) : Lost d (d.writeIdxAt stem offset w) := by
  unfold Disk.writeIdxAt
  split
  · exact .writeIdx h stem w
  · refine ⟨rfl, ?_, h.spend _⟩
    unfold Disk.idxOf at hle
    cases hf : d.idx stem with
    | none => simp [h.reached, hf]
    | some f =>
        rw [hf, Option.getD_some] at hle
        simp [h.reached, hf, overwrite_nil 0 f hle]

end Out

theorem readFrom_bound {f bs : Bytes} {offset : Int} {len : Nat} (hlen : len ≠ 0)
    (h : readFrom f offset len = .ok bs) : offset.toNat + len ≤ f.length := by
  unfold readFrom at h
  split_ifs at h with h1 h2
  · exact absurd h1 hlen
  · assumption

section Functions

variable {m : Mdir} (h : m.disk.Out)

include h

theorem Lost.jnlNew (path : Bytes) (js : List Jnl) (stem : Bytes) :
    Lost m.disk (jnlNew path m.disk js stem).1 := by
  unfold Scambio.jnlNew
  split
  · exact .refl h
  · simp only
    split
    · exact .creat h stem
    · split <;> exact .creat h stem

theorem Lost.jnlNewEmpty (v : Int) : Lost m.disk (jnlNewEmpty m v).1.disk := by
  have hnew := Lost.jnlNew h m.path m.jnls (jnlStem v)
  unfold Scambio.jnlNewEmpty
  split
  · next heq =>
      rw [heq] at hnew
      exact hnew
  · next heq =>
      rw [heq] at hnew
      exact hnew

theorem Lost.lastJnl (maxJnlSize : Nat) : Lost m.disk (lastJnl maxJnlSize m).1.disk := by
  unfold Scambio.lastJnl
  split
  · exact .jnlNewEmpty h 1
  · split_ifs
    · exact .jnlNewEmpty h _
    · exact .refl h

theorem Lost.mdirAppend (maxJnlSize : Nat) (r : Bytes) :
    Lost m.disk (mdirAppend maxJnlSize m r).1.disk := by
  have hlast := Lost.lastJnl h maxJnlSize
  unfold Scambio.mdirAppend
  split
  · next heq =>
      rw [heq] at hlast
      exact hlast
  · next m₁ j heq =>
      rw [heq] at hlast
      have hidx := Lost.writeIdx hlast.out j.stem
        (indexEntryBytes { offset := (m₁.disk.logOf j.stem).length, lastMark := 0 })
      exact hlast.trans (hidx.trans (.writeLog hidx.out j.stem r))

theorem Lost.insertBlankPatches (maxJnlSize nb : Nat) :
    Lost m.disk (insertBlankPatches maxJnlSize m nb).1.disk := by
  induction nb generalizing m with
  | zero => exact .refl h
  | succ nb ih =>
      have happ := Lost.mdirAppend h maxJnlSize blankRecord
      unfold Scambio.insertBlankPatches
      split
      · next heq =>
          rw [heq] at happ
          exact happ
      · next heq =>
          rw [heq] at happ
          exact happ.trans (ih happ.out)

theorem Lost.jnlMarkDel (j : Jnl) (toDel : Int) : Lost m.disk (jnlMarkDel m.disk j toDel).1 := by
  unfold Scambio.jnlMarkDel
  split
  · exact .refl h
  · split
    · exact .refl h
    · split
      · exact .refl h
      · next tag hread =>
          -- the tag was read at that offset, so it lies inside the log
          have hbound := readFrom_bound (by decide) hread
          split
          · exact .refl h
          · split
            · exact .refl h
            · exact .writeLogAt h _ (by omega)

theorem Lost.jnlReplaceLastMark [Host] (j : Jnl) (index : Nat) (mark : Int) :
    Lost m.disk (jnlReplaceLastMark m.disk j index mark).1 := by
  unfold Scambio.jnlReplaceLastMark
  split
  · exact .refl h
  · next ies hread =>
      unfold jnlIdxRead at hread
      split at hread
      · cases hread
      · next bs hbs =>
          have hbound := readFrom_bound (by decide) hbs
          exact .writeIdxAt h _ (by simp only [Int.toNat_natCast] at hbound; omega)

variable [Host] (sys : Sys)

theorem Lost.mdirPrepare (action : Action) (header : Header) :
    Lost m.disk (mdirPrepare sys m action header).1.disk := by
  cases action with
  | add => exact .refl h
  | rem =>
      simp only [Scambio.mdirPrepare, mdirPrepareRem]
      split
      · exact .refl h
      · split
        · exact .refl h
        · split
          · exact .refl h
          · exact .refl h
          · next action target _ =>
              by_cases hadd : action = .add
              · rw [if_neg (not_not.2 hadd)]
                cases (if headerIsDirectory target then mdirUnlink sys m.path target else .ok ()) with
                | error e => exact .refl h
                | ok u => exact .jnlMarkDel h _ _
              · rw [if_pos hadd]
                exact .refl h

omit [Host] in
theorem Lost.mdirConfirm (action : Action) (header : Header) :
    Lost m.disk (mdirConfirm sys m action header).1.disk := by
  have hperms : Lost m.disk (m.disk.writePerms (headerDump header)) :=
    ⟨rfl, rfl, h.spend _⟩
  cases action with
  | rem => exact .refl h
  | add =>
      simp only [Scambio.mdirConfirm, mdirConfirmAdd, updatePermissions]
      split_ifs
      · split
        · exact .refl h
        · split
          · exact .refl h
          · split <;> exact .refl h
      · split
        · exact .refl h
        · exact hperms
      · exact .refl h

theorem Lost.handleMark (header : Header) (j : Jnl) (version : Int) :
    Lost m.disk (handleMark m header j version).1.disk := by
  unfold Scambio.handleMark
  simp only
  split_ifs
  · exact .refl h
  · split
    · exact .refl h
    · next k _ =>
        have hone := Lost.jnlReplaceLastMark h k (isMarkFor header - k.version).toNat version
        split
        · next heq =>
            rw [heq] at hone
            exact hone
        · next d mark heq =>
            rw [heq] at hone
            have htwo := Lost.jnlReplaceLastMark (m := { m with disk := d }) hone.out j
              (version - j.version).toNat mark
            split
            · next heq₂ =>
                rw [heq₂] at htwo
                exact hone.trans htwo
            · next heq₂ =>
                rw [heq₂] at htwo
                exact hone.trans htwo

end Functions

/-! ## What the files hold -/

/-- The journal files hold the patches `A`. -/
def DiskHolds (maxJnlSize : Nat) (d : Disk) (A : List Slot) : Prop :=
  ∃ m : Mdir, m.disk.log = d.log ∧ m.disk.idx = d.idx ∧ Refines maxJnlSize m A

section Holds

variable {maxJnlSize : Nat} {m : Mdir} {A : List Slot}

theorem Refines.diskHolds (h : Refines maxJnlSize m A) : DiskHolds maxJnlSize m.disk A :=
  ⟨m, rfl, rfl, h⟩

theorem DiskHolds.lost {d d' : Disk} (h : DiskHolds maxJnlSize d A) (hl : Lost d d') :
    DiskHolds maxJnlSize d' A := by
  rcases h with ⟨m, hlog, hidx, href⟩
  exact ⟨m, hlog.trans hl.log.symm, hidx.trans hl.idx.symm, href⟩

/-- A reload only looks at the files. -/
theorem DiskHolds.reload [Host] (hmax : maxJnlSize < 2 ^ 32) (h : DiskHolds maxJnlSize m.disk A)
    {eb : ErrBuf} {order : List Bytes} (hord : Lists order m.disk) :
    Refines maxJnlSize (mdirReload eb m (.ok order)).2 A := by
  rcases h with ⟨m', hlog, hidx, href⟩
  have hsame : Refines maxJnlSize { m with jnls := m'.jnls } A :=
    href.congr rfl hlog.symm hidx.symm
  exact (hsame.reload hmax (m := { m with jnls := m'.jnls }) hord).1

/-! ## An append that is cut -/

/-- With no byte left, the first write puts the power out. -/
theorem lost_writeLogAt {d : Disk} {p : Power} (hp : d.power = some p) (hzero : p.bytes = 0)
    {stem : Bytes} {offset : Nat} (hle : offset ≤ (d.logOf stem).length) {w : Bytes} (hw : w ≠ []) :
    Lost d (d.writeLogAt stem offset w) := by
  have hreached : d.reached w = [] := by
    simp [Disk.reached, hp, hzero]
  have hpos : 0 < w.length := List.length_pos_iff.2 hw
  refine ⟨?_, rfl, by simp [Disk.Out, Disk.writeLogAt, Disk.spend, hp, hzero, hpos]⟩
  unfold Disk.logOf at hle
  cases hf : d.log stem with
  | none => simp [Disk.writeLogAt, hreached, hf]
  | some f =>
      rw [hf, Option.getD_some] at hle
      simp [Disk.writeLogAt, hreached, hf, overwrite_nil 0 f hle]

theorem lost_writeIdx {d : Disk} {p : Power} (hp : d.power = some p) (hzero : p.bytes = 0)
    (stem : Bytes) {w : Bytes} (hw : w ≠ []) : Lost d (d.writeIdx stem w) := by
  have hreached : d.reached w = [] := by
    simp [Disk.reached, hp, hzero]
  have hpos : 0 < w.length := List.length_pos_iff.2 hw
  refine ⟨rfl, by simp [Disk.writeIdx, hreached], ?_⟩
  simp [Disk.Out, Disk.writeIdx, Disk.spend, hp, hzero, hpos]

/-- The power goes before the first byte: at most, an empty journal was created. -/
theorem Refines.append_lost (h : Refines maxJnlSize m A) {p : Power} (hp : m.disk.power = some p)
    (hzero : p.bytes = 0) (hcreat : p.creat = true → 0 < maxJnlSize) (r : Bytes) :
    DiskHolds maxJnlSize (mdirAppend maxJnlSize m r).1.disk A ∧
      (mdirAppend maxJnlSize m r).1.disk.Out := by
  by_cases hc : p.creat = true
  · have hmay : m.disk.mayCreat = true := by simp [Disk.mayCreat, hp, hc]
    rcases h with ⟨ps, hrep, rfl⟩
    rcases hrep.lastJnl hmay with ⟨m₁, ps₁, q, hlast, hdisk, hjnls, hflat, hsize, hold, -, hpow⟩
    have hrep₁ : Rep maxJnlSize m₁ (ps₁ ++ [q]) := by
      refine ⟨hdisk, hjnls, by rw [hflat]; exact hrep.fits, ?_, ?_⟩
      · intro x hx
        rcases List.mem_append.1 hx with hx | hx
        · exact hrep.small x (hold x hx)
        · rw [List.mem_singleton.1 hx]
          rcases hsize with hsize | rfl
          · omega
          · simp
      · exact fun x _ _ => hcreat hc
    have hlost := lost_writeIdx (hpow.trans hp) hzero
      (partJnl (1 + ps₁.flatten.length) q).stem
      (w := indexEntryBytes ⟨(m₁.disk.logOf (partJnl (1 + ps₁.flatten.length) q).stem).length, 0⟩)
      (List.length_pos_iff.1 (by simp))
    have hboth := hlost.trans (.writeLog hlost.out (partJnl (1 + ps₁.flatten.length) q).stem r)
    simp only [mdirAppend, hlast]
    exact ⟨(Refines.diskHolds ⟨_, hrep₁, hflat⟩).lost hboth, hboth.out⟩
  · have hout : m.disk.Out := by
      rcases p with ⟨bytes, creat⟩
      simp only at hzero hc
      rw [Disk.Out, hp, hzero, Bool.eq_false_iff.2 hc]
    have hlost := Lost.mdirAppend hout maxJnlSize r
    exact ⟨h.diskHolds.lost hlost, hlost.out⟩

/-- The power goes inside the record: its entry is there, and the beginning of its text. -/
theorem jnlAppend_cut {d : Disk} {j : Jnl} {q : List Slot} (h : JnlHolds d j q) {p : Power}
    (hp : d.power = some p) {r : Bytes} (hlo : 16 < p.bytes) (hhi : p.bytes < 16 + r.length) :
    (jnlAppend d j r).1.log = (d.put j.stem (q ++ [⟨r.take (p.bytes - 16), 0⟩])).log ∧
      (jnlAppend d j r).1.idx = (d.put j.stem (q ++ [⟨r.take (p.bytes - 16), 0⟩])).idx ∧
      (jnlAppend d j r).1.Out := by
  have hcan : d.Can 16 := by
    intro p' hp'
    rw [hp, Option.some.injEq] at hp'
    rw [← hp']
    omega
  have hidx : d.writeIdx j.stem (indexEntryBytes { offset := (logBytes q).length, lastMark := 0 }) =
      (d.setIdx j.stem (idxBytes (q ++ [⟨r.take (p.bytes - 16), 0⟩]))).pay 16 := by
    rw [Disk.writeIdx_of_can (hcan.mono (by simp)) h.idx, idxBytes_append, length_indexEntryBytes]
  have hlt : p.bytes - 16 < r.length := by omega
  simp only [jnlAppend, h.logOf, hidx]
  refine ⟨?_, ?_, ?_⟩
  · simp [Disk.writeLog, Disk.reached, Disk.pay, Disk.setIdx, Disk.put, hp, h.log, logBytes_append]
  · simp [Disk.writeLog, Disk.pay, Disk.setIdx, Disk.put]
  · simp [Disk.Out, Disk.writeLog, Disk.spend, Disk.pay, Disk.setIdx, hp, hlt]

theorem Refines.append_cut (h : Refines maxJnlSize m A) {p : Power} (hp : m.disk.power = some p)
    {r : Bytes} (hlo : 16 < p.bytes) (hhi : p.bytes < 16 + r.length)
    (hroom : (logBytes A).length + r.length + 1 < 2 ^ 63) :
    DiskHolds maxJnlSize (mdirAppend maxJnlSize m r).1.disk (A ++ [⟨r.take (p.bytes - 16), 0⟩]) ∧
      (mdirAppend maxJnlSize m r).1.disk.Out := by
  have hmay : m.disk.mayCreat = true := by
    simp [Disk.mayCreat, hp]
    omega
  have hlen : (r.take (p.bytes - 16)).length ≤ r.length := List.length_take_le' _ _
  have hpos : 0 < (r.take (p.bytes - 16)).length := by
    rw [List.length_take]
    omega
  rcases h with ⟨ps, hrep, rfl⟩
  rcases hrep.lastJnl hmay with ⟨m₁, ps₁, q, hlast, hdisk, hjnls, hflat, hsize, hold, -, hpow⟩
  rcases hrep.parts_append (s := ⟨r.take (p.bytes - 16), 0⟩) hflat hsize hold
    (List.length_pos_iff.1 hpos) rfl (by simp only; omega) with
    ⟨hflat', hfits, hsmall, hopened⟩
  rcases jnlAppend_cut hdisk.holds (hpow.trans hp) hlo hhi with ⟨hlog, hidx, hout⟩
  have hput := hdisk.put (q := q ++ [⟨r.take (p.bytes - 16), 0⟩]) (.inr rfl)
  simp only [mdirAppend, hlast]
  refine ⟨⟨{ m₁ with disk := m₁.disk.put _ _, jnls := _ }, hlog.symm, hidx.symm, _,
    ⟨hput, rfl, hfits, hsmall, hopened⟩, hflat'⟩, hout⟩

end Holds

/-! ## A rewrite of the mark index that is cut -/

theorem exists_wordBytes {bs : Bytes} (h : bs.length = 8) :
    ∃ v : Int, (-2 ^ 63 ≤ v ∧ v < 2 ^ 63) ∧ wordBytes v = bs := by
  have hlt := leNat_lt bs
  have himage := leBytes_leNat bs
  rw [h] at hlt himage
  refine ⟨toInt64 (leNat bs), ⟨?_, ?_⟩, ?_⟩
  · have := Int.le_bmod (x := leNat bs) (m := 2 ^ 64) (by norm_num)
    unfold toInt64
    omega
  · have := Int.bmod_lt (x := leNat bs) (m := 2 ^ 64) (by norm_num)
    unfold toInt64
    omega
  · have hmod : (toInt64 (leNat bs) % 2 ^ 64).toNat = leNat bs := by
      unfold toInt64
      have hemod : Int.bmod (leNat bs) (2 ^ 64) % 2 ^ 64 = (leNat bs : Int) % 2 ^ 64 :=
        Int.bmod_emod
      rw [hemod]
      omega
    rw [wordBytes, hmod, himage]

/-- An entry partly replaced by one with the same offset is an entry with that offset. -/
theorem exists_mixed_entry (offset old new : Int) (k : Nat) :
    ∃ mark : Int, (-2 ^ 63 ≤ mark ∧ mark < 2 ^ 63) ∧
      (indexEntryBytes ⟨offset, new⟩).take k ++
        (indexEntryBytes ⟨offset, old⟩).drop ((indexEntryBytes ⟨offset, new⟩).take k).length =
      indexEntryBytes ⟨offset, mark⟩ := by
  generalize hy : (indexEntryBytes ⟨offset, new⟩).take k ++
    (indexEntryBytes ⟨offset, old⟩).drop ((indexEntryBytes ⟨offset, new⟩).take k).length = y
  have hlen : y.length = 16 := by
    rw [← hy]
    simp
  have hoff : y.take 8 = wordBytes offset := by
    refine List.ext_getElem? fun n => ?_
    by_cases hn : n < 8
    · have hget : ∀ x : Int, (indexEntryBytes ⟨offset, x⟩)[n]? = (wordBytes offset)[n]? := by
        intro x
        rw [indexEntryBytes, List.getElem?_append_left (by simpa using hn)]
      rw [List.getElem?_take_of_lt hn, ← hy, List.getElem?_append]
      split_ifs with hk
      · rw [List.length_take] at hk
        rw [List.getElem?_take_of_lt (by omega), hget]
      · rw [List.getElem?_drop, ← hget old]
        congr 1
        omega
    · rw [List.getElem?_eq_none (by rw [List.length_take]; omega),
        List.getElem?_eq_none (by rw [length_wordBytes]; omega)]
  have hdrop : (y.drop 8).length = 8 := by rw [List.length_drop, hlen]
  rcases exists_wordBytes hdrop with ⟨mark, hmark, hword⟩
  refine ⟨mark, hmark, ?_⟩
  rw [indexEntryBytes, hword, ← hoff, List.take_append_drop]

section Marks

variable [Host] {maxJnlSize : Nat} {m : Mdir} {A : List Slot}

omit [Host] in
theorem Disk.exists_reached (d : Disk) (w : Bytes) : ∃ k, d.reached w = w.take k := by
  unfold Disk.reached
  cases d.power with
  | none => exact ⟨w.length, by simp⟩
  | some p => exact ⟨p.bytes, rfl⟩

/-- Whatever part of the entry is written, the patch keeps its offset and some mark. -/
theorem jnlReplaceLastMark_cut (hat : Host.appendPwrite = .atOffset) {d : Disk} {j : Jnl}
    {p : List Slot} (h : JnlHolds d j p) (hf : Fits p) {i : Nat} (hi : i < p.length) (mark : Int) :
    ∃ d' mark', (-2 ^ 63 ≤ mark' ∧ mark' < 2 ^ 63) ∧
      jnlReplaceLastMark d j i mark = (d', .ok p[i].mark) ∧
      d'.log = (d.put j.stem (p.set i { p[i] with mark := mark' })).log ∧
      d'.idx = (d.put j.stem (p.set i { p[i] with mark := mark' })).idx := by
  have hread := jnlIdxRead_spec h hf (i := i) (n := 1) (by decide) (by omega)
  have h0 := getD_indexEntries (n := 1) (by decide : 0 < 1) hi ⟨0, 0⟩
  simp only [Nat.add_zero] at h0
  rcases d.exists_reached (indexEntryBytes ⟨offset (records p) i, mark⟩) with ⟨k, hk⟩
  rcases exists_mixed_entry (offset (records p) i) p[i].mark mark k with ⟨mark', hmark', hmix⟩
  have hover : overwrite 0 (idxBytes p) (i * 16)
      ((indexEntryBytes ⟨offset (records p) i, mark⟩).take k) =
      idxBytes (p.set i { p[i] with mark := mark' }) := by
    have hi' : i < ((indexEntries p).map indexEntryBytes).length := by simpa using hi
    have hoff := offset_indexEntries p (Nat.le_of_lt hi)
    have hent : ((indexEntries p).map indexEntryBytes)[i] =
        indexEntryBytes ⟨offset (records p) i, p[i].mark⟩ := by
      simp [indexEntries]
    rw [idxBytes, Nat.mul_comm, ← hoff, overwrite_flatten 0 _ hi' (by rw [hent]; simp), hent, hmix,
      idxBytes, indexEntries_set_mark p hi, List.map_set]
  refine ⟨jnlIdxWrite d j i ⟨offset (records p) i, mark⟩, mark', hmark', ?_, ?_, ?_⟩
  · simp only [jnlReplaceLastMark, hread, h0]
  · have hlog : logBytes (p.set i { p[i] with mark := mark' }) = logBytes p := logBytes_set_mark p hi _
    simp only [jnlIdxWrite, Disk.writeIdxAt, hat, Disk.put, hlog, ← h.log, Function.update_eq_self]
  · simp only [jnlIdxWrite, Disk.writeIdxAt, hat, Disk.put, hk, h.idx, Option.map_some, hover]

theorem Refines.replaceMark_cut (hat : Host.appendPwrite = .atOffset) (h : Refines maxJnlSize m A)
    {j : Jnl} (hj : j ∈ m.jnls) {n : Nat} (hn : j.holds ((1 + n : Nat) : Int) = true) (mark : Int) :
    ∃ d old mark', jnlReplaceLastMark m.disk j (((1 + n : Nat) : Int) - j.version).toNat mark =
        (d, .ok old) ∧ Refines maxJnlSize { m with disk := d } (storeSetMark A n mark') := by
  rcases h with ⟨ps, hrep, rfl⟩
  rcases hrep.locate hj hn with ⟨ps₁, p, ps₂, i, rfl, rfl, hi, rfl⟩
  have hp : p ∈ ps₁ ++ p :: ps₂ := by simp
  have hindex : (((1 + (ps₁.flatten.length + i) : Nat) : Int) -
      (partJnl (1 + ps₁.flatten.length) p).version).toNat = i := by
    simp only [partJnl]
    omega
  rcases jnlReplaceLastMark_cut hat hrep.disk.holds (hrep.fits.part hp) hi mark with
    ⟨d, mark', hmark', heq, hlog, hidx⟩
  have hA := lt_flatten_part ps₁ ps₂ hi
  have hget := getElem_part ps₁ ps₂ hi hA
  have hflat : (ps₁ ++ p.set i { p[i] with mark := mark' } :: ps₂).flatten =
      storeSetMark (ps₁ ++ p :: ps₂).flatten (ps₁.flatten.length + i) mark' := by
    rw [set_part ps₁ p ps₂ hi, storeSetMark, modify_eq_set hA, hget]
  rw [hindex]
  refine ⟨d, _, mark', heq, _, hrep.putPart (by simp) ?_ hlog hidx, hflat⟩
  rw [hflat, storeSetMark, modify_eq_set hA, hget]
  exact hrep.fits.set hA (by rw [hget]) hmark'

/-- The mark index part of `mdir_patch`, with any power left, keeps the records. -/
theorem Refines.handleMark_cut {header : Header} {j : Jnl} {n : Nat} (h : Refines maxJnlSize m A)
    (hA : A.length = n + 1) (hj : j ∈ m.jnls) (hin : j.holds ((1 + n : Nat) : Int) = true)
    (hmode : Host.appendPwrite = .atOffset ∨ ¬ MarksExisting A.length header) :
    ∃ B, records B = records A ∧
      DiskHolds maxJnlSize (Scambio.handleMark m header j ((1 + n : Nat) : Int)).1.disk B := by
  unfold Scambio.handleMark jnlGetByVersion
  by_cases hzero : isMarkFor header = 0
  · simp only [hzero, if_true]
    exact ⟨A, rfl, h.diskHolds⟩
  · simp only [if_neg hzero]
    by_cases hex : MarksExisting A.length header
    · have hat : Host.appendPwrite = .atOffset := hmode.resolve_right (not_not.2 hex)
      rcases hex with ⟨hlo, hhi⟩
      obtain ⟨t, ht⟩ : ∃ t : Nat, isMarkFor header = ((1 + t : Nat) : Int) :=
        ⟨(isMarkFor header - 1).toNat, by omega⟩
      rcases h.find (n := t) (by omega) with ⟨k, hfind, hk, hkin⟩
      rcases h.replaceMark_cut hat hk hkin ((1 + n : Nat) : Int) with ⟨d₁, old, mark₁, heq₁, h₁⟩
      rcases h₁.replaceMark_cut hat hj hin old with ⟨d₂, old₂, mark₂, heq₂, h₂⟩
      simp only at heq₂
      simp only [ht, hfind, heq₁, heq₂]
      refine ⟨_, ?_, h₂.diskHolds⟩
      rw [records_setMark, records_setMark]
    · have hnone : m.jnls.find? (fun j => j.holds (isMarkFor header)) = none := by
        refine h.find_none ?_
        unfold MarksExisting at hex
        omega
      simp only [hnone]
      exact ⟨A, rfl, h.diskHolds⟩

end Marks

end Scambio
