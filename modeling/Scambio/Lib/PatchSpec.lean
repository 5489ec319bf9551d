import Scambio.Lib.Refinement

/-!
# PatchSpec — `mdir_patch` on the concatenation of the journals

`storePatch` says what a whole `mdir_patch` does to the list of slots, stage by stage: blanks, check
and tagging of the target, append, confirmation, mark index.  `mdirPatch_refines` connects it to the
code.  An error does not undo the stages before it, and `storePatch` does not either.
-/

namespace Scambio

open Library

/-! ## Changing one slot -/

theorem journalsOf_congr (v : Nat) (ps₁ : List (List Slot)) {p q : List Slot}
    (ps₂ : List (List Slot)) (hlen : q.length = p.length) :
    journalsOf v (ps₁ ++ q :: ps₂) = journalsOf v (ps₁ ++ p :: ps₂) := by
  rw [journalsOf_append, journalsOf_append]
  simp [journalsOf, partJnl, hlen]

theorem lt_flatten_part (ps₁ : List (List Slot)) {p : List Slot} (ps₂ : List (List Slot)) {i : Nat}
    (hi : i < p.length) : ps₁.flatten.length + i < (ps₁ ++ p :: ps₂).flatten.length := by
  simp only [List.flatten_append, List.flatten_cons, List.length_append]
  omega

theorem getElem_part (ps₁ : List (List Slot)) {p : List Slot} (ps₂ : List (List Slot)) {i : Nat}
    (hi : i < p.length) (h : ps₁.flatten.length + i < (ps₁ ++ p :: ps₂).flatten.length) :
    (ps₁ ++ p :: ps₂).flatten[ps₁.flatten.length + i] = p[i] := by
  have hget := getElem?_part ps₁ p ps₂ hi
  rw [List.getElem?_eq_getElem h, List.getElem?_eq_getElem hi] at hget
  exact Option.some.inj hget

section Update

variable {maxJnlSize : Nat} {m : Mdir}

/-- Rewriting the files of one journal, its number of patches kept. -/
theorem Rep.putPart {ps₁ ps₂ : List (List Slot)} {p q : List Slot}
    (h : Rep maxJnlSize m (ps₁ ++ p :: ps₂)) (hlen : q.length = p.length)
    (hfits : Fits (ps₁ ++ q :: ps₂).flatten) {d : Disk}
    (hlog : d.log = (m.disk.put (jnlStem ((1 + ps₁.flatten.length : Nat))) q).log)
    (hidx : d.idx = (m.disk.put (jnlStem ((1 + ps₁.flatten.length : Nat))) q).idx) :
    Rep maxJnlSize { m with disk := d } (ps₁ ++ q :: ps₂) := by
  have hput := h.disk.put (q := q) (.inl hlen)
  refine ⟨⟨hlog.trans hput.log, hidx.trans hput.idx, hput.full⟩, ?_, hfits, ?_, ?_⟩
  · rw [journalsOf_congr 1 ps₁ ps₂ hlen]
    exact h.jnls
  · intro r hr
    simp only [List.mem_append, List.mem_cons] at hr
    rcases hr with hr | rfl | hr
    · exact h.small r (by simp [hr])
    · rw [hlen]
      exact h.small p (by simp)
    · exact h.small r (by simp [hr])
  · intro r hr hnil
    simp only [List.mem_append, List.mem_cons] at hr
    rcases hr with hr | rfl | hr
    · exact h.opened r (by simp [hr]) hnil
    · refine h.opened p (by simp) (List.length_eq_zero_iff.1 ?_)
      rw [← hlen, hnil]
      rfl
    · exact h.opened r (by simp [hr]) hnil

variable {A : List Slot}

theorem Refines.find (h : Refines maxJnlSize m A) {n : Nat} (hn : n < A.length) :
    ∃ j, m.jnls.find? (fun j => j.holds ((1 + n : Nat) : Int)) = some j ∧
      j ∈ m.jnls ∧ j.holds ((1 + n : Nat) : Int) = true := by
  rcases h with ⟨ps, hrep, rfl⟩
  exact hrep.find hn

theorem Refines.find_none (h : Refines maxJnlSize m A) {x : Int}
    (hx : x < 1 ∨ (A.length : Int) < x) : m.jnls.find? (fun j => j.holds x) = none := by
  rcases h with ⟨ps, hrep, rfl⟩
  exact hrep.find_none hx

/-- Tagging the record of a patch that was added. -/
theorem Refines.markDel (hmax : maxJnlSize < 2 ^ 32) (h : Refines maxJnlSize m A) {j : Jnl}
    (hj : j ∈ m.jnls) {n : Nat} (hn : j.holds ((1 + n : Nat) : Int) = true) (hcan : m.disk.Can 1)
    {s : Slot} (hs : A[n]? = some s) (htag : s.record.take 1 = ascii "+") :
    ∃ d, jnlMarkDel m.disk j ((1 + n : Nat) : Int) = (d, .ok ()) ∧
      Refines maxJnlSize { m with disk := d } (storeDelete A n) ∧
      d.perms = m.disk.perms ∧ d.power = (m.disk.pay 1).power := by
  rcases h with ⟨ps, hrep, rfl⟩
  rcases hrep.locate hj hn with ⟨ps₁, p, ps₂, i, rfl, rfl, hi, rfl⟩
  have hp : p ∈ ps₁ ++ p :: ps₂ := by simp
  rw [getElem?_part ps₁ p ps₂ hi, List.getElem?_eq_getElem hi] at hs
  cases hs
  have hA := lt_flatten_part ps₁ ps₂ hi
  have hget := getElem_part ps₁ ps₂ hi hA
  have hlen : (tagDeleted p[i].record).length = p[i].record.length := by
    have hpos : 0 < p[i].record.length :=
      List.length_pos_iff.2 ((hrep.fits.part hp).nonempty _ (List.getElem_mem hi))
    simp [tagDeleted, ascii]
    omega
  have hflat : (ps₁ ++ p.set i { p[i] with record := tagDeleted p[i].record } :: ps₂).flatten =
      storeDelete (ps₁ ++ p :: ps₂).flatten (ps₁.flatten.length + i) := by
    rw [set_part ps₁ p ps₂ hi, storeDelete, modify_eq_set hA, hget]
  refine ⟨_, jnlMarkDel_added hrep.disk.holds (hrep.fits.part hp) (hrep.part_lt hmax hp) hcan hi
    ?_ htag, ⟨_, hrep.putPart (by simp) ?_ rfl rfl, hflat⟩, rfl, rfl⟩
  · simp only [partJnl]
    omega
  · rw [hflat, storeDelete, modify_eq_set hA, hget]
    refine hrep.fits.set hA (by rw [hget]; exact hlen) ?_
    exact hrep.fits.marks p[i] (by rw [← hget]; exact List.getElem_mem hA)

/-- Replacing the mark of a patch. -/
theorem Refines.replaceMark [Host] (hat : Host.appendPwrite = .atOffset)
    (h : Refines maxJnlSize m A) {j : Jnl} (hj : j ∈ m.jnls) {n : Nat}
    (hn : j.holds ((1 + n : Nat) : Int) = true) (hcan : m.disk.Can 16) {mark : Int}
    (hmark : -2 ^ 63 ≤ mark ∧ mark < 2 ^ 63) :
    ∃ d s, jnlReplaceLastMark m.disk j (((1 + n : Nat) : Int) - j.version).toNat mark = (d, .ok s.mark) ∧
      A[n]? = some s ∧ Refines maxJnlSize { m with disk := d } (storeSetMark A n mark) ∧
      d.perms = m.disk.perms ∧ d.power = (m.disk.pay 16).power := by
  rcases h with ⟨ps, hrep, rfl⟩
  rcases hrep.locate hj hn with ⟨ps₁, p, ps₂, i, rfl, rfl, hi, rfl⟩
  have hp : p ∈ ps₁ ++ p :: ps₂ := by simp
  have hindex : (((1 + (ps₁.flatten.length + i) : Nat) : Int) -
      (partJnl (1 + ps₁.flatten.length) p).version).toNat = i := by
    simp only [partJnl]
    omega
  have hA := lt_flatten_part ps₁ ps₂ hi
  have hget := getElem_part ps₁ ps₂ hi hA
  have hflat : (ps₁ ++ p.set i { p[i] with mark := mark } :: ps₂).flatten =
      storeSetMark (ps₁ ++ p :: ps₂).flatten (ps₁.flatten.length + i) mark := by
    rw [set_part ps₁ p ps₂ hi, storeSetMark, modify_eq_set hA, hget]
  rw [hindex]
  refine ⟨_, p[i], jnlReplaceLastMark_spec hat hrep.disk.holds (hrep.fits.part hp) hcan hi mark, ?_,
    ⟨_, hrep.putPart (by simp) ?_ rfl rfl, hflat⟩, rfl, rfl⟩
  · rw [getElem?_part ps₁ p ps₂ hi, List.getElem?_eq_getElem hi]
  · rw [hflat, storeSetMark, modify_eq_set hA, hget]
    exact hrep.fits.set hA (by rw [hget]) hmark

end Update

/-! ## Stages of a patch -/

/-- What a removal finds at its target. -/
inductive Removal
  | refused
  | already
  | tag (n : Nat)
  deriving DecidableEq, Repr

section Stages

variable [Host] (sys : Sys)

def storeRemoval (path : Bytes) (A : List Slot) (header : Header) : Removal :=
  match headerTarget header with
  | .error _ => .refused
  | .ok toDel =>
      if toDel < 1 then .refused
      else
        match A[(toDel - 1).toNat]? with
        | none => .refused
        | some s =>
            match readRecord s.record with
            | none => .refused
            | some (_, none) => .already
            | some (action, some target) =>
                if action ≠ .add then .refused
                else
                  -- a folder is unlinked from its parent first
                  match (if headerIsDirectory target then mdirUnlink sys path target else .ok ()) with
                  | .error _ => .refused
                  | .ok () => .tag (toDel - 1).toNat

omit [Host] in
/-- The header that is appended, and whether it may be. -/
def storePrepareAdd (path : Bytes) (header : Header) : Header × Except Err Unit :=
  if headerIsDirectory header then mdirLink sys path header false else (header, .ok ())

omit [Host] in
/-- The header that an accepted patch appends. -/
def linkedHeader (path : Bytes) (action : Action) (header : Header) : Header :=
  match action with
  | .rem => header
  | .add => (storePrepareAdd sys path header).1

/-- The first check of `mdir_patch`: the slots as it leaves them, or none when it fails. -/
def storePrepare (path : Bytes) (A : List Slot) (action : Action) (header : Header) :
    Option (List Slot) :=
  match action with
  | .rem =>
      match storeRemoval sys path A header with
      | .refused => none
      | .already => some A
      | .tag n => some (storeDelete A n)
  | .add =>
      match (storePrepareAdd sys path header).2 with
      | .error _ => none
      | .ok () => some A

omit [Host] in
/-- The version file of a mount point can be created. -/
def storeConfirm (path : Bytes) (action : Action) (header : Header) : Bool :=
  match action with
  | .rem => true
  | .add =>
      if headerIsDirectory header then
        match headerFind header SC_NAME_FIELD with
        | none => false
        | some hf =>
            (sys.creat (versionOfPath path hf.value)).isNone && (sys.writeVersion (versionOfPath path hf.value)).isNone
      else true

omit [Host] in
/-- The mark index after the append of the patch that is now last; none for an unknown target. -/
def storeMark (A : List Slot) (header : Header) : Option (List Slot) :=
  let marked := isMarkFor header
  if marked = 0 then some A
  else if marked < 1 then none
  else
    match A[(marked - 1).toNat]? with
    | none => none
    | some s => some (storeSetMark (storeSetMark A (marked - 1).toNat A.length) (A.length - 1) s.mark)

/-- The slots a `mdir_patch` leaves and the version it returns, none for an error. -/
def storePatch (path : Bytes) (A : List Slot) (action : Action) (header : Header) (nbDeleted : Nat) :
    List Slot × Option Int :=
  let A := A ++ List.replicate nbDeleted blankSlot
  match storePrepare sys path A action header with
  -- refused, but the blanks are there
  | none => (A, none)
  | some A =>
      let h := linkedHeader sys path action header
      let A := A ++ [⟨patchRecord action h, 0⟩]
      if storeConfirm sys path action h then
        match storeMark A h with
        -- an error after the record was written
        | none => (A, none)
        | some A' => (A', some A.length)
      else (A, none)

end Stages

/-! ## The code follows the stages -/

theorem readText_add {r : Bytes} {text : Bytes} (h : readText r = some (.add, some text)) :
    r = 43 :: 10 :: text := by
  unfold readText readTag at h
  split_ifs at h
  rcases r with _ | ⟨tag, _ | ⟨nl, rest⟩⟩
  · simp [Except.toOption] at h
  · simp [Except.toOption] at h
  · simp only at h
    split_ifs at h with h1 h2 h3 h4 <;> simp [Except.toOption] at h
    simp only [not_or, not_not] at h1
    rw [h2, h1.1, h]

theorem readRecord_add [Host] {r : Bytes} {target : Header}
    (h : readRecord r = some (.add, some target)) : r.take 1 = ascii "+" := by
  unfold readRecord at h
  split at h
  · simp at h
  · simp at h
  · next action text ht =>
      rcases Option.map_eq_some_iff.1 h with ⟨⟨h', n⟩, -, heq⟩
      simp only [Prod.mk.injEq, Option.some.injEq] at heq
      rw [heq.1] at ht
      rw [readText_add ht]
      rfl

section Refine

variable [Host] (sys : Sys) {maxJnlSize : Nat} {m : Mdir} {A : List Slot}

theorem Refines.jnlRead (hmax : maxJnlSize < 2 ^ 32) (h : Refines maxJnlSize m A) {j : Jnl}
    (hj : j ∈ m.jnls) {n : Nat} (hn : j.holds ((1 + n : Nat) : Int) = true) :
    ∃ s, A[n]? = some s ∧
      (jnlRead m.disk j (((1 + n : Nat) : Int) - j.version).toNat).toOption = readRecord s.record ∧
      (jnlReadText m.disk j (((1 + n : Nat) : Int) - j.version).toNat).toOption = readText s.record := by
  rcases h with ⟨ps, hrep, rfl⟩
  exact hrep.jnlRead hmax hj hn

/-- `mdir_prepare_rem` does to the journals what the removal says. -/
theorem Refines.prepareRem (hmax : maxJnlSize < 2 ^ 32) (h : Refines maxJnlSize m A)
    (header : Header) :
    match storeRemoval sys m.path A header with
    | .refused => ∃ e, mdirPrepareRem sys m header false = (m, .error e)
    | .already => mdirPrepareRem sys m header false = (m, .ok ())
    | .tag n => ∃ j s, j ∈ m.jnls ∧ j.holds ((1 + n : Nat) : Int) = true ∧ A[n]? = some s ∧
        s.record.take 1 = ascii "+" ∧ mdirPrepareRem sys m header false =
          ({ m with disk := (jnlMarkDel m.disk j ((1 + n : Nat) : Int)).1 },
            (jnlMarkDel m.disk j ((1 + n : Nat) : Int)).2) := by
  unfold storeRemoval mdirPrepareRem
  cases headerTarget header with
  | error e => exact ⟨e, rfl⟩
  | ok toDel =>
      -- below the first version, above the last one, or a record
      by_cases hlow : toDel < 1
      · simp only [if_pos hlow, h.find_none (.inl hlow)]
        exact ⟨_, rfl⟩
      · by_cases hhigh : (A.length : Int) < toDel
        · have hnone : A[(toDel - 1).toNat]? = none := List.getElem?_eq_none (by omega)
          simp only [if_neg hlow, h.find_none (.inr hhigh), hnone]
          exact ⟨_, rfl⟩
        · obtain ⟨n, rfl⟩ : ∃ n : Nat, toDel = ((1 + n : Nat) : Int) :=
            ⟨(toDel - 1).toNat, by omega⟩
          have hn : n < A.length := by omega
          have hidx : (((1 + n : Nat) : Int) - 1).toNat = n := by omega
          rcases h.find hn with ⟨j, hfind, hj, hin⟩
          rcases h.jnlRead hmax hj hin with ⟨s, hs, hread, -⟩
          simp only [if_neg hlow, hfind, hidx, hs]
          rw [← hread]
          cases hr : Scambio.jnlRead m.disk j (((1 + n : Nat) : Int) - j.version).toNat with
          | error e => exact ⟨e, rfl⟩
          | ok r =>
              rcases r with ⟨action, _ | target⟩
              · rfl
              · rw [hr] at hread
                simp only [Except.toOption]
                by_cases hadd : action = .add
                · subst hadd
                  have htag := readRecord_add hread.symm
                  simp only [ne_eq, not_true_eq_false, if_false]
                  cases (if headerIsDirectory target then mdirUnlink sys m.path target else .ok ()) with
                  | error e => exact ⟨e, rfl⟩
                  | ok u => exact ⟨j, s, hj, hin, hs, htag, rfl⟩
                · simp only [ne_eq, hadd, not_false_eq_true, if_true]
                  exact ⟨_, rfl⟩

omit [Host] in
/-- The patch is a mark for a version up to `last`. -/
def MarksExisting (last : Nat) (header : Header) : Prop :=
  1 ≤ isMarkFor header ∧ isMarkFor header ≤ last

omit [Host] in
/-- The mark index only fails on a target that does not exist. -/
theorem storeMark_eq_none {A : List Slot} {header : Header} :
    storeMark A header = none ↔ isMarkFor header ≠ 0 ∧ ¬ MarksExisting A.length header := by
  unfold storeMark MarksExisting
  simp only
  split_ifs with hzero hlow
  · simp [hzero]
  · simp [hzero]
    omega
  · split
    · next hnone =>
        rw [List.getElem?_eq_none_iff] at hnone
        simp only [ne_eq, hzero, not_false_eq_true, true_and, true_iff]
        omega
    · next s hs =>
        have := (List.getElem?_eq_some_iff.1 hs).1
        simp only [reduceCtorEq, ne_eq, hzero, not_false_eq_true, true_and, false_iff]
        omega

omit [Host] in
theorem headerTarget_of_isMarkFor {header : Header} (h : isMarkFor header ≠ 0) :
    headerTarget header = .ok (isMarkFor header) := by
  unfold isMarkFor at h ⊢
  split_ifs at h ⊢
  · split at h
    · next target ht =>
        rw [ht]
    · exact absurd rfl h
  · exact absurd rfl h

/-- The mark index part of `mdir_patch`, the new patch being the last of `A`. -/
theorem Refines.handleMark {header : Header} {j : Jnl} {n : Nat} (h : Refines maxJnlSize m A)
    (hpow : m.disk.power = none) (hA : A.length = n + 1) (hj : j ∈ m.jnls)
    (hin : j.holds ((1 + n : Nat) : Int) = true)
    (hmode : Host.appendPwrite = .atOffset ∨ ¬ MarksExisting A.length header) :
    match storeMark A header with
    | none => ∃ e, handleMark m header j ((1 + n : Nat) : Int) = (m, .error e)
    | some A' => ∃ m', handleMark m header j ((1 + n : Nat) : Int) = (m', .ok ()) ∧
        Refines maxJnlSize m' A' ∧ Frame m m' ∧ m'.disk.power = none := by
  have hlen := h.fits.length_le
  have hbytes := h.fits.bytes
  unfold storeMark Scambio.handleMark jnlGetByVersion
  by_cases hzero : isMarkFor header = 0
  · simp only [hzero, if_true]
    exact ⟨m, rfl, h, ⟨rfl, rfl, rfl⟩, hpow⟩
  · simp only [if_neg hzero]
    by_cases hlow : isMarkFor header < 1
    · simp only [if_pos hlow, h.find_none (.inl hlow)]
      exact ⟨_, rfl⟩
    · by_cases hhigh : (A.length : Int) < isMarkFor header
      · have hnone : A[(isMarkFor header - 1).toNat]? = none := List.getElem?_eq_none (by omega)
        simp only [if_neg hlow, h.find_none (.inr hhigh), hnone]
        exact ⟨_, rfl⟩
      -- an existing target: its mark becomes the new version, and the record takes the former one
      · have hat : Host.appendPwrite = .atOffset :=
          hmode.resolve_right (not_not.2 ⟨by omega, by omega⟩)
        obtain ⟨t, ht⟩ : ∃ t : Nat, isMarkFor header = ((1 + t : Nat) : Int) :=
          ⟨(isMarkFor header - 1).toNat, by omega⟩
        have htA : t < A.length := by omega
        have hidx : (((1 + t : Nat) : Int) - 1).toNat = t := by omega
        rcases h.find htA with ⟨k, hfind, hk, hkin⟩
        have hnm : -2 ^ 63 ≤ ((1 + n : Nat) : Int) ∧ ((1 + n : Nat) : Int) < 2 ^ 63 :=
          ⟨by omega, by omega⟩
        rcases h.replaceMark hat hk hkin (Disk.can_of_power_none hpow 16) hnm with
          ⟨d₁, s, hrep₁, hs, h₁, hperms₁, hpow₁⟩
        have hpow₁' : d₁.power = none := by
          rw [hpow₁, Disk.pay_of_power_none hpow, hpow]
        have hsm : -2 ^ 63 ≤ s.mark ∧ s.mark < 2 ^ 63 :=
          h.fits.marks s (List.mem_of_getElem? hs)
        rcases h₁.replaceMark hat hj hin (Disk.can_of_power_none hpow₁' 16) hsm with
          ⟨d₂, s', hrep₂, -, h₂, hperms₂, hpow₂⟩
        have hver : ((A.length : Nat) : Int) = ((1 + n : Nat) : Int) := by omega
        have hn : A.length - 1 = n := by omega
        simp only [ht, if_neg (show ¬ ((1 + t : Nat) : Int) < 1 by omega), hidx, hs, hfind, hrep₁, hver, hn]
        simp only at hrep₂
        rw [hrep₂]
        refine ⟨_, rfl, h₂, ⟨rfl, rfl, hperms₂.trans hperms₁⟩, ?_⟩
        simp only [hpow₂]
        rw [Disk.pay_of_power_none hpow₁', hpow₁']

omit [Host] in
/-- A mdir with the same journals holds the same patches. -/
theorem Refines.congr {m' : Mdir} (h : Refines maxJnlSize m A) (hjnls : m'.jnls = m.jnls)
    (hlog : m'.disk.log = m.disk.log) (hidx : m'.disk.idx = m.disk.idx) : Refines maxJnlSize m' A := by
  rcases h with ⟨ps, hrep, hflat⟩
  exact ⟨ps, ⟨⟨hlog.trans hrep.disk.log, hidx.trans hrep.disk.idx, hrep.disk.full⟩,
    hjnls.trans hrep.jnls, hrep.fits, hrep.small, hrep.opened⟩, hflat⟩

omit [Host] in
/-- The confirmation leaves the journals alone. -/
theorem mdirConfirm_spec (action : Action) (header : Header) :
    ∃ m' r, mdirConfirm sys m action header = (m', r) ∧ m'.jnls = m.jnls ∧
      m'.disk.log = m.disk.log ∧ m'.disk.idx = m.disk.idx ∧ m'.path = m.path ∧
      (m.disk.power = none → m'.disk.power = none) ∧
      match storeConfirm sys m.path action header with
      | true => r = .ok ()
      | false => ∃ e, r = .error e := by
  cases action with
  | rem => exact ⟨m, .ok (), rfl, rfl, rfl, rfl, rfl, id, rfl⟩
  | add =>
      simp only [mdirConfirm, mdirConfirmAdd, storeConfirm, updatePermissions]
      by_cases hdir : headerIsDirectory header = true
      · simp only [if_pos hdir]
        cases headerFind header SC_NAME_FIELD with
        | none => exact ⟨m, _, rfl, rfl, rfl, rfl, rfl, id, _, rfl⟩
        | some hf =>
            simp only
            cases sys.creat (versionOfPath m.path hf.value) with
            | some errno => exact ⟨m, _, rfl, rfl, rfl, rfl, rfl, id, _, rfl⟩
            | none =>
                -- creat has made the file: what fails from here on leaves it behind
                cases sys.writeVersion (versionOfPath m.path hf.value) with
                | some failed => exact ⟨m, _, rfl, rfl, rfl, rfl, rfl, id, _, rfl⟩
                | none => exact ⟨m, _, rfl, rfl, rfl, rfl, rfl, id, rfl⟩
      · simp only [if_neg hdir]
        by_cases hperm : headerHasType header SC_PERM_TYPE = true
        · simp only [if_pos hperm]
          cases sys.openPerms with
          | some errno => exact ⟨_, _, rfl, rfl, rfl, rfl, rfl, id, rfl⟩
          | none =>
              refine ⟨_, _, rfl, rfl, rfl, rfl, rfl, ?_, rfl⟩
              intro hpow
              simp [Disk.writePerms, Disk.spend, hpow]
        · simp only [if_neg hperm]
          exact ⟨m, _, rfl, rfl, rfl, rfl, rfl, id, rfl⟩

omit [Host] in
/-- Room left in 64-bit offsets and versions for what a patch writes. -/
def Room (A : List Slot) (nbDeleted : Nat) (record : Bytes) : Prop :=
  (logBytes A).length + 3 * nbDeleted + record.length + 1 < 2 ^ 63

omit [Host] in
theorem logBytes_blanks (nb : Nat) : (logBytes (List.replicate nb blankSlot)).length = 3 * nb := by
  induction nb with
  | zero => rfl
  | succ nb ih =>
      have hcons : logBytes (blankSlot :: List.replicate nb blankSlot) =
          blankRecord ++ logBytes (List.replicate nb blankSlot) := rfl
      rw [List.replicate_succ, hcons, List.length_append, ih, blank_length]
      omega

omit [Host] in
theorem storeDelete_bytes (h : Fits A) (n : Nat) :
    (logBytes (storeDelete A n)).length = (logBytes A).length := by
  by_cases hn : n < A.length
  · have hpos : 0 < A[n].record.length :=
      List.length_pos_iff.2 (h.nonempty _ (List.getElem_mem hn))
    rw [storeDelete, modify_eq_set hn, logBytes_length_set hn]
    simp [tagDeleted, ascii]
    omega
  · rw [storeDelete, List.modify_eq_self (by omega)]

/-- The checks of `mdir_patch` before the append. -/
theorem Refines.prepare (hmax : maxJnlSize < 2 ^ 32) (h : Refines maxJnlSize m A)
    (hpow : m.disk.power = none) (action : Action) (header : Header) :
    ∃ m' r, mdirPrepare sys m action header = (m', linkedHeader sys m.path action header, r) ∧
      m'.path = m.path ∧ m'.disk.power = none ∧
      match storePrepare sys m.path A action header with
      | none => m' = m ∧ ∃ e, r = .error e
      | some A' => r = .ok () ∧ Refines maxJnlSize m' A' ∧
          (logBytes A').length = (logBytes A).length ∧ A'.length = A.length := by
  cases action with
  | add =>
      refine ⟨m, (storePrepareAdd sys m.path header).2, rfl, rfl, hpow, ?_⟩
      simp only [storePrepare]
      cases (storePrepareAdd sys m.path header).2 with
      | error e => exact ⟨trivial, e, rfl⟩
      | ok u => exact ⟨rfl, h, rfl, rfl⟩
  | rem =>
      have hrem := h.prepareRem sys hmax header
      simp only [storePrepare, linkedHeader]
      cases hr : storeRemoval sys m.path A header with
      | refused =>
          rw [hr] at hrem
          rcases hrem with ⟨e, he⟩
          exact ⟨m, .error e, by rw [mdirPrepare, he], rfl, hpow, rfl, e, rfl⟩
      | already =>
          rw [hr] at hrem
          simp only at hrem
          exact ⟨m, .ok (), by rw [mdirPrepare, hrem], rfl, hpow, rfl, h, rfl, rfl⟩
      | tag n =>
          rw [hr] at hrem
          rcases hrem with ⟨j, s, hj, hin, hs, htag, hdel⟩
          rcases h.markDel hmax hj hin (Disk.can_of_power_none hpow 1) hs htag with
            ⟨d, hmark, h', -, hpow'⟩
          refine ⟨{ m with disk := d }, .ok (), ?_, rfl, ?_, rfl, h', storeDelete_bytes h.fits n, ?_⟩
          · rw [mdirPrepare, hdel, hmark]
          · simp only [hpow']
            rw [Disk.pay_of_power_none hpow, hpow]
          · simp [storeDelete]

theorem storePrepare_length {path : Bytes} {A B : List Slot} {action : Action} {header : Header}
    (h : storePrepare sys path A action header = some B) : B.length = A.length := by
  unfold storePrepare at h
  split at h
  · split at h
    · cases h
    · cases h
      rfl
    · cases h
      simp [storeDelete]
  · split at h
    · cases h
    · cases h
      rfl

theorem storePatch_refused {path : Bytes} {A : List Slot} {action : Action} {header : Header}
    {nb : Nat} (h : storePrepare sys path (A ++ List.replicate nb blankSlot) action header = none) :
    storePatch sys path A action header nb = (A ++ List.replicate nb blankSlot, none) := by
  simp [storePatch, h]

/-- A patch fails when its checks fail, when its mount point cannot be confirmed, or when it marks a
version that does not exist. -/
theorem storePatch_eq_none {path : Bytes} {A : List Slot} {action : Action} {header : Header}
    {nb : Nat} :
    (storePatch sys path A action header nb).2 = none ↔
      storePrepare sys path (A ++ List.replicate nb blankSlot) action header = none ∨
      storeConfirm sys path action (linkedHeader sys path action header) = false ∨
      (isMarkFor (linkedHeader sys path action header) ≠ 0 ∧
        ¬ MarksExisting (A.length + nb + 1) (linkedHeader sys path action header)) := by
  unfold storePatch
  simp only
  cases hp : storePrepare sys path (A ++ List.replicate nb blankSlot) action header with
  | none => simp
  | some B =>
      have hlen := storePrepare_length sys hp
      let s : Slot := ⟨patchRecord action (linkedHeader sys path action header), 0⟩
      have hlenC : (B ++ [s]).length = A.length + nb + 1 := by
        simp [hlen]
      rw [← hlenC, ← storeMark_eq_none]
      cases hc : storeConfirm sys path action (linkedHeader sys path action header) with
      | false => simp
      | true =>
          cases hm : storeMark (B ++ [s]) (linkedHeader sys path action header) with
          | none => simp [s] at hm ⊢; simp [hm]
          | some C => simp [s] at hm ⊢; simp [hm]

/-- `mdir_patch` does to the patches what `storePatch` says. -/
theorem mdirPatch_refines (hmax : maxJnlSize < 2 ^ 32) (h : Refines maxJnlSize m A)
    (hpow : m.disk.power = none) {action : Action} {header : Header} {nb : Nat}
    (hroom : Room A nb (patchRecord action (linkedHeader sys m.path action header)))
    (hmode : Host.appendPwrite = .atOffset ∨
      ¬ (storePrepare sys m.path (A ++ List.replicate nb blankSlot) action header ≠ none ∧
        storeConfirm sys m.path action (linkedHeader sys m.path action header) = true ∧
        MarksExisting (A.length + nb + 1) (linkedHeader sys m.path action header))) :
    Refines maxJnlSize (mdirPatch sys maxJnlSize m action header nb).mdir
      (storePatch sys m.path A action header nb).1 ∧
    (mdirPatch sys maxJnlSize m action header nb).result.toOption =
      (storePatch sys m.path A action header nb).2 ∧
    (mdirPatch sys maxJnlSize m action header nb).mdir.path = m.path ∧
    (mdirPatch sys maxJnlSize m action header nb).mdir.disk.power = none ∧
    (mdirPatch sys maxJnlSize m action header nb).header = linkedHeader sys m.path action header := by
  unfold Room at hroom
  -- the blanks
  rcases h.insertBlank hmax nb (Disk.can_of_power_none hpow _) (by omega) with
    ⟨m₁, hins, h₁, hframe₁, hpow₁⟩
  rw [Disk.pay_of_power_none hpow, hpow] at hpow₁
  have hpath₁ := hframe₁.path
  -- what is done before the record is written
  rcases h₁.prepare sys hmax hpow₁ action header with ⟨m₂, r, hprep, hpath₂, hpow₂, hcase⟩
  have hpath₂' : m₂.path = m.path := hpath₂.trans hpath₁
  rw [hpath₁] at hprep hcase
  simp only [mdirPatch, hins, hprep, storePatch]
  cases hst : storePrepare sys m.path (A ++ List.replicate nb blankSlot) action header with
  | none =>
      rw [hst] at hcase
      rcases hcase with ⟨rfl, e, rfl⟩
      exact ⟨h₁, rfl, hpath₂', hpow₂, rfl⟩
  | some B =>
      rw [hst] at hcase
      rcases hcase with ⟨rfl, h₂, hbytes, hlen⟩
      simp only
      have hlenB : B.length = A.length + nb := by
        rw [hlen]
        simp
      have hroomB : (logBytes B).length +
          (patchRecord action (linkedHeader sys m.path action header)).length + 1 < 2 ^ 63 := by
        rw [hbytes, logBytes_concat, List.length_append, logBytes_blanks]
        omega
      -- the record itself
      rcases h₂.append hmax (r := patchRecord action (linkedHeader sys m.path action header))
        (by cases action <;> simp [patchRecord, mdirAction2str, ascii])
        (Disk.can_of_power_none hpow₂ _) hroomB with ⟨m₃, j, happ, h₃, hj, hin, hframe₃, hpow₃⟩
      rw [Disk.pay_of_power_none hpow₂, hpow₂] at hpow₃
      have hpath₃ : m₃.path = m.path := hframe₃.path.trans hpath₂'
      -- the confirmation, which changes neither the journals nor the indexes
      rcases mdirConfirm_spec sys (m := m₃) action (linkedHeader sys m.path action header) with
        ⟨m₄, r, hconf, hjnls, hlog, hidx, hpath₄, hpow₄, hok⟩
      have h₄ := h₃.congr hjnls hlog hidx
      rw [hpath₃] at hok hpath₄
      simp only [happ, hconf]
      -- the mark is set only after a confirmation that succeeded
      cases hc : storeConfirm sys m.path action (linkedHeader sys m.path action header) with
      | true =>
        rw [hc] at hok
        subst hok
        simp only [if_true]
        have hmode' : Host.appendPwrite = .atOffset ∨
            ¬ MarksExisting (A.length + nb + 1) (linkedHeader sys m.path action header) :=
          hmode.imp_right fun hn hm => hn ⟨by simp [hst], hc, hm⟩
        have hmark := h₄.handleMark (hpow₄ hpow₃) (n := B.length) (by simp) (by rw [hjnls]; exact hj)
          hin (by rw [List.length_append, hlenB]; exact hmode')
        cases hsm : storeMark (B ++ [⟨patchRecord action (linkedHeader sys m.path action header), 0⟩])
            (linkedHeader sys m.path action header) with
        | none =>
            rw [hsm] at hmark
            rcases hmark with ⟨e, he⟩
            simp only [he]
            exact ⟨h₄, rfl, hpath₄, hpow₄ hpow₃, trivial⟩
        | some C =>
            rw [hsm] at hmark
            rcases hmark with ⟨m₅, he, h₅, hframe₅, hpow₅⟩
            simp only [he]
            refine ⟨h₅, ?_, hframe₅.path.trans hpath₄, hpow₅, trivial⟩
            simp [Except.toOption, Nat.add_comm]
      | false =>
        rw [hc] at hok
        rcases hok with ⟨e, rfl⟩
        exact ⟨h₄, rfl, hpath₄, hpow₄ hpow₃, rfl⟩

end Refine

end Scambio
