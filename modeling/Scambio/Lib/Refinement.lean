import Scambio.Lib.Store

/-!
# Refinement — the operations of a mdir on the concatenation of its journals

`Rep` ties a mdir to the parts its journals hold.  Each operation of `Mdir` is described here by what
it does to the concatenation of the parts: `mdirAppend` adds a slot, `jnlMarkDel` tags one,
`jnlReplaceLastMark` changes a mark, and `mdirRead` reads the slot of the given number.
-/

namespace Scambio

open Library

/-! ## Ranges -/

theorem logBytes_concat (p q : List Slot) : logBytes (p ++ q) = logBytes p ++ logBytes q := by
  simp [logBytes, records]

theorem Fits.length_le {p : List Slot} (h : Fits p) : p.length ≤ (logBytes p).length := by
  have hlen : ∀ q : List Slot, (∀ s ∈ q, s.record ≠ []) → q.length ≤ (logBytes q).length := by
    intro q hq
    induction q with
    | nil => simp
    | cons s q ih =>
        have hs : 0 < s.record.length := List.length_pos_iff.2 (hq s (by simp))
        have hrest := ih fun t ht => hq t (by simp [ht])
        have hcons : logBytes (s :: q) = s.record ++ logBytes q := rfl
        rw [hcons, List.length_append, List.length_cons]
        omega
  exact hlen p h.nonempty

theorem Fits.middle {a p b : List Slot} (h : Fits (a ++ (p ++ b))) : Fits p := by
  refine ⟨fun s hs => h.nonempty s (by simp [hs]), fun s hs => h.marks s (by simp [hs]), ?_⟩
  have hb := h.bytes
  simp only [logBytes_concat, List.length_append] at hb
  omega

theorem Fits.part {ps : List (List Slot)} {p : List Slot} (h : Fits ps.flatten) (hp : p ∈ ps) :
    Fits p := by
  rcases List.append_of_mem hp with ⟨ps₁, ps₂, rfl⟩
  rw [List.flatten_append, List.flatten_cons] at h
  exact h.middle

theorem Fits.append_blank {A : List Slot} {r : Bytes} (h : Fits A) (hr : r ≠ [])
    (hroom : (logBytes A).length + r.length + 1 < 2 ^ 63) : Fits (A ++ [⟨r, 0⟩]) := by
  refine ⟨?_, ?_, ?_⟩
  · intro s hs
    rcases List.mem_append.1 hs with hs | hs
    · exact h.nonempty s hs
    · rw [List.mem_singleton.1 hs]
      exact hr
  · intro s hs
    rcases List.mem_append.1 hs with hs | hs
    · exact h.marks s hs
    · rw [List.mem_singleton.1 hs]
      exact ⟨by norm_num, by norm_num⟩
  · rw [logBytes_append, List.length_append]
    exact hroom

theorem logBytes_length_set {A : List Slot} {i : Nat} (hi : i < A.length) {s : Slot}
    (hs : s.record.length = A[i].record.length) :
    (logBytes (A.set i s)).length = (logBytes A).length := by
  have hi' : i < (records A).length := by simpa [records] using hi
  have hset : records (A.set i s) = (records A).set i s.record := by simp [records, List.map_set]
  have hoff := offset_set (records A) hi' (s := s.record) (by simpa [records] using hs) (records A).length
  have hall : ∀ segs : List Bytes, segs.length = (records A).length →
      offset segs (records A).length = segs.flatten.length := by
    intro segs hsegs
    rw [← hsegs, offset_length]
  rw [hall _ (by simp), hall _ rfl, ← hset] at hoff
  exact hoff

theorem Fits.set {A : List Slot} (h : Fits A) {i : Nat} (hi : i < A.length) {s : Slot}
    (hs : s.record.length = A[i].record.length) (hm : -2 ^ 63 ≤ s.mark ∧ s.mark < 2 ^ 63) :
    Fits (A.set i s) := by
  have hpos : 0 < A[i].record.length :=
    List.length_pos_iff.2 (h.nonempty _ (List.getElem_mem hi))
  refine ⟨?_, ?_, ?_⟩
  · intro t ht
    rcases List.mem_or_eq_of_mem_set ht with ht | rfl
    · exact h.nonempty t ht
    · exact List.length_pos_iff.1 (by omega)
  · intro t ht
    rcases List.mem_or_eq_of_mem_set ht with ht | rfl
    · exact h.marks t ht
    · exact hm
  · rw [logBytes_length_set hi hs]
    exact h.bytes

/-! ## The mdir and its parts -/

structure Rep (maxJnlSize : Nat) (m : Mdir) (ps : List (List Slot)) : Prop where
  disk : OnDisk m.disk ps
  jnls : m.jnls = journalsOf 1 ps
  fits : Fits ps.flatten
  small : ∀ p ∈ ps, p.length ≤ 1 ∨ p.length ≤ maxJnlSize
  opened : ∀ p ∈ ps, p = [] → 0 < maxJnlSize

/-- What the journal operations leave alone. -/
structure Frame (m m' : Mdir) : Prop where
  path : m'.path = m.path
  permissions : m'.permissions = m.permissions
  perms : m'.disk.perms = m.disk.perms

theorem Frame.trans {m₁ m₂ m₃ : Mdir} (h₁ : Frame m₁ m₂) (h₂ : Frame m₂ m₃) : Frame m₁ m₃ :=
  ⟨h₂.path.trans h₁.path, h₂.permissions.trans h₁.permissions, h₂.perms.trans h₁.perms⟩

section Rep

variable {maxJnlSize : Nat} {m : Mdir} {ps : List (List Slot)}

theorem Rep.part_lt (hmax : maxJnlSize < 2 ^ 32) (h : Rep maxJnlSize m ps) {p : List Slot}
    (hp : p ∈ ps) : p.length < 2 ^ 32 := by
  have := h.small p hp
  omega

theorem Rep.length_lt (h : Rep maxJnlSize m ps) : ps.flatten.length + 1 < 2 ^ 63 := by
  have h1 := h.fits.length_le
  have h2 := h.fits.bytes
  omega

theorem journalsOf_snoc (v : Nat) (ps : List (List Slot)) (p : List Slot) :
    journalsOf v (ps ++ [p]) = journalsOf v ps ++ [partJnl (v + ps.flatten.length) p] := by
  rw [journalsOf_append]
  rfl

theorem Rep.lastVersion (h : Rep maxJnlSize m ps) : mdirLastVersion m = ps.flatten.length := by
  rcases List.eq_nil_or_concat ps with rfl | ⟨ps₁, p, rfl⟩
  · simp [mdirLastVersion, h.jnls, journalsOf]
  · rw [List.concat_eq_append] at h ⊢
    simp only [mdirLastVersion, h.jnls, journalsOf_snoc, List.getLast?_append, List.getLast?_singleton,
      Option.some_or, partJnl, List.flatten_append, List.flatten_cons, List.flatten_nil,
      List.length_append, List.length_nil]
    omega

/-- A journal that holds a version is the one whose part has the slot of that version. -/
theorem Rep.locate (h : Rep maxJnlSize m ps) {j : Jnl} (hj : j ∈ m.jnls) {n : Nat}
    (hn : j.holds ((1 + n : Nat) : Int) = true) :
    ∃ ps₁ p ps₂ i, ps = ps₁ ++ p :: ps₂ ∧ j = partJnl (1 + ps₁.flatten.length) p ∧
      i < p.length ∧ n = ps₁.flatten.length + i := by
  rw [h.jnls] at hj
  rcases mem_journalsOf.1 hj with ⟨ps₁, p, ps₂, rfl, rfl⟩
  rw [partJnl_holds] at hn
  exact ⟨ps₁, p, ps₂, n - ps₁.flatten.length, rfl, rfl, by omega, by omega⟩

theorem Rep.find (h : Rep maxJnlSize m ps) {n : Nat} (hn : n < ps.flatten.length) :
    ∃ j, m.jnls.find? (fun j => j.holds ((1 + n : Nat) : Int)) = some j ∧
      j ∈ m.jnls ∧ j.holds ((1 + n : Nat) : Int) = true := by
  rw [h.jnls]
  exact find_journalsOf hn

theorem Rep.find_none (h : Rep maxJnlSize m ps) {x : Int} (hx : x < 1 ∨ (ps.flatten.length : Int) < x) :
    m.jnls.find? (fun j => j.holds x) = none := by
  rw [h.jnls]
  exact find_journalsOf_none (by push_cast; omega)

/-! ## Reading -/

theorem Rep.jnlRead [Host] (hmax : maxJnlSize < 2 ^ 32) (h : Rep maxJnlSize m ps) {j : Jnl}
    (hj : j ∈ m.jnls) {n : Nat} (hn : j.holds ((1 + n : Nat) : Int) = true) :
    ∃ s, ps.flatten[n]? = some s ∧
      (jnlRead m.disk j (((1 + n : Nat) : Int) - j.version).toNat).toOption = readRecord s.record ∧
      (jnlReadText m.disk j (((1 + n : Nat) : Int) - j.version).toNat).toOption = readText s.record := by
  rcases h.locate hj hn with ⟨ps₁, p, ps₂, i, rfl, rfl, hi, rfl⟩
  have hindex : (((1 + (ps₁.flatten.length + i) : Nat) : Int) -
      (partJnl (1 + ps₁.flatten.length) p).version).toNat = i := by
    simp only [partJnl]
    omega
  have hp : p ∈ ps₁ ++ p :: ps₂ := by simp
  have hlt := h.part_lt hmax hp
  refine ⟨p[i], ?_, ?_, ?_⟩
  · rw [getElem?_part ps₁ p ps₂ hi, List.getElem?_eq_getElem hi]
  · rw [hindex]
    exact jnlRead_spec h.disk.holds (h.fits.part hp) hlt hi
  · rw [hindex]
    exact jnlReadText_spec h.disk.holds (h.fits.part hp) hlt hi

/-- `mdir_read` of version `n + 1` reads slot `n`. -/
theorem Rep.mdirRead [Host] (hmax : maxJnlSize < 2 ^ 32) (h : Rep maxJnlSize m ps) {n : Nat} {s : Slot}
    (hs : ps.flatten[n]? = some s) :
    (mdirRead m ((1 + n : Nat) : Int)).toOption = readRecord s.record := by
  have hn : n < ps.flatten.length := (List.getElem?_eq_some_iff.1 hs).1
  rcases h.find hn with ⟨j, hfind, hj, hin⟩
  rcases h.jnlRead hmax hj hin with ⟨t, ht, hread, -⟩
  rw [hs] at ht
  cases ht
  rw [Scambio.mdirRead, jnlGetByVersion, hfind]
  exact hread

/-! ## Appending -/

theorem mayCreat_of_can {d : Disk} {n : Nat} (h : d.Can n) (hn : 0 < n) : d.mayCreat = true := by
  unfold Disk.mayCreat
  cases hp : d.power with
  | none => rfl
  | some p =>
      have := h p hp
      simp only [Bool.or_eq_true, decide_eq_true_eq]
      omega

theorem creat_frame (d : Disk) (stem : Bytes) :
    (d.creat stem).perms = d.perms ∧ (d.creat stem).power = d.power := by
  unfold Disk.creat
  split_ifs <;> exact ⟨rfl, rfl⟩

/-- `last_jnl` ends on a last journal that is not too big, maybe a new one. -/
theorem Rep.lastJnl (h : Rep maxJnlSize m ps) (hmay : m.disk.mayCreat = true) :
    ∃ m' ps₁ p, lastJnl maxJnlSize m = (m', .ok (partJnl (1 + ps₁.flatten.length) p)) ∧
      OnDisk m'.disk (ps₁ ++ [p]) ∧ m'.jnls = journalsOf 1 (ps₁ ++ [p]) ∧
      (ps₁ ++ [p]).flatten = ps.flatten ∧ (p.length < maxJnlSize ∨ p = []) ∧
      (∀ q ∈ ps₁, q ∈ ps) ∧ Frame m m' ∧ m'.disk.power = m.disk.power := by
  have hv : 1 + ps.flatten.length < 2 ^ 63 := by
    have := h.length_lt
    omega
  -- a new journal at the end, which needs that no journal before it is empty
  have hnew : Full ps → ∃ m', jnlNewEmpty m ((1 + ps.flatten.length : Nat) : Int) =
      (m', .ok (partJnl (1 + ps.flatten.length) [])) ∧ OnDisk m'.disk (ps ++ [[]]) ∧
      m'.jnls = journalsOf 1 (ps ++ [[]]) ∧ Frame m m' ∧ m'.disk.power = m.disk.power := by
    intro hfull
    have hframe := creat_frame m.disk (jnlStem ((1 + ps.flatten.length : Nat)))
    refine ⟨{ m with disk := m.disk.creat _, jnls := _ }, ?_, h.disk.creat hfull hmay, rfl,
      ⟨rfl, rfl, hframe.1⟩, hframe.2⟩
    rw [jnlNewEmpty, h.jnls, jnlNew_next h.disk hfull hmay hv]
  rcases List.eq_nil_or_concat ps with rfl | ⟨ps₁, p, rfl⟩
  · rcases hnew (by simp [Full]) with ⟨m', hm', hdisk, hjnls, hframe, hpow⟩
    refine ⟨m', [], [], ?_, hdisk, hjnls, rfl, .inr rfl, by simp, hframe, hpow⟩
    rw [Scambio.lastJnl, h.jnls]
    exact hm'
  · rw [List.concat_eq_append] at *
    have hlast : m.jnls.getLast? = some (partJnl (1 + ps₁.flatten.length) p) := by
      rw [h.jnls, journalsOf_snoc]
      simp
    -- the last journal is full, or is used
    by_cases hbig : maxJnlSize ≤ p.length
    · have hfull : Full (ps₁ ++ [p]) := by
        intro q hq
        rcases List.mem_append.1 hq with hq | hq
        · exact h.disk.full q (by simpa using hq)
        · rw [List.mem_singleton.1 hq]
          rintro rfl
          have := h.opened [] (by simp) rfl
          simp at hbig
          omega
      rcases hnew hfull with ⟨m', hm', hdisk, hjnls, hframe, hpow⟩
      refine ⟨m', ps₁ ++ [p], [], ?_, hdisk, hjnls, by simp, .inr rfl, fun q hq => hq, hframe, hpow⟩
      have hnext : (partJnl (1 + ps₁.flatten.length) p).version +
          (partJnl (1 + ps₁.flatten.length) p).nbPatches =
          ((1 + (ps₁ ++ [p]).flatten.length : Nat) : Int) := by
        simp only [partJnl, List.flatten_append, List.flatten_cons, List.flatten_nil,
          List.length_append, List.length_nil]
        omega
      simp only [Scambio.lastJnl, hlast]
      rw [if_pos (by simpa [jnlTooBig, partJnl] using hbig), hnext]
      exact hm'
    · refine ⟨m, ps₁, p, ?_, h.disk, h.jnls, rfl, .inl (by omega), fun q hq => by simp [hq],
        ⟨rfl, rfl, rfl⟩, rfl⟩
      simp only [Scambio.lastJnl, hlast]
      rw [if_neg (by simpa [jnlTooBig, partJnl] using hbig)]

/-- Updating the last journal changes it alone. -/
theorem putJnl_last {ps₁ : List (List Slot)} {p q : List Slot} (hfull : Full ps₁)
    (hm : m.jnls = journalsOf 1 (ps₁ ++ [p])) :
    (m.putJnl (partJnl (1 + ps₁.flatten.length) q)).jnls = journalsOf 1 (ps₁ ++ [q]) := by
  have hbefore : (journalsOf 1 ps₁).map
      (fun k => if k.version = (partJnl (1 + ps₁.flatten.length) q).version
        then partJnl (1 + ps₁.flatten.length) q else k) = journalsOf 1 ps₁ := by
    refine (List.map_congr_left ?_).trans (List.map_id _)
    intro k hk
    have hlt := (journalsOf_before hfull hk).1
    have hne : k.version ≠ (partJnl (1 + ps₁.flatten.length) q).version := ne_of_lt hlt
    exact if_neg hne
  rw [Mdir.putJnl, hm, journalsOf_snoc, journalsOf_snoc, List.map_append, hbefore]
  simp [partJnl]

/-- The parts after the append of a slot to the journal that `last_jnl` gave. -/
theorem Rep.parts_append (h : Rep maxJnlSize m ps) {ps₁ : List (List Slot)} {p : List Slot} {s : Slot}
    (hflat : (ps₁ ++ [p]).flatten = ps.flatten) (hsize : p.length < maxJnlSize ∨ p = [])
    (hold : ∀ q ∈ ps₁, q ∈ ps) (hr : s.record ≠ []) (hmark : s.mark = 0)
    (hroom : (logBytes ps.flatten).length + s.record.length + 1 < 2 ^ 63) :
    (ps₁ ++ [p ++ [s]]).flatten = ps.flatten ++ [s] ∧
      Fits (ps₁ ++ [p ++ [s]]).flatten ∧
      (∀ q ∈ ps₁ ++ [p ++ [s]], q.length ≤ 1 ∨ q.length ≤ maxJnlSize) ∧
      ∀ q ∈ ps₁ ++ [p ++ [s]], q = [] → 0 < maxJnlSize := by
  have hflat' : (ps₁ ++ [p ++ [s]]).flatten = ps.flatten ++ [s] := by
    rw [← hflat]
    simp
  refine ⟨hflat', ?_, ?_, ?_⟩
  · rw [hflat']
    rcases s with ⟨r, mark⟩
    simp only at hmark
    subst hmark
    exact h.fits.append_blank hr hroom
  · intro q hq
    rcases List.mem_append.1 hq with hq | hq
    · exact h.small q (hold q hq)
    · rw [List.mem_singleton.1 hq, List.length_append, List.length_singleton]
      rcases hsize with hsize | rfl
      · omega
      · simp
  · intro q hq hnil
    rcases List.mem_append.1 hq with hq | hq
    · exact h.opened q (hold q hq) hnil
    · rw [List.mem_singleton.1 hq] at hnil
      simp at hnil

/-- `last_jnl` and the append of a record add one slot at the end. -/
theorem Rep.append (hmax : maxJnlSize < 2 ^ 32) (h : Rep maxJnlSize m ps) {r : Bytes} (hr : r ≠ [])
    (hcan : m.disk.Can (16 + r.length))
    (hroom : (logBytes ps.flatten).length + r.length + 1 < 2 ^ 63) :
    ∃ m' j ps', mdirAppend maxJnlSize m r = (m', .ok (j, ((1 + ps.flatten.length : Nat) : Int))) ∧
      Rep maxJnlSize m' ps' ∧ ps'.flatten = ps.flatten ++ [⟨r, 0⟩] ∧
      j ∈ m'.jnls ∧ j.holds ((1 + ps.flatten.length : Nat) : Int) = true ∧
      Frame m m' ∧ m'.disk.power = (m.disk.pay (16 + r.length)).power := by
  let s : Slot := ⟨r, 0⟩
  -- the journal for the record, an old one or a new one
  rcases h.lastJnl (mayCreat_of_can hcan (by omega)) with
    ⟨m₁, ps₁, p, hlast, hdisk, hjnls, hflat, hsize, hold, hframe, hpow⟩
  have hfull : Full ps₁ := hdisk.full_before
  have hcan₁ : m₁.disk.Can (16 + r.length) := by
    intro q hq
    exact hcan q (by rw [← hpow, hq])
  have hlt : p.length + 1 < 2 ^ 32 := by
    rcases hsize with hsize | rfl
    · omega
    · norm_num
  have happ := jnlAppend_spec hdisk.holds hcan₁ hlt
  rcases h.parts_append (s := s) hflat hsize hold hr rfl hroom with ⟨hflat', hfits, hsmall, hopened⟩
  have hlen : ps.flatten.length = ps₁.flatten.length + p.length := by
    rw [← hflat]
    simp only [List.flatten_append, List.flatten_cons, List.flatten_nil, List.append_nil,
      List.length_append]
  let d := (m₁.disk.put (jnlStem ((1 + ps₁.flatten.length : Nat))) (p ++ [s])).pay (16 + r.length)
  have hput := putJnl_last (m := { m₁ with disk := d }) (q := p ++ [s]) hfull hjnls
  refine ⟨{ m₁ with disk := d }.putJnl (partJnl (1 + ps₁.flatten.length) (p ++ [s])),
    partJnl (1 + ps₁.flatten.length) (p ++ [s]), ps₁ ++ [p ++ [s]], ?_,
    ⟨(hdisk.put (.inr rfl)).pay _, hput, hfits, hsmall, hopened⟩, hflat', ?_, ?_, ?_, ?_⟩
  · simp only [mdirAppend, hlast, happ]
    have hver : (partJnl (1 + ps₁.flatten.length) p).version + (p.length : Int) =
        ((1 + ps.flatten.length : Nat) : Int) := by
      simp only [partJnl]
      omega
    have hj : ({ partJnl (1 + ps₁.flatten.length) p with nbPatches := p.length + 1 } : Jnl) =
        partJnl (1 + ps₁.flatten.length) (p ++ [s]) := by
      simp [partJnl]
    rw [hver, hj]
    rfl
  · rw [hput, journalsOf_snoc]
    simp
  · rw [partJnl_holds]
    simp only [List.length_append, List.length_singleton]
    omega
  · exact hframe.trans ⟨rfl, rfl, rfl⟩
  · simp only [Mdir.putJnl, d, Disk.pay, Disk.put, hpow]

end Rep

/-! ## Operations on the concatenation -/

/-- The mdir holds the patches `A`. -/
def Refines (maxJnlSize : Nat) (m : Mdir) (A : List Slot) : Prop :=
  ∃ ps, Rep maxJnlSize m ps ∧ ps.flatten = A

def blankSlot : Slot :=
  { record := blankRecord, mark := 0 }

def storeDelete (A : List Slot) (n : Nat) : List Slot :=
  A.modify n fun s => { s with record := tagDeleted s.record }

def storeSetMark (A : List Slot) (n : Nat) (mark : Int) : List Slot :=
  A.modify n fun s => { s with mark := mark }

theorem modify_eq_set {A : List Slot} {n : Nat} (hn : n < A.length) (f : Slot → Slot) :
    A.modify n f = A.set n (f A[n]) := by
  refine List.ext_getElem? ?_
  intro k
  rw [List.getElem?_modify]
  by_cases hk : n = k
  · subst hk
    simp [hn]
  · rw [List.getElem?_set_ne hk]
    simp [hk]

section Refines

variable {maxJnlSize : Nat} {m : Mdir} {A : List Slot}

theorem Refines.fits (h : Refines maxJnlSize m A) : Fits A := by
  rcases h with ⟨ps, hrep, rfl⟩
  exact hrep.fits

theorem Refines.lastVersion (h : Refines maxJnlSize m A) : mdirLastVersion m = A.length := by
  rcases h with ⟨ps, hrep, rfl⟩
  exact hrep.lastVersion

theorem Refines.append (hmax : maxJnlSize < 2 ^ 32) (h : Refines maxJnlSize m A) {r : Bytes}
    (hr : r ≠ []) (hcan : m.disk.Can (16 + r.length))
    (hroom : (logBytes A).length + r.length + 1 < 2 ^ 63) :
    ∃ m' j, mdirAppend maxJnlSize m r = (m', .ok (j, ((1 + A.length : Nat) : Int))) ∧
      Refines maxJnlSize m' (A ++ [⟨r, 0⟩]) ∧
      j ∈ m'.jnls ∧ j.holds ((1 + A.length : Nat) : Int) = true ∧
      Frame m m' ∧ m'.disk.power = (m.disk.pay (16 + r.length)).power := by
  rcases h with ⟨ps, hrep, rfl⟩
  rcases hrep.append hmax hr hcan hroom with ⟨m', j, ps', heq, hrep', hflat, hrest⟩
  exact ⟨m', j, heq, ⟨ps', hrep', hflat⟩, hrest⟩

theorem blank_length : blankRecord.length = 3 := rfl

/-- `insert_blank_patches` appends that many blanks. -/
theorem Refines.insertBlank (hmax : maxJnlSize < 2 ^ 32) (nb : Nat) (h : Refines maxJnlSize m A)
    (hcan : m.disk.Can (19 * nb)) (hroom : (logBytes A).length + 3 * nb + 1 < 2 ^ 63) :
    ∃ m', insertBlankPatches maxJnlSize m nb = (m', .ok ()) ∧
      Refines maxJnlSize m' (A ++ List.replicate nb blankSlot) ∧
      Frame m m' ∧ m'.disk.power = (m.disk.pay (19 * nb)).power := by
  induction nb generalizing m A with
  | zero =>
      have hpay : (m.disk.pay (19 * 0)).power = m.disk.power := by
        simp [Disk.pay]
      exact ⟨m, rfl, by simpa using h, ⟨rfl, rfl, rfl⟩, hpay.symm⟩
  | succ nb ih =>
      rcases h.append hmax (r := blankRecord) (by decide) (hcan.mono (by rw [blank_length]; omega))
        (by rw [blank_length]; omega) with ⟨m₁, j, happ, h₁, -, -, hframe₁, hpow₁⟩
      have hcan₁ : m₁.disk.Can (19 * nb) := by
        have hcan' : (m.disk.pay (16 + blankRecord.length)).Can (19 * nb) :=
          Disk.Can.pay (hcan.mono (by rw [blank_length]; omega))
        intro q hq
        exact hcan' q (by rw [← hpow₁, hq])
      have hroom₁ : (logBytes (A ++ [⟨blankRecord, 0⟩])).length + 3 * nb + 1 < 2 ^ 63 := by
        rw [logBytes_append, List.length_append, blank_length]
        omega
      rcases ih h₁ hcan₁ hroom₁ with ⟨m₂, hins, h₂, hframe₂, hpow₂⟩
      refine ⟨m₂, ?_, ?_, hframe₁.trans hframe₂, ?_⟩
      · rw [insertBlankPatches, happ]
        exact hins
      · have hrep : A ++ List.replicate (nb + 1) blankSlot =
            A ++ [⟨blankRecord, 0⟩] ++ List.replicate nb blankSlot := by
          simp [List.replicate_succ, blankSlot]
        rw [hrep]
        exact h₂
      · rw [hpow₂]
        have hpay : ∀ d e : Disk, d.power = e.power → ∀ n, (d.pay n).power = (e.pay n).power := by
          intro d e hde n
          simp only [Disk.pay, hde]
        rw [hpay _ _ hpow₁, Disk.pay_pay, blank_length]
        congr 2
        omega

end Refines

end Scambio
